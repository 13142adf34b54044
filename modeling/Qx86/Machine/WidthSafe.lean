import Qx86.Machine.Logic
import Qx86.Machine.Widths

namespace Qx86

open Foundation Op Operations SizedValue

variable {e : Effects} {w : OperandWidth} {p : Pipeline}

def nativeSize (sizeOverride : Bool) : ValueSize := if sizeOverride then .word else .dword

def nativeWidth (sizeOverride : Bool) : OperandWidth := if sizeOverride then width16 else width32

/-- A width whose conversions accept its own values, and a byte as an extended source. -/
structure OperandWidth.Proper (w : OperandWidth) : Prop where
  size : w.size ∈ [ValueSize.byte, .word, .dword]
  exact : Accepts w.exact w.size
  extended : Accepts w.extended w.size
  byte : Accepts w.extended .byte
  sized : ∀ v, (w.sized v).size = w.size

theorem proper_width8 : width8.Proper :=
  ⟨by decide, accepts_exact.1, accepts_exact.1, accepts_exact.1, fun _ ↦ rfl⟩

theorem proper_width16 : width16.Proper :=
  ⟨by decide, accepts_exact.2.1, accepts_u16Sx nofun nofun, accepts_u16Sx nofun nofun,
    fun _ ↦ rfl⟩

theorem proper_width32 : width32.Proper :=
  ⟨by decide, accepts_exact.2.2.1, accepts_u32Sx nofun, accepts_u32Sx nofun, fun _ ↦ rfl⟩

theorem ne_qword {s : ValueSize} (h : s ∈ [ValueSize.byte, .word, .dword]) : s ≠ .qword := by
  rintro rfl
  simp at h

/-- The first argument has the width of a family. -/
structure Unary (w : OperandWidth) (p : Pipeline) : Prop where
  proper : w.Proper
  first : (p.args 0).location.size = w.size

/-- The second one has it too, or is a byte to be extended. -/
structure Binary (w : OperandWidth) (p : Pipeline) : Prop extends Unary w p where
  second : (p.args 1).location.size = w.size ∨ (p.args 1).location.size = .byte

theorem Unary.exact (h : Unary w p) :
    WidthSafe (getArgAs w.exact (p.args 0).location : Op e _) :=
  widthSafe_getArgAs (h.first ▸ h.proper.exact) (h.first ▸ ne_qword h.proper.size)

theorem Unary.store (h : Unary w p) {v : SizedValue} (hv : v.size = w.size) :
    WidthSafe (setArg (p.args 0).location v : Op e _) :=
  widthSafe_setArg (hv.trans h.first.symm) (h.first ▸ h.proper.size)

theorem Unary.sized (h : Unary w p) (v : BitVec w.bits) :
    WidthSafe (setArg (p.args 0).location (w.sized v) : Op e _) :=
  h.store (h.proper.sized v)

theorem Unary.extended (h : Unary w p) :
    WidthSafe (getArgAs w.extended (p.args 0).location : Op e _) :=
  widthSafe_getArgAs (h.first ▸ h.proper.extended) (h.first ▸ ne_qword h.proper.size)

theorem Binary.extended (h : Binary w p) :
    WidthSafe (getArgAs w.extended (p.args 1).location : Op e _) := by
  obtain hs | hs := h.second
  · exact widthSafe_getArgAs (hs ▸ h.proper.extended) (hs ▸ ne_qword h.proper.size)
  · exact widthSafe_getArgAs (hs ▸ h.proper.byte) (by rw [hs]; nofun)

section Families

theorem widthSafe_add (h : Binary w p) : WidthSafe (add w p : Op e Unit) :=
  h.exact.bind fun _ ↦ h.extended.bind fun _ ↦ (throws_modifyFlags _).bind fun _ ↦ h.sized _

theorem widthSafe_sub (h : Binary w p) : WidthSafe (sub w p : Op e Unit) :=
  h.exact.bind fun _ ↦ h.extended.bind fun _ ↦ (throws_modifyFlags _).bind fun _ ↦ h.sized _

theorem widthSafe_cmp (h : Binary w p) : WidthSafe (cmp w p : Op e Unit) :=
  h.exact.bind fun _ ↦ h.extended.bind fun _ ↦ throws_modifyFlags _

theorem widthSafe_adc (h : Binary w p) : WidthSafe (adc w p : Op e Unit) :=
  throws_flags.bind fun _ ↦ h.exact.bind fun _ ↦ (h.sized _).bind fun _ ↦ widthSafe_add h

theorem widthSafe_sbb (h : Binary w p) : WidthSafe (sbb w p : Op e Unit) :=
  throws_flags.bind fun _ ↦ h.exact.bind fun _ ↦ (h.sized _).bind fun _ ↦ widthSafe_sub h

theorem widthSafe_bitwise {op stores} (h : Binary w p) :
    WidthSafe (bitwise w op stores p : Op e Unit) :=
  h.exact.bind fun _ ↦ h.extended.bind fun _ ↦ (throws_modifyFlags _).bind fun _ ↦
    .ite (fun _ ↦ h.sized _) fun _ ↦ throws_pure _

theorem widthSafe_step {result overflow adjust} (h : Unary w p) :
    WidthSafe (step w result overflow adjust p : Op e Unit) :=
  h.exact.bind fun _ ↦ (throws_modifyFlags _).bind fun _ ↦ h.sized _

theorem widthSafe_invert (h : Unary w p) : WidthSafe (invert w p : Op e Unit) :=
  h.exact.bind fun _ ↦ h.sized _

theorem widthSafe_negate (h : Unary w p) : WidthSafe (negate w p : Op e Unit) :=
  h.exact.bind fun _ ↦ (throws_modifyFlags _).bind fun _ ↦ h.sized _

structure Matching (w : OperandWidth) (p : Pipeline) : Prop extends Unary w p where
  same : (p.args 1).location.size = w.size

theorem Matching.binary (h : Matching w p) : Binary w p := ⟨h.toUnary, .inl h.same⟩

theorem Matching.storeSecond (h : Matching w p) {v : SizedValue} (hv : v.size = w.size) :
    WidthSafe (setArg (p.args 1).location v : Op e _) :=
  widthSafe_setArg (hv.trans h.same.symm) (h.same ▸ h.proper.size)

theorem widthSafe_mov (h : Matching w p) : WidthSafe (mov p : Op e Unit) :=
  widthSafe_getArg_bind (h.same ▸ ne_qword h.proper.size) fun _ hv ↦ h.store (hv.trans h.same)

theorem widthSafe_xchg (h : Matching w p) : WidthSafe (xchg p : Op e Unit) :=
  widthSafe_getArg_bind (h.first ▸ ne_qword h.proper.size) fun _ hv ↦
    widthSafe_getArg_bind (h.same ▸ ne_qword h.proper.size) fun _ hu ↦
      (h.store (hu.trans h.same)).bind fun _ ↦ h.storeSecond (hv.trans h.first)

theorem widthSafe_xadd (h : Matching w p) : WidthSafe (xadd w p : Op e Unit) :=
  (widthSafe_xchg h).bind fun _ ↦ widthSafe_add h.binary

theorem widthSafe_cmovcc (h : Matching w p) : WidthSafe (cmovccNative p : Op e Unit) :=
  throws_flags.bind fun _ ↦ .ite (fun _ ↦ widthSafe_mov h) fun _ ↦ throws_pure _

theorem widthSafe_cmpxchg (h : Matching w p) : WidthSafe (cmpxchg w p : Op e Unit) :=
  throws_getReg_bind (ne_qword h.proper.size) fun _ ha ↦
    (throws_ofExcept (ha ▸ h.proper.exact)).bind fun _ ↦ h.exact.bind fun _ ↦
      widthSafe_getArg_bind (h.same ▸ ne_qword h.proper.size) fun _ hv ↦
        (throws_modifyFlags _).bind fun _ ↦ throws_flags.bind fun _ ↦
          .ite (fun _ ↦ h.store (hv.trans h.same)) fun _ ↦ throws_setReg _ _

theorem widthSafe_bitScan {bit : {n : ℕ} → BitVec n → BitVec 8 → Bool}
    {index : {n : ℕ} → BitVec n → BitVec n} (h : Matching w p) :
    WidthSafe (bitScan bit index w p : Op e Unit) := by
  refine h.exact.bind fun source ↦ ?_
  split
  · exact throws_modifyFlags _
  · exact (throws_modifyFlags _).bind fun _ ↦ h.storeSecond (h.proper.sized _)

theorem widthSafe_bitTestWith {conv : SizedValue → Except VMError (BitVec w.bits)}
    {value : Option (Bool → Bool)} (h : Unary w p)
    (hc : Accepts conv (p.args 1).location.size) (hs : (p.args 1).location.size ≠ .qword) :
    WidthSafe (bitTestWith w conv value p : Op e Unit) := by
  refine h.exact.bind fun _ ↦ (widthSafe_getArgAs hc hs).bind fun _ ↦
    (throws_modifyFlags _).bind fun _ ↦ ?_
  split
  · exact throws_pure _
  · exact h.sized _

theorem widthSafe_rol {reduce} (h : Binary w p) : WidthSafe (rol w reduce p : Op e Unit) :=
  h.exact.bind fun _ ↦ h.extended.bind fun _ ↦ .ite (fun _ ↦ throws_pure _) fun _ ↦
    (throws_modifyFlags _).bind fun _ ↦
      .ite (fun _ ↦ (throws_modifyFlags _).bind fun _ ↦ h.sized _) fun _ ↦ h.sized _

theorem widthSafe_ror {reduce second} (h : Binary w p) :
    WidthSafe (ror w reduce second p : Op e Unit) :=
  h.exact.bind fun _ ↦ h.extended.bind fun _ ↦ .ite (fun _ ↦ throws_pure _) fun _ ↦
    (throws_modifyFlags _).bind fun _ ↦
      .ite (fun _ ↦ (throws_modifyFlags _).bind fun _ ↦ h.sized _) fun _ ↦ h.sized _

theorem widthSafe_rcl {reduce} (h : Binary w p) : WidthSafe (rcl w reduce p : Op e Unit) :=
  h.exact.bind fun _ ↦ h.extended.bind fun _ ↦ .ite (fun _ ↦ throws_pure _) fun _ ↦
    throws_flags.bind fun _ ↦ (throws_modifyFlags _).bind fun _ ↦
      .ite (fun _ ↦ (throws_modifyFlags _).bind fun _ ↦ h.sized _) fun _ ↦ h.sized _

theorem widthSafe_rcr {reduce} (h : Binary w p) : WidthSafe (rcr w reduce p : Op e Unit) :=
  h.exact.bind fun _ ↦ h.extended.bind fun _ ↦ .ite (fun _ ↦ throws_pure _) fun _ ↦
    throws_flags.bind fun _ ↦ (throws_modifyFlags _).bind fun _ ↦
      .ite (fun _ ↦ (throws_modifyFlags _).bind fun _ ↦ h.sized _) fun _ ↦ h.sized _

theorem widthSafe_rcl32bit (h : Binary width32 p) : WidthSafe (rcl32bit p : Op e Unit) :=
  h.exact.bind fun _ ↦ h.extended.bind fun _ ↦ .ite (fun _ ↦ throws_pure _) fun _ ↦
    throws_flags.bind fun _ ↦ (throws_modifyFlags _).bind fun _ ↦
      .ite (fun _ ↦ (throws_modifyFlags _).bind fun _ ↦ h.sized _) fun _ ↦ h.sized _

theorem widthSafe_sar (h : Binary w p) : WidthSafe (sar w p : Op e Unit) := by
  refine h.exact.bind fun _ ↦ h.extended.bind fun _ ↦
    .ite (fun _ ↦ (throws_modifyFlags _).bind fun _ ↦ ?_) fun _ ↦ ?_
  all_goals
    exact .ite (fun _ ↦ throws_pure _) fun _ ↦ (throws_modifyFlags _).bind fun _ ↦
      (throws_modifyFlags _).bind fun _ ↦ h.sized _

end Families

section Shifts

theorem widthSafe_storeShift {zero parity result} (h : Binary w p) :
    WidthSafe (storeShift w zero parity result p : Op e Unit) :=
  (throws_modifyFlags _).bind fun _ ↦ h.sized _

theorem widthSafe_shl8bit (h : Binary width8 p) : WidthSafe (shl8bit p : Op e Unit) := by
  refine h.exact.bind fun _ ↦ h.extended.bind fun _ ↦
    .ite (fun _ ↦ (throws_modifyFlags _).bind fun _ ↦ ?_) fun _ ↦ ?_
  all_goals exact (throws_modifyFlags _).bind fun _ ↦ widthSafe_storeShift h

theorem widthSafe_shlNativeWord (h : Binary (nativeWidth p.sizeOverride) p) :
    WidthSafe (shlNativeWord p : Op e Unit) := by
  refine .ite (fun ho ↦ ?_) fun ho ↦ ?_
  all_goals
    simp only [nativeWidth, ho, Bool.false_eq_true, if_true, if_false] at h
    refine h.exact.bind fun _ ↦ h.extended.bind fun _ ↦
      .ite (fun _ ↦ (throws_modifyFlags _).bind fun _ ↦ ?_) fun _ ↦ ?_
    all_goals exact (throws_modifyFlags _).bind fun _ ↦ widthSafe_storeShift h

theorem widthSafe_shr8bit (h : Binary width8 p) : WidthSafe (shr8bit p : Op e Unit) := by
  refine h.exact.bind fun _ ↦ h.extended.bind fun _ ↦
    .ite (fun _ ↦ (throws_modifyFlags _).bind fun _ ↦ ?_) fun _ ↦ ?_
  all_goals exact (throws_modifyFlags _).bind fun _ ↦ widthSafe_storeShift h

theorem widthSafe_shrNativeWord (h : Binary (nativeWidth p.sizeOverride) p) :
    WidthSafe (shrNativeWord p : Op e Unit) := by
  refine .ite (fun ho ↦ ?_) fun ho ↦ ?_
  all_goals
    simp only [nativeWidth, ho, Bool.false_eq_true, if_true, if_false] at h
    refine h.exact.bind fun _ ↦ h.extended.bind fun _ ↦
      .ite (fun _ ↦ (throws_modifyFlags _).bind fun _ ↦ ?_) fun _ ↦ ?_
    all_goals exact (throws_modifyFlags _).bind fun _ ↦ widthSafe_storeShift h

end Shifts

section Stack

theorem widthSafe_pop16 : WidthSafe (pop16 : Op e _) :=
  (throws_reg32 _).bind fun _ ↦ (throws_setReg32 _ _).bind fun _ ↦
    throws_read fun _ _ h ↦ VMError.not_isWidth_of_isMemory (VM.getMem_error h)

theorem widthSafe_pop32 : WidthSafe (pop32 : Op e _) :=
  (throws_reg32 _).bind fun _ ↦ (throws_setReg32 _ _).bind fun _ ↦
    throws_read fun _ _ h ↦ VMError.not_isWidth_of_isMemory (VM.getMem_error h)

theorem pop16_size {vm vm' : VM} {v : SizedValue}
    (h : (pop16 : Op e _).run vm = (.ok v, vm')) : v.size = .word := by
  obtain ⟨_, _, -, h⟩ := run_bind_ok.mp h
  obtain ⟨_, _, -, h⟩ := run_bind_ok.mp h
  rw [run_read, Prod.mk.injEq, Outcome.ofExcept_eq_ok] at h
  exact VM.getMem_size h.1

theorem pop32_size {vm vm' : VM} {v : SizedValue}
    (h : (pop32 : Op e _).run vm = (.ok v, vm')) : v.size = .dword := by
  obtain ⟨_, _, -, h⟩ := run_bind_ok.mp h
  obtain ⟨_, _, -, h⟩ := run_bind_ok.mp h
  rw [run_read, Prod.mk.injEq, Outcome.ofExcept_eq_ok] at h
  exact VM.getMem_size h.1

theorem widthSafe_pushStack {v : SizedValue} (hv : v.size ≠ .qword)
    (hd : p.sizeOverride = true → v.size ≠ .dword) : WidthSafe (pushStack v p : Op e Unit) :=
  (throws_reg32 _).bind fun _ ↦ .ite
    (fun ho ↦ (throws_setReg32 _ _).bind fun _ ↦
      (throws_ofExcept (accepts_u16Zx hv (hd ho))).bind fun _ ↦ widthSafe_setMem _ _)
    fun _ ↦ (throws_setReg32 _ _).bind fun _ ↦
      (throws_ofExcept (accepts_u32Zx hv)).bind fun _ ↦ widthSafe_setMem _ _

theorem widthSafe_pushDword (ho : p.sizeOverride = false) (v : BitVec 32) :
    WidthSafe (pushStack (.dword v) p : Op e Unit) :=
  widthSafe_pushStack nofun (by rw [ho]; nofun)

theorem widthSafe_pushAll {s : ValueSize} (hs : s = nativeSize p.sizeOverride) :
    WidthSafe (pushAll s p : Op e Unit) := by
  have hq : s ≠ .qword := by
    rw [hs, nativeSize]
    split <;> nofun
  have hd : p.sizeOverride = true → s ≠ .dword := fun ho ↦ by
    rw [hs, nativeSize, if_pos ho]
    nofun
  have hr : ∀ r, WidthSafe (pushRegister r s p : Op e Unit) := fun r ↦
    throws_getReg_bind hq fun v hv ↦ widthSafe_pushStack (hv ▸ hq) (hv ▸ hd)
  exact throws_getReg_bind hq fun v hv ↦ (hr _).bind fun _ ↦ (hr _).bind fun _ ↦
    (hr _).bind fun _ ↦ (hr _).bind fun _ ↦
      (widthSafe_pushStack (hv ▸ hq) (hv ▸ hd)).bind fun _ ↦ (hr _).bind fun _ ↦
        (hr _).bind fun _ ↦ hr _

theorem widthSafe_popAll {pop : Op e SizedValue} (h : WidthSafe pop) : WidthSafe (popAll pop) :=
  h.bind fun _ ↦ h.bind fun _ ↦ h.bind fun _ ↦ h.bind fun _ ↦ h.bind fun _ ↦ h.bind fun _ ↦
    h.bind fun _ ↦ h.bind fun _ ↦ (throws_setReg _ _).bind fun _ ↦
      (throws_setReg _ _).bind fun _ ↦ (throws_setReg _ _).bind fun _ ↦
        (throws_setReg _ _).bind fun _ ↦ (throws_setReg _ _).bind fun _ ↦
          (throws_setReg _ _).bind fun _ ↦ throws_setReg _ _

theorem widthSafe_push (hs : (p.args 0).location.size ≠ .qword)
    (hd : p.sizeOverride = true → (p.args 0).location.size ≠ .dword) :
    WidthSafe (push p : Op e Unit) :=
  widthSafe_getArg_bind hs fun _ hv ↦ widthSafe_pushStack (hv ▸ hs) (hv ▸ hd)

theorem widthSafe_pop (hs : (p.args 0).location.size = nativeSize p.sizeOverride) :
    WidthSafe (pop p : Op e Unit) := by
  have hstd : (p.args 0).location.size ∈ [ValueSize.byte, .word, .dword] := by
    rw [hs, nativeSize]
    split <;> decide
  refine .ite (fun ho ↦ ?_) fun ho ↦ ?_
  · rw [nativeSize, if_pos ho] at hs
    exact throws_bind_of widthSafe_pop16 (fun _ _ _ ↦ pop16_size) fun _ hv ↦
      widthSafe_setArg (hv.trans hs.symm) hstd
  · rw [nativeSize, if_neg ho] at hs
    exact throws_bind_of widthSafe_pop32 (fun _ _ _ ↦ pop32_size) fun _ hv ↦
      widthSafe_setArg (hv.trans hs.symm) hstd

theorem widthSafe_popf : WidthSafe (popf p : Op e Unit) :=
  throws_bind_of widthSafe_pop32 (fun _ _ _ ↦ pop32_size) fun _ hv ↦
    (throws_ofExcept (hv ▸ accepts_exact.2.2.1)).bind fun _ ↦ throws_modifyFlags _

theorem widthSafe_leave : WidthSafe (leave p : Op e Unit) :=
  (throws_getReg _ _).bind fun _ ↦ (throws_setReg _ _).bind fun _ ↦
    widthSafe_pop32.bind fun _ ↦ throws_setReg _ _

theorem widthSafe_popEip : WidthSafe (popEip p) :=
  .ite (fun _ ↦ throws_bind_of widthSafe_pop16 (fun _ _ _ ↦ pop16_size) fun _ hv ↦
      (throws_ofExcept (hv ▸ accepts_u32Zx nofun)).bind fun _ ↦ throws_setEip _)
    fun _ ↦ throws_bind_of widthSafe_pop32 (fun _ _ _ ↦ pop32_size) fun _ hv ↦
      (throws_ofExcept (hv ▸ accepts_u32Zx nofun)).bind fun _ ↦ throws_setEip _

theorem widthSafe_ret (hs : (p.args 0).location.size ≠ .qword)
    (hd : (p.args 0).location.size ≠ .dword) : WidthSafe (ret p) :=
  (widthSafe_getArgAs (accepts_u16Zx hs hd) hs).bind fun _ ↦ widthSafe_popEip.bind fun _ ↦
    .ite (fun _ ↦ (throws_reg32 _).bind fun _ ↦ throws_setReg32 _ _)
      fun _ ↦ throws_pure _

theorem widthSafe_times {c : Op e Unit} (hc : WidthSafe c) (n : ℕ) :
    WidthSafe (times n c) := by
  induction n with
  | zero => exact throws_pure ()
  | succ n ih => exact hc.bind fun _ ↦ ih

theorem widthSafe_enter (ho : p.sizeOverride = false) (h₀ : (p.args 0).location.size = .word)
    (h₁ : (p.args 1).location.size = .byte) : WidthSafe (enter p) := by
  have hpush := widthSafe_pushDword (e := .jump) ho
  have hnest : ∀ n ebp temp, WidthSafe (pushNesting n ebp temp p : Op .jump Unit) :=
    fun n ebp temp ↦ .ite
      (fun _ ↦ (widthSafe_times (.ite (fun _ ↦ (throws_setReg32 _ _).bind fun _ ↦ hpush _)
        fun _ ↦ (throws_setReg32 _ _).bind fun _ ↦ hpush _) _).bind fun _ ↦ hpush _)
      fun _ ↦ throws_pure _
  have hadv : ∀ n, WidthSafe (advanceEip n) := fun n ↦
    throws_eipValue.bind fun _ ↦ throws_setEip _
  exact (widthSafe_getArgAs (h₀ ▸ accepts_exact.2.1) (by rw [h₀]; nofun)).bind fun _ ↦
    (hadv _).bind fun _ ↦
      (widthSafe_getArgAs (h₁ ▸ accepts_exact.1) (by rw [h₁]; nofun)).bind fun _ ↦
        (hadv _).bind fun _ ↦ (throws_reg32 _).bind fun _ ↦ (hpush _).bind fun _ ↦
          (throws_reg32 _).bind fun _ ↦ (hnest _ _ _).bind fun _ ↦
            (throws_setReg32 _ _).bind fun _ ↦ throws_setReg32 _ _

end Stack

section Products

theorem widthSafe_cmpxchg8b : WidthSafe (cmpxchg8b p : Op e Unit) :=
  (throws_reg32 _).bind fun _ ↦ (throws_reg32 _).bind fun _ ↦
    (throws_reg32 _).bind fun _ ↦ (throws_reg32 _).bind fun _ ↦
      (widthSafe_getArgLea _).bind fun _ ↦
        (widthSafe_getMemAs accepts_exact.2.2.2).bind fun _ ↦ .ite
          (fun _ ↦ (throws_modifyFlags _).bind fun _ ↦ widthSafe_setMem _ _)
          fun _ ↦ (throws_modifyFlags _).bind fun _ ↦
            (throws_setReg _ _).bind fun _ ↦ throws_setReg _ _

variable (hs : (p.args 0).location.size ≠ .qword)

include hs

theorem widthSafe_first32 : WidthSafe (getArgAs u32Zx (p.args 0).location : Op e _) ∧
    WidthSafe (getArgAs u32Sx (p.args 0).location : Op e _) :=
  ⟨widthSafe_getArgAs (accepts_u32Zx hs) hs, widthSafe_getArgAs (accepts_u32Sx hs) hs⟩

theorem widthSafe_first16 (hd : (p.args 0).location.size ≠ .dword) :
    WidthSafe (getArgAs u16Zx (p.args 0).location : Op e _) ∧
      WidthSafe (getArgAs u16Sx (p.args 0).location : Op e _) :=
  ⟨widthSafe_getArgAs (accepts_u16Zx hs hd) hs, widthSafe_getArgAs (accepts_u16Sx hs hd) hs⟩

theorem widthSafe_div8bit (hd : (p.args 0).location.size ≠ .dword) :
    WidthSafe (div8bit p : Op e Unit) :=
  (throws_reg16 _).bind fun _ ↦ (widthSafe_first16 hs hd).1.bind fun _ ↦
    .ite (fun _ ↦ widthSafe_throw rfl) fun _ ↦ (throws_setReg _ _).bind fun _ ↦
      throws_setReg _ _

theorem widthSafe_divNativeWord : WidthSafe (divNativeWord p : Op e Unit) := by
  refine .ite (fun _ ↦ (throws_reg16 _).bind fun _ ↦ (throws_reg16 _).bind fun _ ↦ ?_)
    fun _ ↦ (throws_reg32 _).bind fun _ ↦ (throws_reg32 _).bind fun _ ↦ ?_
  all_goals
    exact (widthSafe_first32 hs).1.bind fun _ ↦ .ite (fun _ ↦ widthSafe_throw rfl)
      fun _ ↦ (throws_setReg _ _).bind fun _ ↦ throws_setReg _ _

theorem widthSafe_idiv8bit (hd : (p.args 0).location.size ≠ .dword) : WidthSafe (idiv8bit p) :=
  (throws_reg16 _).bind fun _ ↦ (widthSafe_first16 hs hd).1.bind fun _ ↦
    .ite (fun _ ↦ widthSafe_throw rfl) fun _ ↦ (throws_unwindIf _).bind fun _ ↦
      .ite (fun _ ↦ widthSafe_throw rfl) fun _ ↦ (throws_setReg _ _).bind fun _ ↦
        throws_setReg _ _

theorem widthSafe_idivNativeWord : WidthSafe (idivNativeWord p) := by
  refine .ite (fun _ ↦ (throws_reg16 _).bind fun _ ↦ (throws_reg16 _).bind fun _ ↦ ?_)
    fun _ ↦ (throws_reg32 _).bind fun _ ↦ (throws_reg32 _).bind fun _ ↦ ?_
  all_goals
    exact (widthSafe_first32 hs).1.bind fun _ ↦ .ite (fun _ ↦ widthSafe_throw rfl)
      fun _ ↦ (throws_unwindIf _).bind fun _ ↦ .ite (fun _ ↦ widthSafe_throw rfl)
        fun _ ↦ (throws_setReg _ _).bind fun _ ↦ throws_setReg _ _

theorem widthSafe_mul8bit (hd : (p.args 0).location.size ≠ .dword) :
    WidthSafe (mul8bit p : Op e Unit) :=
  (throws_reg8 _).bind fun _ ↦ (widthSafe_first16 hs hd).1.bind fun _ ↦
    (throws_modifyFlags _).bind fun _ ↦ throws_setReg _ _

theorem widthSafe_imul1_8bit (hd : (p.args 0).location.size ≠ .dword) :
    WidthSafe (imul1_8bit p : Op e Unit) :=
  (throws_reg8 _).bind fun _ ↦ (widthSafe_first16 hs hd).2.bind fun _ ↦
    (throws_modifyFlags _).bind fun _ ↦ throws_setReg _ _

omit hs in
theorem widthSafe_storeProduct16 (v : BitVec 32) : WidthSafe (storeProduct16 v : Op e Unit) :=
  (throws_setReg _ _).bind fun _ ↦ (throws_setReg _ _).bind fun _ ↦
    (throws_reg16 _).bind fun _ ↦ throws_modifyFlags _

omit hs in
theorem widthSafe_storeProduct32 (v : BitVec 64) : WidthSafe (storeProduct32 v : Op e Unit) :=
  (throws_setReg _ _).bind fun _ ↦ (throws_setReg _ _).bind fun _ ↦
    (throws_reg32 _).bind fun _ ↦ throws_modifyFlags _

theorem widthSafe_mulNativeWord : WidthSafe (mulNativeWord p : Op e Unit) :=
  .ite (fun _ ↦ (throws_reg16 _).bind fun _ ↦ (widthSafe_first32 hs).1.bind fun _ ↦
      widthSafe_storeProduct16 _)
    fun _ ↦ (throws_reg32 _).bind fun _ ↦ (widthSafe_first32 hs).1.bind fun _ ↦
      widthSafe_storeProduct32 _

omit hs in
theorem widthSafe_imul1NativeWord
    (hs : (p.args 0).location.size = nativeSize p.sizeOverride) :
    WidthSafe (imul1NativeWord p : Op e Unit) := by
  refine .ite (fun ho ↦ (throws_reg16 _).bind fun _ ↦ ?_)
    fun ho ↦ (throws_reg32 _).bind fun _ ↦ ?_
  · rw [nativeSize, if_pos ho] at hs
    exact (widthSafe_first16 (by rw [hs]; nofun) (by rw [hs]; nofun)).2.bind fun _ ↦
      widthSafe_storeProduct16 _
  · rw [nativeSize, if_neg ho] at hs
    exact (widthSafe_first32 (by rw [hs]; nofun)).2.bind fun _ ↦ widthSafe_storeProduct32 _

omit hs in
theorem widthSafe_imul2NativeWord (h : Matching (nativeWidth p.sizeOverride) p) :
    WidthSafe (imul2NativeWord p : Op e Unit) := by
  refine .ite (fun ho ↦ ?_) fun ho ↦ ?_
  all_goals
    simp only [nativeWidth, ho, Bool.false_eq_true, if_true, if_false] at h
    exact h.extended.bind fun _ ↦ h.binary.extended.bind fun _ ↦
      (throws_modifyFlags _).bind fun _ ↦ h.sized _

omit hs in
theorem widthSafe_imul3NativeWord (h : Matching (nativeWidth p.sizeOverride) p)
    (h₂ : (p.args 2).location.size ≠ .qword) : WidthSafe (imul3NativeWord p : Op e Unit) := by
  refine .ite (fun ho ↦ ?_) fun ho ↦ ?_
  all_goals
    simp only [nativeWidth, ho, Bool.false_eq_true, if_true, if_false] at h
    have h₁ := h.same ▸ ne_qword h.proper.size
    exact (widthSafe_getArgAs (accepts_u32Sx h₁) h₁).bind fun _ ↦
      (widthSafe_getArgAs (accepts_u32Sx h₂) h₂).bind fun _ ↦
        (throws_modifyFlags _).bind fun _ ↦ h.sized _

end Products

section Ascii

theorem widthSafe_asciiAdjust {low high} : WidthSafe (asciiAdjust low high : Op e Unit) := by
  refine (throws_reg8 _).bind fun _ ↦ (throws_reg8 _).bind fun _ ↦
    throws_flags.bind fun _ ↦ .ite
      (fun _ ↦ (throws_setReg _ _).bind fun _ ↦ (throws_setReg _ _).bind fun _ ↦
        (throws_modifyFlags _).bind fun _ ↦ ?_)
      fun _ ↦ (throws_modifyFlags _).bind fun _ ↦ ?_
  all_goals exact (throws_reg8 _).bind fun _ ↦ throws_setReg _ _

theorem widthSafe_daa : WidthSafe (daa p : Op e Unit) := by
  refine (throws_reg8 _).bind fun _ ↦ throws_flags.bind fun _ ↦ .ite
    (fun _ ↦ (throws_modifyFlags _).bind fun _ ↦ ?_)
    fun _ ↦ (throws_modifyFlags _).bind fun _ ↦ ?_
  all_goals
    refine (throws_pure _).bind fun _ ↦ .ite
      (fun _ ↦ (throws_modifyFlags _).bind fun _ ↦ (throws_pure _).bind fun _ ↦ ?_)
      fun _ ↦ (throws_modifyFlags _).bind fun _ ↦ (throws_pure _).bind fun _ ↦ ?_
    all_goals exact (throws_modifyFlags _).bind fun _ ↦ throws_setReg _ _

theorem widthSafe_das : WidthSafe (das p : Op e Unit) := by
  refine (throws_reg8 _).bind fun _ ↦ throws_flags.bind fun _ ↦ .ite
    (fun _ ↦ (throws_modifyFlags _).bind fun _ ↦ ?_)
    fun _ ↦ (throws_modifyFlags _).bind fun _ ↦ ?_
  all_goals
    refine (throws_pure _).bind fun _ ↦ .ite
      (fun _ ↦ (throws_modifyFlags _).bind fun _ ↦ (throws_pure _).bind fun _ ↦ ?_)
      fun _ ↦ (throws_pure _).bind fun _ ↦ ?_
    all_goals exact (throws_modifyFlags _).bind fun _ ↦ throws_setReg _ _

theorem widthSafe_aad (h : Unary width8 p) : WidthSafe (aad p : Op e Unit) :=
  (throws_reg8 _).bind fun _ ↦ (throws_reg8 _).bind fun _ ↦ h.exact.bind fun _ ↦
    (throws_modifyFlags _).bind fun _ ↦ (throws_setReg _ _).bind fun _ ↦
      throws_setReg _ _

theorem widthSafe_aam (h : Unary width8 p) : WidthSafe (aam p : Op e Unit) :=
  (throws_reg8 _).bind fun _ ↦ h.exact.bind fun _ ↦ .ite (fun _ ↦ widthSafe_throw rfl)
    fun _ ↦ (throws_modifyFlags _).bind fun _ ↦ (throws_setReg _ _).bind fun _ ↦
      throws_setReg _ _

end Ascii

section Moves

theorem widthSafe_xlatb : WidthSafe (xlatb p : Op e Unit) := by
  refine (throws_reg8 _).bind fun _ ↦ .ite
    (fun _ ↦ (throws_reg16 _).bind fun _ ↦ ?_) fun _ ↦ (throws_reg32 _).bind fun _ ↦ ?_
  all_goals
    exact (widthSafe_getMemAs accepts_exact.1).bind fun _ ↦ throws_setReg _ _

theorem widthSafe_cbwCwde : WidthSafe (cbwCwde p : Op e Unit) :=
  .ite (fun _ ↦ (throws_reg8 _).bind fun _ ↦ .ite (fun _ ↦ throws_setReg _ _)
      fun _ ↦ throws_setReg _ _)
    fun _ ↦ (throws_reg16 _).bind fun _ ↦ .ite (fun _ ↦ throws_setReg _ _)
      fun _ ↦ throws_setReg _ _

theorem widthSafe_cdqCwd : WidthSafe (cdqCwd p : Op e Unit) :=
  .ite (fun _ ↦ (throws_reg16 _).bind fun _ ↦ .ite (fun _ ↦ throws_setReg _ _)
      fun _ ↦ throws_setReg _ _)
    fun _ ↦ (throws_reg32 _).bind fun _ ↦ .ite (fun _ ↦ throws_setReg _ _)
      fun _ ↦ throws_setReg _ _

theorem widthSafe_lahf : WidthSafe (lahf p : Op e Unit) :=
  throws_flags.bind fun _ ↦ throws_setReg _ _

theorem widthSafe_sahf : WidthSafe (sahf p : Op e Unit) :=
  (throws_reg8 _).bind fun _ ↦ throws_modifyFlags _

theorem widthSafe_pushf (ho : p.sizeOverride = false) : WidthSafe (pushf p : Op e Unit) :=
  throws_flags.bind fun _ ↦ widthSafe_pushDword ho _

theorem widthSafe_bswap (h : Unary width32 p) : WidthSafe (bswap p : Op e Unit) :=
  h.exact.bind fun _ ↦ h.sized _

theorem widthSafe_setcc8bit (h : Unary width8 p) : WidthSafe (setcc8bit p : Op e Unit) :=
  throws_flags.bind fun _ ↦ .ite (fun _ ↦ h.sized 1) fun _ ↦ h.sized 0

theorem widthSafe_lea (h : Unary (nativeWidth p.sizeOverride) p) :
    WidthSafe (lea p : Op e Unit) := by
  refine (widthSafe_getArgLea _).bind fun _ ↦ .ite (fun ho ↦ ?_) fun ho ↦ ?_
  all_goals
    simp only [nativeWidth, ho, Bool.false_eq_true, if_true, if_false] at h
    exact h.sized _

theorem widthSafe_movx16 {to16 : SizedValue → Except VMError (BitVec 16)} (h : Unary width16 p)
    (h₁ : Accepts to16 (p.args 1).location.size) (hs : (p.args 1).location.size ≠ .qword) :
    WidthSafe (movx16 to16 p : Op e Unit) :=
  (widthSafe_getArgAs h₁ hs).bind fun _ ↦ h.sized _

theorem widthSafe_movx32 {to32 : SizedValue → Except VMError (BitVec 32)} (h : Unary width32 p)
    (h₁ : Accepts to32 (p.args 1).location.size) (hs : (p.args 1).location.size ≠ .qword) :
    WidthSafe (movx32 to32 p : Op e Unit) :=
  (widthSafe_getArgAs h₁ hs).bind fun _ ↦ h.sized _

theorem widthSafe_movx8bit (h : Unary (nativeWidth p.sizeOverride) p)
    (h₁ : (p.args 1).location.size = .byte) :
    WidthSafe (movzx8bit p : Op e Unit) ∧ WidthSafe (movsx8bit p : Op e Unit) := by
  unfold movzx8bit movsx8bit
  have hs : (p.args 1).location.size ≠ .qword := by rw [h₁]; nofun
  have hd : (p.args 1).location.size ≠ .dword := by rw [h₁]; nofun
  cases ho : p.sizeOverride with
  | true =>
    rw [ho] at h
    exact ⟨widthSafe_movx16 h (accepts_u16Zx hs hd) hs, widthSafe_movx16 h (accepts_u16Sx hs hd) hs⟩
  | false =>
    rw [ho] at h
    exact ⟨widthSafe_movx32 h (accepts_u32Zx hs) hs, widthSafe_movx32 h (accepts_u32Sx hs) hs⟩

end Moves

section Jumps

variable (hs : (p.args 0).location.size ≠ .qword)

include hs

theorem widthSafe_jmpRel : WidthSafe (jmpRel p) :=
  throws_eipValue.bind fun _ ↦ (widthSafe_first32 hs).2.bind fun _ ↦
    .ite (fun _ ↦ throws_setEip _) fun _ ↦ throws_setEip _

theorem widthSafe_jmpAbs : WidthSafe (jmpAbs p) :=
  (widthSafe_first32 hs).1.bind fun _ ↦
    .ite (fun _ ↦ throws_setEip _) fun _ ↦ throws_setEip _

theorem widthSafe_jcc : WidthSafe (jcc p) :=
  throws_flags.bind fun _ ↦ .ite (fun _ ↦ widthSafe_jmpRel hs) fun _ ↦ throws_pure _

theorem widthSafe_jmpConditionalEcxIsZero : WidthSafe (jmpConditionalEcxIsZero p) :=
  (throws_reg32 _).bind fun _ ↦ .ite (fun _ ↦ widthSafe_jmpRel hs) fun _ ↦ throws_pure _

theorem widthSafe_call {jump : Pipeline → Op .jump Unit} (hj : WidthSafe (jump p))
    (ho : p.sizeOverride = false) (h₁ : (p.args 1).location = .none) :
    WidthSafe (call jump p) :=
  (widthSafe_first32 hs).1.bind fun _ ↦ throws_eipValue.bind fun _ ↦
    (widthSafe_pushDword ho _).bind fun _ ↦
      (h₁ ▸ throws_of_ok (fun _ ↦ ()) fun _ ↦ rfl : WidthSafe (setArg _ _)).bind fun _ ↦ hj

end Jumps

section Strings

theorem memorySafe_elementStep (n : BitVec 32) : MemorySafe (elementStep n : Op e _) :=
  throws_flags.bind fun _ ↦ throws_pure _

theorem memorySafe_advanceIndex (r : Register) (d : BitVec 32) :
    MemorySafe (advanceIndex r d : Op e Unit) :=
  (throws_reg32 _).bind fun _ ↦ throws_setReg32 _ _

variable (hw : w.Proper) (n : BitVec 32)

include hw

theorem memorySafe_movs : MemorySafe (movs w n : Op e Unit) :=
  (throws_reg32 _).bind fun _ ↦ (throws_reg32 _).bind fun _ ↦
    (memorySafe_getMemAs hw.exact).bind fun _ ↦ (memorySafe_setMem _ _).bind fun _ ↦
      (memorySafe_elementStep _).bind fun _ ↦ (memorySafe_advanceIndex _ _).bind fun _ ↦
        memorySafe_advanceIndex _ _

theorem memorySafe_cmps : MemorySafe (cmps w n : Op e Unit) :=
  (throws_reg32 _).bind fun _ ↦ (memorySafe_getMemAs hw.exact).bind fun _ ↦
    (throws_reg32 _).bind fun _ ↦ (memorySafe_getMemAs hw.exact).bind fun _ ↦
      (throws_modifyFlags _).bind fun _ ↦ (memorySafe_elementStep _).bind fun _ ↦
        (memorySafe_advanceIndex _ _).bind fun _ ↦ memorySafe_advanceIndex _ _

omit hw in
theorem memorySafe_storeString : MemorySafe (storeString w n : Op e Unit) :=
  (throws_reg32 _).bind fun _ ↦ (throws_getReg _ _).bind fun _ ↦
    (memorySafe_setMem _ _).bind fun _ ↦ (memorySafe_elementStep _).bind fun _ ↦
      memorySafe_advanceIndex _ _

theorem memorySafe_loadString : MemorySafe (loadString w n : Op e Unit) :=
  (throws_reg32 _).bind fun _ ↦ (memorySafe_getMemAs hw.exact).bind fun _ ↦
    (throws_setReg _ _).bind fun _ ↦ (memorySafe_elementStep _).bind fun _ ↦
      memorySafe_advanceIndex _ _

theorem memorySafe_scanString : MemorySafe (scanString w n : Op e Unit) :=
  (throws_reg32 _).bind fun _ ↦ (memorySafe_getMemAs hw.exact).bind fun _ ↦
    throws_getReg_bind (ne_qword hw.size) fun _ hv ↦
      (throws_ofExcept (hv ▸ hw.exact)).bind fun _ ↦
        (throws_modifyFlags _).bind fun _ ↦ (memorySafe_elementStep _).bind fun _ ↦
          memorySafe_advanceIndex _ _

omit hw in
theorem LogicFn.logic_memorySafe {f : LogicFn} (h : f.isString = true) (p : Pipeline) :
    Op.MemorySafe (f.logic p) := by
  cases f
  case movsb => exact memorySafe_movs proper_width8 _
  case movsNativeWord =>
    exact .ite (fun _ ↦ memorySafe_movs proper_width16 _)
      fun _ ↦ memorySafe_movs proper_width32 _
  case cmpsb => exact memorySafe_cmps proper_width8 _
  case cmpsNativeWord =>
    exact .ite (fun _ ↦ memorySafe_cmps proper_width16 _)
      fun _ ↦ memorySafe_cmps proper_width32 _
  case storeStringByte => exact memorySafe_storeString _
  case storeStringNativeWord =>
    exact .ite (fun _ ↦ memorySafe_storeString _) fun _ ↦ memorySafe_storeString _
  case loadStringByte => exact memorySafe_loadString proper_width8 _
  case loadStringNativeWord =>
    exact .ite (fun _ ↦ memorySafe_loadString proper_width16 _)
      fun _ ↦ memorySafe_loadString proper_width32 _
  case scanStringByte => exact memorySafe_scanString proper_width8 _
  case scanStringNativeWord =>
    exact .ite (fun _ ↦ memorySafe_scanString proper_width16 _)
      fun _ ↦ memorySafe_scanString proper_width32 _
  all_goals cases h

end Strings

/-- The widths of arguments that a logic function takes under a prefix. The two calls
depend on more than widths. -/
def LogicFn.fits (f : LogicFn) (sizeOverride : Bool) (s : Fin 3 → ValueSize) : Bool :=
  let n := nativeSize sizeOverride
  let unary w := decide (s 0 = w)
  let matching w := decide (s 0 = w ∧ s 1 = w)
  let binary w := decide (s 0 = w ∧ (s 1 = w ∨ s 1 = .byte))
  match f with
  | nop | opUndefined | pusha | popa | leave | popf | lahf | sahf | stc | clc | cmc | xlatb
  | cbwCwde | cdqCwd | aaa | aas | daa | das | hlt | cmpxchg8b | setDirection | clearDirection
  | movsNativeWord | movsb | cmpsNativeWord | cmpsb | storeStringByte | loadStringByte
  | scanStringByte | storeStringNativeWord | loadStringNativeWord | scanStringNativeWord => true
  | mov | xchg => matching .byte || matching n
  | push => unary .byte || unary n
  | pop | lea | divNativeWord | idivNativeWord | mulNativeWord | imul1NativeWord
  | incrementNativeWord | decrementNativeWord | notNativeWord | negNativeWord => unary n
  | pushf => !sizeOverride
  | enter => !sizeOverride && decide (s 0 = .word ∧ s 1 = .byte)
  | ret => unary .none || unary .word
  | jmpRel | jmpAbs | jcc | jmpConditionalEcxIsZero => unary .byte || unary n
  | callRel | callAbs => false
  | bswap => unary .dword
  | bitTest | bitTestSet | bitTestComplement => binary n
  | bitTestReset => if sizeOverride then binary n else matching n
  | bitScanForward | bitScanReverse | imul2NativeWord | cmovccNative | xaddNativeWord
  | cmpxchgNativeWord => matching n
  | imul3NativeWord => matching n && (decide (s 2 = .byte) || decide (s 2 = n))
  | div8bit | idiv8bit | mul8bit | imul1_8bit | increment8bit | decrement8bit | not8bit
  | neg8bit | setcc8bit | aad | aam => unary .byte
  | xadd8bit | cmpxchg8bit => matching .byte
  | movzx8bit | movsx8bit => decide (s 0 = n ∧ s 1 = .byte)
  | movzx16bit | movsx16bit => decide (s 0 = .dword ∧ s 1 = .word)
  | rol8bit | rcl8bit | rcr8bit | ror8bit | sar8bit | shl8bit | shr8bit | adc8bit | sbb8bit
  | add8bit | sub8bit | cmp8bit | test8bit | and8bit | or8bit | xor8bit => binary .byte
  | rolNativeWord | rclNativeWord | rcrNativeWord | rorNativeWord | sarNativeWord | shlNativeWord
  | shrNativeWord | adcNativeWord | sbbNativeWord | addNativeWord | subNativeWord | cmpNativeWord
  | testNativeWord | andNativeWord | orNativeWord | xorNativeWord => binary n

namespace Pipeline

def sizes (p : Pipeline) (n : Fin 3) : ValueSize := (p.args n).location.size

theorem unary8 (h : decide (p.sizes 0 = .byte) = true) : Unary width8 p :=
  ⟨proper_width8, of_decide_eq_true h⟩

theorem matching8 (h : decide (p.sizes 0 = .byte ∧ p.sizes 1 = .byte) = true) :
    Matching width8 p :=
  ⟨⟨proper_width8, (of_decide_eq_true h).1⟩, (of_decide_eq_true h).2⟩

theorem binary8
    (h : decide (p.sizes 0 = .byte ∧ (p.sizes 1 = .byte ∨ p.sizes 1 = .byte)) = true) :
    Binary width8 p :=
  ⟨⟨proper_width8, (of_decide_eq_true h).1⟩, (of_decide_eq_true h).2⟩

theorem nativeWidth_proper (b : Bool) :
    (nativeWidth b).Proper ∧ (nativeWidth b).size = nativeSize b := by
  cases b
  · exact ⟨proper_width32, rfl⟩
  · exact ⟨proper_width16, rfl⟩

theorem unaryNative (h : decide (p.sizes 0 = nativeSize p.sizeOverride) = true) :
    Unary (nativeWidth p.sizeOverride) p :=
  ⟨(nativeWidth_proper _).1, (of_decide_eq_true h).trans (nativeWidth_proper _).2.symm⟩

theorem matchingNative (h : decide (p.sizes 0 = nativeSize p.sizeOverride ∧
    p.sizes 1 = nativeSize p.sizeOverride) = true) : Matching (nativeWidth p.sizeOverride) p :=
  ⟨unaryNative (decide_eq_true (of_decide_eq_true h).1),
    (of_decide_eq_true h).2.trans (nativeWidth_proper _).2.symm⟩

theorem binaryNative (h : decide (p.sizes 0 = nativeSize p.sizeOverride ∧
    (p.sizes 1 = nativeSize p.sizeOverride ∨ p.sizes 1 = .byte)) = true) :
    Binary (nativeWidth p.sizeOverride) p :=
  ⟨unaryNative (decide_eq_true (of_decide_eq_true h).1),
    (of_decide_eq_true h).2.imp_left (·.trans (nativeWidth_proper _).2.symm)⟩

theorem byteOrNative
    (h : (decide (p.sizes 0 = .byte) || decide (p.sizes 0 = nativeSize p.sizeOverride)) = true) :
    p.sizes 0 ≠ .qword ∧ (p.sizeOverride = true → p.sizes 0 ≠ .dword) := by
  unfold nativeSize at h
  cases ho : p.sizeOverride <;> cases hs : p.sizes 0 <;> simp_all

theorem firstNative (h : decide (p.sizes 0 = nativeSize p.sizeOverride) = true) :
    (p.args 0).location.size ≠ .qword := by
  have hs : p.sizes 0 = nativeSize p.sizeOverride := of_decide_eq_true h
  change p.sizes 0 ≠ .qword
  rw [hs, nativeSize]
  split <;> nofun

theorem firstByte (h : decide (p.sizes 0 = .byte) = true) :
    (p.args 0).location.size ≠ .qword ∧ (p.args 0).location.size ≠ .dword := by
  have hs : p.sizes 0 = .byte := of_decide_eq_true h
  change p.sizes 0 ≠ .qword ∧ p.sizes 0 ≠ .dword
  rw [hs]
  exact ⟨nofun, nofun⟩

theorem noneOrWord (h : (decide (p.sizes 0 = .none) || decide (p.sizes 0 = .word)) = true) :
    (p.args 0).location.size ≠ .qword ∧ (p.args 0).location.size ≠ .dword := by
  change p.sizes 0 ≠ .qword ∧ p.sizes 0 ≠ .dword
  cases hs : p.sizes 0 <;> simp_all

end Pipeline

section Native

theorem widthSafe_nativeWord {f : OperandWidth → Pipeline → Op e Unit}
    (h : WidthSafe (f (nativeWidth p.sizeOverride) p)) : WidthSafe (nativeWord f p) := by
  unfold nativeWord
  cases ho : p.sizeOverride <;> rw [ho] at h <;> exact h

theorem widthSafe_halves {c₁₆ c₃₂ : Op e Unit} (h₁₆ : Binary width16 p → WidthSafe c₁₆)
    (h₃₂ : Binary width32 p → WidthSafe c₃₂) (h : Binary (nativeWidth p.sizeOverride) p) :
    WidthSafe (if p.sizeOverride then c₁₆ else c₃₂) := by
  cases ho : p.sizeOverride <;> rw [ho] at h
  · exact h₃₂ h
  · exact h₁₆ h

theorem widthSafe_rotations8 (h : Binary width8 p) :
    WidthSafe (rol8bit p : Op e Unit) ∧ WidthSafe (ror8bit p : Op e Unit) ∧
      WidthSafe (rcl8bit p : Op e Unit) ∧ WidthSafe (rcr8bit p : Op e Unit) :=
  ⟨widthSafe_rol h, widthSafe_ror h, widthSafe_rcl h, widthSafe_rcr h⟩

theorem widthSafe_rotationsNative (h : Binary (nativeWidth p.sizeOverride) p) :
    WidthSafe (rolNativeWord p : Op e Unit) ∧ WidthSafe (rorNativeWord p : Op e Unit) ∧
      WidthSafe (rclNativeWord p : Op e Unit) ∧ WidthSafe (rcrNativeWord p : Op e Unit) :=
  ⟨widthSafe_halves widthSafe_rol widthSafe_rol h,
    widthSafe_halves widthSafe_ror widthSafe_ror h,
    widthSafe_halves widthSafe_rcl widthSafe_rcl32bit h,
    widthSafe_halves widthSafe_rcr widthSafe_rcr h⟩

theorem Binary.acceptsSecond (h : Binary w p) : Accepts w.extended (p.args 1).location.size ∧
    (p.args 1).location.size ≠ .qword := by
  obtain hs | hs := h.second <;> rw [hs]
  · exact ⟨h.proper.extended, ne_qword h.proper.size⟩
  · exact ⟨h.proper.byte, nofun⟩

theorem widthSafe_bitTestNative {value : Option (Bool → Bool)}
    (h : Binary (nativeWidth p.sizeOverride) p) :
    WidthSafe (nativeWord (fun w ↦ bitTestWith w w.extended value) p : Op e Unit) :=
  widthSafe_nativeWord (widthSafe_bitTestWith h.toUnary h.acceptsSecond.1 h.acceptsSecond.2)

/-- The dword half of `bit_test_reset` takes no byte as its index. -/
theorem widthSafe_bitTestReset (h : LogicFn.bitTestReset.fits p.sizeOverride p.sizes = true) :
    WidthSafe (bitTestReset p : Op e Unit) := by
  refine .ite (fun ho ↦ ?_) fun ho ↦ ?_
  · have hb : Binary (nativeWidth p.sizeOverride) p :=
      Pipeline.binaryNative (by rw [ho] at h ⊢; exact h)
    simp only [nativeWidth, if_pos ho] at hb
    exact widthSafe_bitTestWith hb.toUnary hb.acceptsSecond.1 hb.acceptsSecond.2
  · rw [Bool.not_eq_true] at ho
    have hm : Matching (nativeWidth p.sizeOverride) p :=
      Pipeline.matchingNative (by rw [ho] at h ⊢; exact h)
    simp only [nativeWidth, ho, Bool.false_eq_true, if_false] at hm
    exact widthSafe_bitTestWith hm.toUnary (hm.same ▸ hm.proper.exact)
      (hm.same ▸ ne_qword hm.proper.size)

end Native

/-- Arguments of the widths that a logic function takes never make it fail. -/
theorem LogicFn.logic_widthSafe {f : LogicFn} {p : Pipeline}
    (h : f.fits p.sizeOverride p.sizes = true) : WidthSafe (f.logic p) := by
  cases f
  case nop => exact throws_pure _
  case opUndefined =>
    exact throws_eipValue.bind fun _ ↦ (widthSafe_getMemAs accepts_exact.1).bind fun _ ↦
      widthSafe_throw rfl
  case mov | xchg =>
    obtain h | h := Bool.or_eq_true_iff.mp h
    · first
      | exact widthSafe_mov (Pipeline.matching8 h)
      | exact widthSafe_xchg (Pipeline.matching8 h)
    · first
        | exact widthSafe_mov (Pipeline.matchingNative h)
        | exact widthSafe_xchg (Pipeline.matchingNative h)
  case pusha =>
    exact .ite (fun ho ↦ widthSafe_pushAll (by rw [nativeSize, if_pos ho]))
      fun ho ↦ widthSafe_pushAll (by rw [nativeSize, if_neg ho])
  case popa =>
    exact .ite (fun _ ↦ widthSafe_popAll widthSafe_pop16)
      fun _ ↦ widthSafe_popAll widthSafe_pop32
  case enter =>
    simp only [fits, Bool.and_eq_true, Bool.not_eq_true', decide_eq_true_eq] at h
    exact widthSafe_enter h.1 h.2.1 h.2.2
  case leave => exact @widthSafe_leave _ p
  case push => exact widthSafe_push (Pipeline.byteOrNative h).1 (Pipeline.byteOrNative h).2
  case pop => exact widthSafe_pop (of_decide_eq_true h)
  case bswap => exact widthSafe_bswap ⟨proper_width32, of_decide_eq_true h⟩
  case pushf => exact widthSafe_pushf (by simpa [fits] using h)
  case popf => exact @widthSafe_popf _ p
  case lahf => exact @widthSafe_lahf _ p
  case sahf => exact @widthSafe_sahf _ p
  case stc | clc | cmc | setDirection | clearDirection =>
    exact throws_of_ok (fun _ ↦ ()) fun _ ↦ rfl
  case xlatb => exact @widthSafe_xlatb _ p
  case cbwCwde => exact @widthSafe_cbwCwde _ p
  case cdqCwd => exact @widthSafe_cdqCwd _ p
  case bitTest | bitTestSet | bitTestComplement =>
    exact widthSafe_bitTestNative (Pipeline.binaryNative h)
  case bitTestReset => exact widthSafe_bitTestReset h
  case bitScanForward | bitScanReverse =>
    exact widthSafe_nativeWord (widthSafe_bitScan (Pipeline.matchingNative h))
  case ret =>
    exact widthSafe_ret (Pipeline.noneOrWord h).1 (Pipeline.noneOrWord h).2
  case callRel | callAbs => cases h
  case jmpRel => exact widthSafe_jmpRel (Pipeline.byteOrNative h).1
  case jmpAbs => exact widthSafe_jmpAbs (Pipeline.byteOrNative h).1
  case jmpConditionalEcxIsZero =>
    exact widthSafe_jmpConditionalEcxIsZero (Pipeline.byteOrNative h).1
  case jcc => exact widthSafe_jcc (Pipeline.byteOrNative h).1
  case div8bit => exact widthSafe_div8bit (Pipeline.firstByte h).1 (Pipeline.firstByte h).2
  case divNativeWord => exact widthSafe_divNativeWord (Pipeline.firstNative h)
  case idiv8bit => exact widthSafe_idiv8bit (Pipeline.firstByte h).1 (Pipeline.firstByte h).2
  case idivNativeWord => exact widthSafe_idivNativeWord (Pipeline.firstNative h)
  case mul8bit => exact widthSafe_mul8bit (Pipeline.firstByte h).1 (Pipeline.firstByte h).2
  case mulNativeWord => exact widthSafe_mulNativeWord (Pipeline.firstNative h)
  case imul1_8bit => exact widthSafe_imul1_8bit (Pipeline.firstByte h).1 (Pipeline.firstByte h).2
  case imul1NativeWord => exact widthSafe_imul1NativeWord (of_decide_eq_true h)
  case imul2NativeWord => exact widthSafe_imul2NativeWord (Pipeline.matchingNative h)
  case imul3NativeWord =>
    obtain ⟨hm, h₂⟩ := Bool.and_eq_true_iff.mp h
    refine widthSafe_imul3NativeWord (Pipeline.matchingNative hm) ?_
    change p.sizes 2 ≠ .qword
    unfold nativeSize at h₂
    cases ho : p.sizeOverride <;> cases hs : p.sizes 2 <;> simp_all
  case rol8bit => exact (widthSafe_rotations8 (Pipeline.binary8 h)).1
  case rolNativeWord => exact (widthSafe_rotationsNative (Pipeline.binaryNative h)).1
  case rcl8bit => exact (widthSafe_rotations8 (Pipeline.binary8 h)).2.2.1
  case rclNativeWord => exact (widthSafe_rotationsNative (Pipeline.binaryNative h)).2.2.1
  case rcr8bit => exact (widthSafe_rotations8 (Pipeline.binary8 h)).2.2.2
  case rcrNativeWord => exact (widthSafe_rotationsNative (Pipeline.binaryNative h)).2.2.2
  case ror8bit => exact (widthSafe_rotations8 (Pipeline.binary8 h)).2.1
  case rorNativeWord => exact (widthSafe_rotationsNative (Pipeline.binaryNative h)).2.1
  case sar8bit => exact widthSafe_sar (Pipeline.binary8 h)
  case sarNativeWord => exact widthSafe_nativeWord (widthSafe_sar (Pipeline.binaryNative h))
  case shl8bit => exact widthSafe_shl8bit (Pipeline.binary8 h)
  case shlNativeWord => exact widthSafe_shlNativeWord (Pipeline.binaryNative h)
  case shr8bit => exact widthSafe_shr8bit (Pipeline.binary8 h)
  case shrNativeWord => exact widthSafe_shrNativeWord (Pipeline.binaryNative h)
  case aaa | aas => exact widthSafe_asciiAdjust
  case daa => exact @widthSafe_daa _ p
  case das => exact @widthSafe_das _ p
  case aad => exact widthSafe_aad (Pipeline.unary8 h)
  case aam => exact widthSafe_aam (Pipeline.unary8 h)
  case adc8bit => exact widthSafe_adc (Pipeline.binary8 h)
  case adcNativeWord => exact widthSafe_nativeWord (widthSafe_adc (Pipeline.binaryNative h))
  case sbb8bit => exact widthSafe_sbb (Pipeline.binary8 h)
  case sbbNativeWord => exact widthSafe_nativeWord (widthSafe_sbb (Pipeline.binaryNative h))
  case xadd8bit => exact widthSafe_xadd (Pipeline.matching8 h)
  case xaddNativeWord => exact widthSafe_nativeWord (widthSafe_xadd (Pipeline.matchingNative h))
  case add8bit => exact widthSafe_add (Pipeline.binary8 h)
  case addNativeWord => exact widthSafe_nativeWord (widthSafe_add (Pipeline.binaryNative h))
  case hlt => exact widthSafe_throw rfl
  case sub8bit => exact widthSafe_sub (Pipeline.binary8 h)
  case subNativeWord => exact widthSafe_nativeWord (widthSafe_sub (Pipeline.binaryNative h))
  case increment8bit | decrement8bit => exact widthSafe_step (Pipeline.unary8 h)
  case incrementNativeWord | decrementNativeWord =>
    exact widthSafe_nativeWord (widthSafe_step (Pipeline.unaryNative h))
  case cmpxchg8bit => exact widthSafe_cmpxchg (Pipeline.matching8 h)
  case cmpxchgNativeWord =>
    exact widthSafe_nativeWord (widthSafe_cmpxchg (Pipeline.matchingNative h))
  case cmpxchg8b => exact @widthSafe_cmpxchg8b _ p
  case cmp8bit => exact widthSafe_cmp (Pipeline.binary8 h)
  case cmpNativeWord => exact widthSafe_nativeWord (widthSafe_cmp (Pipeline.binaryNative h))
  case test8bit | and8bit | or8bit | xor8bit => exact widthSafe_bitwise (Pipeline.binary8 h)
  case testNativeWord | andNativeWord | orNativeWord | xorNativeWord =>
    exact widthSafe_nativeWord (widthSafe_bitwise (Pipeline.binaryNative h))
  case not8bit => exact widthSafe_invert (Pipeline.unary8 h)
  case notNativeWord => exact widthSafe_nativeWord (widthSafe_invert (Pipeline.unaryNative h))
  case neg8bit => exact widthSafe_negate (Pipeline.unary8 h)
  case negNativeWord => exact widthSafe_nativeWord (widthSafe_negate (Pipeline.unaryNative h))
  case setcc8bit => exact widthSafe_setcc8bit (Pipeline.unary8 h)
  case cmovccNative => exact widthSafe_cmovcc (Pipeline.matchingNative h)
  case lea => exact widthSafe_lea (Pipeline.unaryNative h)
  case movzx8bit =>
    exact (widthSafe_movx8bit (Pipeline.unaryNative (decide_eq_true (of_decide_eq_true h).1))
      (of_decide_eq_true h).2).1
  case movsx8bit =>
    exact (widthSafe_movx8bit (Pipeline.unaryNative (decide_eq_true (of_decide_eq_true h).1))
      (of_decide_eq_true h).2).2
  case movzx16bit =>
    obtain ⟨h₀, h₁⟩ : (p.args 0).location.size = .dword ∧ (p.args 1).location.size = .word :=
      of_decide_eq_true h
    have hs : (p.args 1).location.size ≠ .qword := by rw [h₁]; nofun
    exact widthSafe_movx32 ⟨proper_width32, h₀⟩ (accepts_u32Zx hs) hs
  case movsx16bit =>
    obtain ⟨h₀, h₁⟩ : (p.args 0).location.size = .dword ∧ (p.args 1).location.size = .word :=
      of_decide_eq_true h
    have hs : (p.args 1).location.size ≠ .qword := by rw [h₁]; nofun
    exact widthSafe_movx32 ⟨proper_width32, h₀⟩ (accepts_u32Sx hs) hs
  case movsb | movsNativeWord | cmpsb | cmpsNativeWord | storeStringByte | storeStringNativeWord
    | loadStringByte | loadStringNativeWord | scanStringByte | scanStringNativeWord =>
    exact (logic_memorySafe rfl p).widthSafe

end Qx86
