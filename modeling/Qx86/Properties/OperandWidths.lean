import Qx86.Decode.Slots
import Qx86.Execute.Image
import Qx86.Machine.WidthSafe

namespace Qx86

open Foundation Outcome Op Operations SizedValue PrefixesActivated

variable {σ : Type}

section Decode

def ArgSource.width : ArgSource → ValueSize → ValueSize
  | .none, _ => .none
  | .literal l, _ => l.size
  | _, s => s

def Opcode.sizes (op : Opcode) (sizeOverride : Bool) (n : Fin 3) : ValueSize :=
  (op.argSource n).width ((op.argSize n).toFixed sizeOverride)

theorem decodeImmediate_size {bytes : List (BitVec 8)} {s : ValueSize} {v : SizedValue} {n : ℕ}
    (hs : s ≠ .qword) (h : decodeImmediate bytes s = .ok (v, n)) : v.size = s := by
  cases s with
  | none => cases h; rfl
  | byte | word | dword =>
    obtain ⟨_, -, h⟩ := bind_eq_ok.mp h
    cases h
    rfl
  | qword => exact absurd rfl hs

theorem ModRM.decode_size (m : ModRM) (sib : SIB) (disp : BitVec 32) (s : ValueSize) :
    (m.decode sib disp s).location.size = s := by
  unfold ModRM.decode
  split
  · rfl
  · split
    · rfl
    · split
      · rfl
      · split <;> rfl

theorem decodeArg_size {source : ArgSource} {s : ValueSize} {modrm : ParsedModRM}
    {byte : BitVec 8} {bytes : List (BitVec 8)} {arg : OpArgument} {n : ℕ}
    (hs : source.width s ≠ .qword) (h : decodeArg source s modrm byte bytes = .ok (arg, n)) :
    arg.location.size = source.width s := by
  cases source with
  | none | modRMReg | registerSuffix | literal | hardcodedRegister => cases h; rfl
  | modRM =>
    cases h
    exact ModRM.decode_size ..
  | immediateAddress =>
    obtain ⟨_, -, h⟩ := bind_eq_ok.mp h
    cases h
    rfl
  | immediateValue | jumpRel =>
    obtain ⟨⟨v, _⟩, hv, h⟩ := bind_eq_ok.mp h
    cases h
    exact decodeImmediate_size hs hv

/-- What the map gives each logic function under a prefix: arguments of the widths that it
takes, or one of the four mismatches. -/
def LogicFn.WidthCase (f : LogicFn) (op : Opcode) (so : Bool) : Prop :=
  f.fits so (op.sizes so) = true ∨
    so = true ∧ f = .pushf ∨
    so = true ∧ f = .enter ∧ op.argSource 0 = .immediateValue ∧ op.sizes so 0 = .word ∧
      op.argSource 1 = .immediateValue ∧ op.sizes so 1 = .byte ∨
    f = .callRel ∧ op.pipelineBehavior = .relativeJump ∧ op.sizes so 0 = nativeSize so ∧
      op.argSource 1 = .none ∨
    f = .callAbs ∧ op.sizes so 0 = nativeSize so ∧ op.argSource 1 = .none ∨
    so = false ∧ f = .bitTestReset ∧ op.sizes so 0 = .dword ∧
      op.argSource 1 = .immediateValue ∧ op.sizes so 1 = .byte

instance (f : LogicFn) (op : Opcode) (so : Bool) : Decidable (f.WidthCase op so) :=
  inferInstanceAs (Decidable (_ ∨ _))

def Opcode.WidthCase (op : Opcode) : Prop :=
  ∀ so, (∀ n, op.sizes so n ≠ .qword) ∧
    match op.function with
    | .interrupt => op.sizes so 0 = .byte
    | .logic f => f.WidthCase op so

instance (op : Opcode) : Decidable op.WidthCase :=
  decidable_of_iff (∀ so, (∀ n, op.sizes so n ≠ .qword) ∧
    (op.function = .interrupt → op.sizes so 0 = .byte) ∧
      (match op.function with | .interrupt => true | .logic f => decide (f.WidthCase op so)) = true)
    (by
      refine forall_congr' fun so ↦ and_congr_right fun _ ↦ ?_
      cases op.function <;> simp)

theorem OPCODES_widthCase (op : Fin OPCODE_TABLE_SIZE) (inner : Fin 8) :
    ((OPCODES op).opcodes inner).WidthCase :=
  OPCODES_forall (by decide +kernel) (by decide +kernel) op inner

end Decode

section Mismatch

variable {e : Effects} {p : Pipeline} {vm : VM}

def VM.Readable (vm : VM) (arg : ArgLocation) : Prop := ∃ v, vm.getArg arg = .ok v

/-- A failure because of the width of an operand. -/
def IsWidthError {α : Type} (r : Outcome VMError α) : Prop :=
  ∃ x, r = .err x ∧ x.isWidth = true

theorem WidthSafe.not_isWidthError {c : Op e Unit} (h : WidthSafe c) (vm : VM) :
    ¬IsWidthError (c.run vm).1 := by
  rintro ⟨x, hx, hw⟩
  rw [h vm x hx] at hw
  cases hw

theorem run_bind_err {α β : Type} {c : Op e α} {f : α → Op e β} {a : α} {vm₁ : VM}
    {x : VMError} (hc : c.run vm = (.ok a, vm₁)) (hf : ((f a).run vm₁).1 = .err x) :
    ((c >>= f).run vm).1 = .err x := by
  rw [run_bind, hc, runBind_ok, hf]

theorem run_bind_err_left {α β : Type} {c : Op e α} {f : α → Op e β} {x : VMError}
    (hc : (c.run vm).1 = .err x) : ((c >>= f).run vm).1 = .err x := by
  rw [run_bind]
  rcases hr : c.run vm with ⟨_ | _ | _, _⟩ <;> rw [hr] at hc <;> cases hc
  rfl

theorem pushDword_override (ho : p.sizeOverride = true) (v : BitVec 32) (vm : VM) :
    ((pushStack (.dword v) p : Op e Unit).run vm).1 = .err .tooBigSizeExpectation := by
  refine run_bind_err (run_reg32 vm .esp) ?_
  rw [if_pos ho]
  exact run_bind_err (run_setReg32 vm _ _) rfl

theorem pushf_override (ho : p.sizeOverride = true) (vm : VM) :
    ((pushf p : Op e Unit).run vm).1 = .err .tooBigSizeExpectation :=
  run_bind_err (run_flags vm) (pushDword_override ho _ vm)

theorem run_getArgAs_eq {α : Type} {conv : SizedValue → Except VMError α} {loc : ArgLocation}
    {v : SizedValue} {a : α} (hv : vm.getArg loc = .ok v) (ha : conv v = .ok a) :
    (getArgAs conv loc : Op e α).run vm = (.ok a, vm) := by
  rw [run_getArgAs, hv]
  exact congrArg (·, vm) (Outcome.ofExcept_eq_ok.mpr ha)

theorem enter_override (ho : p.sizeOverride = true) {l : BitVec 16} {n : BitVec 8}
    (h₀ : (p.args 0).location = .immediate (.word l))
    (h₁ : (p.args 1).location = .immediate (.byte n)) (vm : VM) :
    ((enter p).run vm).1 = .err .tooBigSizeExpectation := by
  refine run_bind_err (run_getArgAs_eq (by rw [h₀]; rfl) rfl) (run_bind_err rfl ?_)
  refine run_bind_err (run_getArgAs_eq (by rw [h₁]; rfl) rfl) (run_bind_err rfl ?_)
  exact run_bind_err (run_reg32 _ _) (run_bind_err_left (pushDword_override ho _ _))

theorem callAbs_override (ho : p.sizeOverride = true) {v : SizedValue}
    (hv : vm.getArg (p.args 0).location = .ok v) (hs : v.size ≠ .qword) :
    ((callAbs p).run vm).1 = .err .tooBigSizeExpectation := by
  obtain ⟨a, ha⟩ := accepts_u32Zx hs v rfl
  refine run_bind_err (run_getArgAs_eq hv ha) (run_bind_err (run_eipValue vm) ?_)
  exact run_bind_err_left (pushDword_override ho _ _)

theorem bitTestReset_byte (ho : p.sizeOverride = false) {v : SizedValue} {i : BitVec 8}
    (hv : vm.getArg (p.args 0).location = .ok v) (hs : v.size = .dword)
    (h₁ : (p.args 1).location = .immediate (.byte i)) :
    ((bitTestReset p : Op e Unit).run vm).1 = .err .wrongSizeExpectation := by
  obtain ⟨a, ha⟩ := accepts_exact.2.2.1 v hs
  rw [bitTestReset, if_neg (by simp [ho])]
  refine run_bind_err (run_getArgAs_eq hv ha) (run_bind_err_left ?_)
  rw [run_getArgAs, h₁]
  rfl

theorem unreadable_not_isWidthError {α : Type} {conv : SizedValue → Except VMError α}
    {loc : ArgLocation} {f : α → Op e Unit} (h : ¬vm.Readable loc) :
    ¬IsWidthError ((getArgAs conv loc >>= f).run vm).1 := by
  cases hv : vm.getArg loc with
  | ok v => exact absurd ⟨v, hv⟩ h
  | error x =>
    rintro ⟨y, hy, hw⟩
    have hx : ((getArgAs conv loc : Op e α).run vm).1 = .err x := by
      rw [run_getArgAs, hv]
      rfl
    rw [run_bind_err_left hx] at hy
    cases hy
    rw [VMError.not_isWidth_of_isMemory (VM.getArg_error hv)] at hw
    cases hw

/-- A slot whose arguments have a width that its function does not take: `pushf` and
`enter` under the operand-size prefix, and an indirect call under it or `btr` with a
literal index without it, as far as their operand can be read. -/
def VM.Misfits (vm : VM) (p : Pipeline) : Prop :=
  p.sizeOverride = true ∧ (p.function = .opcode (.logic .pushf) ∨
      p.function = .opcode (.logic .enter) ∨
      p.function = .opcode (.logic .callAbs) ∧ vm.Readable (p.args 0).location) ∨
    p.sizeOverride = false ∧ p.function = .opcode (.logic .bitTestReset) ∧ p.sizes 1 = .byte ∧
      vm.Readable (p.args 0).location

end Mismatch

namespace DecodesTo

variable {charger : GasCharger} {pre : PrefixesActivated} {prefixSize : ℕ}
  {buffer : List (BitVec 8)} {opcode : Opcode} {slot : Pipeline}

theorem widthCase (h : DecodesTo charger pre prefixSize buffer opcode slot) :
    opcode.WidthCase := by
  obtain ⟨op, inner, rfl⟩ := h.mem_table
  exact OPCODES_widthCase op inner

theorem sizes_eq (h : DecodesTo charger pre prefixSize buffer opcode slot) :
    slot.sizes = opcode.sizes slot.sizeOverride := by
  funext n
  obtain ⟨_, _, _, _, -, ha⟩ := h.arg n
  exact decodeArg_size ((h.widthCase slot.sizeOverride).1 n) ha

theorem immediate (h : DecodesTo charger pre prefixSize buffer opcode slot) {n : Fin 3}
    (hn : opcode.argSource n = .immediateValue) :
    ∃ v, (slot.args n).location = .immediate v ∧
      v.size = opcode.sizes slot.sizeOverride n := by
  obtain ⟨_, _, _, _, -, ha⟩ := h.arg n
  have hs := decodeArg_size ((h.widthCase slot.sizeOverride).1 n) ha
  rw [hn] at ha
  obtain ⟨v, hv⟩ := decodeArg_immediateValue ha
  rw [hv] at hs ⊢
  exact ⟨v, rfl, hs⟩

end DecodesTo

theorem not_misfits_of_fits {f : LogicFn} {q : Pipeline} {vm : VM}
    (hq : q.function = .opcode (.logic f)) (h : f.fits q.sizeOverride q.sizes = true) :
    ¬vm.Misfits q := by
  rintro (⟨ho, hf | hf | ⟨hf, -⟩⟩ | ⟨ho, hf, hb, -⟩) <;> cases hq.symm.trans hf <;>
    rw [ho] at h
  · cases h
  · cases h
  · cases h
  · have hd : q.sizes 0 = .dword ∧ q.sizes 1 = .dword := of_decide_eq_true h
    rw [hb] at hd
    cases hd.2

theorem first_ne_qword {q : Pipeline} {so : Bool} (h : q.sizes 0 = nativeSize so) :
    (q.args 0).location.size ≠ .qword := by
  change q.sizes 0 ≠ .qword
  rw [h, nativeSize]
  split <;> simp

/-- The five ways in which the map uses a logic function, one by one. -/
theorem logic_widthError_iff {f : LogicFn} {op : Opcode} {q : Pipeline}
    (hq : q.function = .opcode (.logic f)) (hc : f.WidthCase op q.sizeOverride)
    (hs : q.sizes = op.sizes q.sizeOverride)
    (hi : ∀ n, op.argSource n = .immediateValue → ∃ v, (q.args n).location = .immediate v)
    (hn : op.argSource 1 = .none → (q.args 1).location = .none)
    (hj : op.pipelineBehavior = .relativeJump → q.sizeOverride = false) (vm : VM) :
    IsWidthError ((f.logic q).run vm).1 ↔ vm.Misfits q := by
  simp only [LogicFn.WidthCase, ← hs] at hc
  obtain hc | ⟨ho, rfl⟩ | ⟨ho, rfl, h₀, hs₀, h₁, hs₁⟩ | ⟨rfl, hr, hs₀, h₁⟩ | ⟨rfl, hs₀, h₁⟩ |
    ⟨ho, rfl, hs₀, h₁, hs₁⟩ := hc
  · exact iff_of_false (WidthSafe.not_isWidthError (f.logic_widthSafe hc) vm)
      (not_misfits_of_fits hq hc)
  · exact iff_of_true ⟨_, pushf_override ho vm, rfl⟩ (.inl ⟨ho, .inl hq⟩)
  · obtain ⟨v, hv⟩ := hi 0 h₀
    obtain ⟨u, hu⟩ := hi 1 h₁
    rw [Pipeline.sizes, hv] at hs₀
    rw [Pipeline.sizes, hu] at hs₁
    obtain ⟨l, rfl⟩ := word_of_size hs₀
    obtain ⟨n, rfl⟩ := byte_of_size hs₁
    exact iff_of_true ⟨_, enter_override ho hv hu vm, rfl⟩ (.inl ⟨ho, .inr (.inl hq)⟩)
  · have ho := hj hr
    have hd : (q.args 0).location.size ≠ .qword := first_ne_qword hs₀
    refine iff_of_false (WidthSafe.not_isWidthError
      (widthSafe_call hd (widthSafe_jmpRel hd) ho (hn h₁)) vm) ?_
    simp [VM.Misfits, ho, hq]
  · have hd : (q.args 0).location.size ≠ .qword := first_ne_qword hs₀
    cases ho : q.sizeOverride with
    | false =>
      refine iff_of_false (WidthSafe.not_isWidthError
        (widthSafe_call hd (widthSafe_jmpAbs hd) ho (hn h₁)) vm) ?_
      simp [VM.Misfits, ho, hq]
    | true =>
      by_cases hv : vm.Readable (q.args 0).location
      · obtain ⟨v, hv'⟩ := hv
        exact iff_of_true
          ⟨_, callAbs_override ho hv' (VM.getArg_size hd hv' ▸ hd), rfl⟩
          (.inl ⟨ho, .inr (.inr ⟨hq, v, hv'⟩)⟩)
      · refine iff_of_false (unreadable_not_isWidthError hv) ?_
        simp [VM.Misfits, ho, hq, hv]
  · by_cases hv : vm.Readable (q.args 0).location
    · obtain ⟨v, hv'⟩ := hv
      obtain ⟨u, hu⟩ := hi 1 h₁
      have hne : (q.args 0).location.size ≠ .qword := by
        rw [show (q.args 0).location.size = _ from hs₀]
        nofun
      have hd : v.size = .dword := (VM.getArg_size hne hv').trans hs₀
      have hb : q.sizes 1 = .byte := hs₁
      rw [Pipeline.sizes, hu] at hs₁
      obtain ⟨i, rfl⟩ := byte_of_size hs₁
      exact iff_of_true ⟨_, bitTestReset_byte ho hv' hd hu, rfl⟩
        (.inr ⟨ho, hq, hb, v, hv'⟩)
    · refine iff_of_false ?_ ?_
      · change ¬IsWidthError ((bitTestReset q).run vm).1
        rw [bitTestReset, if_neg (by simp [ho])]
        exact unreadable_not_isWidthError hv
      · simp [VM.Misfits, ho, hq, hv]

/-- A hypervisor that does not return the two errors itself. -/
def Hypervisor.WidthSafe (hv : Hypervisor σ) : Prop :=
  ∀ vm n s x, (hv.interrupt vm n s).1 = .error x → x.isWidth = false

theorem interrupt_not_isWidthError {hv : Hypervisor σ} (hhv : hv.WidthSafe) {q : Pipeline}
    (hs : q.sizes 0 = .byte) (m : Machine σ) :
    ¬IsWidthError (OpcodeFn.interrupt.call hv q m).1 := by
  have hs : (q.args 0).location.size = .byte := hs
  rintro ⟨x, hx, hw⟩
  simp only [OpcodeFn.call] at hx
  split at hx
  · next e he =>
    cases hx
    have hsafe : WidthSafe (getArgAs u8Exact (q.args 0).location : Op .straight _) :=
      widthSafe_getArgAs (hs ▸ accepts_exact.1) (by rw [hs]; intro h; cases h)
    have hrun : ((getArgAs u8Exact (q.args 0).location : Op .straight _).run m.vm).1 = .err x := by
      rw [run_getArgAs, he]
      rfl
    rw [hsafe m.vm x hrun] at hw
    cases hw
  · next num _ =>
    rw [hhv m.vm num m.host x (ofExcept_eq_err.mp hx)] at hw
    cases hw

/-- An instruction of the map fails because of the width of an operand in the four cases
in which it misfits, and in no others. -/
theorem widthError_iff (hv : Hypervisor σ) (hhv : hv.WidthSafe) {vm : VM} {writeable : Bool}
    {eip : BitVec 32} {p : Pipeline} {f : Filled}
    (hd : fillSlot vm OPCODES writeable eip p = .ok f) (hr : f.slot.function.isRep = false)
    (m : Machine σ) :
    IsWidthError (f.slot.function.call hv f.slot m).1 ↔ m.vm.Misfits f.slot := by
  obtain ⟨window, pre, n, -, -, -, hf⟩ := fillSlot_eq_ok hd
  cases hf with
  | rep slot _ hs he =>
    obtain ⟨b, -, hs⟩ := bind_eq_ok.mp hs
    cases hs
    rw [he, surcharge_function] at hr
    dsimp only at hr
    split at hr <;> cases hr
  | opcode opcode slot next stop _ hd' hn he =>
    have hfn : f.slot.function = .opcode opcode.function := by
      rw [he, surcharge_function, hd'.function]
    have hargs : f.slot.args = slot.args := by rw [he, surcharge_args]
    have hso : f.slot.sizeOverride = slot.sizeOverride := by rw [he, surcharge_sizeOverride]
    have hsizes : f.slot.sizes = opcode.sizes f.slot.sizeOverride := by
      rw [hso, ← hd'.sizes_eq]
      funext k
      rw [Pipeline.sizes, Pipeline.sizes, hargs]
    have hcase := (hd'.widthCase f.slot.sizeOverride).2
    rw [hfn]
    cases ho : opcode.function with
    | interrupt =>
      rw [ho] at hfn hcase
      refine iff_of_false (interrupt_not_isWidthError hhv ?_ m) (by simp [VM.Misfits, hfn])
      exact (congrFun hsizes 0).trans hcase
    | logic g =>
      rw [ho] at hfn hcase
      exact logic_widthError_iff hfn hcase hsizes (by
          intro k hk
          obtain ⟨v, hv, -⟩ := hd'.immediate hk
          exact ⟨v, by rw [hargs, hv]⟩)
        (by
          intro h₁
          obtain ⟨_, _, _, _, -, ha⟩ := hd'.arg 1
          rw [h₁] at ha
          rw [hargs, (decodeArg_none ha).1])
        (by
          intro hb
          rw [hb] at hn
          obtain ⟨rel, -, hn⟩ := bind_eq_ok.mp hn
          split at hn
          · cases hn
          · next hso' => rw [hso]; simpa using hso') m.vm

def pushfWord : Machine (List (BitVec 8)) where
  vm := { createVm ⟨[0x66, 0x9C] ++ List.replicate 16 0, by decide⟩ with
    regs := fun r ↦ if r = Register.esp then 0x80000020 else 0 }
  host := []

def pushfWordSlot : Filled where
  slot := { (default : Pipeline) with
    function := .opcode (.logic .pushf)
    gasCost := 4
    eipSize := 2
    sizeOverride := true
    opcode := 0x9C }
  next := 0x10002
  stop := false

theorem decodeAt_pushfWord : pushfWord.vm.decodeAt false pushfWord.vm.eip = .ok pushfWordSlot := by
  decide +kernel

theorem widthSafe_testHypervisor : testHypervisor.WidthSafe :=
  fun _ _ _ _ h ↦ nomatch h

theorem widthError_iff_pushfWord :
    IsWidthError (pushfWordSlot.slot.function.call testHypervisor pushfWordSlot.slot
      pushfWord).1 ↔ pushfWord.vm.Misfits pushfWordSlot.slot :=
  widthError_iff testHypervisor widthSafe_testHypervisor decodeAt_pushfWord rfl pushfWord

/-- It pushes a dword where a word is expected. -/
theorem widthError_pushfWord :
    ¬∀ (m : Machine (List (BitVec 8))) (f : Filled),
      m.vm.decodeAt (writeableAt m.vm.eip) m.vm.eip = .ok f → f.slot.function.isRep = false →
        ¬IsWidthError (f.slot.function.call testHypervisor f.slot m).1 :=
  fun h ↦ h pushfWord pushfWordSlot decodeAt_pushfWord rfl
    ⟨_, @pushf_override .straight pushfWordSlot.slot rfl pushfWord.vm, rfl⟩

end Qx86
