import Qx86.Machine.Shifts
import Qx86.Properties.Arithmetic
import Qx86.Properties.DecodedSlots

namespace Qx86

open Foundation Bits Outcome Op Operations Register

inductive BitTestKind where
  | test
  | set
  | reset
  | complement
  deriving DecidableEq

namespace BitTestKind

def function : BitTestKind → LogicFn
  | test => .bitTest
  | set => .bitTestSet
  | reset => .bitTestReset
  | complement => .bitTestComplement

def apply : BitTestKind → Bool → Bool
  | test, b => b
  | set, _ => true
  | reset, _ => false
  | complement, b => !b

def opcode : BitTestKind → BitVec 8
  | test => 0xA3
  | set => 0xAB
  | reset => 0xB3
  | complement => 0xBB

/-- The opcode extension of 0F BA with a byte as the index. -/
def extension : BitTestKind → Fin 8
  | test => 4
  | set => 5
  | reset => 6
  | complement => 7

def Encoded (κ : BitTestKind) : Prop :=
  (∀ reg, ((entryOf true κ.opcode).opcodes reg).IsRow κ.function
    [(.modRM, .nativeWord), (.modRMReg, .nativeWord)]) ∧
  ((entryOf true 0xBA).opcodes κ.extension).IsRow κ.function
    [(.modRM, .nativeWord), (.immediateValue, .fixed .byte)]

instance (κ : BitTestKind) : Decidable κ.Encoded := inferInstanceAs (Decidable (_ ∧ _))

theorem encoded (κ : BitTestKind) : κ.Encoded := by
  cases κ with
  | test | set | reset | complement => decide +kernel

/-- How the function takes its index: the dword half of BTR only takes a dword. -/
def index (κ : BitTestKind) (w : ElementWidth) :
    SizedValue → Except VMError (BitVec w.operand.bits) :=
  if κ = reset ∧ w = .dword then w.operand.exact else w.operand.extended

def stores : BitTestKind → Option (Bool → Bool)
  | test => none
  | κ => some κ.apply

def Takes (κ : BitTestKind) (w : ElementWidth) (p : Pipeline) : Prop :=
  κ = reset → w = .dword → (p.args 1).location.size ≠ .byte

/-- The function does not flip a bit of its own index, which is read modulo the bits of a word. -/
def Keeps (κ : BitTestKind) (w : ElementWidth) (p : Pipeline) (r : Register) (k : ℕ) : Prop :=
  κ = complement → (p.args 1).location = .registerValue r w.operand.size →
    Nat.log2 w.operand.bits ≤ k

end BitTestKind

variable {κ : BitTestKind} {w : ElementWidth} {p q : Pipeline} {op : Opcode} {vm : VM}
  {r : Register} {v : BitVec w.operand.bits} {i : BitVec 32} {k : ℕ}

def VM.bitTested (vm : VM) (κ : BitTestKind) (w : ElementWidth) (r : Register)
    (v : BitVec w.operand.bits) (k : ℕ) : VM :=
  { vm.setReg r (w.operand.sized (withBit v k (κ.apply (v.getLsbD k)))) with
    flags := { vm.flags with carry := v.getLsbD k } }

/-- A bit test of a register does what it should, as another encoding of it does, and each of
the two brings a bit back that it complements. -/
structure BitTests (κ : BitTestKind) (w : ElementWidth) (p q : Pipeline) (vm : VM) (r : Register)
    (v : BitVec w.operand.bits) (k : ℕ) : Prop where
  step : (κ.function.logic p).run vm = (.ok (), vm.bitTested κ w r v k)
  agrees : (κ.function.logic q).run vm = (κ.function.logic p).run vm
  twice : κ = .complement → ∀ s, s = p ∨ s = q →
    (κ.function.logic s).run (vm.bitTested κ w r v k) =
      (.ok (), { vm with flags := { vm.flags with carry := !v.getLsbD k } })

section Index

def Opcode.BitIndex (op : Opcode) : Prop :=
  (op.argSource 1 = .modRMReg ∧ op.argSize 1 = .nativeWord) ∨
    (op.argSource 1 = .immediateValue ∧ op.argSize 1 = .fixed .byte)

instance (op : Opcode) : Decidable op.BitIndex := inferInstanceAs (Decidable (_ ∨ _))

theorem OPCODES_bitIndex (κ : BitTestKind) (n : Fin OPCODE_TABLE_SIZE) (inner : Fin 8) :
    ((OPCODES n).opcodes inner).function = .logic κ.function →
      ((OPCODES n).opcodes inner).BitIndex := by
  have hall : ∀ d ∈ definitions, d.toOpcode.function = .logic κ.function →
      d.toOpcode.BitIndex := by
    cases κ with
    | test | set | reset | complement => decide +kernel
  refine OPCODES_forall (P := fun o ↦ o.function = .logic κ.function → o.BitIndex) ?_ hall n inner
  cases κ with
  | test | set | reset | complement => decide

theorem Pipeline.Decoded.index_cases (h : p.Decoded op)
    (hf : p.function = .opcode (.logic κ.function)) :
    (∃ r', (p.args 1).location = .registerValue r' (nativeSize p.sizeOverride)) ∨
      ∃ b, (p.args 1).location = .immediate (.byte b) := by
  have hfn := h.function
  rw [hf] at hfn
  obtain ⟨modrm, byte, bytes, n, ha⟩ := h.args 1
  obtain ⟨m, inner, rfl⟩ := h.table
  obtain ⟨hsource, hsize⟩ | ⟨hsource, hsize⟩ :=
    OPCODES_bitIndex κ m inner (SlotFn.opcode.inj hfn).symm
  · rw [hsource, hsize] at ha
    exact .inl ⟨_, congrArg OpArgument.location (congrArg Prod.fst (Outcome.ok.inj ha)).symm⟩
  · rw [hsource, hsize] at ha
    obtain ⟨⟨x, advance⟩, hx, ha⟩ := bind_eq_ok.mp ha
    obtain ⟨b, -, hx⟩ := bind_eq_ok.mp hx
    cases hx
    exact .inr ⟨b, congrArg OpArgument.location (congrArg Prod.fst (Outcome.ok.inj ha)).symm⟩

theorem place_byte (b : BitVec 8) (hw : w ≠ .byte) :
    (b.signExtend w.operand.bits).toNat % w.operand.bits =
      (b.setWidth 32).toNat % w.operand.bits := by
  have hzero : (b.setWidth 32).toNat = b.toNat := BitVec.toNat_setWidth_of_le (by decide)
  obtain ⟨h16, h32⟩ := count_mod b
  rw [hzero]
  cases w with
  | byte => exact absurd rfl hw
  | word =>
    change (b.signExtend 16).toNat % 16 = b.toNat % 16
    omega
  | dword =>
    change (b.signExtend 32).toNat % 32 = b.toNat % 32
    omega

theorem index_self (hw : w ≠ .byte) (hv : vm.getReg r w.operand.size = w.operand.sized v) :
    ∃ i : BitVec 32, vm.getArg (.registerValue r w.operand.size) >>= SizedValue.u32Zx = .ok i ∧
      i.toNat = v.toNat := by
  have hget : vm.getArg (.registerValue r w.operand.size) = .ok (w.operand.sized v) :=
    congrArg Except.ok hv
  rw [hget]
  cases w with
  | byte => exact absurd rfl hw
  | word =>
    have hle : 16 ≤ 32 := by decide
    exact ⟨v.setWidth 32, rfl, BitVec.toNat_setWidth_of_le hle⟩
  | dword => exact ⟨v, rfl, rfl⟩

/-- The index as the function takes it, at the same place as the index that is read. -/
theorem index_reads (h : p.Decoded op) (hf : p.function = .opcode (.logic κ.function))
    (hp : p.HasWidth w) (hw : w ≠ .byte)
    (hi : vm.getArg (p.args 1).location >>= SizedValue.u32Zx = .ok i) (htakes : κ.Takes w p) :
    ∃ b : BitVec w.operand.bits, vm.getArg (p.args 1).location >>= κ.index w = .ok b ∧
      b.toNat % w.operand.bits = i.toNat % w.operand.bits := by
  obtain ⟨r', hl⟩ | ⟨b, hl⟩ := h.index_cases hf
  · rw [hp.nativeSize_eq hw] at hl
    rw [hl] at hi ⊢
    obtain ⟨b, hb⟩ : ∃ b, vm.getReg r' w.operand.size = w.operand.sized b :=
      ⟨_, VM.getReg_eq vm w r'⟩
    have hget : vm.getArg (.registerValue r' w.operand.size) = .ok (w.operand.sized b) :=
      congrArg Except.ok hb
    obtain ⟨i', hi', hself⟩ := index_self hw hb
    obtain rfl := Except.ok.inj (hi'.symm.trans hi)
    refine ⟨b, ?_, congrArg (· % w.operand.bits) hself.symm⟩
    rw [hget, BitTestKind.index]
    split
    · exact exact_sized w b
    · exact extended_sized w b
  · have hindex : κ.index w = w.operand.extended := by
      refine if_neg ?_
      rintro ⟨hκ, hd⟩
      apply htakes hκ hd
      rw [hl]
      rfl
    rw [hl] at hi ⊢
    cases hi
    rw [hindex]
    exact ⟨_, extended_byte_signExtend w b, place_byte b hw⟩

theorem index_fails (vm : VM) (h : p.Decoded op) (hf : p.function = .opcode (.logic κ.function))
    (htakes : ¬κ.Takes w p) : ∃ x, vm.getArg (p.args 1).location >>= κ.index w = .error x := by
  rw [BitTestKind.Takes] at htakes
  push Not at htakes
  obtain ⟨hκ, hd, hbyte⟩ := htakes
  obtain ⟨r', hl⟩ | ⟨b, hl⟩ := h.index_cases hf
  · rw [hl] at hbyte
    cases hso : p.sizeOverride with
    | true | false =>
      rw [hso] at hbyte
      cases hbyte
  · rw [hl, BitTestKind.index, if_pos ⟨hκ, hd⟩, hd]
    exact ⟨_, rfl⟩

end Index

section Run

theorem BitTestKind.run_eq (hp : p.HasWidth w) (hw : w ≠ .byte) (vm : VM) :
    (κ.function.logic p).run vm =
      (bitTestWith w.operand (κ.index w) κ.stores p : Op .straight Unit).run vm := by
  cases κ with
  | reset =>
    cases w with
    | byte => exact absurd rfl hw
    | word => exact congrArg (Op.run · vm) (if_pos hp)
    | dword => exact congrArg (Op.run · vm) (if_neg hp.not_override)
  | test | set | complement =>
    exact nativeWord_run hp hw (fun w ↦ bitTestWith w w.extended _) vm

variable (h : p.Decoded op) (hf : p.function = .opcode (.logic κ.function)) (hp : p.HasWidth w)
  (hw : w ≠ .byte) (hr : (p.args 0).location = .registerValue r w.operand.size)
  (hv : vm.getReg r w.operand.size = w.operand.sized v)
  (hi : vm.getArg (p.args 1).location >>= SizedValue.u32Zx = .ok i)

include h hf hp hw hr hv

theorem bitTest_fails (htakes : ¬κ.Takes w p) :
    ∃ x, (κ.function.logic p).run vm = (.err x, vm) := by
  obtain ⟨x, hx⟩ := index_fails vm h hf htakes
  have hget : vm.getArg (p.args 0).location = .ok (w.operand.sized v) := by
    rw [hr]
    exact congrArg Except.ok hv
  refine ⟨x, ?_⟩
  rw [BitTestKind.run_eq hp hw, bitTestWith, run_bind, run_getArgAs, exact_destination hget,
    Outcome.ofExcept_ok, runBind_ok, run_bind, run_getArgAs, hx]
  rfl

include hi

theorem bitTest_run (htakes : κ.Takes w p) (hk : i.toNat % w.operand.bits = k) :
    (κ.function.logic p).run vm = (.ok (), vm.bitTested κ w r v k) := by
  obtain ⟨b, hb, hplace⟩ := index_reads h hf hp hw hi htakes
  have hget : vm.getArg (p.args 0).location = .ok (w.operand.sized v) := by
    rw [hr]
    exact congrArg Except.ok hv
  have hlt : k < w.operand.bits := by
    rw [← hk]
    exact Nat.mod_lt _ w.bits_pos
  have hstore : ∀ x : BitVec w.operand.bits, vm.setArg (p.args 0).location (w.operand.sized x) =
      .ok (vm.setReg r (w.operand.sized x)) := by
    intro x
    rw [hr]
    exact ArgLocation.setArg_register vm r x
  rw [BitTestKind.run_eq hp hw, bitTestWith_run hget hb, hplace, hk]
  cases κ with
  | test =>
    rw [VM.bitTested, BitTestKind.apply, withBit_self v hlt, VM.setReg_self hv]
    rfl
  | set | reset | complement => exact stored_ok (hstore _)

end Run

theorem bitTested_bitTested (hk : k < w.operand.bits)
    (hv : vm.getReg r w.operand.size = w.operand.sized v) :
    (vm.bitTested .complement w r v k).bitTested .complement w r (withBit v k !v.getLsbD k) k =
      { vm with flags := { vm.flags with carry := !v.getLsbD k } } := by
  have hbit : (withBit v k !v.getLsbD k).getLsbD k = !v.getLsbD k := by
    rw [getLsbD_withBit _ _ hk, if_pos rfl]
  have hback : withBit (withBit v k !v.getLsbD k) k (!!v.getLsbD k) = v := by
    rw [withBit_withBit _ _ hk, Bool.not_not, withBit_self v hk]
  have hstate : (vm.setReg r (w.operand.sized (withBit v k !v.getLsbD k))).setReg r
      (w.operand.sized v) = vm := (VM.setReg_setReg vm r _ v).trans (VM.setReg_self hv)
  have hflags : (vm.bitTested .complement w r v k).setReg r (w.operand.sized v) =
      { vm with flags := { vm.flags with carry := v.getLsbD k } } :=
    (VM.setReg_flags _ _ r _).trans (congrArg (fun t : VM ↦
      { t with flags := { vm.flags with carry := v.getLsbD k } }) hstate)
  rw [VM.bitTested, hbit]
  simp only [BitTestKind.apply, hback]
  rw [hflags]
  rfl

section Again

theorem bits_eq_pow (w : ElementWidth) : w.operand.bits = 2 ^ Nat.log2 w.operand.bits := by
  cases w with
  | byte | word | dword => decide

variable (h : p.Decoded op) (hf : p.function = .opcode (.logic (BitTestKind.function .complement)))
  (hp : p.HasWidth w) (hw : w ≠ .byte)
  (hr : (p.args 0).location = .registerValue r w.operand.size)
  (hv : vm.getReg r w.operand.size = w.operand.sized v)
  (hi : vm.getArg (p.args 1).location >>= SizedValue.u32Zx = .ok i)
  (hk : i.toNat % w.operand.bits = k)

include h hf hp hw hr hv hi hk

theorem index_bitTested : ∃ j : BitVec 32,
    (vm.bitTested .complement w r v k).getArg (p.args 1).location >>= SizedValue.u32Zx = .ok j ∧
      (j.toNat % w.operand.bits = k ↔ BitTestKind.complement.Keeps w p r k) := by
  have hlt : k < w.operand.bits := by
    rw [← hk]
    exact Nat.mod_lt _ w.bits_pos
  by_cases hl : (p.args 1).location = .registerValue r w.operand.size
  · have hread : (vm.bitTested .complement w r v k).getReg r w.operand.size =
        w.operand.sized (withBit v k !v.getLsbD k) := VM.getReg_setReg vm r _
    obtain ⟨i', hi', hself⟩ := index_self hw hv
    obtain ⟨j, hj, hflip⟩ := index_self hw hread
    rw [hl] at hi ⊢
    obtain rfl := Except.ok.inj (hi'.symm.trans hi)
    refine ⟨j, hj, ?_⟩
    have hkeeps : BitTestKind.complement.Keeps w p r k ↔ Nat.log2 w.operand.bits ≤ k := by
      rw [BitTestKind.Keeps, imp_iff_right rfl, imp_iff_right hl]
    rw [hkeeps, ← withBit_mod_eq_iff v hlt, ← bits_eq_pow, hflip, ← hself, hk]
  · have hsame : (vm.bitTested .complement w r v k).getArg (p.args 1).location =
        vm.getArg (p.args 1).location := by
      obtain ⟨r', hr'⟩ | ⟨b, hb⟩ := h.index_cases hf
      · rw [hp.nativeSize_eq hw] at hr'
        have hne : r' ≠ r := by
          rintro rfl
          exact hl hr'
        rw [hr']
        exact congrArg Except.ok (VM.getReg_setReg_of_ne vm hne _)
      · rw [hb]
        rfl
    rw [hsame]
    exact ⟨i, hi, iff_of_true hk fun _ h ↦ absurd h hl⟩

theorem bitTest_again : (LogicFn.logic (BitTestKind.function .complement) p).run
      (vm.bitTested .complement w r v k) =
        (.ok (), { vm with flags := { vm.flags with carry := !v.getLsbD k } }) ↔
      BitTestKind.complement.Keeps w p r k := by
  have hlt : k < w.operand.bits := by
    rw [← hk]
    exact Nat.mod_lt _ w.bits_pos
  have hread : (vm.bitTested .complement w r v k).getReg r w.operand.size =
      w.operand.sized (withBit v k !v.getLsbD k) := VM.getReg_setReg vm r _
  obtain ⟨j, hj, hkeeps⟩ := index_bitTested h hf hp hw hr hv hi hk
  have hagain := bitTest_run h hf hp hw hr hread hj nofun rfl
  rw [hagain, ← hkeeps]
  constructor
  · intro heq
    by_contra hne
    have hplace : j.toNat % w.operand.bits < w.operand.bits :=
      Nat.mod_lt _ w.bits_pos
    have hstored := congrArg (fun o ↦ o.2.getReg r w.operand.size) heq
    have hbit : (withBit (withBit v k !v.getLsbD k) (j.toNat % w.operand.bits)
        !(withBit v k !v.getLsbD k).getLsbD (j.toNat % w.operand.bits)).getLsbD k =
          v.getLsbD k :=
      congrArg (BitVec.getLsbD · k) (ElementWidth.sized_injective
        ((VM.getReg_setReg _ r _).symm.trans (hstored.trans hv)))
    rw [getLsbD_withBit _ _ hplace, if_neg (Ne.symm hne), getLsbD_withBit _ _ hlt, if_pos rfl]
      at hbit
    exact Bool.not_ne_self _ hbit
  · intro hsame
    rw [hsame, bitTested_bitTested hlt hv]

end Again

/-- When a bit test of a register is one operation on one bit. -/
theorem bitTest_exact_iff (κ : BitTestKind) (w : ElementWidth) (hw : w ≠ .byte)
    (p q : Pipeline) {op op' : Opcode} (hp : p.Decoded op) (hq : q.Decoded op')
    (hpf : p.function = .opcode (.logic κ.function))
    (hqf : q.function = .opcode (.logic κ.function)) (hpw : p.HasWidth w) (hqw : q.HasWidth w)
    (r : Register) (hpr : (p.args 0).location = .registerValue r w.operand.size)
    (hqr : (q.args 0).location = .registerValue r w.operand.size) (vm : VM)
    (v : BitVec w.operand.bits) (hv : vm.getReg r w.operand.size = w.operand.sized v)
    (i j : BitVec 32) (hi : vm.getArg (p.args 1).location >>= SizedValue.u32Zx = .ok i)
    (hj : vm.getArg (q.args 1).location >>= SizedValue.u32Zx = .ok j)
    (hij : j.toNat % w.operand.bits = i.toNat % w.operand.bits) :
    κ.Encoded ∧ (BitTests κ w p q vm r v (i.toNat % w.operand.bits) ↔
      (κ.Takes w p ∧ κ.Takes w q) ∧ κ.Keeps w p r (i.toNat % w.operand.bits) ∧
        κ.Keeps w q r (i.toNat % w.operand.bits)) := by
  refine ⟨κ.encoded, ?_, ?_⟩
  · intro h
    refine ⟨⟨?_, ?_⟩, ?_, ?_⟩
    · by_contra htakes
      obtain ⟨x, hx⟩ := bitTest_fails hp hpf hpw hw hpr hv htakes
      cases hx.symm.trans h.step
    · by_contra htakes
      obtain ⟨x, hx⟩ := bitTest_fails hq hqf hqw hw hqr hv htakes
      cases hx.symm.trans (h.agrees.trans h.step)
    · rintro rfl
      exact (bitTest_again hp hpf hpw hw hpr hv hi rfl).mp (h.twice rfl p (.inl rfl)) rfl
    · rintro rfl
      exact (bitTest_again hq hqf hqw hw hqr hv hj hij).mp (h.twice rfl q (.inr rfl)) rfl
  · rintro ⟨⟨hptakes, hqtakes⟩, hpkeeps, hqkeeps⟩
    have hstep := bitTest_run hp hpf hpw hw hpr hv hi hptakes rfl
    refine ⟨hstep, ?_, ?_⟩
    · exact (bitTest_run hq hqf hqw hw hqr hv hj hqtakes hij).trans hstep.symm
    · rintro rfl s (rfl | rfl)
      · exact (bitTest_again hp hpf hpw hw hpr hv hi rfl).mpr hpkeeps
      · exact (bitTest_again hq hqf hqw hw hqr hv hj hij).mpr hqkeeps

section Forms

def BitTestKind.slot (κ : BitTestKind) (so : Bool) (r : Register) (index : ArgLocation) :
    Pipeline :=
  { operandSlot so ![.registerValue r (nativeSize so), index, .none] with
    function := .opcode (.logic κ.function) }

theorem BitTestKind.decoded_register (κ : BitTestKind) (so : Bool) (r r' : Register) :
    (κ.slot so r (.registerValue r' (nativeSize so))).Decoded
      ((entryOf true κ.opcode).opcodes 0) := by
  refine .of_row (by cases κ <;> decide) (κ.encoded.1 0) rfl ?_
  intro n
  match n with
  | 0 | 1 | 2 => exact ⟨{ modrm := ⟨r, r', 3⟩ }, 0, [], 0, rfl⟩

theorem BitTestKind.decoded_byte (κ : BitTestKind) (so : Bool) (r : Register) (b : BitVec 8) :
    (κ.slot so r (.immediate (.byte b))).Decoded ((entryOf true 0xBA).opcodes κ.extension) := by
  refine .of_row (by decide) κ.encoded.2 rfl ?_
  intro n
  match n with
  | 0 | 2 => exact ⟨{ modrm := ⟨r, 0, 3⟩ }, 0, [], 0, rfl⟩
  | 1 => exact ⟨{ modrm := ⟨r, 0, 3⟩ }, 0, [b], 1, rfl⟩

end Forms

theorem bitTest_exact_iff_complement :
    BitTests .complement .dword (BitTestKind.complement.slot false eax (.registerValue ebx .dword))
      (BitTestKind.complement.slot false eax (.immediate (.byte 3))) (twoRegisters 8 35) eax
      (8 : BitVec 32) 3 := by
  have hiff := (bitTest_exact_iff .complement .dword nofun _ _
    (BitTestKind.complement.decoded_register false eax ebx)
    (BitTestKind.complement.decoded_byte false eax 3) rfl rfl rfl rfl eax rfl rfl
    (twoRegisters 8 35) (8 : BitVec 32) rfl 35 3 rfl rfl rfl).2
  refine hiff.mpr ⟨⟨nofun, nofun⟩, ?_, ?_⟩
  · intro _ hl
    cases hl
  · intro _ hl
    cases hl

/-- A bit of EAX cannot be cleared by a byte. -/
theorem btr_byteIndex : ¬∀ (κ : BitTestKind) (w : ElementWidth) (p q : Pipeline)
    (op op' : Opcode) (r : Register) (vm : VM) (v : BitVec w.operand.bits) (i j : BitVec 32),
    w ≠ .byte → p.Decoded op → q.Decoded op' → p.function = .opcode (.logic κ.function) →
      q.function = .opcode (.logic κ.function) → p.HasWidth w → q.HasWidth w →
        (p.args 0).location = .registerValue r w.operand.size →
          (q.args 0).location = .registerValue r w.operand.size →
            vm.getReg r w.operand.size = w.operand.sized v →
              vm.getArg (p.args 1).location >>= SizedValue.u32Zx = .ok i →
                vm.getArg (q.args 1).location >>= SizedValue.u32Zx = .ok j →
                  j.toNat % w.operand.bits = i.toNat % w.operand.bits →
                    BitTests κ w p q vm r v (i.toNat % w.operand.bits) := by
  intro h
  have hdecoded := BitTestKind.reset.decoded_byte false eax 3
  have hexact := h .reset .dword _ _ _ _ eax (twoRegisters 8 0) (8 : BitVec 32) 3 3 nofun hdecoded
    hdecoded rfl rfl rfl rfl rfl rfl rfl rfl rfl rfl
  cases hexact.step

end Qx86
