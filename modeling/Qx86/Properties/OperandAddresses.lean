import Qx86.Decode.Addressing
import Qx86.Machine.Widths

namespace Qx86

open Foundation Outcome Bytes

/-- An operand, as the 32-bit addressing tables name it. -/
inductive RmOperand where
  | register (r : Register)
  | memory (base : Option Register) (index : Option (Register × Fin 4)) (disp : BitVec 32)
  deriving DecidableEq

def RmOperand.isMemory : RmOperand → Bool
  | .register _ => false
  | .memory .. => true

/-- The displacement after the ModRM and SIB bytes, extended by its sign. -/
def displacement (bytes : List (BitVec 8)) : BitVec 32 :=
  let disp := bytes.drop (1 + sibSize (bytes.headD 0))
  match dispSize (bytes.headD 0) (bytes.tail.headD 0) with
  | 0 => 0
  | 1 => (disp.headD 0).signExtend 32
  | _ => fromLeBytes 32 (disp.take 4)

def RmOperand.ofBytes (bytes : List (BitVec 8)) : RmOperand :=
  let modrm := bytes.headD 0
  let sib := bytes.tail.headD 0
  if modField modrm = 3 then .register (rmField modrm)
  else if rmField modrm = 4 then
    .memory (if modField modrm = 0 ∧ rmField sib = 5 then none else some (rmField sib))
      (if regField sib = 4 then none else some (regField sib, modField sib)) (displacement bytes)
  else if modField modrm = 0 ∧ rmField modrm = 5 then .memory none none (displacement bytes)
  else .memory (some (rmField modrm)) none (displacement bytes)

/-- The address of a memory operand: base, index times scale and displacement. -/
def effectiveAddress (base : Option Register) (index : Option (Register × Fin 4))
    (disp : BitVec 32) (regs : Register → BitVec 32) : BitVec 32 :=
  (base.map regs).getD 0 + (index.map fun i ↦ regs i.1 * BitVec.ofNat 32 (2 ^ i.2.val)).getD 0 +
    disp

/-- A location whose reads, writes and address computations all go to one address. -/
structure ArgLocation.AccessesAt (loc : ArgLocation) (size : ValueSize)
    (address : (Register → BitVec 32) → BitVec 32) : Prop where
  lea : ∀ vm : VM, vm.getArgLea loc = .ok (address vm.regs)
  read : ∀ vm : VM, vm.getArg loc = vm.getMem (address vm.regs) size
  write : ∃ convert : SizedValue → Except VMError SizedValue,
    (∀ v, v.size = size → size ≠ .none → size ≠ .qword → convert v = .ok v) ∧
    ∀ (vm : VM) v, vm.setArg loc v = convert v >>= vm.setMem (address vm.regs)

def ArgLocation.Denotes (loc : ArgLocation) (size : ValueSize) : RmOperand → Prop
  | .register r => loc = .registerValue r size
  | .memory base index disp => loc.AccessesAt size (effectiveAddress base index disp)

theorem convertSizeZx_self {v : SizedValue} {size : ValueSize} (h : v.size = size)
    (hn : size ≠ .none) (hq : size ≠ .qword) : v.convertSizeZx size = .ok v := by
  subst h
  cases v with
  | none => exact absurd rfl hn
  | qword => exact absurd rfl hq
  | byte | word | dword => rfl

theorem convertSizeTrunc_self {v : SizedValue} {size : ValueSize} (h : v.size = size) :
    v.convertSizeTrunc size = v := by
  subst h
  cases v <;> rfl

theorem accessesAt_address (a : BitVec 32) (s : ValueSize) :
    (ArgLocation.address a s).AccessesAt s fun _ ↦ a where
  lea _ := rfl
  read _ := rfl
  write := ⟨fun v ↦ v.convertSizeZx s, fun _ h hn hq ↦ convertSizeZx_self h hn hq, fun _ _ ↦ rfl⟩

theorem accessesAt_registerAddress (r : Register) (s : ValueSize) :
    (ArgLocation.registerAddress r s).AccessesAt s fun regs ↦ regs r where
  lea _ := rfl
  read _ := rfl
  write := ⟨fun v ↦ v.convertSizeZx s, fun _ h hn hq ↦ convertSizeZx_self h hn hq, fun _ _ ↦ rfl⟩

theorem accessesAt_modRMAddress (disp : BitVec 32) (r : Register) (s : ValueSize) :
    (ArgLocation.modRMAddress disp r s).AccessesAt s fun regs ↦ disp + regs r where
  lea _ := rfl
  read _ := rfl
  write := ⟨fun v ↦ .ok (v.convertSizeTrunc s),
    fun _ h _ _ ↦ congrArg Except.ok (convertSizeTrunc_self h), fun _ _ ↦ rfl⟩

theorem accessesAt_sibAddress (disp : BitVec 32) (base : Option Register) (scale : BitVec 8)
    (index : Option Register) (s : ValueSize) :
    (ArgLocation.sibAddress disp base scale index s).AccessesAt s fun regs ↦
      (base.map regs).getD 0 + (index.map regs).getD 0 * scale.setWidth 32 + disp where
  lea _ := rfl
  read _ := rfl
  write := ⟨fun v ↦ .ok (v.convertSizeTrunc s),
    fun _ h _ _ ↦ congrArg Except.ok (convertSizeTrunc_self h), fun _ _ ↦ rfl⟩

theorem ofBytes_disp (bytes : List (BitVec 8)) :
    (ParsedModRM.ofBytes bytes).disp.getD 0 = displacement bytes := by
  obtain h | h | h := dispSize_cases (bytes.headD 0) (bytes.tail.headD 0)
  all_goals simp only [ParsedModRM.ofBytes, displacement, h, Option.getD_none, Option.getD_some]

theorem scale_setWidth (scale : Fin 4) :
    (((1 <<< scale.val : ℕ) : BitVec 8)).setWidth 32 = BitVec.ofNat 32 (2 ^ scale.val) := by
  revert scale
  decide

theorem denotes_sib (disp : BitVec 32) (base : Option Register) (index : Register)
    (scale : Fin 4) (s : ValueSize) :
    (ArgLocation.sibAddress disp base (1 <<< scale.val : ℕ)
      (if index = 4 then none else some index) s).Denotes s
      (.memory base (if index = 4 then none else some (index, scale)) disp) := by
  have heq : effectiveAddress base (if index = 4 then none else some (index, scale)) disp =
      fun regs : Register → BitVec 32 ↦ (base.map regs).getD 0 +
        ((if index = 4 then none else some index).map regs).getD 0 *
          ((1 <<< scale.val : ℕ) : BitVec 8).setWidth 32 + disp := by
    funext regs
    rw [scale_setWidth]
    by_cases hi : index = 4
    · simp [effectiveAddress, hi]
    · simp [effectiveAddress, hi]
  rw [ArgLocation.Denotes, heq]
  exact accessesAt_sibAddress ..

theorem denotes_address (disp : BitVec 32) (s : ValueSize) :
    (ArgLocation.address disp s).Denotes s (.memory none none disp) := by
  have heq : effectiveAddress none none disp = fun _ ↦ disp := by
    funext regs
    simp [effectiveAddress]
  rw [ArgLocation.Denotes, heq]
  exact accessesAt_address ..

theorem denotes_registerAddress (r : Register) (s : ValueSize) :
    (ArgLocation.registerAddress r s).Denotes s (.memory (some r) none 0) := by
  have heq : effectiveAddress (some r) none 0 = fun regs ↦ regs r := by
    funext regs
    simp [effectiveAddress]
  rw [ArgLocation.Denotes, heq]
  exact accessesAt_registerAddress ..

theorem denotes_modRMAddress (disp : BitVec 32) (r : Register) (s : ValueSize) :
    (ArgLocation.modRMAddress disp r s).Denotes s (.memory (some r) none disp) := by
  have heq : effectiveAddress (some r) none disp = fun regs ↦ disp + regs r := by
    funext regs
    simp [effectiveAddress, BitVec.add_comm]
  rw [ArgLocation.Denotes, heq]
  exact accessesAt_modRMAddress ..

theorem displacement_of_mode_zero {bytes : List (BitVec 8)} (h₀ : modField (bytes.headD 0) = 0)
    (h₄ : rmField (bytes.headD 0) ≠ 4) (h₅ : rmField (bytes.headD 0) ≠ 5) :
    displacement bytes = 0 := by
  have hz : dispSize (bytes.headD 0) (bytes.tail.headD 0) = 0 := by
    rw [dispSize, h₀]
    simp only [h₄, h₅, false_and, or_self, if_false]
  simp only [displacement, hz]

theorem decode_denotes (bytes : List (BitVec 8)) (s : ValueSize) :
    let p := ParsedModRM.ofBytes bytes
    let arg := p.modrm.decode (p.sib.getD {}) (p.disp.getD 0) s
    arg.location.Denotes s (.ofBytes bytes) ∧
      arg.isMemory = (RmOperand.ofBytes bytes).isMemory := by
  intro p arg
  have hm : p.modrm = ⟨rmField (bytes.headD 0), regField (bytes.headD 0),
      modField (bytes.headD 0)⟩ := ModRM.parse_eq _
  have hd : p.disp.getD 0 = displacement bytes := ofBytes_disp bytes
  simp only [arg, hd, hm, ModRM.decode, RmOperand.ofBytes]
  by_cases h₃ : modField (bytes.headD 0) = 3
  · simp only [h₃, if_true]
    exact ⟨rfl, rfl⟩
  by_cases h₄ : rmField (bytes.headD 0) = 4
  · have hs : p.sib.getD {} = SIB.parse (bytes.tail.headD 0) := by
      simp only [p, ParsedModRM.ofBytes, if_pos ((sibSize_eq_one _).mpr ⟨h₃, h₄⟩),
        Option.getD_some]
    have h₅ : ¬(4 : Fin 8) = 5 := by decide
    simp only [hs, h₃, h₄, h₅, SIB.parse_eq, ne_eq, not_true, and_false, if_false, if_true]
    refine ⟨?_, rfl⟩
    have hbase : (if rmField (bytes.tail.headD 0) = 5 then
        if modField (bytes.headD 0) = 0 then none else some Register.ebp
        else some (rmField (bytes.tail.headD 0))) =
        if modField (bytes.headD 0) = 0 ∧ rmField (bytes.tail.headD 0) = 5 then none
        else some (rmField (bytes.tail.headD 0)) := by
      by_cases hr : rmField (bytes.tail.headD 0) = 5
      · rw [if_pos hr, hr]
        by_cases h₀ : modField (bytes.headD 0) = 0
        · rw [if_pos h₀, if_pos ⟨h₀, rfl⟩]
        · rw [if_neg h₀, if_neg fun h ↦ h₀ h.1]
          rfl
      · rw [if_neg hr, if_neg fun h ↦ hr h.2]
    rw [hbase]
    exact denotes_sib ..
  by_cases h₀ : modField (bytes.headD 0) = 0
  · by_cases h₅ : rmField (bytes.headD 0) = 5
    · simp only [if_neg h₃, if_neg h₄, if_pos (And.intro h₀ h₅)]
      exact ⟨denotes_address .., rfl⟩
    · have hdisp := displacement_of_mode_zero h₀ h₄ h₅
      simp only [if_neg h₃, if_neg h₄, if_neg fun h : _ ∧ _ ↦ h₅ h.2, if_pos (And.intro h₀ h₄),
        hdisp]
      exact ⟨denotes_registerAddress .., rfl⟩
  · have h₁₂ : modField (bytes.headD 0) = 1 ∨ modField (bytes.headD 0) = 2 := by omega
    simp only [if_neg h₃, if_neg h₄, if_neg fun h : _ ∧ _ ↦ h₀ h.1, if_pos (And.intro h₁₂ h₄)]
    exact ⟨denotes_modRMAddress .., rfl⟩

/-- The ModRM parser takes the bytes that the addressing tables prescribe, and the location
it leads to stands for the operand of the tables. -/
theorem operand_addresses {buffer : List (BitVec 8)} (h : 7 ≤ buffer.length) (s : ValueSize) :
    ∃ p, ParsedModRM.fromBytes buffer = .ok p ∧ p.size = addressingSize buffer.tail ∧
      let arg := p.modrm.decode (p.sib.getD {}) (p.disp.getD 0) s
      arg.location.Denotes s (.ofBytes buffer.tail) ∧
        arg.isMemory = (RmOperand.ofBytes buffer.tail).isMemory := by
  have hle := (addressingSize_le buffer.tail).2
  refine ⟨.ofBytes buffer.tail, ?_, rfl, decode_denotes buffer.tail s⟩
  rw [fromBytes_eq (by omega), if_pos (by omega)]

theorem operand_addresses_sib :
    ∃ p, ParsedModRM.fromBytes [0x8B, 0x44, 0x8D, 0xF8, 0x90, 0x90, 0x90] = .ok p ∧ p.size = 3 ∧
      let arg := p.modrm.decode (p.sib.getD {}) (p.disp.getD 0) .dword
      arg.location.Denotes .dword (.memory (some .ebp) (some (.ecx, 2)) (-8)) ∧
        arg.isMemory = true :=
  operand_addresses (by decide) .dword

end Qx86
