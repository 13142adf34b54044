import Qx86.Decode.Rows

namespace Qx86

open Foundation Outcome Bytes

section Bytes

def extendedBytes (so : Bool) (b : BitVec 8) : List (BitVec 8) :=
  leBytes (nativeSize so).bytes (b.signExtend (nativeWidth so).bits)

def registerModrm (reg rm : Fin 8) : BitVec 8 := BitVec.ofNat 8 (0xC0 + 8 * reg.val + rm.val)

def displacementModrm : BitVec 8 := 0x05

end Bytes

section Operands

/-- The operand that a ModRM byte and what follows it name. -/
def ParsedModRM.location (m : ParsedModRM) (size : ValueSize) : ArgLocation :=
  (m.modrm.decode (m.sib.getD {}) (m.disp.getD 0) size).location

theorem registerModrm_spec (reg rm : Fin 8) :
    regField (registerModrm reg rm) = reg ∧ IsModrm [registerModrm reg rm] ∧
      ModRM.parse (registerModrm reg rm) = ⟨rm, reg, 3⟩ := by
  revert reg rm
  unfold IsModrm
  decide +kernel

theorem registerModrm_location (reg rm : Fin 8) (size : ValueSize) :
    (ParsedModRM.ofBytes [registerModrm reg rm]).location size = .registerValue rm size ∧
      (ParsedModRM.ofBytes [registerModrm reg rm]).modrm.reg = reg := by
  have hparse := (registerModrm_spec reg rm).2.2
  have hmodrm : (ParsedModRM.ofBytes [registerModrm reg rm]).modrm = ⟨rm, reg, 3⟩ := hparse
  rw [ParsedModRM.location, hmodrm]
  exact ⟨rfl, rfl⟩

theorem displacementModrm_sizes (sib : BitVec 8) :
    sibSize displacementModrm = 0 ∧ dispSize displacementModrm sib = 4 := by
  revert sib
  decide +kernel

theorem displacementModrm_register :
    regField displacementModrm = 0 ∧ (ModRM.parse displacementModrm).reg = 0 := by
  decide +kernel

theorem displacementModrm_isModrm {a : List (BitVec 8)} (h : a.length = 4) :
    IsModrm (displacementModrm :: a) := by
  obtain ⟨hsib, hdisp⟩ := displacementModrm_sizes (a.headD 0)
  rw [IsModrm, List.length_cons, h, addressingSize, List.headD_cons, List.tail_cons, hsib, hdisp]

theorem displacementModrm_location (a : List (BitVec 8)) (size : ValueSize) :
    (ParsedModRM.ofBytes (displacementModrm :: a)).location size =
      .address (fromLeBytes 32 (a.take 4)) size := by
  obtain ⟨hsib, hdisp⟩ := displacementModrm_sizes (a.headD 0)
  simp only [ParsedModRM.location, ParsedModRM.ofBytes, List.headD_cons, List.tail_cons, hsib,
    hdisp]
  rfl

theorem fromLeBytes_take {w n : ℕ} (hw : w = 8 * n) (x : BitVec w) :
    fromLeBytes w ((leBytes n x).take n) = x := by
  rw [List.take_of_length_le (by rw [leBytes_length]), fromLeBytes_leBytes n x hw]

theorem immediateOf_leBytes (so : Bool) (x : BitVec (nativeWidth so).bits) :
    immediateOf (leBytes (nativeSize so).bytes x) (nativeSize so) = (nativeWidth so).sized x := by
  cases so with
  | true => exact congrArg SizedValue.word (fromLeBytes_take (n := 2) rfl x)
  | false => exact congrArg SizedValue.dword (fromLeBytes_take (n := 4) rfl x)

end Operands

section Forms

variable {so : Bool} {modrm imm : List (BitVec 8)} {opcode : BitVec 8} {f : LogicFn}
  {s : OpcodeValueSize}

theorem encodes_rm_imm8
    (h : MapRow true opcode (regField (modrm.headD 0)) f
      [(.modRM, s), (.immediateValue, .fixed .byte)]) (hmodrm : IsModrm modrm) (b : BitVec 8) :
    Encodes so (opcode :: (modrm ++ [b])) f
      ![(ParsedModRM.ofBytes modrm).location (s.toFixed so), .immediate (.byte b), .none] := by
  apply h.encodes hmodrm rfl
  intro n
  match n with
  | 0 | 1 | 2 => rfl

theorem encodes_rm_imm
    (h : MapRow true opcode (regField (modrm.headD 0)) f
      [(.modRM, .nativeWord), (.immediateValue, .nativeWord)]) (hmodrm : IsModrm modrm)
    (himm : imm.length = (nativeSize so).bytes) :
    Encodes so (opcode :: (modrm ++ imm)) f
      ![(ParsedModRM.ofBytes modrm).location (nativeSize so),
        .immediate (immediateOf imm (nativeSize so)), .none] := by
  apply h.encodes hmodrm
  · change 0 + (nativeSize so).bytes + 0 = imm.length
    omega
  · intro n
    match n with
    | 0 | 1 | 2 => rfl

section Registers

variable {reg rm : Fin 8}

theorem registerModrm_row {args : List (ArgSource × OpcodeValueSize)}
    (h : MapRow true opcode reg f args) :
    MapRow true opcode (regField ([registerModrm reg rm].headD 0)) f args := by
  rw [List.headD_cons, (registerModrm_spec reg rm).1]
  exact h

theorem encodes_rm (h : MapRow true opcode reg f [(.modRM, s)]) (rm : Fin 8) :
    Encodes so [opcode, registerModrm reg rm] f
      ![.registerValue rm (s.toFixed so), .none, .none] := by
  apply (registerModrm_row h).encodesModrm (registerModrm_spec reg rm).2.1 rfl
  intro n
  match n with
  | 0 => exact (registerModrm_location reg rm _).1
  | 1 | 2 => rfl

theorem encodes_rm_reg (h : MapRow true opcode reg f [(.modRM, s), (.modRMReg, s)])
    (rm : Fin 8) : Encodes so [opcode, registerModrm reg rm] f
      ![.registerValue rm (s.toFixed so), .registerValue reg (s.toFixed so), .none] := by
  apply (registerModrm_row h).encodesModrm (registerModrm_spec reg rm).2.1 rfl
  intro n
  match n with
  | 0 => exact (registerModrm_location reg rm _).1
  | 1 => exact congrArg (ArgLocation.registerValue · _) (registerModrm_location reg rm .none).2
  | 2 => rfl

theorem encodes_reg_rm (h : MapRow true opcode reg f [(.modRMReg, s), (.modRM, s)])
    (rm : Fin 8) : Encodes so [opcode, registerModrm reg rm] f
      ![.registerValue reg (s.toFixed so), .registerValue rm (s.toFixed so), .none] := by
  apply (registerModrm_row h).encodesModrm (registerModrm_spec reg rm).2.1 rfl
  intro n
  match n with
  | 0 => exact congrArg (ArgLocation.registerValue · _) (registerModrm_location reg rm .none).2
  | 1 => exact (registerModrm_location reg rm _).1
  | 2 => rfl

theorem encodes_register_imm8
    (h : MapRow true opcode reg f [(.modRM, s), (.immediateValue, .fixed .byte)]) (rm : Fin 8)
    (b : BitVec 8) : Encodes so [opcode, registerModrm reg rm, b] f
      ![.registerValue rm (s.toFixed so), .immediate (.byte b), .none] := by
  have henc := @encodes_rm_imm8 so _ _ _ _ (registerModrm_row h) (registerModrm_spec reg rm).2.1 b
  rw [(registerModrm_location reg rm _).1] at henc
  exact henc

theorem encodes_register_imm
    (h : MapRow true opcode reg f [(.modRM, .nativeWord), (.immediateValue, .nativeWord)])
    (rm : Fin 8) (himm : imm.length = (nativeSize so).bytes) :
    Encodes so (opcode :: registerModrm reg rm :: imm) f
      ![.registerValue rm (nativeSize so), .immediate (immediateOf imm (nativeSize so)),
        .none] := by
  have henc := encodes_rm_imm (registerModrm_row h) (registerModrm_spec reg rm).2.1 himm
  rw [(registerModrm_location reg rm _).1] at henc
  exact henc

end Registers

section Accumulator

theorem encodes_accumulator8 {r : Register}
    (h : MapRow false opcode 0 f
      [(.hardcodedRegister r, .fixed .byte), (.immediateValue, .fixed .byte)]) (b : BitVec 8) :
    Encodes so [opcode, b] f ![.registerValue r .byte, .immediate (.byte b), .none] := by
  apply h.encodesPlain rfl
  intro n
  match n with
  | 0 | 1 | 2 => rfl

theorem encodes_accumulator
    (h : MapRow false opcode 0 f
      [(.hardcodedRegister .eax, .nativeWord), (.immediateValue, .nativeWord)])
    (himm : imm.length = (nativeSize so).bytes) :
    Encodes so (opcode :: imm) f ![.registerValue .eax (nativeSize so),
      .immediate (immediateOf imm (nativeSize so)), .none] := by
  apply h.encodesPlain
  · change 0 + (nativeSize so).bytes + 0 = imm.length
    omega
  · intro n
    match n with
    | 0 | 1 | 2 => rfl

end Accumulator

section Suffix

theorem encodes_suffix {base : ℕ} {r : Fin 8}
    (h : MapRow false (BitVec.ofNat 8 (base + r.val)) 0 f [(.registerSuffix, s)])
    (hr : Fin.ofNat 8 (BitVec.ofNat 8 (base + r.val) &&& 7).toNat = r) :
    Encodes so [BitVec.ofNat 8 (base + r.val)] f
      ![.registerValue r (s.toFixed so), .none, .none] := by
  apply h.encodesPlain rfl
  intro n
  match n with
  | 0 => exact congrArg (ArgLocation.registerValue · _) hr
  | 1 | 2 => rfl

theorem encodes_suffix_imm8 {base : ℕ} {r : Fin 8}
    (h : MapRow false (BitVec.ofNat 8 (base + r.val)) 0 f
      [(.registerSuffix, s), (.immediateValue, .fixed .byte)])
    (hr : Fin.ofNat 8 (BitVec.ofNat 8 (base + r.val) &&& 7).toNat = r) (b : BitVec 8) :
    Encodes so [BitVec.ofNat 8 (base + r.val), b] f
      ![.registerValue r (s.toFixed so), .immediate (.byte b), .none] := by
  apply h.encodesPlain rfl
  intro n
  match n with
  | 0 => exact congrArg (ArgLocation.registerValue · _) hr
  | 1 | 2 => rfl

theorem encodes_suffix_imm {base : ℕ} {r : Fin 8}
    (h : MapRow false (BitVec.ofNat 8 (base + r.val)) 0 f
      [(.registerSuffix, .nativeWord), (.immediateValue, .nativeWord)])
    (hr : Fin.ofNat 8 (BitVec.ofNat 8 (base + r.val) &&& 7).toNat = r)
    (himm : imm.length = (nativeSize so).bytes) :
    Encodes so (BitVec.ofNat 8 (base + r.val) :: imm) f
      ![.registerValue r (nativeSize so), .immediate (immediateOf imm (nativeSize so)),
        .none] := by
  apply h.encodesPlain
  · change 0 + (nativeSize so).bytes + 0 = imm.length
    omega
  · intro n
    match n with
    | 0 => exact congrArg (ArgLocation.registerValue · _) hr
    | 1 | 2 => rfl

end Suffix

section Offset

variable {a : List (BitVec 8)}

theorem encodes_load (h : MapRow true opcode 0 f [(.modRMReg, s), (.modRM, s)])
    (ha : a.length = 4) : Encodes so (opcode :: displacementModrm :: a) f
      ![.registerValue 0 (s.toFixed so), .address (fromLeBytes 32 (a.take 4)) (s.toFixed so),
        .none] := by
  rw [← displacementModrm_register.1] at h
  apply h.encodesModrm (displacementModrm_isModrm ha) rfl
  intro n
  match n with
  | 0 => exact congrArg (ArgLocation.registerValue · _) displacementModrm_register.2
  | 1 => exact displacementModrm_location a _
  | 2 => rfl

theorem encodes_store (h : MapRow true opcode 0 f [(.modRM, s), (.modRMReg, s)])
    (ha : a.length = 4) : Encodes so (opcode :: displacementModrm :: a) f
      ![.address (fromLeBytes 32 (a.take 4)) (s.toFixed so), .registerValue 0 (s.toFixed so),
        .none] := by
  rw [← displacementModrm_register.1] at h
  apply h.encodesModrm (displacementModrm_isModrm ha) rfl
  intro n
  match n with
  | 0 => exact displacementModrm_location a _
  | 1 => exact congrArg (ArgLocation.registerValue · _) displacementModrm_register.2
  | 2 => rfl

theorem encodes_loadOffset
    (h : MapRow false opcode 0 f [(.hardcodedRegister 0, s), (.immediateAddress, s)])
    (ha : a.length = 4) : Encodes so (opcode :: a) f
      ![.registerValue 0 (s.toFixed so), .address (fromLeBytes 32 (a.take 4)) (s.toFixed so),
        .none] := by
  apply h.encodesPlain ha.symm
  intro n
  match n with
  | 0 | 1 | 2 => rfl

theorem encodes_storeOffset
    (h : MapRow false opcode 0 f [(.immediateAddress, s), (.hardcodedRegister 0, s)])
    (ha : a.length = 4) : Encodes so (opcode :: a) f
      ![.address (fromLeBytes 32 (a.take 4)) (s.toFixed so), .registerValue 0 (s.toFixed so),
        .none] := by
  apply h.encodesPlain ha.symm
  intro n
  match n with
  | 0 | 1 | 2 => rfl

end Offset

section Shifts

/-- The rows of a shift with the given source of its count; the group has no sixth function. -/
def shiftArgs (k : Fin 8) (s : OpcodeValueSize) (count : ArgSource) :
    List (ArgSource × OpcodeValueSize) :=
  if k = 6 then [] else [(.modRM, s), (count, .fixed .byte)]

def shiftLocations (modrm : List (BitVec 8)) (size : ValueSize) (count : ArgLocation) :
    Fin 3 → ArgLocation :=
  if regField (modrm.headD 0) = 6 then ![.none, .none, .none]
  else ![(ParsedModRM.ofBytes modrm).location size, count, .none]

theorem encodes_shift {count : ArgSource} {l : ArgLocation}
    (h : MapRow true opcode (regField (modrm.headD 0)) f
      (shiftArgs (regField (modrm.headD 0)) s count)) (hmodrm : IsModrm modrm)
    (hl : count = .literal (.byte 1) ∧ l = .immediate (.byte 1) ∨
      count = .hardcodedRegister .cl ∧ l = .registerValue .cl .byte) :
    Encodes so (opcode :: modrm) f (shiftLocations modrm (s.toFixed so) l) := by
  rw [shiftArgs] at h
  rw [shiftLocations]
  by_cases hk : regField (modrm.headD 0) = 6
  · rw [if_pos hk] at h ⊢
    apply h.encodesModrm hmodrm rfl
    intro n
    match n with
    | 0 | 1 | 2 => rfl
  · rw [if_neg hk] at h ⊢
    obtain ⟨rfl, rfl⟩ | ⟨rfl, rfl⟩ := hl
    · apply h.encodesModrm hmodrm rfl
      intro n
      match n with
      | 0 | 1 | 2 => rfl
    · apply h.encodesModrm hmodrm rfl
      intro n
      match n with
      | 0 | 1 | 2 => rfl

theorem encodes_shiftImmediate
    (h : MapRow true opcode (regField (modrm.headD 0)) f
      (shiftArgs (regField (modrm.headD 0)) s .immediateValue)) (hmodrm : IsModrm modrm)
    (b : BitVec 8) : Encodes so (opcode :: (modrm ++ [b])) f
      (shiftLocations modrm (s.toFixed so) (.immediate (.byte b))) := by
  rw [shiftArgs] at h
  rw [shiftLocations]
  by_cases hk : regField (modrm.headD 0) = 6
  · rw [if_pos hk] at h ⊢
    have henc : Encodes so (opcode :: modrm) f ![.none, .none, .none] := by
      apply h.encodesModrm hmodrm rfl
      intro n
      match n with
      | 0 | 1 | 2 => rfl
    exact henc.append [b]
  · rw [if_neg hk] at h ⊢
    exact encodes_rm_imm8 h hmodrm b

end Shifts

end Forms

end Qx86
