import Qx86.Decode.Forms
import Qx86.Execute.Image

namespace Qx86

open Foundation Outcome Bytes Operations

/-- Two encodings of one instruction, behind the prefix that selects the operand size. A shift
by `CL` is one by 1 in a state in which `CL` is 1. -/
inductive Alternative (so : Bool) (vm : VM) : List (BitVec 8) → List (BitVec 8) → Prop
  | immediate (modrm : List (BitVec 8)) (b : BitVec 8) (h : IsModrm modrm) :
    Alternative so vm (0x83 :: (modrm ++ [b])) (0x81 :: (modrm ++ extendedBytes so b))
  | product (modrm : List (BitVec 8)) (b : BitVec 8) (h : IsModrm modrm) :
    Alternative so vm (0x6B :: (modrm ++ [b])) (0x69 :: (modrm ++ extendedBytes so b))
  | push (b : BitVec 8) : Alternative so vm [0x6A, b] (0x68 :: extendedBytes so b)
  | accumulator8 (k : Fin 8) (b : BitVec 8) :
    Alternative so vm [BitVec.ofNat 8 (8 * k.val + 0x04), b] [0x80, registerModrm k 0, b]
  | accumulator (k : Fin 8) (imm : List (BitVec 8)) (h : imm.length = (nativeSize so).bytes) :
    Alternative so vm (BitVec.ofNat 8 (8 * k.val + 0x05) :: imm) (0x81 :: registerModrm k 0 :: imm)
  | test8 (b : BitVec 8) : Alternative so vm [0xA8, b] [0xF6, registerModrm 0 0, b]
  | test (imm : List (BitVec 8)) (h : imm.length = (nativeSize so).bytes) :
    Alternative so vm (0xA9 :: imm) (0xF7 :: registerModrm 0 0 :: imm)
  | increment (r : Fin 8) :
    Alternative so vm [BitVec.ofNat 8 (0x40 + r.val)] [0xFF, registerModrm 0 r]
  | decrement (r : Fin 8) :
    Alternative so vm [BitVec.ofNat 8 (0x48 + r.val)] [0xFF, registerModrm 1 r]
  | pushRegister (r : Fin 8) :
    Alternative so vm [BitVec.ofNat 8 (0x50 + r.val)] [0xFF, registerModrm 6 r]
  | popRegister (r : Fin 8) :
    Alternative so vm [BitVec.ofNat 8 (0x58 + r.val)] [0x8F, registerModrm 0 r]
  | exchange (r : Fin 8) :
    Alternative so vm [BitVec.ofNat 8 (0x90 + r.val)] [0x87, registerModrm r 0]
  | exchangeSwapped (r : Fin 8) :
    Alternative so vm [BitVec.ofNat 8 (0x90 + r.val)] [0x87, registerModrm 0 r]
  | move8 (r : Fin 8) (b : BitVec 8) :
    Alternative so vm [BitVec.ofNat 8 (0xB0 + r.val), b] [0xC6, registerModrm 0 r, b]
  | move (r : Fin 8) (imm : List (BitVec 8)) (h : imm.length = (nativeSize so).bytes) :
    Alternative so vm (BitVec.ofNat 8 (0xB8 + r.val) :: imm) (0xC7 :: registerModrm 0 r :: imm)
  | load8 (a : List (BitVec 8)) (h : a.length = 4) :
    Alternative so vm (0xA0 :: a) (0x8A :: displacementModrm :: a)
  | load (a : List (BitVec 8)) (h : a.length = 4) :
    Alternative so vm (0xA1 :: a) (0x8B :: displacementModrm :: a)
  | store8 (a : List (BitVec 8)) (h : a.length = 4) :
    Alternative so vm (0xA2 :: a) (0x88 :: displacementModrm :: a)
  | store (a : List (BitVec 8)) (h : a.length = 4) :
    Alternative so vm (0xA3 :: a) (0x89 :: displacementModrm :: a)
  | direction8 (k reg rm : Fin 8) :
    Alternative so vm [BitVec.ofNat 8 (8 * k.val), registerModrm reg rm]
      [BitVec.ofNat 8 (8 * k.val + 0x02), registerModrm rm reg]
  | direction (k reg rm : Fin 8) :
    Alternative so vm [BitVec.ofNat 8 (8 * k.val + 0x01), registerModrm reg rm]
      [BitVec.ofNat 8 (8 * k.val + 0x03), registerModrm rm reg]
  | moveDirection8 (reg rm : Fin 8) :
    Alternative so vm [0x88, registerModrm reg rm] [0x8A, registerModrm rm reg]
  | moveDirection (reg rm : Fin 8) :
    Alternative so vm [0x89, registerModrm reg rm] [0x8B, registerModrm rm reg]
  | shiftOnce8 (modrm : List (BitVec 8)) (h : IsModrm modrm) :
    Alternative so vm (0xD0 :: modrm) (0xC0 :: (modrm ++ [1]))
  | shiftOnce (modrm : List (BitVec 8)) (h : IsModrm modrm) :
    Alternative so vm (0xD1 :: modrm) (0xC1 :: (modrm ++ [1]))
  | shiftCl8 (modrm : List (BitVec 8)) (h : IsModrm modrm) (hcl : vm.reg8 .cl = 1) :
    Alternative so vm (0xD0 :: modrm) (0xD2 :: modrm)
  | shiftCl (modrm : List (BitVec 8)) (h : IsModrm modrm) (hcl : vm.reg8 .cl = 1) :
    Alternative so vm (0xD1 :: modrm) (0xD3 :: modrm)

section Agreement

structure Agree (so : Bool) (vm : VM) (first second : List (BitVec 8)) : Prop where
  head : first.head? ≠ some 0x6A
  run : ∃ f f' l l', Encodes so first f l ∧ Encodes so second f' l' ∧
    (f.logic (operandSlot so l)).run vm = (f'.logic (operandSlot so l')).run vm

theorem Agree.of_same {so : Bool} {vm : VM} {first second : List (BitVec 8)} {f : LogicFn}
    {l : Fin 3 → ArgLocation} (head : first.head? ≠ some 0x6A) (h : Encodes so first f l)
    (h' : Encodes so second f l) : Agree so vm first second :=
  ⟨head, f, f, l, l, h, h', rfl⟩

variable {so : Bool} {vm : VM} {modrm imm a : List (BitVec 8)}

section Rows

def GroupRows (k : Fin 8) : Prop :=
  (MapRow true 0x80 k (alu8bit k) [(.modRM, .fixed .byte), (.immediateValue, .fixed .byte)] ∧
    MapRow true 0x81 k (aluNativeWord k)
      [(.modRM, .nativeWord), (.immediateValue, .nativeWord)] ∧
    MapRow true 0x83 k (aluNativeWord k)
      [(.modRM, .nativeWord), (.immediateValue, .fixed .byte)]) ∧
  (MapRow false (BitVec.ofNat 8 (8 * k.val + 0x04)) 0 (alu8bit k)
      [(.hardcodedRegister .al, .fixed .byte), (.immediateValue, .fixed .byte)] ∧
    MapRow false (BitVec.ofNat 8 (8 * k.val + 0x05)) 0 (aluNativeWord k)
      [(.hardcodedRegister .eax, .nativeWord), (.immediateValue, .nativeWord)]) ∧
  MapRow true 0x69 k .imul3NativeWord
      [(.modRMReg, .nativeWord), (.modRM, .nativeWord), (.immediateValue, .nativeWord)] ∧
    MapRow true 0x6B k .imul3NativeWord
      [(.modRMReg, .nativeWord), (.modRM, .nativeWord), (.immediateValue, .fixed .byte)]

instance (k : Fin 8) : Decidable (GroupRows k) :=
  inferInstanceAs (Decidable (_ ∧ _))

def SingleRows : Prop :=
  (MapRow false 0xA8 0 .test8bit
      [(.hardcodedRegister .al, .fixed .byte), (.immediateValue, .fixed .byte)] ∧
    MapRow false 0xA9 0 .testNativeWord
      [(.hardcodedRegister .eax, .nativeWord), (.immediateValue, .nativeWord)] ∧
    MapRow true 0xF6 0 .test8bit [(.modRM, .fixed .byte), (.immediateValue, .fixed .byte)] ∧
    MapRow true 0xF7 0 .testNativeWord
      [(.modRM, .nativeWord), (.immediateValue, .nativeWord)]) ∧
  (MapRow true 0xFF 0 .incrementNativeWord [(.modRM, .nativeWord)] ∧
    MapRow true 0xFF 1 .decrementNativeWord [(.modRM, .nativeWord)] ∧
    MapRow true 0xFF 6 .push [(.modRM, .nativeWord)] ∧
    MapRow true 0x8F 0 .pop [(.modRM, .nativeWord)]) ∧
  (MapRow true 0xC6 0 .mov [(.modRM, .fixed .byte), (.immediateValue, .fixed .byte)] ∧
    MapRow true 0xC7 0 .mov [(.modRM, .nativeWord), (.immediateValue, .nativeWord)]) ∧
  (MapRow false 0xA0 0 .mov
      [(.hardcodedRegister 0, .fixed .byte), (.immediateAddress, .fixed .byte)] ∧
    MapRow false 0xA1 0 .mov
      [(.hardcodedRegister 0, .nativeWord), (.immediateAddress, .nativeWord)] ∧
    MapRow false 0xA2 0 .mov
      [(.immediateAddress, .fixed .byte), (.hardcodedRegister 0, .fixed .byte)] ∧
    MapRow false 0xA3 0 .mov
      [(.immediateAddress, .nativeWord), (.hardcodedRegister 0, .nativeWord)]) ∧
  MapRow false 0x6A 0 .push [(.immediateValue, .fixed .byte)] ∧
    MapRow false 0x68 0 .push [(.immediateValue, .nativeWord)]

instance : Decidable SingleRows :=
  inferInstanceAs (Decidable (_ ∧ _))

def RegisterRows (r : Fin 8) : Prop :=
  (MapRow false (BitVec.ofNat 8 (0x40 + r.val)) 0 .incrementNativeWord
      [(.registerSuffix, .nativeWord)] ∧
    MapRow false (BitVec.ofNat 8 (0x48 + r.val)) 0 .decrementNativeWord
      [(.registerSuffix, .nativeWord)] ∧
    MapRow false (BitVec.ofNat 8 (0x50 + r.val)) 0 .push [(.registerSuffix, .nativeWord)] ∧
    MapRow false (BitVec.ofNat 8 (0x58 + r.val)) 0 .pop [(.registerSuffix, .nativeWord)]) ∧
  (MapRow false (BitVec.ofNat 8 (0xB0 + r.val)) 0 .mov
      [(.registerSuffix, .fixed .byte), (.immediateValue, .fixed .byte)] ∧
    MapRow false (BitVec.ofNat 8 (0xB8 + r.val)) 0 .mov
      [(.registerSuffix, .nativeWord), (.immediateValue, .nativeWord)]) ∧
  (if r = 0 then MapRow false (BitVec.ofNat 8 (0x90 + r.val)) 0 .nop []
    else MapRow false (BitVec.ofNat 8 (0x90 + r.val)) 0 .xchg
      [(.hardcodedRegister .eax, .nativeWord), (.registerSuffix, .nativeWord)]) ∧
  MapRow true 0x87 r .xchg [(.modRM, .nativeWord), (.modRMReg, .nativeWord)] ∧
  MapRow true 0x88 r .mov [(.modRM, .fixed .byte), (.modRMReg, .fixed .byte)] ∧
    MapRow true 0x89 r .mov [(.modRM, .nativeWord), (.modRMReg, .nativeWord)] ∧
    MapRow true 0x8A r .mov [(.modRMReg, .fixed .byte), (.modRM, .fixed .byte)] ∧
    MapRow true 0x8B r .mov [(.modRMReg, .nativeWord), (.modRM, .nativeWord)]

instance (r : Fin 8) : Decidable (RegisterRows r) :=
  inferInstanceAs (Decidable (_ ∧ _))

def ShiftRows (k : Fin 8) : Prop :=
  MapRow true 0xD0 k (shift8bit k) (shiftArgs k (.fixed .byte) (.literal (.byte 1))) ∧
  MapRow true 0xC0 k (shift8bit k) (shiftArgs k (.fixed .byte) .immediateValue) ∧
  MapRow true 0xD2 k (shift8bit k) (shiftArgs k (.fixed .byte) (.hardcodedRegister .cl)) ∧
  MapRow true 0xD1 k (shiftNativeWord k) (shiftArgs k .nativeWord (.literal (.byte 1))) ∧
  MapRow true 0xC1 k (shiftNativeWord k) (shiftArgs k .nativeWord .immediateValue) ∧
  MapRow true 0xD3 k (shiftNativeWord k) (shiftArgs k .nativeWord (.hardcodedRegister .cl))

instance (k : Fin 8) : Decidable (ShiftRows k) :=
  inferInstanceAs (Decidable (_ ∧ _))

def DirectionRows (k r : Fin 8) : Prop :=
  MapRow true (BitVec.ofNat 8 (8 * k.val)) r (alu8bit k)
    [(.modRM, .fixed .byte), (.modRMReg, .fixed .byte)] ∧
  MapRow true (BitVec.ofNat 8 (8 * k.val + 0x01)) r (aluNativeWord k)
    [(.modRM, .nativeWord), (.modRMReg, .nativeWord)] ∧
  MapRow true (BitVec.ofNat 8 (8 * k.val + 0x02)) r (alu8bit k)
    [(.modRMReg, .fixed .byte), (.modRM, .fixed .byte)] ∧
  MapRow true (BitVec.ofNat 8 (8 * k.val + 0x03)) r (aluNativeWord k)
    [(.modRMReg, .nativeWord), (.modRM, .nativeWord)]

instance (k r : Fin 8) : Decidable (DirectionRows k r) :=
  inferInstanceAs (Decidable (_ ∧ _))

theorem rows (k r : Fin 8) :
    SingleRows ∧ GroupRows k ∧ RegisterRows r ∧ ShiftRows k ∧ DirectionRows k r := by
  have hall : SingleRows ∧ ∀ k, GroupRows k ∧ RegisterRows k ∧ ShiftRows k ∧
      ∀ r, DirectionRows k r := by
    decide +kernel
  obtain ⟨hsingle, hall⟩ := hall
  obtain ⟨hgroup, -, hshift, hdirection⟩ := hall k
  exact ⟨hsingle, hgroup, (hall r).2.1, hshift, hdirection r⟩

theorem rows_single : SingleRows := (rows 0 0).1

theorem rows_group (k : Fin 8) : GroupRows k := (rows k 0).2.1

theorem rows_register (r : Fin 8) : RegisterRows r := (rows 0 r).2.2.1

theorem rows_shift (k : Fin 8) : ShiftRows k := (rows k 0).2.2.2.1

theorem rows_direction (k r : Fin 8) : DirectionRows k r := (rows k r).2.2.2.2

theorem rows_move (r : Fin 8) :
    MapRow true 0x88 r .mov [(.modRM, .fixed .byte), (.modRMReg, .fixed .byte)] ∧
    MapRow true 0x89 r .mov [(.modRM, .nativeWord), (.modRMReg, .nativeWord)] ∧
    MapRow true 0x8A r .mov [(.modRMReg, .fixed .byte), (.modRM, .fixed .byte)] ∧
    MapRow true 0x8B r .mov [(.modRMReg, .nativeWord), (.modRM, .nativeWord)] :=
  (rows_register r).2.2.2.2

end Rows

section Immediates

theorem agree_immediate (h : IsModrm modrm) (b : BitVec 8) :
    Agree so vm (0x83 :: (modrm ++ [b])) (0x81 :: (modrm ++ extendedBytes so b)) := by
  obtain ⟨⟨-, hfull, hshort⟩, -⟩ := rows_group (regField (modrm.headD 0))
  refine ⟨by simp, _, _, _, _, encodes_rm_imm8 hshort h b,
    encodes_rm_imm hfull h (by rw [extendedBytes, leBytes_length]), ?_⟩
  apply aluNativeWord_congr
  rw [extendedBytes, immediateOf_leBytes]
  exact extended_byte so b

theorem agree_product (h : IsModrm modrm) (b : BitVec 8) :
    Agree so vm (0x6B :: (modrm ++ [b])) (0x69 :: (modrm ++ extendedBytes so b)) := by
  obtain ⟨-, -, hfull, hshort⟩ := rows_group (regField (modrm.headD 0))
  have hs : Encodes so (0x6B :: (modrm ++ [b])) .imul3NativeWord
      ![.registerValue (ParsedModRM.ofBytes modrm).modrm.reg (nativeSize so),
        (ParsedModRM.ofBytes modrm).location (nativeSize so), .immediate (.byte b)] := by
    apply hshort.encodes h rfl
    intro n
    match n with
    | 0 | 1 | 2 => rfl
  have hf : Encodes so (0x69 :: (modrm ++ extendedBytes so b)) .imul3NativeWord
      ![.registerValue (ParsedModRM.ofBytes modrm).modrm.reg (nativeSize so),
        (ParsedModRM.ofBytes modrm).location (nativeSize so),
        .immediate (immediateOf (extendedBytes so b) (nativeSize so))] := by
    apply hfull.encodes h
    · change 0 + 0 + (nativeSize so).bytes = (extendedBytes so b).length
      rw [extendedBytes, leBytes_length]
      omega
    · intro n
      match n with
      | 0 | 1 | 2 => rfl
  refine ⟨by simp, _, _, _, _, hs, hf, ?_⟩
  rw [extendedBytes, immediateOf_leBytes]
  exact congrArg (Op.run · vm) (imul3NativeWord_congr (u32Sx_byte so b))

end Immediates

section Accumulator

theorem accumulator_ne (k : Fin 8) :
    BitVec.ofNat 8 (8 * k.val + 0x04) ≠ 0x6A ∧ BitVec.ofNat 8 (8 * k.val + 0x05) ≠ 0x6A := by
  revert k
  decide

theorem agree_accumulator8 (k : Fin 8) (b : BitVec 8) :
    Agree so vm [BitVec.ofNat 8 (8 * k.val + 0x04), b] [0x80, registerModrm k 0, b] := by
  obtain ⟨⟨hfull, -⟩, ⟨hshort, -⟩, -⟩ := rows_group k
  exact .of_same (by simpa using (accumulator_ne k).1) (encodes_accumulator8 hshort b)
    (encodes_register_imm8 hfull 0 b)

theorem agree_accumulator (k : Fin 8) (h : imm.length = (nativeSize so).bytes) :
    Agree so vm (BitVec.ofNat 8 (8 * k.val + 0x05) :: imm) (0x81 :: registerModrm k 0 :: imm) := by
  obtain ⟨⟨-, hfull, -⟩, ⟨-, hshort⟩, -⟩ := rows_group k
  exact .of_same (by simpa using (accumulator_ne k).2) (encodes_accumulator hshort h)
    (encodes_register_imm hfull 0 h)

theorem agree_test8 (b : BitVec 8) : Agree so vm [0xA8, b] [0xF6, registerModrm 0 0, b] := by
  obtain ⟨⟨hshort, -, hfull, -⟩, -⟩ := rows_single
  exact .of_same (by simp) (encodes_accumulator8 hshort b) (encodes_register_imm8 hfull 0 b)

theorem agree_test (h : imm.length = (nativeSize so).bytes) :
    Agree so vm (0xA9 :: imm) (0xF7 :: registerModrm 0 0 :: imm) := by
  obtain ⟨⟨-, hshort, -, hfull⟩, -⟩ := rows_single
  exact .of_same (by simp) (encodes_accumulator hshort h) (encodes_register_imm hfull 0 h)

end Accumulator

section Suffix

theorem registerSuffix_eq {base : ℕ} (r : Fin 8)
    (hbase : base ∈ [0x40, 0x48, 0x50, 0x58, 0x90, 0xB0, 0xB8]) :
    Fin.ofNat 8 (BitVec.ofNat 8 (base + r.val) &&& 7).toNat = r ∧
      BitVec.ofNat 8 (base + r.val) ≠ 0x6A := by
  simp only [List.mem_cons, List.not_mem_nil, or_false] at hbase
  revert r
  obtain rfl | rfl | rfl | rfl | rfl | rfl | rfl := hbase <;> decide

theorem agree_register {base : ℕ} {r reg : Fin 8} {f : LogicFn} {opcode : BitVec 8}
    (hbase : base ∈ [0x40, 0x48, 0x50, 0x58, 0x90, 0xB0, 0xB8])
    (h : MapRow false (BitVec.ofNat 8 (base + r.val)) 0 f [(.registerSuffix, .nativeWord)])
    (h' : MapRow true opcode reg f [(.modRM, .nativeWord)]) :
    Agree so vm [BitVec.ofNat 8 (base + r.val)] [opcode, registerModrm reg r] := by
  obtain ⟨hr, hne⟩ := registerSuffix_eq r hbase
  exact .of_same (by simpa using hne) (encodes_suffix h hr) (encodes_rm h' r)

theorem agree_move8 (r : Fin 8) (b : BitVec 8) :
    Agree so vm [BitVec.ofNat 8 (0xB0 + r.val), b] [0xC6, registerModrm 0 r, b] := by
  obtain ⟨hr, hne⟩ := @registerSuffix_eq 0xB0 r (by simp)
  obtain ⟨-, ⟨hshort, -⟩, -⟩ := rows_register r
  obtain ⟨-, -, ⟨hfull, -⟩, -⟩ := rows_single
  exact .of_same (by simpa using hne) (encodes_suffix_imm8 hshort hr b)
    (encodes_register_imm8 hfull r b)

theorem agree_move (r : Fin 8) (h : imm.length = (nativeSize so).bytes) :
    Agree so vm (BitVec.ofNat 8 (0xB8 + r.val) :: imm) (0xC7 :: registerModrm 0 r :: imm) := by
  obtain ⟨hr, hne⟩ := @registerSuffix_eq 0xB8 r (by simp)
  obtain ⟨-, ⟨-, hshort⟩, -⟩ := rows_register r
  obtain ⟨-, -, ⟨-, hfull⟩, -⟩ := rows_single
  exact .of_same (by simpa using hne) (encodes_suffix_imm hshort hr h)
    (encodes_register_imm hfull r h)

/-- An exchange with the accumulator has the effect of one that names it as a register; with
itself it is `NOP`, which does nothing either. -/
theorem exchange_run (r : Fin 8) : ∃ f l,
    Encodes so [BitVec.ofNat 8 (0x90 + r.val)] f l ∧
      (f.logic (operandSlot so l)).run vm =
        (LogicFn.xchg.logic (operandSlot so ![.registerValue 0 (nativeSize so),
          .registerValue r (nativeSize so), .none])).run vm := by
  obtain ⟨-, -, hrow, -⟩ := rows_register r
  obtain ⟨hr, -⟩ := @registerSuffix_eq 0x90 r (by simp)
  by_cases h : r = 0
  · rw [if_pos h] at hrow
    subst h
    refine ⟨.nop, ![.none, .none, .none], ?_, (xchg_self so vm 0).symm⟩
    apply hrow.encodesPlain rfl
    intro n
    match n with
    | 0 | 1 | 2 => rfl
  · rw [if_neg h] at hrow
    refine ⟨.xchg, ![.registerValue 0 (nativeSize so), .registerValue r (nativeSize so), .none],
      ?_, rfl⟩
    apply hrow.encodesPlain rfl
    intro n
    match n with
    | 1 => exact congrArg (ArgLocation.registerValue · _) hr
    | 0 | 2 => rfl

theorem agree_exchange (r : Fin 8) :
    Agree so vm [BitVec.ofNat 8 (0x90 + r.val)] [0x87, registerModrm r 0] ∧
      Agree so vm [BitVec.ofNat 8 (0x90 + r.val)] [0x87, registerModrm 0 r] := by
  obtain ⟨f, l, henc, hrun⟩ := @exchange_run so vm r
  obtain ⟨-, hne⟩ := @registerSuffix_eq 0x90 r (by simp)
  constructor
  · exact ⟨by simpa using hne, _, _, _, _, henc, encodes_rm_reg (rows_register r).2.2.2.1 0, hrun⟩
  · exact ⟨by simpa using hne, _, _, _, _, henc, encodes_rm_reg (rows_register 0).2.2.2.1 r,
      hrun.trans (xchg_comm so vm 0 r)⟩

end Suffix

section Offset

theorem agree_load8 (h : a.length = 4) :
    Agree so vm (0xA0 :: a) (0x8A :: displacementModrm :: a) := by
  obtain ⟨-, -, -, ⟨hoffset, -⟩, -⟩ := rows_single
  exact .of_same (by simp) (encodes_loadOffset hoffset h) (encodes_load (rows_move 0).2.2.1 h)

theorem agree_load (h : a.length = 4) :
    Agree so vm (0xA1 :: a) (0x8B :: displacementModrm :: a) := by
  obtain ⟨-, -, -, ⟨-, hoffset, -⟩, -⟩ := rows_single
  exact .of_same (by simp) (encodes_loadOffset hoffset h) (encodes_load (rows_move 0).2.2.2 h)

theorem agree_store8 (h : a.length = 4) :
    Agree so vm (0xA2 :: a) (0x88 :: displacementModrm :: a) := by
  obtain ⟨-, -, -, ⟨-, -, hoffset, -⟩, -⟩ := rows_single
  exact .of_same (by simp) (encodes_storeOffset hoffset h) (encodes_store (rows_move 0).1 h)

theorem agree_store (h : a.length = 4) :
    Agree so vm (0xA3 :: a) (0x89 :: displacementModrm :: a) := by
  obtain ⟨-, -, -, ⟨-, -, -, hoffset⟩, -⟩ := rows_single
  exact .of_same (by simp) (encodes_storeOffset hoffset h) (encodes_store (rows_move 0).2.1 h)

end Offset

section Direction

theorem direction_ne (k : Fin 8) :
    BitVec.ofNat 8 (8 * k.val) ≠ 0x6A ∧ BitVec.ofNat 8 (8 * k.val + 0x01) ≠ 0x6A := by
  revert k
  decide

theorem agree_direction8 (k reg rm : Fin 8) :
    Agree so vm [BitVec.ofNat 8 (8 * k.val), registerModrm reg rm]
      [BitVec.ofNat 8 (8 * k.val + 0x02), registerModrm rm reg] :=
  .of_same (by simpa using (direction_ne k).1) (encodes_rm_reg (rows_direction k reg).1 rm)
    (encodes_reg_rm (rows_direction k rm).2.2.1 reg)

theorem agree_direction (k reg rm : Fin 8) :
    Agree so vm [BitVec.ofNat 8 (8 * k.val + 0x01), registerModrm reg rm]
      [BitVec.ofNat 8 (8 * k.val + 0x03), registerModrm rm reg] :=
  .of_same (by simpa using (direction_ne k).2) (encodes_rm_reg (rows_direction k reg).2.1 rm)
    (encodes_reg_rm (rows_direction k rm).2.2.2 reg)

theorem agree_moveDirection8 (reg rm : Fin 8) :
    Agree so vm [0x88, registerModrm reg rm] [0x8A, registerModrm rm reg] :=
  .of_same (by simp) (encodes_rm_reg (rows_move reg).1 rm)
    (encodes_reg_rm (rows_move rm).2.2.1 reg)

theorem agree_moveDirection (reg rm : Fin 8) :
    Agree so vm [0x89, registerModrm reg rm] [0x8B, registerModrm rm reg] :=
  .of_same (by simp) (encodes_rm_reg (rows_move reg).2.1 rm)
    (encodes_reg_rm (rows_move rm).2.2.2 reg)

end Direction

section Shifts

theorem run_shift8bit {l l' : ArgLocation} (h : vm.getArg l = vm.getArg l') :
    ((shift8bit (regField (modrm.headD 0))).logic
      (operandSlot so (shiftLocations modrm .byte l))).run vm =
    ((shift8bit (regField (modrm.headD 0))).logic
      (operandSlot so (shiftLocations modrm .byte l'))).run vm := by
  simp only [shiftLocations]
  by_cases hk : regField (modrm.headD 0) = 6
  · rw [if_pos hk, if_pos hk]
  · rw [if_neg hk, if_neg hk]
    exact shift8bit_congr _ h

theorem run_shiftNativeWord {l l' : ArgLocation} (h : vm.getArg l = vm.getArg l') :
    ((shiftNativeWord (regField (modrm.headD 0))).logic
      (operandSlot so (shiftLocations modrm (nativeSize so) l))).run vm =
    ((shiftNativeWord (regField (modrm.headD 0))).logic
      (operandSlot so (shiftLocations modrm (nativeSize so) l'))).run vm := by
  simp only [shiftLocations]
  by_cases hk : regField (modrm.headD 0) = 6
  · rw [if_pos hk, if_pos hk]
  · rw [if_neg hk, if_neg hk]
    exact shiftNativeWord_congr _ h

theorem getArg_cl (h : vm.reg8 .cl = 1) :
    vm.getArg (.immediate (.byte 1)) = vm.getArg (.registerValue .cl .byte) :=
  congrArg (Except.ok ∘ SizedValue.byte) h.symm

theorem agree_shiftOnce8 (h : IsModrm modrm) :
    Agree so vm (0xD0 :: modrm) (0xC0 :: (modrm ++ [1])) := by
  obtain ⟨honce, himm, -⟩ := rows_shift (regField (modrm.headD 0))
  exact .of_same (by simp) (encodes_shift honce h (.inl ⟨rfl, rfl⟩))
    (encodes_shiftImmediate himm h 1)

theorem agree_shiftOnce (h : IsModrm modrm) :
    Agree so vm (0xD1 :: modrm) (0xC1 :: (modrm ++ [1])) := by
  obtain ⟨-, -, -, honce, himm, -⟩ := rows_shift (regField (modrm.headD 0))
  exact .of_same (by simp) (encodes_shift honce h (.inl ⟨rfl, rfl⟩))
    (encodes_shiftImmediate himm h 1)

theorem agree_shiftCl8 (h : IsModrm modrm) (hcl : vm.reg8 .cl = 1) :
    Agree so vm (0xD0 :: modrm) (0xD2 :: modrm) := by
  obtain ⟨honce, -, hcount, -⟩ := rows_shift (regField (modrm.headD 0))
  exact ⟨by simp, _, _, _, _, encodes_shift honce h (.inl ⟨rfl, rfl⟩),
    encodes_shift hcount h (.inr ⟨rfl, rfl⟩), run_shift8bit (getArg_cl hcl)⟩

theorem agree_shiftCl (h : IsModrm modrm) (hcl : vm.reg8 .cl = 1) :
    Agree so vm (0xD1 :: modrm) (0xD3 :: modrm) := by
  obtain ⟨-, -, -, honce, -, hcount⟩ := rows_shift (regField (modrm.headD 0))
  exact ⟨by simp, _, _, _, _, encodes_shift honce h (.inl ⟨rfl, rfl⟩),
    encodes_shift hcount h (.inr ⟨rfl, rfl⟩), run_shiftNativeWord (getArg_cl hcl)⟩

end Shifts

end Agreement

section Effects

variable {σ : Type} {so : Bool} {first second : List (BitVec 8)}

def effectOf (hv : Hypervisor σ) (p : Pipeline) (m : Machine σ) : Outcome VMError Unit × VM :=
  ((p.function.call hv p m).1, (p.function.call hv p m).2.vm)

theorem Encodes.effect {bytes after : List (BitVec 8)} {f : LogicFn} {l : Fin 3 → ArgLocation}
    (h : Encodes so bytes f l) {vm : VM} {eip : BitVec 32}
    (hw : vm.memory.getSizedMemory eip 16 = .ok (overrideRun so ++ (bytes ++ after)))
    (writeable : Bool) (p : Pipeline) :
    ∃ g, fillSlot vm OPCODES writeable eip p = .ok g ∧ ∀ (hv : Hypervisor σ) (m : Machine σ),
      effectOf hv g.slot m = (f.logic (operandSlot so l)).run m.vm := by
  obtain ⟨g, hfill, hf, hso, hl⟩ := h.fills hw writeable p
  refine ⟨g, hfill, ?_⟩
  intro hv m
  have hlogic : f.logic g.slot = f.logic (operandSlot so l) := by
    rw [f.logic_operands h.only g.slot, hso, funext hl]
  rw [← hlogic, effectOf, hf]
  rfl

def LosesSign (so : Bool) (vm : VM) (first : List (BitVec 8)) : Prop :=
  ∃ b : BitVec 8, first = [0x6A, b] ∧ b.msb = true ∧ vm.StackWriteable so

theorem Agree.not_losesSign {vm : VM} (h : Agree so vm first second) :
    ¬LosesSign so vm first := by
  rintro ⟨b, rfl, -⟩
  exact h.head rfl

theorem Alternative.agree {vm : VM} (h : Alternative so vm first second) :
    Agree so vm first second ∨
      ∃ b, first = [0x6A, b] ∧ second = 0x68 :: extendedBytes so b := by
  cases h with
  | push b => exact .inr ⟨b, rfl, rfl⟩
  | immediate modrm b h => exact .inl (agree_immediate h b)
  | product modrm b h => exact .inl (agree_product h b)
  | accumulator8 k b => exact .inl (agree_accumulator8 k b)
  | accumulator k imm h => exact .inl (agree_accumulator k h)
  | test8 b => exact .inl (agree_test8 b)
  | test imm h => exact .inl (agree_test h)
  | increment r =>
    exact .inl (agree_register (by simp) (rows_register r).1.1 rows_single.2.1.1)
  | decrement r =>
    exact .inl (agree_register (by simp) (rows_register r).1.2.1 rows_single.2.1.2.1)
  | pushRegister r =>
    exact .inl (agree_register (by simp) (rows_register r).1.2.2.1 rows_single.2.1.2.2.1)
  | popRegister r =>
    exact .inl (agree_register (by simp) (rows_register r).1.2.2.2 rows_single.2.1.2.2.2)
  | exchange r => exact .inl (agree_exchange r).1
  | exchangeSwapped r => exact .inl (agree_exchange r).2
  | move8 r b => exact .inl (agree_move8 r b)
  | move r imm h => exact .inl (agree_move r h)
  | load8 a h => exact .inl (agree_load8 h)
  | load a h => exact .inl (agree_load h)
  | store8 a h => exact .inl (agree_store8 h)
  | store a h => exact .inl (agree_store h)
  | direction8 k reg rm => exact .inl (agree_direction8 k reg rm)
  | direction k reg rm => exact .inl (agree_direction k reg rm)
  | moveDirection8 reg rm => exact .inl (agree_moveDirection8 reg rm)
  | moveDirection reg rm => exact .inl (agree_moveDirection reg rm)
  | shiftOnce8 modrm h => exact .inl (agree_shiftOnce8 h)
  | shiftOnce modrm h => exact .inl (agree_shiftOnce h)
  | shiftCl8 modrm h hcl => exact .inl (agree_shiftCl8 h hcl)
  | shiftCl modrm h hcl => exact .inl (agree_shiftCl h hcl)

theorem encodes_push (so : Bool) (b : BitVec 8) :
    Encodes so [0x6A, b] .push ![.immediate (.byte b), .none, .none] ∧
      Encodes so (0x68 :: extendedBytes so b) .push
        ![.immediate ((nativeWidth so).sized (b.signExtend _)), .none, .none] := by
  obtain ⟨-, -, -, -, hbyte, hnative⟩ := rows_single
  constructor
  · apply hbyte.encodesPlain rfl
    intro n
    match n with
    | 0 | 1 | 2 => rfl
  · rw [← immediateOf_leBytes]
    apply hnative.encodesPlain
    · change (nativeSize so).bytes + 0 + 0 = (extendedBytes so b).length
      rw [extendedBytes, leBytes_length]
      omega
    · intro n
      match n with
      | 0 | 1 | 2 => rfl

theorem push_sameEffect_iff (so : Bool) (b : BitVec 8) (vm : VM) :
    SameEffect ((LogicFn.push.logic (operandSlot so ![.immediate (.byte b), .none, .none])).run vm)
      ((LogicFn.push.logic (operandSlot so
        ![.immediate ((nativeWidth so).sized (b.signExtend _)), .none, .none])).run vm) ↔
      ¬LosesSign so vm [0x6A, b] := by
  have hbyte := @push_byte .straight so b vm
  have hnative := @push_native .straight so (b.signExtend _) vm
  change SameEffect ((push _ : Op .straight Unit).run vm) ((push _ : Op .straight Unit).run vm) ↔ _
  rw [hbyte, hnative, pushed_sameEffect_iff, setWidth_eq_signExtend, ← not_and_or]
  apply not_congr
  constructor
  · rintro ⟨hb, hstack⟩
    exact ⟨b, rfl, hb, hstack⟩
  · rintro ⟨b', hb', hmsb, hstack⟩
    cases hb'
    exact ⟨hmsb, hstack⟩

theorem Alternative.run_iff {vm : VM} (h : Alternative so vm first second) :
    ∃ f f' l l', Encodes so first f l ∧ Encodes so second f' l' ∧
      (SameEffect ((f.logic (operandSlot so l)).run vm) ((f'.logic (operandSlot so l')).run vm) ↔
        ¬LosesSign so vm first) := by
  obtain ha | ⟨b, rfl, rfl⟩ := h.agree
  · obtain ⟨f, f', l, l', henc, henc', hrun⟩ := ha.run
    exact ⟨f, f', l, l', henc, henc', iff_of_true (.of_eq hrun) ha.not_losesSign⟩
  · obtain ⟨henc, henc'⟩ := encodes_push so b
    exact ⟨_, _, _, _, henc, henc', push_sameEffect_iff so b vm⟩

/-- Two encodings of one instruction, wherever they are found, have the same effect, exactly if
they are not the two of a push of a negative byte that succeeds. -/
theorem alternative_sameEffect_iff (hv : Hypervisor σ) {m : Machine σ}
    (h : Alternative so m.vm first second) {vm vm' : VM} {eip eip' : BitVec 32}
    {after after' : List (BitVec 8)}
    (hw : vm.memory.getSizedMemory eip 16 = .ok (overrideRun so ++ (first ++ after)))
    (hw' : vm'.memory.getSizedMemory eip' 16 = .ok (overrideRun so ++ (second ++ after')))
    (writeable writeable' : Bool) (p p' : Pipeline) :
    ∃ g g', fillSlot vm OPCODES writeable eip p = .ok g ∧
      fillSlot vm' OPCODES writeable' eip' p' = .ok g' ∧
        (SameEffect (effectOf hv g.slot m) (effectOf hv g'.slot m) ↔
          ¬LosesSign so m.vm first) := by
  obtain ⟨f, f', l, l', henc, henc', hiff⟩ := h.run_iff
  obtain ⟨g, hfill, heffect⟩ := henc.effect hw writeable p
  obtain ⟨g', hfill', heffect'⟩ := henc'.effect hw' writeable' p'
  refine ⟨g, g', hfill, hfill', ?_⟩
  rw [heffect hv m, heffect' hv m]
  exact hiff

def pushByte : Machine (List (BitVec 8)) where
  vm := { createVm ⟨[0x6A, 0xFF] ++ List.replicate 14 0, by decide⟩ with
    regs := fun r ↦ if r = Register.esp then 0x80000020 else 0 }
  host := []

def pushDword : VM := createVm ⟨[0x68, 0xFF, 0xFF, 0xFF, 0xFF] ++ List.replicate 11 0, by decide⟩

theorem fetch_pushByte : pushByte.vm.memory.getSizedMemory CODE_MEM 16 =
    .ok (overrideRun false ++ ([0x6A, 0xFF] ++ List.replicate 14 0)) := rfl

theorem fetch_pushDword : pushDword.memory.getSizedMemory CODE_MEM 16 =
    .ok (overrideRun false ++ (0x68 :: extendedBytes false 0xFF ++ List.replicate 11 0)) := rfl

theorem stackWriteable_pushByte : pushByte.vm.StackWriteable false := ⟨_, rfl⟩

theorem alternative_sameEffect_iff_push : ∃ g g',
    fillSlot pushByte.vm OPCODES false CODE_MEM default = .ok g ∧
      fillSlot pushDword OPCODES false CODE_MEM default = .ok g' ∧
        (SameEffect (effectOf testHypervisor g.slot pushByte)
          (effectOf testHypervisor g'.slot pushByte) ↔
          ¬LosesSign false pushByte.vm [0x6A, 0xFF]) :=
  alternative_sameEffect_iff testHypervisor (.push 0xFF) fetch_pushByte fetch_pushDword false
    false default default

/-- The short form pushes 255. -/
theorem push_differs : ¬∀ (so : Bool) (m : Machine (List (BitVec 8)))
    (first second after after' : List (BitVec 8)) (vm vm' : VM) (g g' : Filled),
    Alternative so m.vm first second →
      vm.memory.getSizedMemory CODE_MEM 16 = .ok (overrideRun so ++ (first ++ after)) →
      vm'.memory.getSizedMemory CODE_MEM 16 = .ok (overrideRun so ++ (second ++ after')) →
      fillSlot vm OPCODES false CODE_MEM default = .ok g →
      fillSlot vm' OPCODES false CODE_MEM default = .ok g' →
        SameEffect (effectOf testHypervisor g.slot m) (effectOf testHypervisor g'.slot m) := by
  intro h
  obtain ⟨henc, henc'⟩ := encodes_push false 0xFF
  obtain ⟨g, hfill, heffect⟩ := henc.effect fetch_pushByte false default
  obtain ⟨g', hfill', heffect'⟩ := henc'.effect fetch_pushDword false default
  have hsame := h false pushByte [0x6A, 0xFF] _ _ _ pushByte.vm pushDword g g' (.push 0xFF)
    fetch_pushByte fetch_pushDword hfill hfill'
  rw [heffect testHypervisor pushByte, heffect' testHypervisor pushByte] at hsame
  apply (push_sameEffect_iff false 0xFF pushByte.vm).mp hsame
  exact ⟨0xFF, rfl, rfl, stackWriteable_pushByte⟩

end Effects

end Qx86
