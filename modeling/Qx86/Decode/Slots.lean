import Qx86.Decode.Args
import Qx86.Decode.Fill
import Qx86.Decode.Table

namespace Qx86

open Foundation Outcome Words PrefixesActivated

def SlotFn.isRep : SlotFn → Bool
  | .opcode _ => false
  | .repe | .repne => true

namespace Filled

/-- The slot as it is when the buffer held other arguments before: only a REP slot
keeps them. -/
def keepArgs (f : Filled) (args : Fin 3 → OpArgument) : Filled :=
  if f.slot.function.isRep then { f with slot := { f.slot with args := args } } else f

@[simp] theorem keepArgs_next (f : Filled) (args : Fin 3 → OpArgument) :
    (f.keepArgs args).next = f.next := by
  unfold keepArgs; split <;> rfl

@[simp] theorem keepArgs_stop (f : Filled) (args : Fin 3 → OpArgument) :
    (f.keepArgs args).stop = f.stop := by
  unfold keepArgs; split <;> rfl

@[simp] theorem keepArgs_gasCost (f : Filled) (args : Fin 3 → OpArgument) :
    (f.keepArgs args).slot.gasCost = f.slot.gasCost := by
  unfold keepArgs; split <;> rfl

@[simp] theorem keepArgs_function (f : Filled) (args : Fin 3 → OpArgument) :
    (f.keepArgs args).slot.function = f.slot.function := by
  unfold keepArgs; split <;> rfl

end Filled

section Surcharge

variable (charger : GasCharger) (writeable : Bool) (slot : Pipeline)

@[simp] theorem surcharge_function :
    (surcharge charger writeable slot).function = slot.function := by
  unfold surcharge; split <;> rfl

@[simp] theorem surcharge_args : (surcharge charger writeable slot).args = slot.args := by
  unfold surcharge; split <;> rfl

@[simp] theorem surcharge_eipSize :
    (surcharge charger writeable slot).eipSize = slot.eipSize := by
  unfold surcharge; split <;> rfl

@[simp] theorem surcharge_sizeOverride :
    (surcharge charger writeable slot).sizeOverride = slot.sizeOverride := by
  unfold surcharge; split <;> rfl

@[simp] theorem surcharge_opcode :
    (surcharge charger writeable slot).opcode = slot.opcode := by
  unfold surcharge; split <;> rfl

end Surcharge

theorem selectOpcode_eq_ok {twoBytes : Bool} {buffer : List (BitVec 8)} {opcode : Opcode}
    {modrm : Option ParsedModRM}
    (h : selectOpcode OPCODES twoBytes buffer = .ok (opcode, modrm)) :
    ∃ byte, buffer[0]? = some byte ∧ ∃ op : Fin OPCODE_TABLE_SIZE,
      op.val = (byte.toNat ||| (twoBytes.toNat <<< 8)) ∧
      (((OPCODES op).hasModrm = true ∧ ∃ m, ParsedModRM.fromBytes buffer = .ok m ∧
          modrm = some m ∧ opcode = (OPCODES op).opcodes m.modrm.reg) ∨
        ((OPCODES op).hasModrm = false ∧ modrm = none ∧ opcode = (OPCODES op).opcodes 0)) := by
  simp only [selectOpcode, bind_eq_ok] at h
  obtain ⟨byte, hb, h⟩ := h
  refine ⟨byte, index_eq_ok.mp hb, ?_⟩
  split at h
  · next hi =>
    refine ⟨⟨_, hi⟩, rfl, ?_⟩
    split at h
    · next hm =>
      obtain ⟨m, hm', h⟩ := bind_eq_ok.mp h
      cases h
      exact .inl ⟨hm, m, hm', rfl, rfl⟩
    · next hm =>
      cases h
      exact .inr ⟨by simpa using hm, rfl, rfl⟩
  · cases h

structure DecodesTo (charger : GasCharger) (pre : PrefixesActivated) (prefixSize : ℕ)
    (buffer : List (BitVec 8)) (opcode : Opcode) (slot : Pipeline) : Prop where
  byte : buffer[0]? = some slot.opcode
  argsOf : ∃ modrm size, selectOpcode OPCODES pre.twoBytes buffer = .ok (opcode, modrm) ∧
    decodeArgsWithModrm opcode buffer pre.sizeOverride modrm = .ok (slot.args, size) ∧
    slot.eipSize = BitVec.ofNat 8 size + BitVec.ofNat 8 prefixSize ∧
    slot.gasCost = charger.total (slotCharges opcode modrm slot.args)
  function : slot.function = .opcode opcode.function
  sizeOverride : slot.sizeOverride = pre.sizeOverride

theorem decodeOpcode_eq_ok {charger : GasCharger} {pre : PrefixesActivated} {prefixSize : ℕ}
    {buffer : List (BitVec 8)} {slot : Pipeline} {behavior : PipelineBehavior}
    (h : decodeOpcode charger OPCODES pre prefixSize buffer = .ok (slot, behavior)) :
    ∃ opcode, DecodesTo charger pre prefixSize buffer opcode slot ∧
      behavior = opcode.pipelineBehavior := by
  simp only [decodeOpcode, bind_eq_ok] at h
  obtain ⟨byte, hb, ⟨opcode, modrm⟩, hs, ⟨args, size⟩, ha, h⟩ := h
  cases h
  exact ⟨opcode, ⟨index_eq_ok.mp hb, ⟨modrm, size, hs, ha, rfl, rfl⟩, rfl, rfl⟩, rfl⟩

namespace DecodesTo

variable {charger : GasCharger} {pre : PrefixesActivated} {prefixSize : ℕ}
  {buffer : List (BitVec 8)} {opcode : Opcode} {slot : Pipeline}

theorem mem_table (h : DecodesTo charger pre prefixSize buffer opcode slot) :
    ∃ op inner, opcode = (OPCODES op).opcodes inner := by
  obtain ⟨modrm, size, hs, -⟩ := h.argsOf
  obtain ⟨byte, -, op, -, ⟨-, m, -, -, ho⟩ | ⟨-, -, ho⟩⟩ := selectOpcode_eq_ok hs
  · exact ⟨op, _, ho⟩
  · exact ⟨op, _, ho⟩

theorem predictable (h : DecodesTo charger pre prefixSize buffer opcode slot) :
    opcode.Predictable := by
  obtain ⟨op, inner, rfl⟩ := h.mem_table
  exact OPCODES_predictable op inner

theorem relativeJump_of_callRel (h : DecodesTo charger pre prefixSize buffer opcode slot)
    (hf : opcode.function = .logic .callRel) : opcode.pipelineBehavior = .relativeJump := by
  obtain ⟨op, inner, rfl⟩ := h.mem_table
  exact OPCODES_callRel op inner hf

theorem arg (h : DecodesTo charger pre prefixSize buffer opcode slot) (n : Fin 3) :
    ∃ modrm byte bytes k, buffer[0]? = some byte ∧
      decodeArg (opcode.argSource n) ((opcode.argSize n).toFixed slot.sizeOverride) modrm byte
        bytes = .ok (slot.args n, k) := by
  obtain ⟨modrm, size, -, ha, -⟩ := h.argsOf
  rw [h.sizeOverride]
  obtain ⟨byte, bytes, k, hk⟩ := (decodeArgsWithModrm_eq_ok ha).arg n
  exact ⟨_, byte, bytes, k, hk⟩

theorem jump_args (h : DecodesTo charger pre prefixSize buffer opcode slot)
    (hb : opcode.pipelineBehavior = .relativeJump) :
    (∃ v, (slot.args 0).location = .immediate v) ∧ (slot.args 1).location = .none := by
  obtain ⟨-, h₀, h₁⟩ := h.predictable.jumps hb
  obtain ⟨_, _, _, _, -, ha₀⟩ := h.arg 0
  obtain ⟨_, _, _, _, -, ha₁⟩ := h.arg 1
  rw [h₀] at ha₀
  rw [h₁] at ha₁
  obtain ⟨v, hv⟩ := decodeArg_jumpRel ha₀
  exact ⟨⟨v, by rw [hv]⟩, by rw [(decodeArg_none ha₁).1]⟩

theorem jump_distance (h : DecodesTo charger pre prefixSize buffer opcode slot)
    (hb : opcode.pipelineBehavior = .relativeJump) :
    ∃ rel, ∀ vm : VM, vm.getArg (slot.args 0).location >>= SizedValue.u32Sx = .ok rel := by
  obtain ⟨-, h₀, -⟩ := h.predictable.jumps hb
  obtain ⟨_, _, _, _, -, ha⟩ := h.arg 0
  rw [h₀] at ha
  obtain ⟨v, hv⟩ := decodeArg_jumpRel ha
  rw [hv] at ha ⊢
  obtain ⟨rel, hrel⟩ := decodeArg_jumpRel_extends ha
  exact ⟨rel, fun _ ↦ hrel⟩

/-- Filling follows every jump but those behind an operand-size prefix. -/
theorem followSlot_ok_or (h : DecodesTo charger pre prefixSize buffer opcode slot) (vm : VM)
    (eip : BitVec 32) :
    (¬(slot.sizeOverride = true ∧ opcode.pipelineBehavior = .relativeJump) ∧
        ∃ f, followSlot vm eip slot opcode.pipelineBehavior = .ok f) ∨
      (slot.sizeOverride = true ∧ opcode.pipelineBehavior = .relativeJump) ∧
        ∃ a, followSlot vm eip slot opcode.pipelineBehavior = .err (.readBadMemory a) := by
  cases hb : opcode.pipelineBehavior with
  | none | unpredictable | unpredictableNoGas =>
    refine .inl ⟨?_, _, rfl⟩
    rintro ⟨-, ⟨⟩⟩
  | relativeJump =>
    obtain ⟨rel, hrel⟩ := h.jump_distance hb
    simp only [followSlot, hrel, ofExcept_ok, ok_bind]
    cases slot.sizeOverride with
    | true => exact .inr ⟨⟨rfl, trivial⟩, _, rfl⟩
    | false =>
      refine .inl ⟨?_, _, rfl⟩
      rintro ⟨⟨⟩, -⟩

theorem followSlot_congr (h : DecodesTo charger pre prefixSize buffer opcode slot)
    (vm vm' : VM) (eip : BitVec 32) :
    followSlot vm eip slot opcode.pipelineBehavior =
      followSlot vm' eip slot opcode.pipelineBehavior := by
  cases hb : opcode.pipelineBehavior with
  | none | unpredictable | unpredictableNoGas => rfl
  | relativeJump =>
    obtain ⟨⟨v, hv⟩, -⟩ := h.jump_args hb
    simp only [followSlot, hv, VM.getArg]

theorem eipSize_toNat (h : DecodesTo charger pre prefixSize buffer opcode slot)
    (hl : prefixSize + buffer.length ≤ 16) :
    1 ≤ slot.eipSize.toNat ∧ slot.eipSize.toNat ≤ 16 := by
  obtain ⟨modrm, size, -, ha, he, -⟩ := h.argsOf
  have hr := decodeArgsWithModrm_eq_ok ha
  have h₁ := hr.one_le_size
  have h₂ := hr.size_le
  rw [he, BitVec.toNat_add, BitVec.toNat_ofNat, BitVec.toNat_ofNat]
  omega

end DecodesTo

inductive FillsWith (vm : VM) (writeable : Bool) (eip : BitVec 32) (p : Pipeline)
    (buffer : List (BitVec 8)) (pre : PrefixesActivated) (prefixSize : ℕ) (f : Filled) : Prop
  | rep (slot : Pipeline) (hr : pre.repMode ≠ .none)
      (hs : decodeRep vm.charger pre prefixSize buffer p = .ok slot)
      (hf : f = ⟨surcharge vm.charger writeable slot, eip, true⟩)
  | opcode (opcode : Opcode) (slot : Pipeline) (next : BitVec 32) (stop : Bool)
      (hr : pre.repMode = .none)
      (hd : DecodesTo vm.charger pre prefixSize buffer opcode slot)
      (hn : followSlot vm eip slot opcode.pipelineBehavior = .ok (next, stop))
      (hf : f = ⟨surcharge vm.charger writeable slot, next, stop || writeable⟩)

theorem fillSlot_eq_ok {vm : VM} {writeable : Bool} {eip : BitVec 32} {p : Pipeline}
    {f : Filled} (h : fillSlot vm OPCODES writeable eip p = .ok f) :
    ∃ window pre prefixSize, vm.memory.getSizedMemory eip 16 = .ok window ∧
      getPrefixes {} window 0 = .ok (pre, prefixSize) ∧ prefixSize ≤ window.length ∧
      FillsWith vm writeable eip p (window.drop prefixSize) pre prefixSize f := by
  simp only [fillSlot, bind_eq_ok] at h
  obtain ⟨window, hw, ⟨pre, n⟩, hp, buffer, hb, h⟩ := h
  have hn : n ≤ window.length := by
    by_contra hn
    simp [slice, hn] at hb
  rw [slice_of_le hn] at hb
  cases hb
  refine ⟨window, pre, n, ofExcept_eq_ok.mp hw, hp, hn, ?_⟩
  split at h
  · next hr =>
    obtain ⟨slot, hs, h⟩ := bind_eq_ok.mp h
    cases h
    exact .rep slot hr hs rfl
  · next hr =>
    simp only [bind_eq_ok] at h
    obtain ⟨⟨slot, behavior⟩, hd, ⟨next, stop⟩, hf, h⟩ := h
    cases h
    obtain ⟨opcode, hd', rfl⟩ := decodeOpcode_eq_ok hd
    exact .opcode opcode slot next stop (not_not.mp hr) hd' hf rfl

theorem fillSlot_keepArgs (vm : VM) (writeable : Bool) (eip : BitVec 32) (p : Pipeline) :
    fillSlot vm OPCODES writeable eip p =
      fillSlot vm OPCODES writeable eip default >>= fun f ↦ .ok (f.keepArgs p.args) := by
  simp only [fillSlot]
  cases ofExcept (vm.memory.getSizedMemory eip 16) with
  | err e => rfl
  | panic => rfl
  | ok window =>
    simp only [ok_bind]
    cases getPrefixes {} window 0 with
    | err e => rfl
    | panic => rfl
    | ok r =>
      obtain ⟨pre, n⟩ := r
      simp only [ok_bind]
      cases slice window n with
      | err e => rfl
      | panic => rfl
      | ok buffer =>
        simp only [ok_bind]
        split
        · simp only [decodeRep]
          cases index buffer 0 with
          | err e => rfl
          | panic => rfl
          | ok b =>
            simp only [ok_bind, pure_def, Filled.keepArgs, surcharge_function]
            cases writeable <;> split <;> rfl
        · cases hd : decodeOpcode vm.charger OPCODES pre n buffer with
          | err e => rfl
          | panic => rfl
          | ok r =>
            obtain ⟨slot, behavior⟩ := r
            obtain ⟨opcode, hd, -⟩ := decodeOpcode_eq_ok hd
            simp only [ok_bind]
            cases followSlot vm eip slot behavior with
            | err e => rfl
            | panic => rfl
            | ok r =>
              simp [Filled.keepArgs, hd.function, SlotFn.isRep]

theorem fillSlot_eipSize {vm : VM} {writeable : Bool} {eip : BitVec 32} {p : Pipeline}
    {f : Filled} (h : fillSlot vm OPCODES writeable eip p = .ok f) :
    1 ≤ f.slot.eipSize.toNat ∧ f.slot.eipSize.toNat ≤ 16 := by
  obtain ⟨window, pre, n, hw, -, hn, hf⟩ := fillSlot_eq_ok h
  have hl : window.length = 16 := MemorySystem.getSizedMemory_length hw
  cases hf with
  | rep slot _ hs hf =>
    obtain ⟨b, hb, hs⟩ := bind_eq_ok.mp hs
    cases hs
    obtain ⟨hlt, -⟩ := List.getElem?_eq_some_iff.mp (index_eq_ok.mp hb)
    rw [List.length_drop] at hlt
    rw [hf, surcharge_eipSize, BitVec.toNat_add, BitVec.toNat_ofNat]
    change 1 ≤ (n % 2 ^ 8 + 1) % 2 ^ 8 ∧ (n % 2 ^ 8 + 1) % 2 ^ 8 ≤ 16
    omega
  | opcode opcode slot _ _ _ hd _ hf =>
    rw [hf, surcharge_eipSize]
    exact hd.eipSize_toNat (by rw [List.length_drop]; omega)

theorem fillSlot_writeable (vm : VM) (eip : BitVec 32) (p : Pipeline) :
    fillSlot vm OPCODES true eip p = fillSlot vm OPCODES false eip p >>= fun f ↦
      .ok ⟨surcharge vm.charger true f.slot, f.next, true⟩ := by
  simp only [fillSlot]
  cases ofExcept (vm.memory.getSizedMemory eip 16) with
  | err e => rfl
  | panic => rfl
  | ok window =>
    simp only [ok_bind]
    cases getPrefixes {} window 0 with
    | err e => rfl
    | panic => rfl
    | ok r =>
      obtain ⟨pre, n⟩ := r
      simp only [ok_bind]
      cases slice window n with
      | err e => rfl
      | panic => rfl
      | ok buffer =>
        simp only [ok_bind]
        split
        · cases decodeRep vm.charger pre n buffer p <;> rfl
        · cases decodeOpcode vm.charger OPCODES pre n buffer with
          | err e => rfl
          | panic => rfl
          | ok r =>
            obtain ⟨slot, behavior⟩ := r
            simp only [ok_bind]
            cases followSlot vm eip slot behavior with
            | err e => rfl
            | panic => rfl
            | ok r => simp [surcharge]

/-- Decoding depends on the charger and on the sixteen bytes at the address, and on
nothing else. -/
theorem fillSlot_congr {vm vm' : VM} (hc : vm'.charger = vm.charger) {eip : BitVec 32}
    (hm : vm'.memory.getSizedMemory eip 16 = vm.memory.getSizedMemory eip 16)
    (writeable : Bool) (p : Pipeline) :
    fillSlot vm' OPCODES writeable eip p = fillSlot vm OPCODES writeable eip p := by
  simp only [fillSlot, hm, hc]
  congr 1
  funext window
  congr 1
  funext ⟨pre, n⟩
  congr 1
  funext buffer
  split
  · rfl
  · cases hd : decodeOpcode vm.charger OPCODES pre n buffer with
    | err e => rfl
    | panic => rfl
    | ok r =>
      obtain ⟨opcode, hd', hb⟩ := decodeOpcode_eq_ok hd
      simp only [ok_bind, hb, hd'.followSlot_congr vm' vm]

def VM.decodeAt (vm : VM) (writeable : Bool) (eip : BitVec 32) : Outcome VMError Filled :=
  fillSlot vm OPCODES writeable eip default

end Qx86
