import Qx86.Properties.AlternativeEncodings
import Qx86.Properties.Arithmetic
import Qx86.Properties.DecodedSlots

namespace Qx86

open Foundation Outcome Op Operations Register

variable {σ : Type}

section Encodings

/-- The encodings of CMP: an opcode byte, and the register field behind it in a group. -/
def IsCompare (opcode : BitVec 8) (reg : Fin 8) : Prop :=
  opcode ∈ [0x38, 0x39, 0x3A, 0x3B, 0x3C, 0x3D] ∨ opcode ∈ [0x80, 0x81, 0x83] ∧ reg = 7

def IsTest (opcode : BitVec 8) (reg : Fin 8) : Prop :=
  opcode ∈ [0x84, 0x85, 0xA8, 0xA9] ∨ opcode ∈ [0xF6, 0xF7] ∧ reg = 0

instance (opcode : BitVec 8) (reg : Fin 8) : Decidable (IsCompare opcode reg) :=
  inferInstanceAs (Decidable (_ ∨ _))

instance (opcode : BitVec 8) (reg : Fin 8) : Decidable (IsTest opcode reg) :=
  inferInstanceAs (Decidable (_ ∨ _))

/-- The low bit of their opcodes tells native operands from bytes. -/
def IsNative (opcode : BitVec 8) : Prop := opcode.getLsbD 0 = true

instance (opcode : BitVec 8) : Decidable (IsNative opcode) := inferInstanceAs (Decidable (_ = _))

theorem compareTest_rows : ∀ (opcode : BitVec 8) (reg : Fin 8),
    (IsCompare opcode reg → ¬IsTest opcode reg ∧ selectedFunction opcode reg =
      .logic (if IsNative opcode then .cmpNativeWord else .cmp8bit)) ∧
    (IsTest opcode reg → selectedFunction opcode reg =
      .logic (if IsNative opcode then .testNativeWord else .test8bit)) := by
  decide +kernel

end Encodings

section Slots

variable {w : ElementWidth} {p : Pipeline} {vm : VM}

/-- The operands of a slot have a width, or the second is a byte to be extended. -/
structure Pipeline.BinarySizes (p : Pipeline) (w : ElementWidth) : Prop where
  first : (p.args 0).location.size = w.operand.size
  second : (p.args 1).location.size = w.operand.size ∨ (p.args 1).location.size = .byte

/-- A step that leaves registers and memory as they are, and fails only if an operand cannot
be read. -/
structure OnlyFlags (p : Pipeline) (vm : VM) (r : Outcome VMError Unit × VM) : Prop where
  regs : r.2.regs = vm.regs
  memory : r.2.memory = vm.memory
  succeeds : vm.Readable (p.args 0).location → vm.Readable (p.args 1).location → r.1 = .ok ()

/-- The first operand of a slot can be stored into, and has no bit that the second one lacks. -/
def VM.MaskKeeps (vm : VM) (w : ElementWidth) (p : Pipeline) : Prop :=
  ∀ a b, vm.getArg (p.args 0).location = .ok (w.operand.sized a) →
    vm.SourceReads w (p.args 1).location b →
    a &&& b = a ∧ vm.Writeable w (p.args 0).location

theorem operands_cases (h : p.BinarySizes w) (vm : VM) :
    (∃ a b, vm.getArg (p.args 0).location = .ok (w.operand.sized a) ∧
      vm.SourceReads w (p.args 1).location b) ∨
    ((¬vm.Readable (p.args 0).location ∨ ¬vm.Readable (p.args 1).location) ∧
      ∃ x, ∀ (k : BitVec w.operand.bits → BitVec w.operand.bits → Op .straight Unit),
        (getArgAs w.operand.exact (p.args 0).location >>= fun a ↦
          getArgAs w.operand.extended (p.args 1).location >>= k a).run vm = (.err x, vm)) := by
  obtain ⟨x, hx⟩ | ⟨a, ha⟩ := destination_cases h.first vm
  · refine .inr ⟨.inl ?_, x, fun k ↦ run_unreadable (.inl hx)⟩
    rintro ⟨v, hv⟩
    cases hx.symm.trans hv
  · obtain ⟨x, hx⟩ | ⟨b, hb⟩ := source_cases h.second vm
    · refine .inr ⟨.inr ?_, x, fun k ↦ run_unreadable (.inr ⟨⟨a, exact_destination ha⟩, hx⟩)⟩
      rintro ⟨v, hv⟩
      cases hx.symm.trans hv
    · exact .inl ⟨a, b, ha, hb⟩

theorem onlyFlags_error {x : VMError}
    (h : ¬vm.Readable (p.args 0).location ∨ ¬vm.Readable (p.args 1).location) :
    OnlyFlags p vm (.err x, vm) := by
  refine ⟨rfl, rfl, ?_⟩
  intro h₀ h₁
  obtain h | h := h
  · exact absurd h₀ h
  · exact absurd h₁ h

theorem cmp_onlyFlags (h : p.BinarySizes w) :
    OnlyFlags p vm ((Operations.cmp w.operand p : Op .straight Unit).run vm) := by
  obtain ⟨a, b, ha, hb⟩ | ⟨hun, x, hx⟩ := operands_cases h vm
  · rw [cmp_run ha hb]
    exact ⟨rfl, rfl, fun _ _ ↦ rfl⟩
  · rw [Operations.cmp, hx]
    exact onlyFlags_error hun

theorem test_onlyFlags (h : p.BinarySizes w) (vm : VM)
    (op : BitVec w.operand.bits → BitVec w.operand.bits → BitVec w.operand.bits) :
    OnlyFlags p vm ((bitwise w.operand op false p : Op .straight Unit).run vm) ∧
      ((bitwise w.operand op false p : Op .straight Unit).run vm).2.flags =
        ((bitwise w.operand op true p : Op .straight Unit).run vm).2.flags := by
  obtain ⟨a, b, ha, hb⟩ | ⟨hun, x, hx⟩ := operands_cases h vm
  · rw [bitwise_run_flags ha hb, bitwise_run ha hb]
    exact ⟨⟨rfl, rfl, fun _ _ ↦ rfl⟩, (stored_flags ..).symm⟩
  · rw [bitwise, bitwise, hx, hx]
    exact ⟨onlyFlags_error hun, rfl⟩

theorem and_onlyFlags_iff (h : p.BinarySizes w) (vm : VM) :
    OnlyFlags p vm ((bitwise w.operand (· &&& ·) true p : Op .straight Unit).run vm) ↔
      vm.MaskKeeps w p := by
  obtain ⟨a, b, ha, hb⟩ | ⟨hun, x, hx⟩ := operands_cases h vm
  · rw [bitwise_run ha hb]
    constructor
    · intro hr a' b' ha' hb'
      cases ElementWidth.sized_injective (Except.ok.inj (ha.symm.trans ha'))
      cases hb.unique hb'
      have hok := hr.succeeds ⟨_, ha⟩ hb.readable
      obtain ⟨x, -, he⟩ | ⟨t, ht, he⟩ := stored_cases vm (vm.flags.ofBitwise (a &&& b))
        (p.args 0).location (w.operand.sized (a &&& b))
      · rw [he] at hok
        cases hok
      · rw [he] at hr
        refine ⟨?_, VM.setArg_writeable h.first (.refl _) rfl ht⟩
        have hget := VM.getArg_setArg h.first ht
        rw [VM.getArg_congr (t := t) hr.regs hr.memory, ha] at hget
        exact (ElementWidth.sized_injective (Except.ok.inj hget)).symm
    · intro hk
      obtain ⟨hab, hwrite⟩ := hk a b ha hb
      obtain ⟨t, ht⟩ := hwrite.store h.first (a &&& b)
      rw [hab] at ht ⊢
      rw [stored_ok (VM.setArg_self h.first ha ht)]
      exact ⟨rfl, rfl, fun _ _ ↦ rfl⟩
  · rw [bitwise, hx]
    refine iff_of_true (onlyFlags_error hun) ?_
    intro a b ha hb
    obtain hun | hun := hun
    · exact absurd ⟨_, ha⟩ hun
    · exact absurd hb.readable hun

end Slots

section Instructions

variable {window run rest : List (BitVec 8)} {opcode : BitVec 8} {vm₀ : VM} {eip : BitVec 32}
  {writeable : Bool} {q : Pipeline} {f : Filled}

theorem effectOf_logic {g : LogicFn} {p : Pipeline} (h : p.function = .opcode (.logic g))
    (hv : Hypervisor σ) (m : Machine σ) : effectOf hv p m = (g.logic p).run m.vm := by
  rw [effectOf, h]
  rfl

theorem binarySizes_of_fits {w : ElementWidth} {p : Pipeline}
    (h : decide (p.sizes 0 = w.operand.size ∧
      (p.sizes 1 = w.operand.size ∨ p.sizes 1 = .byte)) = true) : p.BinarySizes w :=
  ⟨(of_decide_eq_true h).1, (of_decide_eq_true h).2⟩

theorem binarySizes_native {p : Pipeline}
    (h : decide (p.sizes 0 = nativeSize p.sizeOverride ∧
      (p.sizes 1 = nativeSize p.sizeOverride ∨ p.sizes 1 = .byte)) = true) :
    p.BinarySizes (.native p.sizeOverride) := by
  rw [← ElementWidth.native_size] at h
  exact binarySizes_of_fits h

theorem native_run {native : LogicFn} {F : OperandWidth → Pipeline → Op .straight Unit}
    {p : Pipeline} (hnative : ∀ vm, (native.logic p).run vm = (nativeWord F p).run vm) (vm : VM) :
    (native.logic p).run vm = (F (ElementWidth.native p.sizeOverride).operand p).run vm := by
  rw [hnative, nativeWord]
  cases p.sizeOverride <;> rfl

theorem native_run_test (p : Pipeline) (vm : VM) :
    (LogicFn.testNativeWord.logic p).run vm =
      (bitwise (ElementWidth.native p.sizeOverride).operand (· &&& ·) true p :
        Op .straight Unit).run vm :=
  native_run (F := fun w ↦ bitwise w (· &&& ·) true) (fun _ ↦ rfl) vm

/-- CMP and TEST only set flags, and TEST those of AND, exactly if no native TEST is there, or
the store that it makes finds a writeable operand and the value that is in it. -/
theorem compareTest_onlyFlags_iff (hv : Hypervisor σ) (h : Split window run false opcode rest)
    (hrep : (prefixesOf run false).repMode = .none)
    (hi : IsCompare opcode (regField (rest.headD 0)) ∨ IsTest opcode (regField (rest.headD 0)))
    (hw : vm₀.memory.getSizedMemory eip 16 = .ok window)
    (hf : fillSlot vm₀ OPCODES writeable eip q = .ok f) (m : Machine σ) :
    OnlyFlags f.slot m.vm (effectOf hv f.slot m) ∧
      (IsTest opcode (regField (rest.headD 0)) → (effectOf hv f.slot m).2.flags =
        (((if IsNative opcode then LogicFn.andNativeWord else .and8bit).logic f.slot).run
          m.vm).2.flags) ↔
    (IsTest opcode (regField (rest.headD 0)) → IsNative opcode →
      m.vm.MaskKeeps (.native f.slot.sizeOverride) f.slot) := by
  obtain ⟨hcompare, htest⟩ := compareTest_rows opcode (regField (rest.headD 0))
  obtain hi | hi := hi
  · obtain ⟨hno, hg⟩ := hcompare hi
    refine iff_of_true ⟨?_, fun ht ↦ absurd ht hno⟩ fun ht ↦ absurd ht hno
    by_cases hn : IsNative opcode
    · rw [if_pos hn] at hg
      obtain ⟨hfn, hfits⟩ := h.slot_fits hrep hw hf hg rfl
      rw [effectOf_logic hfn, native_run (F := Operations.cmp) fun _ ↦ rfl]
      exact cmp_onlyFlags (binarySizes_native hfits)
    · rw [if_neg hn] at hg
      obtain ⟨hfn, hfits⟩ := h.slot_fits hrep hw hf hg rfl
      rw [effectOf_logic hfn]
      exact cmp_onlyFlags (binarySizes_of_fits (w := .byte) hfits)
  · have hg := htest hi
    by_cases hn : IsNative opcode
    · rw [if_pos hn] at hg ⊢
      obtain ⟨hfn, hfits⟩ := h.slot_fits hrep hw hf hg rfl
      rw [effectOf_logic hfn]
      have hiff := and_onlyFlags_iff (binarySizes_native hfits) m.vm
      rw [← native_run_test] at hiff
      constructor
      · rintro ⟨honly, -⟩ - -
        exact hiff.mp honly
      · intro hkeeps
        exact ⟨hiff.mpr (hkeeps hi hn), fun _ ↦ rfl⟩
    · rw [if_neg hn] at hg ⊢
      obtain ⟨hfn, hfits⟩ := h.slot_fits hrep hw hf hg rfl
      rw [effectOf_logic hfn]
      obtain ⟨honly, hflags⟩ := test_onlyFlags (binarySizes_of_fits (w := .byte) hfits) m.vm
        (· &&& ·)
      exact iff_of_true ⟨honly, fun _ ↦ hflags⟩ fun _ hn' ↦ absurd hn' hn

end Instructions

def testOne : Machine (List (BitVec 8)) where
  vm := { createVm ⟨[0xA9, 1, 0, 0, 0] ++ List.replicate 11 0, by decide⟩ with
    regs := fun r ↦ if r = eax then 3 else 0 }
  host := []

theorem fetch_testOne : testOne.vm.memory.getSizedMemory CODE_MEM 16 =
    .ok ([0xA9, 1, 0, 0, 0] ++ List.replicate 11 0) := rfl

theorem split_testOne : Split ([0xA9, 1, 0, 0, 0] ++ List.replicate 11 0) [] false 0xA9
    ([1, 0, 0, 0] ++ List.replicate 11 0) := ⟨rfl, nofun, fun _ ↦ by decide⟩

theorem encodes_testOne : Encodes false [0xA9, 1, 0, 0, 0] .testNativeWord
    ![.registerValue eax .dword, .immediate (.dword 1), .none] :=
  encodes_accumulator rows_single.1.2.1 rfl

def testSame : Machine (List (BitVec 8)) where
  vm := { testOne.vm with regs := fun r ↦ if r = eax then 1 else 0 }
  host := []

theorem compareTest_onlyFlags_iff_testSame : ∃ f,
    fillSlot testSame.vm OPCODES false CODE_MEM default = .ok f ∧
      OnlyFlags f.slot testSame.vm (effectOf testHypervisor f.slot testSame) := by
  have hfetch : testSame.vm.memory.getSizedMemory CODE_MEM 16 = _ := fetch_testOne
  obtain ⟨f, hf, -, hso, hl⟩ := encodes_testOne.fills hfetch false default
  have hiff := compareTest_onlyFlags_iff testHypervisor split_testOne rfl (.inr (by decide))
    hfetch hf testSame
  refine ⟨f, hf, (hiff.mpr fun _ _ ↦ ?_).1⟩
  rw [hso]
  intro a b ha hb
  rw [hl 0] at ha ⊢
  rw [hl 1] at hb
  have hone : a = 1 := ElementWidth.sized_injective (Except.ok.inj ha).symm
  refine ⟨?_, _, rfl⟩
  obtain hb | ⟨v, hb, -⟩ := hb
  · rw [hone, ← ElementWidth.sized_injective (w := .dword) (Except.ok.inj hb)]
    rfl
  · cases hb

/-- TEST EAX, 1 stores 1 into EAX. -/
theorem test_stores : ¬∀ (window run rest : List (BitVec 8)) (opcode : BitVec 8) (f : Filled)
    (m : Machine (List (BitVec 8))), Split window run false opcode rest →
      (prefixesOf run false).repMode = .none →
      IsCompare opcode (regField (rest.headD 0)) ∨ IsTest opcode (regField (rest.headD 0)) →
      m.vm.memory.getSizedMemory CODE_MEM 16 = .ok window →
      fillSlot m.vm OPCODES false CODE_MEM default = .ok f →
        OnlyFlags f.slot m.vm (effectOf testHypervisor f.slot m) := by
  intro h
  obtain ⟨f, hf, heffect⟩ := encodes_testOne.effect fetch_testOne false default
  have honly := h _ [] _ 0xA9 f testOne split_testOne rfl (.inr (by decide)) fetch_testOne hf
  rw [heffect testHypervisor testOne] at honly
  have hregs := congrFun honly.regs eax
  exact absurd hregs (by decide)

end Qx86
