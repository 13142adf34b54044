import Qx86.Properties.RegisterViews

namespace Qx86

open Foundation Bytes Views MemorySystem Op Register

def MemorySystem.cell (m : MemorySystem) (base : BitVec 32) (i : ℕ) : Option (BitVec 8) :=
  (m.map base).bind fun b ↦ b.memory[i]?

namespace ArgLocation

/-- The locations whose values are cut to their size. -/
def truncates : ArgLocation → Bool
  | .modRMAddress .. | .sibAddress .. => true
  | _ => false

def HasBit (w : ElementWidth) (q : Register) (i : ℕ) : ArgLocation → Prop
  | .registerValue r _ => (r.view w).Has q i
  | _ => False

def HasByte (vm : VM) (w : ElementWidth) (base : BitVec 32) (i : ℕ) (l : ArgLocation) : Prop :=
  ∃ a, vm.getArgLea l = .ok a ∧ base = page a ∧ offset a ≤ i ∧ i < offset a + w.bytes

/-- A register, or bytes of one section in the writeable half. -/
def Accessible (vm : VM) (w : ElementWidth) (l : ArgLocation) : Prop :=
  ∀ a, vm.getArgLea l = .ok a → WRITEABLE_MEMORY ≤ a ∧
    ∃ b, vm.memory.map (page a) = some b ∧ offset a + w.bytes ≤ b.memory.length

end ArgLocation

variable {w w' : ElementWidth} {l l' : ArgLocation} {vm t : VM} {a : BitVec 32}

section Conversions

theorem convertSizeTrunc_sized (w : ElementWidth) (v : BitVec w'.operand.bits) :
    (w'.operand.sized v).convertSizeTrunc w.operand.size =
      w.operand.sized (v.setWidth w.operand.bits) := by
  cases w <;> cases w' <;> rfl

theorem convertSizeZx_sized (v : BitVec w'.operand.bits) (h : w'.operand.bits ≤ w.operand.bits) :
    (w'.operand.sized v).convertSizeZx w.operand.size =
      .ok (w.operand.sized (v.setWidth w.operand.bits)) := by
  cases w <;> cases w' <;> first | rfl | exact absurd h (by decide)

theorem convertSizeZx_wider (v : BitVec w'.operand.bits) (h : w.operand.bits < w'.operand.bits) :
    ∃ x, (w'.operand.sized v).convertSizeZx w.operand.size = .error x ∧ x.isMemory = false := by
  cases w <;> cases w' <;> first | exact absurd h (by decide) | exact ⟨_, rfl, rfl⟩

end Conversions

namespace VM

theorem setArg_converted (v : BitVec w'.operand.bits) (hl : l.size = w.operand.size)
    (hi : ∀ x, l ≠ .immediate x) (h : w'.operand.bits ≤ w.operand.bits ∨ l.truncates = true) :
    vm.setArg l (w'.operand.sized v) =
      vm.setArg l (w.operand.sized (v.setWidth w.operand.bits)) := by
  cases l with
  | none => cases w <;> cases hl
  | immediate x => exact absurd rfl (hi x)
  | address | registerValue | registerAddress =>
    cases hl
    have hle := h.resolve_right Bool.false_ne_true
    simp only [setArg, convertSizeZx_sized _ hle, convertSizeZx_sized _ le_rfl, BitVec.setWidth_eq]
  | modRMAddress | sibAddress =>
    cases hl
    simp only [setArg, convertSizeTrunc_sized, BitVec.setWidth_eq]

theorem setArg_wider {v : BitVec w'.operand.bits} {x : VMError} (hl : l.size = w.operand.size)
    (hi : ∀ x, l ≠ .immediate x) (ht : l.truncates = false)
    (hx : (w'.operand.sized v).convertSizeZx w.operand.size = .error x) :
    vm.setArg l (w'.operand.sized v) = .error x := by
  cases l with
  | none => cases w <;> cases hl
  | immediate x => exact absurd rfl (hi x)
  | address | registerValue | registerAddress =>
    cases hl
    simp only [setArg, hx]
    rfl
  | modRMAddress | sibAddress => cases ht

theorem setMem_eq_ok_iff {v : BitVec w.operand.bits} :
    (∃ t, vm.setMem a (w.operand.sized v) = .ok t) ↔ WRITEABLE_MEMORY ≤ a ∧
      ∃ b, vm.memory.map (page a) = some b ∧ offset a + w.bytes ≤ b.memory.length := by
  constructor
  · rintro ⟨t, ht⟩
    obtain ⟨ha, m, hm, -⟩ := setMem_ok ht
    rw [setSized_eq] at hm
    obtain ⟨b, hb, hn, -⟩ := setBytes_eq_ok hm
    rw [step_toNat] at hn
    exact ⟨BitVec.not_lt.mp ha, b, hb, hn⟩
  · rintro ⟨ha, b, hb, hn⟩
    rw [← BitVec.not_lt, WRITEABLE_MEMORY, ← Words.topBit_eq_zero] at ha
    rw [← step_toNat] at hn
    have hpos : 0 < w.step.toNat := by
      rw [step_toNat]
      exact w.bytes_pos
    rw [setMem, if_neg ha, setSized_eq, setBytes_ok hb hpos hn]
    exact ⟨_, rfl⟩

theorem setArg_eq_ok_iff {v : BitVec w.operand.bits} (hl : l.size = w.operand.size)
    (hi : ∀ x, l ≠ .immediate x) :
    (∃ t, vm.setArg l (w.operand.sized v) = .ok t) ↔ l.Accessible vm w := by
  obtain ⟨x, rfl⟩ | ⟨r, rfl⟩ | ⟨a, ha⟩ := ArgLocation.kinds hl vm
  · exact absurd rfl (hi _)
  · exact iff_of_true ⟨_, ArgLocation.setArg_register vm r v⟩ nofun
  · rw [ArgLocation.setArg_memory ha hl, setMem_eq_ok_iff]
    constructor
    · intro h a' ha'
      rw [ha] at ha'
      cases ha'
      exact h
    · intro h
      exact h a ha

theorem getArg_place (hl : l.size = w.operand.size) (hl' : l'.size = w.operand.size)
    (hi : ∀ x, l ≠ .immediate x) (h : l'.place vm w = l.place vm w) :
    vm.getArg l' = vm.getArg l := by
  obtain ⟨x, rfl⟩ | ⟨r, rfl⟩ | ⟨a, ha⟩ := ArgLocation.kinds hl vm
  · exact absurd rfl (hi _)
  · obtain ⟨x', rfl⟩ | ⟨r', rfl⟩ | ⟨a', ha'⟩ := ArgLocation.kinds hl' vm
    · cases h
    · have hplace : Place.register (r'.host w) (r'.lowBit w) w.operand.bits =
          .register (r.host w) (r.lowBit w) w.operand.bits := h
      injection hplace with hhost hlow
      rw [getArg, getArg, getReg_eq, getReg_eq, hhost, hlow]
    · rw [ArgLocation.place_memory ha'] at h
      cases h
  · rw [ArgLocation.place_memory ha] at h
    obtain ⟨x', rfl⟩ | ⟨r', rfl⟩ | ⟨a', ha'⟩ := ArgLocation.kinds hl' vm
    · cases h
    · cases h
    · rw [ArgLocation.place_memory ha'] at h
      injection h with haddress
      rw [ArgLocation.getArg_memory ha, ArgLocation.getArg_memory ha', hl, hl',
        BitVec.eq_of_toNat_eq haddress]

structure Untouched (vm t : VM) (w : ElementWidth) (l : ArgLocation) : Prop where
  registers : ∀ r i, i < 32 → ¬l.HasBit w r i → (t.regs r).getLsbD i = (vm.regs r).getLsbD i
  memory : ∀ base i, ¬l.HasByte vm w base i → t.memory.cell base i = vm.memory.cell base i
  rest : t = { vm with regs := t.regs, memory := t.memory }

theorem setMem_cell {v : BitVec w.operand.bits} (h : vm.setMem a (w.operand.sized v) = .ok t)
    {base : BitVec 32} {i : ℕ} (hi : ¬(base = page a ∧ offset a ≤ i ∧ i < offset a + w.bytes)) :
    t.memory.cell base i = vm.memory.cell base i := by
  obtain ⟨-, m, hm, rfl⟩ := setMem_ok h
  rw [setSized_eq] at hm
  obtain ⟨b, hb, hn, rfl⟩ := setBytes_eq_ok hm
  rw [step_toNat] at hn
  have hlen : (leBytes w.bytes v).length = w.bytes := leBytes_length ..
  by_cases hbase : base = page a
  · subst hbase
    have hout : ¬(offset a ≤ i ∧ i < offset a + w.bytes) := fun h ↦ hi ⟨rfl, h⟩
    have hbytes := overwrite_getElem? b.memory (offset a) (leBytes w.bytes v) (by omega) i
    rw [hlen, if_neg hout] at hbytes
    have hinsert : (vm.memory.insert (page a) (b.copyFromSlice (offset a)
        (leBytes w.bytes v))).map (page a) = some (b.copyFromSlice (offset a)
        (leBytes w.bytes v)) := if_pos rfl
    simp only [cell, hinsert, hb, Option.bind_some]
    exact hbytes
  · have hinsert : (vm.memory.insert (page a) (b.copyFromSlice (offset a)
        (leBytes w.bytes v))).map base = vm.memory.map base := if_neg hbase
    simp only [cell, hinsert]

theorem setArg_untouched {v : BitVec w.operand.bits} (hl : l.size = w.operand.size)
    (h : vm.setArg l (w.operand.sized v) = .ok t) : vm.Untouched t w l := by
  obtain ⟨x, rfl⟩ | ⟨r, rfl⟩ | ⟨a, ha⟩ := ArgLocation.kinds hl vm
  · cases h
  · rw [ArgLocation.setArg_register, setReg_view] at h
    cases h
    refine ⟨?_, fun _ _ _ ↦ rfl, rfl⟩
    intro q i hi hbit
    exact (View.write_getLsbD _ _ _ _ hi).trans (if_neg hbit)
  · rw [ArgLocation.setArg_memory ha hl] at h
    have hcell : ∀ base i, ¬l.HasByte vm w base i →
        t.memory.cell base i = vm.memory.cell base i := by
      intro base i hbyte
      exact setMem_cell h fun hin ↦ hbyte ⟨a, ha, hin⟩
    obtain ⟨-, m, -, rfl⟩ := setMem_ok h
    exact ⟨fun _ _ _ _ ↦ rfl, hcell, rfl⟩

/-- The documented rule: a value that is wider than the location is refused, any other one is
zero-extended into it, and is then what is read from its place. -/
structure StoresArgument (vm : VM) (w : ElementWidth) (l : ArgLocation) (w' : ElementWidth)
    (v : BitVec w'.operand.bits) : Prop where
  wider : w.operand.bits < w'.operand.bits →
    ∃ x, (Op.setArg l (w'.operand.sized v) : Op .straight Unit).run vm = (.err x, vm)
  fits : w'.operand.bits ≤ w.operand.bits → l.Accessible vm w →
    ∃ t, (Op.setArg l (w'.operand.sized v) : Op .straight Unit).run vm = (.ok (), t) ∧
      t.getArg l = .ok (w.operand.sized (v.setWidth w.operand.bits)) ∧
      (∀ l', l'.size = w.operand.size → l'.place t w = l.place vm w →
        t.getArg l' = .ok (w.operand.sized (v.setWidth w.operand.bits))) ∧
      vm.Untouched t w l

theorem setArg_fits (v : BitVec w'.operand.bits) (hl : l.size = w.operand.size)
    (hi : ∀ x, l ≠ .immediate x) (hle : w'.operand.bits ≤ w.operand.bits)
    (ha : l.Accessible vm w) :
    ∃ t, vm.setArg l (w'.operand.sized v) = .ok t ∧
      t.getArg l = .ok (w.operand.sized (v.setWidth w.operand.bits)) ∧
      (∀ l', l'.size = w.operand.size → l'.place t w = l.place vm w →
        t.getArg l' = .ok (w.operand.sized (v.setWidth w.operand.bits))) ∧
      vm.Untouched t w l := by
  obtain ⟨t, ht⟩ := (setArg_eq_ok_iff (v := v.setWidth w.operand.bits) hl hi).mpr ha
  have hget := getArg_setArg hl ht
  refine ⟨t, (setArg_converted v hl hi (.inl hle)).trans ht, hget, ?_, setArg_untouched hl ht⟩
  intro l' hl' hplace
  have hsame : l.place t w = l.place vm w := ArgLocation.place_congr (setArg_addressedBy hl ht)
  rw [getArg_place hl hl' hi (hplace.trans hsame.symm), hget]

theorem storesArgument_iff (v : BitVec w'.operand.bits) (hl : l.size = w.operand.size)
    (hi : ∀ x, l ≠ .immediate x) :
    vm.StoresArgument w l w' v ↔
      ¬(w.operand.bits < w'.operand.bits ∧ l.truncates = true ∧ l.Accessible vm w) := by
  constructor
  · rintro ⟨hwider, -⟩ ⟨hlt, htruncates, ha⟩
    obtain ⟨x, hx⟩ := hwider hlt
    obtain ⟨t, ht⟩ := (setArg_eq_ok_iff (v := v.setWidth w.operand.bits) hl hi).mpr ha
    rw [run_setArg, setArg_converted v hl hi (.inr htruncates), ht] at hx
    cases hx
  · intro h
    constructor
    · intro hlt
      cases htruncates : l.truncates with
      | false =>
        obtain ⟨x, hx, -⟩ := convertSizeZx_wider v hlt
        exact ⟨x, by rw [run_setArg, setArg_wider hl hi htruncates hx, storeResult]⟩
      | true =>
        rw [run_setArg, setArg_converted v hl hi (.inr htruncates)]
        cases hset : vm.setArg l (w.operand.sized (v.setWidth w.operand.bits)) with
        | error x => exact ⟨x, rfl⟩
        | ok t => exact absurd ⟨hlt, htruncates, (setArg_eq_ok_iff hl hi).mp ⟨t, hset⟩⟩ h
    · intro hle ha
      obtain ⟨t, ht, hreads⟩ := setArg_fits v hl hi hle ha
      exact ⟨t, by rw [run_setArg, ht, storeResult], hreads⟩

/-- A store of a value that is cut fails in the memory only. -/
theorem setArg_ne_error {v : BitVec w'.operand.bits} {x : VMError} (hl : l.size = w.operand.size)
    (ha : vm.getArgLea l = .ok a) (ht : l.truncates = true) (hx : x.isMemory = false) :
    vm.setArg l (w'.operand.sized v) ≠ .error x := by
  intro h
  have hi : ∀ x, l ≠ .immediate x := by
    rintro x rfl
    cases ht
  rw [setArg_converted v hl hi (.inr ht), ArgLocation.setArg_memory ha hl] at h
  rw [setMem_error h] at hx
  cases hx

theorem setArg_alike_iff (v : BitVec w'.operand.bits) (hl : l.size = w.operand.size)
    (hl' : l'.size = w.operand.size) (ha : vm.getArgLea l = .ok a)
    (ha' : vm.getArgLea l' = .ok a) :
    vm.setArg l' (w'.operand.sized v) = vm.setArg l (w'.operand.sized v) ↔
      w'.operand.bits ≤ w.operand.bits ∨ l'.truncates = l.truncates := by
  have hi : ∀ x, l ≠ .immediate x := by
    rintro x rfl
    cases ha
  have hi' : ∀ x, l' ≠ .immediate x := by
    rintro x rfl
    cases ha'
  have hsame : ∀ x : BitVec w.operand.bits,
      vm.setArg l' (w.operand.sized x) = vm.setArg l (w.operand.sized x) := by
    intro x
    rw [ArgLocation.setArg_memory ha hl, ArgLocation.setArg_memory ha' hl']
  by_cases hle : w'.operand.bits ≤ w.operand.bits
  · refine iff_of_true ?_ (.inl hle)
    rw [setArg_converted v hl hi (.inl hle), setArg_converted v hl' hi' (.inl hle), hsame]
  · have hlt : w.operand.bits < w'.operand.bits := by omega
    obtain ⟨x, hx, hmemory⟩ := convertSizeZx_wider v hlt
    rw [or_iff_right hle]
    cases ht : l.truncates with
    | false =>
      rw [setArg_wider hl hi ht hx]
      cases ht' : l'.truncates with
      | false => exact iff_of_true (setArg_wider hl' hi' ht' hx) rfl
      | true => exact iff_of_false (setArg_ne_error hl' ha' ht' hmemory) nofun
    | true =>
      cases ht' : l'.truncates with
      | false =>
        rw [setArg_wider hl' hi' ht' hx]
        exact iff_of_false (setArg_ne_error hl ha ht hmemory).symm nofun
      | true =>
        refine iff_of_true ?_ rfl
        rw [setArg_converted v hl hi (.inr ht), setArg_converted v hl' hi' (.inr ht'), hsame]

/-- The documented rule of a store into a register or into memory holds but for a value that is
wider than an accessible location which cuts it; locations of one address and size are alike
but for a wider value that only one of them cuts. -/
theorem argument_lens (vm : VM) (w : ElementWidth) (l : ArgLocation) (hl : l.size = w.operand.size)
    (hi : ∀ x, l ≠ .immediate x) (w' : ElementWidth) (v : BitVec w'.operand.bits) :
    (vm.StoresArgument w l w' v ↔
      ¬(w.operand.bits < w'.operand.bits ∧ l.truncates = true ∧ l.Accessible vm w)) ∧
    ∀ l' a, l'.size = l.size → vm.getArgLea l = .ok a → vm.getArgLea l' = .ok a →
      ((vm.getArg l' = vm.getArg l ∧
        vm.setArg l' (w'.operand.sized v) = vm.setArg l (w'.operand.sized v)) ↔
        w'.operand.bits ≤ w.operand.bits ∨ l'.truncates = l.truncates) := by
  refine ⟨storesArgument_iff v hl hi, ?_⟩
  intro l' a hsize ha ha'
  have hget : vm.getArg l' = vm.getArg l := by
    rw [ArgLocation.getArg_memory ha, ArgLocation.getArg_memory ha', hsize]
  rw [and_iff_right hget]
  exact setArg_alike_iff v hl (hsize.trans hl) ha ha'

theorem argument_lens_address :
    ∃ t, (Op.setArg (.address 0x80000008 .dword) (.byte 5) : Op .straight Unit).run
        (twoRegisters 0 0) = (.ok (), t) ∧
      t.getArg (.modRMAddress (some 0x80000008) none .dword) = .ok (.dword 5) := by
  have hi : ∀ x, ArgLocation.address 0x80000008 .dword ≠ .immediate x := nofun
  have ha : (ArgLocation.address 0x80000008 .dword).Accessible (twoRegisters 0 0) .dword :=
    (setArg_eq_ok_iff (w := .dword) (v := 0) rfl hi).mp ⟨_, rfl⟩
  have hrule := (argument_lens (twoRegisters 0 0) .dword (.address 0x80000008 .dword) rfl hi .byte
    5).1.mpr fun h ↦ absurd h.1 (by decide)
  obtain ⟨t, ht, -, hplace, -⟩ := hrule.fits (by decide) ha
  exact ⟨t, ht, hplace _ rfl rfl⟩

/-- A dword that is stored into a byte at an address with a ModRM form is cut to its low byte. -/
theorem setArg_cuts :
    ¬∀ (vm : VM) (w : ElementWidth) (l : ArgLocation), l.size = w.operand.size →
      (∀ x, l ≠ .immediate x) → ∀ (w' : ElementWidth) (v : BitVec w'.operand.bits),
        vm.StoresArgument w l w' v ∧
        ∀ l' a, l'.size = l.size → vm.getArgLea l = .ok a → vm.getArgLea l' = .ok a →
          vm.getArg l' = vm.getArg l ∧
            vm.setArg l' (w'.operand.sized v) = vm.setArg l (w'.operand.sized v) := by
  intro h
  obtain ⟨hrule, -⟩ := h (twoRegisters 0 0) .byte (.modRMAddress (some 0x80000008) none .byte) rfl
    nofun .dword 0x1234
  obtain ⟨x, hx⟩ := hrule.wider (by decide)
  cases hx

end VM

end Qx86
