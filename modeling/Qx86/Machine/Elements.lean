import Qx86.Machine.StringOps

namespace Qx86

open Foundation Bytes MemorySystem Register

namespace VM

variable {w : ElementWidth} {vm : VM} {a : BitVec 32}

theorem element_ok (hm : vm.memory.Sectioned) (h : vm.memory.Inside a w.bytes) :
    ∃ v, vm.element w a = .ok v ∧
      view vm.memory.byteAt a.toNat w.bytes = (leBytes w.bytes v).map some := by
  have hget : ∀ w : AccessWidth, vm.memory.Inside a w.bytes → ∃ v, vm.memory.get w a = .ok v ∧
      view vm.memory.byteAt a.toNat w.bytes = (leBytes w.bytes v).map some := by
    intro w hin
    obtain ⟨v, hv⟩ := (exists_get_iff hm).mpr hin
    exact ⟨v, hv, ((get_eq_ok_iff hm).mp hv).2⟩
  cases w with
  | byte =>
    obtain ⟨v, hv, hview⟩ := hget .u8 h
    change vm.memory.getU8 a = .ok v at hv
    exact ⟨v, by simp only [element, getMem, ElementWidth.operand, width8, hv]; rfl, hview⟩
  | word =>
    obtain ⟨v, hv, hview⟩ := hget .u16 h
    change vm.memory.getU16 a = .ok v at hv
    exact ⟨v, by simp only [element, getMem, ElementWidth.operand, width16, hv]; rfl, hview⟩
  | dword =>
    obtain ⟨v, hv, hview⟩ := hget .u32 h
    change vm.memory.getU32 a = .ok v at hv
    exact ⟨v, by simp only [element, getMem, ElementWidth.operand, width32, hv]; rfl, hview⟩

theorem setElement_ok (hm : vm.memory.Sectioned) (h : vm.memory.Inside a w.bytes)
    (ha : ¬a < WRITEABLE_MEMORY) (v : BitVec w.operand.bits) :
    ∃ m, vm.setElement w a v = .ok { vm with memory := m } ∧
      m.byteAt = patch vm.memory.byteAt a.toNat (leBytes w.bytes v) ∧
      SameSections vm.memory m := by
  have hset : ∀ (w : AccessWidth) (v : w.Value), vm.memory.Inside a w.bytes →
      ∃ m, vm.memory.set w a v = .ok m ∧
        m.byteAt = patch vm.memory.byteAt a.toNat (leBytes w.bytes v) ∧
        SameSections vm.memory m := by
    intro w v hin
    obtain ⟨m, hs⟩ := (exists_set_iff hm).mpr hin
    exact ⟨m, hs, set_byteAt hm hs, set_sameSections hs⟩
  have hsized : ∃ m, vm.memory.setSized a (w.operand.sized v) = .ok m ∧
      m.byteAt = patch vm.memory.byteAt a.toNat (leBytes w.bytes v) ∧
      SameSections vm.memory m := by
    cases w with
    | byte => exact hset .u8 v h
    | word => exact hset .u16 v h
    | dword => exact hset .u32 v h
  have hguard : ¬a &&& 0x80000000 = 0 := by
    rw [Words.topBit_eq_zero]
    exact ha
  obtain ⟨m, hs, hm⟩ := hsized
  refine ⟨m, ?_, hm⟩
  rw [setElement, setMem, if_neg hguard, hs]
  rfl

theorem accumulator_congr {t : VM} (h : t.regs eax = vm.regs eax) :
    t.accumulator w = vm.accumulator w := by
  cases w with
  | byte =>
    change t.reg8 eax = vm.reg8 eax
    have hhigh : eax &&& 3 = eax := rfl
    rw [reg8, reg8, hhigh, h]
  | word =>
    change (t.regs eax &&& 0xFFFF).setWidth 16 = _
    rw [h]
    rfl
  | dword => exact h

section Walk

def elementAddress (vm : VM) (w : ElementWidth) (r : Register) (i : ℕ) : BitVec 32 :=
  vm.regs r + BitVec.ofNat 32 i * vm.stride w

/-- Some elements in a row that do not go round the end of the address space. -/
def NonWrapping (vm : VM) (w : ElementWidth) (r : Register) (n : ℕ) : Prop :=
  if vm.flags.direction then
    n * w.bytes ≤ (vm.regs r).toNat + w.bytes ∧ (vm.regs r).toNat + w.bytes ≤ 2 ^ 32
  else (vm.regs r).toNat + n * w.bytes ≤ 2 ^ 32

def lowest (vm : VM) (w : ElementWidth) (r : Register) (n : ℕ) : ℕ :=
  if vm.flags.direction then (vm.regs r).toNat + w.bytes - n * w.bytes else (vm.regs r).toNat

def place (vm : VM) (n i : ℕ) : ℕ := if vm.flags.direction then n - 1 - i else i

theorem elementAddress_toNat {r : Register} {n i : ℕ} (h : vm.NonWrapping w r n) (hi : i < n) :
    (vm.elementAddress w r i).toNat = vm.lowest w r n + vm.place n i * w.bytes := by
  have hlt := (vm.regs r).isLt
  unfold NonWrapping at h
  unfold elementAddress lowest place stride
  rw [BitVec.toNat_add, BitVec.toNat_mul, BitVec.toNat_ofNat]
  cases hd : vm.flags.direction with
  | false =>
    simp only [hd, Bool.false_eq_true, if_false] at h ⊢
    cases w
    all_goals
      simp [ElementWidth.step, ElementWidth.bytes] at h ⊢
      omega
  | true =>
    simp only [hd, if_true] at h ⊢
    cases w
    all_goals
      simp [ElementWidth.step, ElementWidth.bytes] at h ⊢
      omega

theorem elementAddress_succ (vm : VM) (w : ElementWidth) (r : Register) (i : ℕ) :
    vm.elementAddress w r (i + 1) = vm.elementAddress w r i + vm.stride w := by
  have hsucc : BitVec.ofNat 32 (i + 1) = BitVec.ofNat 32 i + 1 := BitVec.ofNat_add ..
  rw [elementAddress, elementAddress, hsucc, add_mul, one_mul, add_assoc]

variable {d : BitVec 32} {rs : List Register} {r : Register}

theorem advance_of_mem (h : r ∈ rs) (hn : rs.Nodup) :
    (vm.advance d rs).regs r = vm.regs r + d := by
  induction rs generalizing vm with
  | nil => cases h
  | cons r' rs ih =>
    rw [List.nodup_cons] at hn
    change ((vm.setReg32 r' (vm.regs r' + d)).advance d rs).regs r = _
    by_cases he : r = r'
    · subst he
      rw [advance_of_notMem d hn.1, setReg32_self]
    · have hr : r ∈ rs := by
        obtain rfl | hr := List.mem_cons.mp h
        · exact absurd rfl he
        · exact hr
      rw [ih hr hn.2, setReg32_of_ne he]

end Walk

end VM

end Qx86
