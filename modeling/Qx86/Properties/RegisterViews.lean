import Qx86.Foundation.Views
import Qx86.Properties.Arithmetic

namespace Qx86

open Foundation Views Op Register

/-- The bits of the register file that a register number names at each width. -/
def Register.view : (w : ElementWidth) → Register → View Register 32 w.operand.bits
  | .byte, r => if r.val < 4 then ⟨r, 0, by decide⟩ else ⟨r - 4, 8, by decide⟩
  | .word, r => ⟨r, 0, by decide⟩
  | .dword, r => ⟨r, 0, by decide⟩

variable {w w' : ElementWidth}

theorem Register.view_word (w : ElementWidth) (r : Register) : (r.view w).word = r.host w := by
  cases w with
  | byte => decide +revert
  | word | dword => rfl

theorem Register.view_first (w : ElementWidth) (r : Register) : (r.view w).first = r.lowBit w := by
  cases w with
  | byte => decide +revert
  | word | dword => rfl

namespace VM

theorem getReg_view (vm : VM) (w : ElementWidth) (r : Register) :
    vm.getReg r w.operand.size = w.operand.sized ((r.view w).read vm.regs) := by
  rw [getReg_eq, View.read, Register.view_word, Register.view_first]

theorem setReg_view (vm : VM) (w : ElementWidth) (r : Register) (v : BitVec w.operand.bits) :
    vm.setReg r (w.operand.sized v) = { vm with regs := (r.view w).write vm.regs v } := by
  rw [setReg_eq, setReg32, View.write, Register.view_word, Register.view_first]

/-- The registers are overlapping views of eight words: what is set is read back, a view reads
of the bits that were set the new ones and of the others the old ones, and all else is kept. -/
theorem register_views (vm : VM) (r : Register) (w : ElementWidth) (v : BitVec w.operand.bits) :
    (vm.setReg r (w.operand.sized v)).getReg r w.operand.size = w.operand.sized v ∧
    (∃ regs, vm.setReg r (w.operand.sized v) = { vm with regs } ∧
      ∀ q i, i < 32 → (regs q).getLsbD i =
        if (r.view w).Has q i then v.getLsbD (i - (r.view w).first) else (vm.regs q).getLsbD i) ∧
    (∀ r' w', ∃ x, (vm.setReg r (w.operand.sized v)).getReg r' w'.operand.size =
        w'.operand.sized x ∧ ∀ i < w'.operand.bits, x.getLsbD i =
          if (r.view w).Has (r'.view w').word ((r'.view w').first + i) then
            v.getLsbD ((r'.view w').first + i - (r.view w).first)
          else (vm.regs (r'.view w').word).getLsbD ((r'.view w').first + i)) ∧
    vm.setReg r (vm.getReg r w.operand.size) = vm ∧
    ∀ r' w' (v' : BitVec w'.operand.bits), (r.view w).Disjoint (r'.view w') →
      (vm.setReg r (w.operand.sized v)).setReg r' (w'.operand.sized v') =
        (vm.setReg r' (w'.operand.sized v')).setReg r (w.operand.sized v) := by
  refine ⟨getReg_setReg vm r v, ⟨_, setReg_view vm w r v, ?_⟩, ?_, ?_, ?_⟩
  · intro q i hi
    exact View.write_getLsbD _ _ _ _ hi
  · intro r' w'
    refine ⟨_, getReg_view _ w' r', ?_⟩
    intro i hi
    rw [setReg_view, View.read_write_getLsbD _ _ _ _ hi, View.read_getLsbD _ _ hi]
  · rw [getReg_view, setReg_view, View.write_read]
  · intro r' w' v' h
    simp only [setReg_view, View.write_comm _ h]

theorem register_views_al_ah :
    ((twoRegisters 3 4).setReg al (.byte 1)).setReg ah (.byte 2) =
      ((twoRegisters 3 4).setReg ah (.byte 2)).setReg al (.byte 1) := by
  have hdisjoint : (al.view .byte).Disjoint (ah.view .byte) := by
    intro j i h h'
    have hlow : i < 0 + 8 := h.2.2
    have hhigh : 8 ≤ i := h'.2.1
    omega
  exact (register_views (twoRegisters 3 4) al .byte 1).2.2.2.2 ah .byte 2 hdisjoint

end VM

end Qx86
