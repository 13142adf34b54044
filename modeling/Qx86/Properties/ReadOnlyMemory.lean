import Qx86.Execute.Image
import Qx86.Execute.Steps

namespace Qx86

open Foundation

variable {σ : Type}

def Hypervisor.LeavesMemory (hv : Hypervisor σ) : Prop :=
  ∀ vm n s, (hv.interrupt vm n s).2.1.memory = vm.memory

/-- A hypervisor that writes to no read-only memory and keeps the sections. -/
def Hypervisor.GuardsMemory (hv : Hypervisor σ) : Prop :=
  ∀ (vm : VM) n s, vm.memory.Guarded (hv.interrupt vm n s).2.1.memory

theorem Hypervisor.LeavesMemory.guardsMemory {hv : Hypervisor σ} (h : hv.LeavesMemory) :
    hv.GuardsMemory := by
  intro vm n s
  rw [h]
  exact .refl _

theorem Hypervisor.GuardsMemory.stepRelation {hv : Hypervisor σ} (h : hv.GuardsMemory) :
    StepRelation hv fun m m' ↦ m.vm.memory.Guarded m'.vm.memory where
  refl _ := .refl _
  trans h h' := h.trans h'
  charge _ _ := .refl _
  advance _ _ := .refl _
  fail _ := .refl _
  count m s := (m.vm.decrementRegw_frame .ecx s).memory
  logic m f p := ((f.logic p).frame m.vm).memory
  interrupt _ _ := h ..

/-- At every point of every run, all sections still have their sizes and those of the
read-only half still have their bytes. -/
theorem point_memory_guarded (hv : Hypervisor σ) (h : hv.LeavesMemory) (n : ℕ)
    (m m' : Machine σ) (hp : Point hv (start n m) m') :
    m.vm.memory.Guarded m'.vm.memory :=
  h.guardsMemory.stepRelation.point hp

def storeHlt : BufferMemory :=
  ⟨[0xA2, 0x00, 0x00, 0x00, 0x80, 0xF4] ++ List.replicate 16 0, by decide⟩

theorem point_memory_guarded_storeHlt :
    ∃ r, Finishes (cycle testHypervisor) (start PIPELINE_SIZE (createMachine storeHlt)) r ∧
      r.1 = .ok true ∧ (createMachine storeHlt).vm.memory.Guarded r.2.vm.memory := by
  obtain ⟨⟨r, m⟩, hr, he⟩ := Finishes.of_getRight
    (show (iterate (cycle testHypervisor) 1
      (start PIPELINE_SIZE (createMachine storeHlt))).getRight?.map Prod.fst =
        some (.ok true) by decide +kernel)
  exact ⟨(r, m), hr, he, point_memory_guarded testHypervisor (fun _ _ _ ↦ rfl) PIPELINE_SIZE
    (createMachine storeHlt) m (.finish r m hr)⟩

end Qx86
