import Qx86.Execute.Image
import Qx86.Execute.Prediction

namespace Qx86

open Foundation Outcome

variable {σ : Type} {hv : Hypervisor σ}

/-- An instruction that a run executes, with the machine as it finds it. A slot that
filling did not reach has no size and is not an instruction. -/
def Executed (hv : Hypervisor σ) (c : Running σ) (p : Pipeline) (m : Machine σ) : Prop :=
  ∃ c' slots, Reaches (cycle hv) c c' ∧
    fillPipeline c'.machine.vm OPCODES c'.pipeline = .ok slots ∧
    (p, m) ∈ trace hv slots c'.machine ∧ p.eipSize ≠ 0

/-- A slot is the decoding of the bytes at `eip` at this moment, and its price has the
surcharge for writeable memory on top. -/
def FreshAndCharged (p : Pipeline) (m : Machine σ) : Prop :=
  ∃ f, m.vm.decodeAt false m.vm.eip = .ok f ∧
    p = { f.slot with gasCost := f.slot.gasCost + m.vm.charger.cost .writeableMemoryExec }

instance (p : Pipeline) (m : Machine σ) : Decidable (FreshAndCharged p m) :=
  match h : m.vm.decodeAt false m.vm.eip with
  | .ok f => decidable_of_iff (p = { f.slot with
      gasCost := f.slot.gasCost + m.vm.charger.cost .writeableMemoryExec })
      (by simp [FreshAndCharged, h])
  | .err _ => .isFalse (by simp [FreshAndCharged, h])
  | .panic => .isFalse (by simp [FreshAndCharged, h])

/-- Looking ahead stays in read-only memory, and on the path that is executed. -/
structure StaysReadOnly (visits : List Visit) : Prop where
  readOnly : ∀ v ∈ visits.tail, v.eip < WRITEABLE_MEMORY
  enter : ∀ v ∈ visits.dropLast, ∀ f, v.decoded = .ok f →
    f.slot.function ≠ .opcode (.logic .enter)

theorem freshAndCharged_first {m : Machine σ} {f : Filled}
    (hd : m.vm.decodeAt (writeableAt m.vm.eip) m.vm.eip = .ok f)
    (hw : ¬m.vm.eip < WRITEABLE_MEMORY) : FreshAndCharged f.slot m := by
  rw [← writeableAt_eq_false, Bool.not_eq_false] at hw
  rw [hw, VM.decodeAt, fillSlot_writeable] at hd
  obtain ⟨g, hg, hd⟩ := bind_eq_ok.mp hd
  cases hd
  exact ⟨g, hg, rfl⟩

/-- In a run that never looks ahead across the border, every instruction executed in
writeable memory is decoded right then and pays the surcharge. -/
theorem executed_freshAndCharged (hv : Hypervisor σ) (n : ℕ) (m : Machine σ)
    (h : ∀ c, Reaches (cycle hv) (start n m) c → StaysReadOnly (c.machine.vm.visits n))
    (p : Pipeline) (m' : Machine σ) (he : Executed hv (start n m) p m')
    (hw : ¬m'.vm.eip < WRITEABLE_MEMORY) : FreshAndCharged p m' := by
  obtain ⟨c, slots, hc, hf, hp, hi⟩ := he
  have hs := h c hc
  rw [← reaches_pipeline_length hc] at hs
  obtain ⟨mc, pipeline⟩ := c
  cases pipeline with
  | nil => cases hf; cases hp
  | cons q ps =>
    have hf : fillLoop mc.vm OPCODES (writeableAt mc.vm.eip) mc.vm.eip false
        mc.vm.gasRemaining (default :: ps) = .ok slots := hf
    obtain ⟨hhead, rfl⟩ | ⟨v, hv', he⟩ := trace_visits (default :: ps) mc.vm.eip _ hf hs.enter
      rfl hp hi
    · obtain ⟨f, rest, hd, -, rfl⟩ := fillLoop_cons_eq_ok hf
      cases hhead
      rw [keepArgs_default hd]
      exact freshAndCharged_first hd hw
    · exact absurd (he ▸ hs.readOnly v hv') hw

def hltInData : Machine (List (BitVec 8)) where
  vm := { createVm zeroSection with
    eip := DATA_MEM
    memory := codeMemory zeroSection ⟨0xF4 :: List.replicate 16 0, by decide⟩ }
  host := []

theorem executed_freshAndCharged_hltInData : ∃ p, p.gasCost = 15 ∧ FreshAndCharged p hltInData := by
  have hfill : fillPipeline hltInData.vm OPCODES (emptyPipeline PIPELINE_SIZE) =
      .ok ({ (default : Pipeline) with
        function := .opcode (.logic .hlt), gasCost := 15, opcode := 0xF4 } ::
        List.replicate 15 (idleSlot default)) := by
    decide +kernel
  have hstop : (cycle testHypervisor (start PIPELINE_SIZE hltInData)).isRight = true := by
    decide +kernel
  obtain ⟨r, hr⟩ := Sum.isRight_iff.mp hstop
  refine ⟨_, rfl, executed_freshAndCharged testHypervisor PIPELINE_SIZE hltInData ?_ _ hltInData
    ⟨start PIPELINE_SIZE hltInData, _, .refl _ _, hfill, List.mem_cons_self, by decide⟩
    (by decide)⟩
  intro c hc
  rw [hc.eq_of_inr hr]
  have hone : hltInData.vm.visits PIPELINE_SIZE =
      [⟨DATA_MEM, hltInData.vm.decodeAt true DATA_MEM⟩] := by
    decide +kernel
  change StaysReadOnly (hltInData.vm.visits PIPELINE_SIZE)
  rw [hone]
  constructor
  · intro v hv
    cases hv
  · intro v hv
    cases hv

/-- A call from read-only code to a `nop` in writeable memory. -/
def callIntoData : Machine (List (BitVec 8)) where
  vm := { createVm zeroSection with
    regs := fun r ↦ if r = Register.esp then 0x80000020 else 0
    memory := codeMemory ⟨[0xE8, 0xFB, 0xFF, 0xFE, 0x7F] ++ List.replicate 16 0, by decide⟩
      ⟨[0x90, 0xF4] ++ List.replicate 30 0, by decide⟩ }
  host := []

/-- The `nop` is decoded together with the call, and does not pay for where it is. -/
theorem executed_not_freshAndCharged_callIntoData :
    ¬∀ p m', Executed testHypervisor (start PIPELINE_SIZE callIntoData) p m' →
      ¬m'.vm.eip < WRITEABLE_MEMORY → FreshAndCharged p m' := by
  intro h
  have hfilled : (fillPipeline callIntoData.vm OPCODES (emptyPipeline PIPELINE_SIZE)).any
      (fun slots ↦ (trace testHypervisor slots callIntoData).any fun x ↦
        decide (x.1.eipSize ≠ 0 ∧ ¬x.2.vm.eip < WRITEABLE_MEMORY ∧ ¬FreshAndCharged x.1 x.2)) =
        true := by
    decide +kernel
  obtain ⟨slots, hfill, hany⟩ := any_eq_true.mp hfilled
  obtain ⟨⟨p, m'⟩, hx, hp⟩ := List.any_eq_true.mp hany
  obtain ⟨hi, hw, hn⟩ := of_decide_eq_true hp
  exact hn (h p m' ⟨start PIPELINE_SIZE callIntoData, slots, .refl _ _, hfill, hx, hi⟩ hw)

end Qx86
