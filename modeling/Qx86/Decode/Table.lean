import Qx86.Decode.Outline
import Qx86.Machine.Logic

namespace Qx86

namespace OpcodeDefiner

def toOpcode (d : OpcodeDefiner) : Opcode := d.writeOpcode {}

def Writes (d : OpcodeDefiner) (op : ℕ) (inner : Fin 8) : Prop :=
  op ∈ d.slots ∧ d.writesInner inner = true

instance (d : OpcodeDefiner) (op : ℕ) (inner : Fin 8) : Decidable (d.Writes op inner) :=
  inferInstanceAs (Decidable (_ ∧ _))

theorem not_defined_of_accepted {d : OpcodeDefiner} {table : OpcodeTable}
    (h : d.accepted table = true) {op : Fin OPCODE_TABLE_SIZE} {inner : Fin 8}
    (hw : d.Writes op inner) (hk : keeps op (table op) = false) :
    ((table op).opcodes inner).defined = false := by
  simp only [accepted, Bool.and_eq_true, List.all_eq_true] at h
  have ho := h.2 op.val hw.1
  simp only [op.isLt, ↓reduceDIte, Fin.eta, hk, Bool.false_or, Bool.and_eq_true,
    List.all_eq_true] at ho
  simpa [hw.2] using ho.2 inner (List.mem_finRange inner)

end OpcodeDefiner

def Unwritten (table : OpcodeTable) : Prop :=
  ∀ op inner, ((table op).opcodes inner).defined = false → (table op).opcodes inner = {}

theorem Unwritten.intoTable {table : OpcodeTable} (h : Unwritten table) (d : OpcodeDefiner) :
    Unwritten (d.intoTable table) := by
  intro op inner
  simp only [OpcodeDefiner.intoTable]
  split
  · simp only [OpcodeDefiner.writeEntry]
    split
    · simp [OpcodeDefiner.writeOpcode]
    · exact h op inner
  · exact h op inner

theorem buildTable_cases (ds : List OpcodeDefiner) (table : OpcodeTable)
    (ha : acceptsAll ds table = true) (hu : Unwritten table)
    (op : Fin OPCODE_TABLE_SIZE) (inner : Fin 8) :
    (buildTable ds table op).opcodes inner = (table op).opcodes inner ∨
      ∃ d ∈ ds, d.Writes op inner ∧ (buildTable ds table op).opcodes inner = d.toOpcode := by
  induction ds generalizing table with
  | nil => exact .inl rfl
  | cons d ds ih =>
    simp only [acceptsAll, Bool.and_eq_true] at ha
    have hb : buildTable (d :: ds) table = buildTable ds (d.intoTable table) := rfl
    rw [hb]
    obtain h | ⟨d', hd', hw, h⟩ := ih (d.intoTable table) ha.2 (hu.intoTable d)
    · rw [h]
      simp only [OpcodeDefiner.intoTable]
      split
      · next hs =>
        simp only [OpcodeDefiner.writeEntry]
        split
        · next hi =>
          have hd := OpcodeDefiner.not_defined_of_accepted ha.1 ⟨hs.1, hi⟩ hs.2
          refine .inr ⟨d, List.mem_cons_self, ⟨hs.1, hi⟩, ?_⟩
          rw [hu op inner hd, OpcodeDefiner.toOpcode]
        · exact .inl rfl
      · exact .inl rfl
    · exact .inr ⟨d', List.mem_cons_of_mem _ hd', hw, h⟩

theorem OPCODES_cases (op : Fin OPCODE_TABLE_SIZE) (inner : Fin 8) :
    (OPCODES op).opcodes inner = {} ∨
      ∃ d ∈ definitions, d.Writes op inner ∧ (OPCODES op).opcodes inner = d.toOpcode :=
  buildTable_cases definitions _ acceptsAll_definitions (fun _ _ _ ↦ rfl) op inner

theorem OPCODES_forall {P : Opcode → Prop} (h₀ : P {})
    (h : ∀ d ∈ definitions, P d.toOpcode) (op : Fin OPCODE_TABLE_SIZE) (inner : Fin 8) :
    P ((OPCODES op).opcodes inner) := by
  obtain hd | ⟨d, hd, -, he⟩ := OPCODES_cases op inner
  · rwa [hd]
  · rw [he]
    exact h d hd

/-- A table function that neither is the interrupt nor moves `eip`. -/
def OpcodeFn.staysInLine : OpcodeFn → Bool
  | .logic f => !f.effects.jumps
  | .interrupt => false

/-- Filling goes on after an opcode only where it can tell the next address: the
function leaves `eip` alone, or is `enter`, or is a relative jump of a literal distance. -/
structure Opcode.Predictable (op : Opcode) : Prop where
  inLine : op.pipelineBehavior = .none →
    op.function = .logic .enter ∨ op.function.staysInLine = true
  jumps : op.pipelineBehavior = .relativeJump →
    (op.function = .logic .jmpRel ∨ op.function = .logic .callRel) ∧
      op.argSource 0 = .jumpRel ∧ op.argSource 1 = .none

instance (op : Opcode) : Decidable op.Predictable :=
  decidable_of_iff
    ((op.pipelineBehavior = .none →
      op.function = .logic .enter ∨ op.function.staysInLine = true) ∧
    (op.pipelineBehavior = .relativeJump →
      (op.function = .logic .jmpRel ∨ op.function = .logic .callRel) ∧
        op.argSource 0 = .jumpRel ∧ op.argSource 1 = .none))
    ⟨fun h ↦ ⟨h.1, h.2⟩, fun h ↦ ⟨h.inLine, h.jumps⟩⟩

theorem OPCODES_predictable (op : Fin OPCODE_TABLE_SIZE) (inner : Fin 8) :
    ((OPCODES op).opcodes inner).Predictable :=
  OPCODES_forall (by decide) (by decide +kernel) op inner

theorem OPCODES_callRel (op : Fin OPCODE_TABLE_SIZE) (inner : Fin 8) :
    ((OPCODES op).opcodes inner).function = .logic .callRel →
      ((OPCODES op).opcodes inner).pipelineBehavior = .relativeJump := by
  have hall : ∀ d ∈ definitions, d.toOpcode.function = .logic .callRel →
      d.toOpcode.pipelineBehavior = .relativeJump := by
    decide +kernel
  exact OPCODES_forall (P := fun o ↦ o.function = .logic .callRel →
    o.pipelineBehavior = .relativeJump) (by decide) hall op inner

end Qx86
