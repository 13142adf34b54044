import Qx86.Decode.Definitions

namespace Qx86

open Foundation Words

/-- A map in outline: a bit for each inner opcode that is defined, and a bit for each entry that
is defined without a ModRM byte. -/
structure Outline where
  inner : ℕ
  plain : ℕ

namespace Outline

variable (o : Outline) (d : OpcodeDefiner)

def written : List ℕ := d.slots.filter fun op ↦ !(op == 0x90 && o.plain.testBit op)

def writtenInner : List ℕ :=
  (o.written d).flatMap fun op ↦
    ((List.finRange 8).filter d.writesInner).map fun inner ↦ 8 * op + inner.val

def accepts : Bool :=
  d.complete && (d.len != 0 && (!d.regSuffix || d.len == 1)) &&
    (d.slots.all (· < OPCODE_TABLE_SIZE) &&
    (o.written d).all (fun op ↦ !o.plain.testBit op && (op != 0x90 || !d.hasModrm)) &&
    (o.writtenInner d).all fun b ↦ !o.inner.testBit b)

def add : Outline where
  inner := setBits (o.writtenInner d) o.inner
  plain := if d.hasModrm then o.plain else setBits (o.written d) o.plain

def acceptsAll : List OpcodeDefiner → Outline → Bool
  | [], _ => true
  | d :: ds, o => o.accepts d && acceptsAll ds (o.add d)

structure Of (o : Outline) (table : OpcodeTable) : Prop where
  inner : ∀ op inner, ((table op).opcodes inner).defined = o.inner.testBit (8 * op.val + inner.val)
  plain : ∀ op, ((table op).defined && !(table op).hasModrm) = o.plain.testBit op.val
  nop : ∀ op, op.val = 0x90 → (table op).defined = o.plain.testBit op.val

variable {o d} {table : OpcodeTable}

theorem mem_written {op : ℕ} :
    op ∈ o.written d ↔ op ∈ d.slots ∧ (op == 0x90 && o.plain.testBit op) = false := by
  simp only [written, List.mem_filter, Bool.not_eq_true']

theorem mem_writtenInner {op : ℕ} {inner : Fin 8} :
    8 * op + inner.val ∈ o.writtenInner d ↔ op ∈ o.written d ∧ d.writesInner inner = true := by
  simp only [writtenInner, List.mem_flatMap, List.mem_map, List.mem_filter, List.mem_finRange,
    true_and]
  constructor
  · rintro ⟨op', hop, inner', hinner, heq⟩
    have hval : op' = op ∧ inner'.val = inner.val := by omega
    rw [hval.1] at hop
    rw [Fin.ext hval.2] at hinner
    exact ⟨hop, hinner⟩
  · rintro ⟨hop, hinner⟩
    exact ⟨op, hop, inner, hinner, rfl⟩

theorem Of.keeps (h : o.Of table) (op : Fin OPCODE_TABLE_SIZE) :
    OpcodeDefiner.keeps op (table op) = (op.val == 0x90 && o.plain.testBit op.val) := by
  rw [OpcodeDefiner.keeps]
  by_cases hop : op.val = 0x90
  · rw [h.nop op hop]
  · rw [beq_eq_false_iff_ne.mpr hop, Bool.false_and, Bool.false_and]

theorem Of.accepted (h : o.Of table) (ha : o.accepts d = true) : d.accepted table = true := by
  simp only [accepts, Bool.and_eq_true, List.all_eq_true] at ha
  obtain ⟨⟨hcomplete, hhead⟩, ⟨hlt, hwritten⟩, hinner⟩ := ha
  simp only [OpcodeDefiner.accepted, Bool.and_eq_true, List.all_eq_true]
  refine ⟨hhead, ?_⟩
  intro op hop
  have hsize : op < OPCODE_TABLE_SIZE := of_decide_eq_true (hlt op hop)
  rw [dif_pos hsize, h.keeps ⟨op, hsize⟩]
  cases hk : (op == 0x90 && o.plain.testBit op) with
  | true => rfl
  | false =>
    have hmem : op ∈ o.written d := mem_written.mpr ⟨hop, hk⟩
    rw [Bool.false_or, h.plain ⟨op, hsize⟩, (hwritten op hmem).1, hcomplete, Bool.true_and,
      Bool.true_and, List.all_eq_true]
    intro inner _
    rw [h.inner ⟨op, hsize⟩ inner]
    cases hi : d.writesInner inner with
    | true => exact hinner _ (mem_writtenInner.mpr ⟨hmem, hi⟩)
    | false => rfl

theorem Of.add (h : o.Of table) (ha : o.accepts d = true) : (o.add d).Of (d.intoTable table) := by
  simp only [accepts, Bool.and_eq_true, List.all_eq_true] at ha
  obtain ⟨-, ⟨-, hwritten⟩, -⟩ := ha
  have hif : ∀ op : Fin OPCODE_TABLE_SIZE, d.intoTable table op =
      if op.val ∈ o.written d then d.writeEntry (table op) else table op := by
    intro op
    rw [OpcodeDefiner.intoTable, h.keeps op]
    simp only [mem_written]
  constructor
  · intro op inner
    rw [hif, Outline.add, testBit_setBits]
    simp only [mem_writtenInner]
    by_cases hop : op.val ∈ o.written d
    · rw [if_pos hop]
      simp only [OpcodeDefiner.writeEntry, hop, true_and]
      cases hi : d.writesInner inner with
      | true => simp [OpcodeDefiner.writeOpcode]
      | false => simp [h.inner]
    · rw [if_neg hop]
      simp [hop, h.inner]
  · intro op
    rw [hif, Outline.add]
    by_cases hop : op.val ∈ o.written d
    · rw [if_pos hop]
      have hplain := (hwritten op.val hop).1
      cases hm : d.hasModrm with
      | true => simpa [OpcodeDefiner.writeEntry, hm] using hplain
      | false => simp [OpcodeDefiner.writeEntry, hm, testBit_setBits, hop]
    · rw [if_neg hop, h.plain]
      split <;> simp [testBit_setBits, hop]
  · intro op hnop
    rw [hif, Outline.add]
    by_cases hop : op.val ∈ o.written d
    · rw [if_pos hop]
      have hm : d.hasModrm = false := by simpa [hnop] using (hwritten op.val hop).2
      simp [OpcodeDefiner.writeEntry, hm, testBit_setBits, hop]
    · rw [if_neg hop, h.nop op hnop]
      split <;> simp [testBit_setBits, hop]

theorem Of.acceptsAll {ds : List OpcodeDefiner} (h : o.Of table) (ha : acceptsAll ds o = true) :
    Qx86.acceptsAll ds table = true := by
  induction ds generalizing o table with
  | nil => rfl
  | cons d ds ih =>
    obtain ⟨hd, hds⟩ := Bool.and_eq_true_iff.mp ha
    exact Bool.and_eq_true_iff.mpr ⟨h.accepted hd, ih (h.add hd) hds⟩

end Outline

set_option maxRecDepth 100000 in
/-- Building the map never unwinds. -/
theorem acceptsAll_definitions : acceptsAll definitions (fun _ ↦ {}) = true := by
  have hempty : (⟨0, 0⟩ : Outline).Of fun _ ↦ {} := by
    constructor <;> intros <;> simp
  apply hempty.acceptsAll
  decide +kernel

end Qx86
