import Qx86.Decode.Encoding
import Qx86.Decode.Table

namespace Qx86

open Foundation Outcome OpcodeDefiner

/-- The definitions that the functions of a definer make. Writing one into the table also fills
in what it leaves out. -/
inductive OpcodeDefiner.Made : OpcodeDefiner → Prop
  | define (opcode : BitVec 8) (len : ℕ) : Made (defineOpcodeMulti opcode len)
  | isTwoByteOp {d : OpcodeDefiner} (h : Made d) : Made d.isTwoByteOp
  | isGroup {d : OpcodeDefiner} (h : Made d) (group : BitVec 8) : Made (d.isGroup group)
  | calls {d : OpcodeDefiner} (h : Made d) (f : LogicFn) : Made (d.calls f)
  | callsInterrupt {d : OpcodeDefiner} (h : Made d) : Made d.callsInterrupt
  | withArg {d : OpcodeDefiner} (h : Made d) (source : ArgSource) (size : OpcodeValueSize) :
      Made (d.withArg source size)
  | isJump {d : OpcodeDefiner} (h : Made d) : Made d.isJump
  | isUnpredictable {d : OpcodeDefiner} (h : Made d) : Made d.isUnpredictable
  | isUnpredictableNoGas {d : OpcodeDefiner} (h : Made d) : Made d.isUnpredictableNoGas
  | withGas {d : OpcodeDefiner} (h : Made d) (gas : GasCost) : Made (d.withGas gas)
  | intoTable {d : OpcodeDefiner} (h : Made d) :
      Made { d with jump := some (d.jump.getD .none), gasLevel := some (d.gasLevel.getD .low) }

def OpcodeDefiner.Grouped (d : OpcodeDefiner) : Prop := d.hasModrm = false → d.group = none

theorem OpcodeDefiner.Made.grouped {d : OpcodeDefiner} (h : d.Made) : d.Grouped := by
  intro hm
  induction h with
  | define => rfl
  | isGroup => cases hm
  | withArg h source size ih =>
    simp only [OpcodeDefiner.withArg, Bool.or_eq_false_iff] at hm
    exact ih hm.1.1
  | isTwoByteOp h ih | calls h f ih | callsInterrupt h ih | isJump h ih | isUnpredictable h ih
  | isUnpredictableNoGas h ih | withGas h gas ih | intoTable h ih => exact ih hm

variable {d : OpcodeDefiner} {ds : List OpcodeDefiner} {table : OpcodeTable}
  {i : Fin OPCODE_TABLE_SIZE} {r : Fin 8}

section Step

theorem intoTable_of_not_mem (h : i.val ∉ d.slots) : d.intoTable table i = table i :=
  if_neg fun hmem ↦ h hmem.1

theorem intoTable_of_mem (h : i.val ∈ d.slots) (hk : keeps i (table i) = false) :
    d.intoTable table i = d.writeEntry (table i) := if_pos ⟨h, hk⟩

theorem intoTable_of_keeps (hk : keeps i (table i) = true) : d.intoTable table i = table i :=
  if_neg fun hmem ↦ by
    rw [hmem.2] at hk
    cases hk

theorem intoTable_cases (d : OpcodeDefiner) (table : OpcodeTable) (i : Fin OPCODE_TABLE_SIZE) :
    (i.val ∈ d.slots ∧ keeps i (table i) = false ∧
      d.intoTable table i = d.writeEntry (table i)) ∨ d.intoTable table i = table i := by
  by_cases hi : i.val ∈ d.slots ∧ keeps i (table i) = false
  · exact .inl ⟨hi.1, hi.2, if_pos hi⟩
  · exact .inr (if_neg hi)

theorem not_plain_of_accepted (h : d.accepted table = true) (hi : i.val ∈ d.slots)
    (hk : keeps i (table i) = false) :
    ¬((table i).defined = true ∧ (table i).hasModrm = false) := by
  simp only [accepted, Bool.and_eq_true, List.all_eq_true] at h
  have ho := h.2 i.val hi
  simp only [i.isLt, ↓reduceDIte, Fin.eta, hk, Bool.false_or, Bool.and_eq_true] at ho
  rintro ⟨hdefined, hmodrm⟩
  rw [hdefined, hmodrm] at ho
  exact absurd ho.1.1 Bool.false_ne_true

theorem slots_lt_of_accepted (h : d.accepted table = true) {o : ℕ} (ho : o ∈ d.slots) :
    o < OPCODE_TABLE_SIZE := by
  simp only [accepted, Bool.and_eq_true, List.all_eq_true] at h
  have hin := h.2 o ho
  by_contra hlt
  rw [dif_neg hlt] at hin
  cases hin

theorem keeps_of_ne (h : i.val ≠ 0x90) (e : OpcodeProperties) : keeps i.val e = false := by
  rw [keeps, beq_eq_false_iff_ne.mpr h, Bool.false_and]

end Step

section Run

theorem buildTable_append (l l' : List OpcodeDefiner) (table : OpcodeTable) :
    buildTable (l ++ l') table = buildTable l' (buildTable l table) := List.foldl_append ..

theorem acceptsAll_append (l l' : List OpcodeDefiner) (table : OpcodeTable) :
    acceptsAll (l ++ l') table = (acceptsAll l table && acceptsAll l' (buildTable l table)) := by
  induction l generalizing table with
  | nil => rfl
  | cons d l ih =>
    rw [List.cons_append, acceptsAll, acceptsAll, ih, Bool.and_assoc]
    rfl

theorem acceptsAll_of_append {l l' : List OpcodeDefiner} (h : acceptsAll (l ++ l') table = true) :
    acceptsAll l table = true ∧ acceptsAll l' (buildTable l table) = true := by
  rwa [acceptsAll_append, Bool.and_eq_true_iff] at h

theorem buildTable_inner (h : acceptsAll ds table = true)
    (hd : ((table i).opcodes r).defined = true) :
    (buildTable ds table i).opcodes r = (table i).opcodes r := by
  induction ds generalizing table with
  | nil => rfl
  | cons d ds ih =>
    obtain ⟨haccepted, hrest⟩ := Bool.and_eq_true_iff.mp h
    have hkept : (d.intoTable table i).opcodes r = (table i).opcodes r := by
      obtain ⟨hi, hk, hwritten⟩ | hkept := intoTable_cases d table i
      · rw [hwritten]
        refine if_neg fun hw ↦ ?_
        rw [not_defined_of_accepted haccepted ⟨hi, hw⟩ hk] at hd
        cases hd
      · rw [hkept]
    have htail := ih hrest (by rw [hkept]; exact hd)
    exact htail.trans hkept

theorem buildTable_plain (h : acceptsAll ds table = true) (hd : (table i).defined = true)
    (hm : (table i).hasModrm = false) :
    buildTable ds table i = table i ∧ (i.val ≠ 0x90 → ∀ d ∈ ds, i.val ∉ d.slots) := by
  induction ds generalizing table with
  | nil => exact ⟨rfl, fun _ _ hmem ↦ absurd hmem List.not_mem_nil⟩
  | cons d ds ih =>
    obtain ⟨haccepted, hrest⟩ := Bool.and_eq_true_iff.mp h
    have hout : ¬(i.val ∈ d.slots ∧ keeps i (table i) = false) :=
      fun hi ↦ not_plain_of_accepted haccepted hi.1 hi.2 ⟨hd, hm⟩
    have hkept : d.intoTable table i = table i := if_neg hout
    obtain ⟨hbuild, hslots⟩ := ih hrest (by rw [hkept]; exact hd) (by rw [hkept]; exact hm)
    refine ⟨hbuild.trans hkept, ?_⟩
    intro hne d' hd'
    obtain rfl | hd' := List.mem_cons.mp hd'
    · exact fun hi ↦ hout ⟨hi, keeps_of_ne hne _⟩
    · exact hslots hne d' hd'

theorem buildTable_nop (hi : i.val = 0x90) (hd : (table i).defined = true) :
    buildTable ds table i = table i := by
  induction ds generalizing table with
  | nil => rfl
  | cons d ds ih =>
    have hk : keeps i (table i) = true := by
      rw [keeps, hi, hd]
      rfl
    have hkept : d.intoTable table i = table i := intoTable_of_keeps hk
    have htail : buildTable ds (d.intoTable table) i = d.intoTable table i :=
      ih (by rw [hkept]; exact hd)
    exact htail.trans hkept

theorem buildTable_modrm (h : ∀ d ∈ ds, i.val ∈ d.slots → d.hasModrm = true) :
    (buildTable ds table i).hasModrm = true ∨ buildTable ds table i = table i := by
  induction ds generalizing table with
  | nil => exact .inr rfl
  | cons d ds ih =>
    have htail : (buildTable ds (d.intoTable table) i).hasModrm = true ∨
        buildTable ds (d.intoTable table) i = d.intoTable table i :=
      ih fun d' hd' ↦ h d' (List.mem_cons_of_mem _ hd')
    obtain hm | hrest := htail
    · exact .inl hm
    · obtain ⟨hi, -, hwritten⟩ | hkept := intoTable_cases d table i
      · refine .inl ((congrArg OpcodeProperties.hasModrm (hrest.trans hwritten)).trans ?_)
        exact h d List.mem_cons_self hi
      · exact .inr (hrest.trans hkept)

theorem buildTable_untouched (h : ∀ d ∈ ds, i.val ∉ d.slots) : buildTable ds table i = table i := by
  induction ds generalizing table with
  | nil => rfl
  | cons d ds ih =>
    have hkept : d.intoTable table i = table i := intoTable_of_not_mem (h d List.mem_cons_self)
    have htail : buildTable ds (d.intoTable table) i = d.intoTable table i :=
      ih fun d' hd' ↦ h d' (List.mem_cons_of_mem _ hd')
    exact htail.trans hkept

theorem buildTable_unwritten (h : ∀ d ∈ ds, ¬d.Writes i r) :
    (buildTable ds table i).opcodes r = (table i).opcodes r := by
  induction ds generalizing table with
  | nil => rfl
  | cons d ds ih =>
    have hkept : (d.intoTable table i).opcodes r = (table i).opcodes r := by
      obtain ⟨hi, -, hwritten⟩ | hkept := intoTable_cases d table i
      · rw [hwritten]
        exact if_neg fun hw ↦ h d List.mem_cons_self ⟨hi, hw⟩
      · rw [hkept]
    exact (ih fun d' hd' ↦ h d' (List.mem_cons_of_mem _ hd')).trans hkept

end Run

section Selection

/-- An instruction as far as it selects an opcode: its opcode byte, whether that follows the
two-byte marker, and the register field of its ModRM byte. -/
structure Selector where
  byte : BitVec 8
  twoByte : Bool
  reg : Fin 8

variable (s : Selector)

def Selector.index : ℕ := tableIndex s.twoByte s.byte

/-- Whether an entry has a ModRM byte, and the opcode that it selects by the register field. -/
def OpcodeProperties.decode (e : OpcodeProperties) (r : Fin 8) : Bool × Opcode :=
  (e.hasModrm, e.opcodes (if e.hasModrm then r else 0))

def Selector.decode (table : OpcodeTable) : Option (Bool × Opcode) :=
  if h : s.index < OPCODE_TABLE_SIZE then some ((table ⟨_, h⟩).decode s.reg) else none

namespace OpcodeDefiner

variable (d)

def span : ℕ := if d.regSuffix then 8 else d.len

def Takes (r : Fin 8) : Prop := d.hasModrm = true → ∀ g, d.group = some g → g.toNat = r.val

def Covers : Prop :=
  d.twoByte = s.twoByte ∧ d.opcode.toNat ≤ s.byte.toNat ∧
    s.byte.toNat < d.opcode.toNat + d.span ∧ d.Takes s.reg

/-- A definition of single bytes that runs past the last one, into the two-byte opcodes. -/
def Overruns : Prop :=
  d.twoByte = false ∧ s.twoByte = true ∧ 0x100 + s.byte.toNat < d.opcode.toNat + d.span ∧
    d.Takes s.reg

end OpcodeDefiner

theorem or_twoByte {n : ℕ} (h : n < 0x100) : n ||| OP_TWOBYTE = n + 0x100 := by
  have hor := Nat.two_pow_add_eq_or_of_lt (i := 8) h 1
  rw [Nat.or_comm]
  exact hor.symm.trans (Nat.add_comm ..)

theorem Selector.index_eq : s.index = s.byte.toNat + 0x100 * s.twoByte.toNat := by
  rw [Selector.index, tableIndex]
  cases s.twoByte with
  | false => rw [Bool.toNat_false, Nat.zero_shiftLeft, Nat.or_zero, Nat.mul_zero, Nat.add_zero]
  | true => exact or_twoByte s.byte.isLt

theorem OpcodeDefiner.mem_slots {o : ℕ} :
    o ∈ d.slots ↔ ∃ n < d.span,
      (if d.twoByte then (d.opcode.toNat + n) ||| OP_TWOBYTE else d.opcode.toNat + n) = o := by
  simp only [slots, List.mem_map, List.mem_range, span]

theorem OpcodeDefiner.twoByte_fits (h : ∀ o ∈ d.slots, o < OPCODE_TABLE_SIZE)
    (ht : d.twoByte = true) : d.opcode.toNat + d.span ≤ 0xFF := by
  by_contra hlong
  have hbyte := d.opcode.isLt
  have hlast := h (0xFF ||| OP_TWOBYTE) (mem_slots.mpr ⟨0xFF - d.opcode.toNat, by omega, by
    rw [if_pos ht, Nat.add_sub_cancel' (by omega)]⟩)
  exact absurd hlast (by decide)

theorem OpcodeDefiner.selects_iff (h : ∀ o ∈ d.slots, o < OPCODE_TABLE_SIZE) :
    s.index ∈ d.slots ∧ d.Takes s.reg ↔ d.Covers s ∨ d.Overruns s := by
  have hbyte := s.byte.isLt
  have hopcode := d.opcode.isLt
  rw [mem_slots, s.index_eq, Covers, Overruns]
  cases ht : d.twoByte with
  | false =>
    simp only [Bool.false_eq_true, ↓reduceIte, true_and]
    cases s.twoByte with
    | false =>
      simp only [Bool.toNat_false, Nat.mul_zero, Nat.add_zero, true_and, Bool.false_eq_true,
        false_and, or_false]
      constructor
      · rintro ⟨⟨n, hn, heq⟩, htakes⟩
        exact ⟨by omega, by omega, htakes⟩
      · rintro ⟨hle, hlt, htakes⟩
        exact ⟨⟨s.byte.toNat - d.opcode.toNat, by omega, by omega⟩, htakes⟩
    | true =>
      simp only [Bool.toNat_true, Nat.mul_one, Bool.false_eq_true, false_and, true_and, false_or]
      constructor
      · rintro ⟨⟨n, hn, heq⟩, htakes⟩
        exact ⟨by omega, htakes⟩
      · rintro ⟨hlt, htakes⟩
        exact ⟨⟨0x100 + s.byte.toNat - d.opcode.toNat, by omega, by omega⟩, htakes⟩
  | true =>
    have hfits := twoByte_fits h ht
    have hor : ∀ n < d.span, d.opcode.toNat + n ||| OP_TWOBYTE = d.opcode.toNat + n + 0x100 :=
      fun n hn ↦ or_twoByte (by omega)
    simp only [↓reduceIte, Bool.true_eq_false, false_and, or_false]
    cases s.twoByte with
    | false =>
      simp only [Bool.toNat_false, Nat.mul_zero, Nat.add_zero, Bool.true_eq_false, false_and,
        iff_false]
      rintro ⟨⟨n, hn, heq⟩, -⟩
      rw [hor n hn] at heq
      omega
    | true =>
      simp only [Bool.toNat_true, Nat.mul_one, true_and]
      constructor
      · rintro ⟨⟨n, hn, heq⟩, htakes⟩
        rw [hor n hn] at heq
        exact ⟨by omega, by omega, htakes⟩
      · rintro ⟨hle, hlt, htakes⟩
        refine ⟨⟨s.byte.toNat - d.opcode.toNat, by omega, ?_⟩, htakes⟩
        rw [hor _ (by omega)]
        omega

theorem OpcodeDefiner.Grouped.writesInner_iff (h : d.Grouped) :
    d.writesInner (if d.hasModrm then r else 0) = true ↔ d.Takes r := by
  rw [writesInner, decide_eq_true_eq, opStart, opLimit, Takes]
  cases hm : d.hasModrm with
  | false => simp [h hm]
  | true =>
    cases hg : d.group with
    | none => simp
    | some g =>
      simp
      omega

end Selection

section Decoding

theorem Unwritten.buildTable (h : Unwritten table) (ds : List OpcodeDefiner) :
    Unwritten (buildTable ds table) := by
  induction ds generalizing table with
  | nil => exact h
  | cons d ds ih => exact ih (h.intoTable d)

theorem intoTable_inner_defined (hi : i.val ∈ d.slots) (hk : keeps i (table i) = false)
    (hw : d.writesInner r = true) : ((d.intoTable table i).opcodes r).defined = true := by
  rw [intoTable_of_mem hi hk]
  exact congrArg Opcode.defined (if_pos hw)

theorem intoTable_decode (hgroup : d.Grouped) (h : d.accepted table = true) (hu : Unwritten table)
    (hi : i.val ∈ d.slots) (hk : keeps i (table i) = false) (ht : d.Takes r) :
    (d.intoTable table i).decode r = (d.hasModrm, d.toOpcode) := by
  have hw : d.writesInner (if d.hasModrm then r else 0) = true := hgroup.writesInner_iff.mpr ht
  have hfresh := hu i _ (not_defined_of_accepted h ⟨hi, hw⟩ hk)
  rw [intoTable_of_mem hi hk, toOpcode, ← hfresh]
  exact congrArg (d.hasModrm, ·) (if_pos hw)

theorem buildTable_decode (hgroup : d.Grouped) (h : acceptsAll (d :: ds) table = true)
    (hu : Unwritten table) (hi : i.val ∈ d.slots) (hk : keeps i (table i) = false)
    (ht : d.Takes r)
    (hrest : i.val = 0x90 ∨ ∀ d' ∈ ds, i.val ∈ d'.slots → d'.hasModrm = true) :
    (buildTable (d :: ds) table i).decode r = (d.hasModrm, d.toOpcode) := by
  obtain ⟨haccepted, hds⟩ := Bool.and_eq_true_iff.mp h
  have hwritten := intoTable_decode hgroup haccepted hu hi hk ht
  have hdefined : (d.intoTable table i).defined = true := by rw [intoTable_of_mem hi hk]; rfl
  have hsame : buildTable ds (d.intoTable table) i = d.intoTable table i →
      (buildTable (d :: ds) table i).decode r = (d.hasModrm, d.toOpcode) :=
    fun hsame ↦ (congrArg (OpcodeProperties.decode · r) hsame).trans hwritten
  have hmodrm : (d.intoTable table i).hasModrm = d.hasModrm := congrArg Prod.fst hwritten
  cases hm : d.hasModrm with
  | false => exact hm ▸ hsame (buildTable_plain hds hdefined (hmodrm.trans hm)).1
  | true =>
    obtain hnop | hrest := hrest
    · exact hm ▸ hsame (buildTable_nop hnop hdefined)
    · have hbuilt : (buildTable ds (d.intoTable table) i).hasModrm = true ∨
          buildTable ds (d.intoTable table) i = d.intoTable table i := buildTable_modrm hrest
      obtain hbuilt | hkept := hbuilt
      · have hopcode : (d.intoTable table i).opcodes r = d.toOpcode := by
          rw [OpcodeProperties.decode, hmodrm, hm] at hwritten
          exact congrArg Prod.snd hwritten
        have hinner : (buildTable ds (d.intoTable table) i).opcodes r = d.toOpcode :=
          (buildTable_inner hds (by rw [hopcode]; rfl)).trans hopcode
        change OpcodeProperties.decode (buildTable ds (d.intoTable table) i) r = _
        rw [OpcodeProperties.decode, hbuilt, if_pos rfl, hinner]
      · exact hm ▸ hsame hkept

theorem buildTable_undefined (hgroups : ∀ d ∈ ds, d.Grouped)
    (h : ∀ d ∈ ds, i.val ∈ d.slots → ¬d.Takes r) :
    ((buildTable ds (fun _ ↦ {}) i).decode r).2 = {} := by
  have hmodrm : ∀ d ∈ ds, i.val ∈ d.slots → d.hasModrm = true := by
    intro d hd hi
    by_contra hm
    exact h d hd hi fun htrue ↦ absurd htrue hm
  obtain hm | hsame := buildTable_modrm hmodrm
  · rw [OpcodeProperties.decode, hm, if_pos rfl]
    refine buildTable_unwritten fun d hd hw ↦ h d hd hw.1 ?_
    rw [← (hgroups d hd).writesInner_iff, hmodrm d hd hw.1, if_pos rfl]
    exact hw.2
  · rw [hsame]
    rfl

/-- A definition without a ModRM byte is the last one of its entries. -/
theorem plain_last (h : acceptsAll (d :: ds) table = true) (hne : i.val ≠ 0x90)
    (hi : i.val ∈ d.slots) (hm : d.hasModrm = false) : ∀ d' ∈ ds, i.val ∉ d'.slots := by
  obtain ⟨-, hds⟩ := Bool.and_eq_true_iff.mp h
  have hwritten : d.intoTable table i = d.writeEntry (table i) :=
    intoTable_of_mem hi (keeps_of_ne hne _)
  exact (buildTable_plain hds (by rw [hwritten]; rfl) (by rw [hwritten]; exact hm)).2 hne

theorem hasModrm_ne {d' : OpcodeDefiner} (hgroup : d.Grouped) (hgroup' : d'.Grouped)
    (h : acceptsAll (d :: ds) table = true) (hd' : d' ∈ ds) (hne : i.val ≠ 0x90)
    (hi : i.val ∈ d.slots) (hi' : i.val ∈ d'.slots) (ht : d.Takes r) (ht' : d'.Takes r) :
    d.hasModrm ≠ d'.hasModrm := by
  intro hm
  cases hmodrm : d.hasModrm with
  | false => exact plain_last h hne hi hmodrm d' hd' hi'
  | true =>
    obtain ⟨l, l', rfl⟩ := List.append_of_mem hd'
    obtain ⟨-, hds⟩ := Bool.and_eq_true_iff.mp h
    obtain ⟨hl, hl'⟩ := acceptsAll_of_append hds
    obtain ⟨haccepted', -⟩ := Bool.and_eq_true_iff.mp hl'
    have hw : d.writesInner r = true := by simpa [hmodrm] using hgroup.writesInner_iff.mpr ht
    have hw' : d'.writesInner r = true := by
      simpa [← hm, hmodrm] using hgroup'.writesInner_iff.mpr ht'
    have hdefined := intoTable_inner_defined hi (keeps_of_ne hne (table i)) hw
    have hfree := not_defined_of_accepted haccepted' ⟨hi', hw'⟩ (keeps_of_ne hne _)
    rw [buildTable_inner hl hdefined, hdefined] at hfree
    cases hfree

theorem slots_lt_of_acceptsAll (h : acceptsAll ds table = true) (hd : d ∈ ds) :
    ∀ o ∈ d.slots, o < OPCODE_TABLE_SIZE := by
  obtain ⟨l, l', rfl⟩ := List.append_of_mem hd
  obtain ⟨haccepted, -⟩ := Bool.and_eq_true_iff.mp (acceptsAll_of_append h).2
  exact fun o ho ↦ slots_lt_of_accepted haccepted ho

end Decoding

section Construction

theorem selects_iff_of_mem (s : Selector) (h : acceptsAll ds table = true) (hd : d ∈ ds) :
    s.index ∈ d.slots ∧ d.Takes s.reg ↔ d.Covers s ∨ d.Overruns s :=
  OpcodeDefiner.selects_iff s (slots_lt_of_acceptsAll h hd)

variable {s : Selector} {l₁ l₂ : List OpcodeDefiner}

/-- What a table that is built keeps of the definitions at a selector: each one that covers it is
still what it decodes to, unless that is nop and it was there before, and what none covers is not
defined. -/
structure Retains (ds : List OpcodeDefiner) (s : Selector) : Prop where
  kept : ∀ l₁ d l₂, ds = l₁ ++ d :: l₂ → d.Covers s →
    ¬(s.index = 0x90 ∧ ∃ d' ∈ l₁, s.index ∈ d'.slots) →
      s.decode (buildTable ds fun _ ↦ {}) = some (d.hasModrm, d.toOpcode)
  uncovered : (∀ d ∈ ds, ¬d.Covers s) → ∃ m, s.decode (buildTable ds fun _ ↦ {}) = some (m, {})

/-- The entry of a selector is in the table, no definition that covers it is followed there by one
without a ModRM byte, and each one that only runs into its entry is. -/
structure Undisturbed (ds : List OpcodeDefiner) (s : Selector) : Prop where
  mapped : s.index < OPCODE_TABLE_SIZE
  covered : ∀ l₁ d l₂, ds = l₁ ++ d :: l₂ → d.Covers s →
    ∀ d' ∈ l₂, s.index ∈ d'.slots → d'.hasModrm = true
  overrun : ∀ l₁ d l₂, ds = l₁ ++ d :: l₂ → d.Overruns s →
    ∃ d' ∈ l₂, s.index ∈ d'.slots ∧ d'.hasModrm = false

theorem decode_eq (hi : s.index < OPCODE_TABLE_SIZE) :
    s.decode table = some ((table ⟨s.index, hi⟩).decode s.reg) := dif_pos hi

theorem decode_taken (hgroup : d.Grouped) (h : acceptsAll (l₁ ++ d :: l₂) (fun _ ↦ {}) = true)
    (hi : s.index ∈ d.slots) (ht : d.Takes s.reg)
    (hfirst : s.index = 0x90 → ∀ d' ∈ l₁, s.index ∉ d'.slots)
    (hrest : s.index = 0x90 ∨ ∀ d' ∈ l₂, s.index ∈ d'.slots → d'.hasModrm = true) :
    s.decode (buildTable (l₁ ++ d :: l₂) fun _ ↦ {}) = some (d.hasModrm, d.toOpcode) := by
  have hlt := slots_lt_of_acceptsAll h (List.mem_append_right l₁ List.mem_cons_self) _ hi
  have hunwritten : Unwritten fun _ ↦ {} := fun _ _ _ ↦ rfl
  have hk : keeps s.index (buildTable l₁ (fun _ ↦ {}) ⟨s.index, hlt⟩) = false := by
    by_cases hnop : s.index = 0x90
    · rw [buildTable_untouched (hfirst hnop), keeps, Bool.and_false]
    · exact keeps_of_ne (i := ⟨s.index, hlt⟩) hnop _
  rw [decode_eq hlt, buildTable_append,
    buildTable_decode hgroup (acceptsAll_of_append h).2 (hunwritten.buildTable l₁) hi hk ht hrest]

theorem decode_untaken (hgroups : ∀ d ∈ ds, d.Grouped) (hi : s.index < OPCODE_TABLE_SIZE)
    (h : ∀ d ∈ ds, s.index ∈ d.slots → ¬d.Takes s.reg) :
    ∃ m, s.decode (buildTable ds fun _ ↦ {}) = some (m, {}) := by
  have hundefined := buildTable_undefined (i := ⟨s.index, hi⟩) hgroups h
  exact ⟨_, (decode_eq hi).trans (congrArg some (Prod.ext rfl hundefined))⟩

theorem Retains.hasModrm_eq (h : Retains ds s) (hne : s.index ≠ 0x90) (hd : d ∈ ds)
    (hc : d.Covers s) {m : Bool} {op : Opcode}
    (hdecode : s.decode (buildTable ds fun _ ↦ {}) = some (m, op)) : d.hasModrm = m := by
  obtain ⟨l, l', rfl⟩ := List.append_of_mem hd
  have hkept := h.kept l d l' rfl hc fun hnop ↦ hne hnop.1
  exact congrArg Prod.fst (Option.some.inj (hkept.symm.trans hdecode))

section Main

variable (hgroups : ∀ d ∈ ds, d.Grouped) (h : acceptsAll ds (fun _ ↦ {}) = true)

include hgroups h

theorem hasModrm_ne_of_mem {d' : OpcodeDefiner} (hd : d ∈ ds) (hd' : d' ∈ ds) (hdiff : d ≠ d')
    (hne : s.index ≠ 0x90) (hi : s.index ∈ d.slots) (hi' : s.index ∈ d'.slots)
    (ht : d.Takes s.reg) (ht' : d'.Takes s.reg) : d.hasModrm ≠ d'.hasModrm := by
  have hlt := slots_lt_of_acceptsAll h hd _ hi
  obtain ⟨l, l', rfl⟩ := List.append_of_mem hd
  rw [List.mem_append, List.mem_cons] at hd'
  obtain hbefore | rfl | hafter := hd'
  · obtain ⟨k, k', rfl⟩ := List.append_of_mem hbefore
    rw [List.append_assoc] at h
    exact (hasModrm_ne (i := ⟨s.index, hlt⟩) (hgroups d' (by simp)) (hgroups d (by simp))
      (acceptsAll_of_append h).2 (List.mem_append_right k' List.mem_cons_self)
      hne hi' hi ht' ht).symm
  · exact absurd rfl hdiff
  · exact hasModrm_ne (i := ⟨s.index, hlt⟩) (hgroups d (by simp))
      (hgroups d' (by simp [hafter])) (acceptsAll_of_append h).2 hafter hne hi hi' ht ht'

theorem decode_plain (hd : d ∈ ds) (hne : s.index ≠ 0x90) (hi : s.index ∈ d.slots)
    (hm : d.hasModrm = false) :
    ∃ op, s.decode (buildTable ds fun _ ↦ {}) = some (d.hasModrm, op) := by
  have hlt := slots_lt_of_acceptsAll h hd _ hi
  obtain ⟨l, l', rfl⟩ := List.append_of_mem hd
  have hlast := plain_last (i := ⟨s.index, hlt⟩) (acceptsAll_of_append h).2 hne hi hm
  have ht : d.Takes s.reg := fun htrue ↦ absurd htrue (by rw [hm]; nofun)
  exact ⟨d.toOpcode, decode_taken (hgroups d hd) h hi ht (fun hnop ↦ absurd hnop hne)
    (.inr fun d' hd' hi' ↦ absurd hi' (hlast d' hd'))⟩

theorem Retains.undisturbed (hr : Retains ds s) (hne : s.index ≠ 0x90) : Undisturbed ds s := by
  constructor
  · by_contra hout
    obtain ⟨m, hm⟩ := hr.uncovered fun d hd hc ↦
      hout (slots_lt_of_acceptsAll h hd _ ((selects_iff_of_mem s h hd).mpr (.inl hc)).1)
    rw [Selector.decode, dif_neg hout] at hm
    cases hm
  · intro l₁ d l₂ heq hc d' hd' hi'
    by_contra hm
    subst heq
    have hd : d ∈ l₁ ++ d :: l₂ := List.mem_append_right l₁ List.mem_cons_self
    have hd'' : d' ∈ l₁ ++ d :: l₂ := List.mem_append_right l₁ (List.mem_cons_of_mem d hd')
    obtain ⟨hi, ht⟩ := (selects_iff_of_mem s h hd).mpr (.inl hc)
    have ht' : d'.Takes s.reg := fun htrue ↦ absurd htrue hm
    have hlast : ∃ op, s.decode (buildTable (l₁ ++ d :: l₂) fun _ ↦ {}) = some (d'.hasModrm, op) :=
      decode_plain hgroups h hd'' hne hi' (by simpa using hm)
    obtain ⟨op, hdecode⟩ := hlast
    have hlt := slots_lt_of_acceptsAll h hd _ hi
    exact hasModrm_ne (i := ⟨s.index, hlt⟩) (hgroups d hd) (hgroups d' hd'')
      (acceptsAll_of_append h).2 hd' hne hi hi' ht ht' (hr.hasModrm_eq hne hd hc hdecode)
  · intro l₁ d l₂ heq ho
    by_contra hnot
    push Not at hnot
    have hd : d ∈ ds := heq ▸ List.mem_append_right l₁ List.mem_cons_self
    obtain ⟨hi, ht⟩ := (selects_iff_of_mem s h hd).mpr (.inr ho)
    have hdecode : s.decode (buildTable ds fun _ ↦ {}) = some (d.hasModrm, d.toOpcode) := by
      subst heq
      exact decode_taken (hgroups d hd) h hi ht (fun hnop ↦ absurd hnop hne)
        (.inr fun d' hd' hi' ↦ by simpa using hnot d' hd' hi')
    have hnone : ∀ d' ∈ ds, ¬d'.Covers s := by
      intro d' hd' hc
      have hdiff : d' ≠ d := by
        rintro rfl
        exact absurd (hc.1.symm.trans ho.1) (by rw [ho.2.1]; nofun)
      obtain ⟨hi', ht'⟩ := (selects_iff_of_mem s h hd').mpr (.inl hc)
      exact hasModrm_ne_of_mem hgroups h hd' hd hdiff hne hi' hi ht' ht
        (hr.hasModrm_eq hne hd' hc hdecode)
    obtain ⟨m, hm⟩ := hr.uncovered hnone
    have hopcode : d.toOpcode = {} := congrArg Prod.snd (Option.some.inj (hdecode.symm.trans hm))
    exact absurd (congrArg Opcode.defined hopcode) nofun

theorem retains_nop (hnop : s.index = 0x90) : Retains ds s := by
  constructor
  · intro l₁ d l₂ heq hc hfirst
    have hd : d ∈ ds := heq ▸ List.mem_append_right l₁ List.mem_cons_self
    obtain ⟨hi, ht⟩ := (selects_iff_of_mem s h hd).mpr (.inl hc)
    subst heq
    exact decode_taken (hgroups d hd) h hi ht
      (fun hnop d' hd' hi' ↦ hfirst ⟨hnop, d', hd', hi'⟩) (.inl hnop)
  · intro hnone
    refine decode_untaken hgroups (by rw [hnop]; decide) ?_
    intro d hd hi ht
    obtain hc | ho := (selects_iff_of_mem s h hd).mp ⟨hi, ht⟩
    · exact hnone d hd hc
    · rw [s.index_eq, ho.2.1, Bool.toNat_true] at hnop
      omega

theorem Undisturbed.retains (hu : Undisturbed ds s) (hne : s.index ≠ 0x90) : Retains ds s := by
  constructor
  · intro l₁ d l₂ heq hc _
    have hd : d ∈ ds := heq ▸ List.mem_append_right l₁ List.mem_cons_self
    obtain ⟨hi, ht⟩ := (selects_iff_of_mem s h hd).mpr (.inl hc)
    have hrest := hu.covered l₁ d l₂ heq hc
    subst heq
    exact decode_taken (hgroups d hd) h hi ht (fun hnop ↦ absurd hnop hne) (.inr hrest)
  · intro hnone
    refine decode_untaken hgroups hu.mapped ?_
    intro d hd hi ht
    have hover {d : OpcodeDefiner} (hd : d ∈ ds) (hi : s.index ∈ d.slots) (ht : d.Takes s.reg) :
        d.Overruns s := ((selects_iff_of_mem s h hd).mp ⟨hi, ht⟩).resolve_left (hnone d hd)
    obtain ⟨l, l', heq⟩ := List.append_of_mem hd
    obtain ⟨d', hd', hi', hm'⟩ := hu.overrun l d l' heq (hover hd hi ht)
    have hmem' : d' ∈ ds := heq ▸ List.mem_append_right l (List.mem_cons_of_mem d hd')
    have ht' : d'.Takes s.reg := fun htrue ↦ absurd htrue (by rw [hm']; nofun)
    obtain ⟨k, k', heq'⟩ := List.append_of_mem hmem'
    obtain ⟨d'', hd'', hi'', -⟩ := hu.overrun k d' k' heq' (hover hmem' hi' ht')
    rw [heq'] at h
    have hlast := plain_last (i := ⟨s.index, hu.mapped⟩) (acceptsAll_of_append h).2 hne hi' hm'
    exact hlast d'' hd'' hi''

theorem retains_iff : Retains ds s ↔ s.index = 0x90 ∨ Undisturbed ds s := by
  by_cases hnop : s.index = 0x90
  · exact ⟨fun _ ↦ .inl hnop, fun _ ↦ retains_nop hgroups h hnop⟩
  · constructor
    · exact fun hr ↦ .inr (hr.undisturbed hgroups h hnop)
    · rintro (heq | hu)
      · exact absurd heq hnop
      · exact hu.retains hgroups h hnop

end Main

/-- A table that is built without unwinding keeps what is defined at a selector and nothing else
if and only if the selector is the one of nop or no definition disturbs it: two definitions of one
entry are refused only where the earlier has no ModRM byte or both write the same inner opcode, the
bytes of a range run on into the two-byte opcodes, and the last of these is out of the table. -/
theorem into_table_retains {ds : List OpcodeDefiner} (hmade : ∀ d ∈ ds, d.Made)
    (h : acceptsAll ds (fun _ ↦ {}) = true) (s : Selector) :
    Retains ds s ↔ s.index = 0x90 ∨ Undisturbed ds s :=
  retains_iff (fun d hd ↦ (hmade d hd).grouped) h

def groupOr : OpcodeDefiner := defineOpcode 0x80 |>.isGroup 1 |>.calls .or8bit

def groupSbb : OpcodeDefiner := defineOpcode 0x80 |>.isGroup 3 |>.calls .sbb8bit

def plainNop : OpcodeDefiner := defineOpcode 0x80 |>.calls .nop

theorem groupOr_made : groupOr.Made := ((Made.define 0x80 1).isGroup 1).calls .or8bit

theorem groupSbb_made : groupSbb.Made := ((Made.define 0x80 1).isGroup 3).calls .sbb8bit

theorem plainNop_made : plainNop.Made := (Made.define 0x80 1).calls .nop

theorem made_pair {d d' : OpcodeDefiner} (h : d.Made) (h' : d'.Made) :
    ∀ x ∈ [d, d'], x.Made := by
  intro x hx
  obtain rfl | rfl : x = d ∨ x = d' := by simpa using hx
  · exact h
  · exact h'

theorem into_table_retains_groups : Retains [groupOr, groupSbb] ⟨0x80, false, 1⟩ := by
  have hmade := made_pair groupOr_made groupSbb_made
  have hmodrm : ∀ d ∈ [groupOr, groupSbb], d.hasModrm = true := by decide
  refine (into_table_retains hmade (by decide) _).mpr (.inr ⟨by decide, ?_, ?_⟩)
  · intro l₁ d l₂ heq _ d' hd' _
    exact hmodrm d' (heq ▸ List.mem_append_right l₁ (List.mem_cons_of_mem d hd'))
  · intro l₁ d l₂ heq ho
    exact absurd ho.2.1 nofun

/-- A definition without a ModRM byte takes the one of a group away. -/
theorem intoTable_redefines :
    ¬∀ ds : List OpcodeDefiner, (∀ d ∈ ds, d.Made) → acceptsAll ds (fun _ ↦ {}) = true →
      ∀ s, Retains ds s := by
  intro hall
  have hmade := made_pair groupOr_made plainNop_made
  have hretains := hall [groupOr, plainNop] hmade (by decide) ⟨0x80, false, 1⟩
  have hkept := hretains.kept [] groupOr [plainNop] rfl
    ⟨rfl, by decide, by decide, fun _ g hg ↦ by cases hg; rfl⟩ fun hnop ↦ absurd hnop.1 (by decide)
  exact absurd hkept (by decide)

section Definitions

/-- An entry that the program defines always has a ModRM byte, or never. -/
theorem definitions_hasModrm {d' : OpcodeDefiner} {o : ℕ} (hd : d ∈ definitions)
    (hd' : d' ∈ definitions) (ho : o ∈ d.slots) (ho' : o ∈ d'.slots) (hm : d.hasModrm = true) :
    d'.hasModrm = true := by
  have hapart : Words.setBits ((definitions.filter (·.hasModrm)).flatMap slots) 0 &&&
      Words.setBits ((definitions.filter (!·.hasModrm)).flatMap slots) 0 = 0 := by
    decide +kernel
  by_contra hm'
  have hfree := congrArg (Nat.testBit · o) hapart
  simp only [Nat.testBit_and, Words.testBit_setBits, Nat.zero_testBit, Bool.false_or,
    Bool.and_eq_false_iff, decide_eq_false_iff_not] at hfree
  obtain hfree | hfree := hfree
  · exact hfree (List.mem_flatMap.mpr ⟨d, List.mem_filter.mpr ⟨hd, hm⟩, ho⟩)
  · exact hfree (List.mem_flatMap.mpr
      ⟨d', List.mem_filter.mpr ⟨hd', Bool.not_eq_true' _ ▸ Bool.eq_false_iff.mpr hm'⟩, ho'⟩)

instance (d : OpcodeDefiner) : Decidable d.Grouped := inferInstanceAs (Decidable (_ → _))

theorem definitions_fit : ∀ d ∈ definitions, d.Grouped ∧
    (d.twoByte = false → d.opcode.toNat + d.span ≤ 0x100) := by
  decide +kernel

/-- The map of the program keeps all of its definitions. -/
theorem OPCODES_retains {s : Selector} (hs : s.index < OPCODE_TABLE_SIZE) :
    Retains definitions s := by
  refine (retains_iff (fun d hd ↦ (definitions_fit d hd).1) acceptsAll_definitions).mpr ?_
  by_cases hnop : s.index = 0x90
  · exact .inl hnop
  refine .inr ⟨hs, ?_, ?_⟩
  · intro l₁ d l₂ heq hc d' hd' hi'
    have hd : d ∈ definitions := heq ▸ List.mem_append_right l₁ List.mem_cons_self
    have hmem' : d' ∈ definitions := heq ▸ List.mem_append_right l₁ (List.mem_cons_of_mem d hd')
    obtain ⟨hi, -⟩ := (selects_iff_of_mem s acceptsAll_definitions hd).mpr (.inl hc)
    cases hm : d.hasModrm with
    | false =>
      have h := acceptsAll_definitions
      rw [heq] at h
      have hlast := plain_last (i := ⟨s.index, hs⟩) (acceptsAll_of_append h).2 hnop hi hm
      exact absurd hi' (hlast d' hd')
    | true => exact definitions_hasModrm hd hmem' hi hi' hm
  · intro l₁ d l₂ heq ho
    have hd : d ∈ definitions := heq ▸ List.mem_append_right l₁ List.mem_cons_self
    have hfits := (definitions_fit d hd).2 ho.1
    have hlong := ho.2.2.1
    omega

end Definitions

end Construction

end Qx86
