import Qx86.Properties.BlockMoves

namespace Qx86

open Foundation Bytes MemorySystem Register

variable {σ : Type} {hv : Hypervisor σ} {p : Pipeline} {w : ElementWidth} {n : ℕ}

namespace VM

/-- Copying runs into the overlap of the two rows, which are an element apart at least. -/
def Repeating (vm : VM) (w : ElementWidth) (n : ℕ) : Prop :=
  if vm.flags.direction then vm.lowest w edi n + w.bytes ≤ vm.lowest w esi n
  else vm.lowest w esi n + w.bytes ≤ vm.lowest w edi n

def lag (vm : VM) (w : ElementWidth) (n : ℕ) : ℕ :=
  if vm.flags.direction then vm.lowest w esi n - vm.lowest w edi n
  else vm.lowest w edi n - vm.lowest w esi n

/-- The byte of the source row that a byte of the destination row comes from, when the bytes
that are copied first are copied again. -/
def origin (vm : VM) (w : ElementWidth) (n j : ℕ) : ℕ :=
  if vm.flags.direction then n * w.bytes - 1 - (n * w.bytes - 1 - j) % vm.lag w n
  else j % vm.lag w n

end VM

section Move

variable {vm t : VM} {i : ℕ}

theorem Stored.reread {k : StringOp} (hlag : vm.Repeating w n) (hi : i < n)
    (h : Stored k w (fun j ↦ vm.memory.byteAt (vm.lowest w esi n + vm.origin w n j)) n i vm t) :
    view t.memory.byteAt (vm.lowest w esi n + vm.place n i * w.bytes) w.bytes =
      view (fun j ↦ vm.memory.byteAt (vm.lowest w esi n + vm.origin w n j))
        (vm.place n i * w.bytes) w.bytes := by
  apply view_congr
  intro j hj
  rw [h.memory]
  cases hd : vm.flags.direction with
  | false =>
    simp only [VM.Repeating, VM.origin, VM.lag, VM.place, VM.storedFrom, VM.storedTo, hd,
      Bool.false_eq_true, if_false] at hlag ⊢
    obtain ⟨d, hdst⟩ : ∃ d, vm.lowest w edi n = vm.lowest w esi n + d :=
      Nat.exists_eq_add_of_le (by omega)
    rw [hdst] at hlag ⊢
    rw [Nat.add_sub_cancel_left]
    by_cases hnear : i * w.bytes + j < d
    · rw [overlay_outside (by omega), Nat.mod_eq_of_lt hnear, Nat.add_assoc]
    · rw [overlay_inside (by omega) (by omega)]
      have hback : vm.lowest w esi n + i * w.bytes + j - (vm.lowest w esi n + d) =
          i * w.bytes + j - d := by omega
      rw [hback, ← Nat.mod_eq_sub_mod (by omega)]
  | true =>
    simp only [VM.Repeating, VM.origin, VM.lag, VM.place, VM.storedFrom, VM.storedTo, hd,
      if_true] at hlag ⊢
    obtain ⟨d, hsrc⟩ : ∃ d, vm.lowest w esi n = vm.lowest w edi n + d :=
      Nat.exists_eq_add_of_le (by omega)
    rw [hsrc] at hlag ⊢
    rw [Nat.add_sub_cancel_left]
    have hsplit : (n - i) * w.bytes = (n - 1 - i) * w.bytes + w.bytes := by
      rw [← Nat.succ_mul]
      congr 1
      omega
    have hle : (n - i) * w.bytes ≤ n * w.bytes := Nat.mul_le_mul_right _ (by omega)
    by_cases hnear : n * w.bytes ≤ d + (n - 1 - i) * w.bytes + j
    · rw [overlay_outside (by omega), Nat.mod_eq_of_lt (by omega)]
      congr 1
      omega
    · rw [overlay_inside (by omega) (by omega)]
      have hback : vm.lowest w edi n + d + (n - 1 - i) * w.bytes + j - vm.lowest w edi n =
          d + (n - 1 - i) * w.bytes + j := by omega
      have hmod : (n * w.bytes - 1 - ((n - 1 - i) * w.bytes + j)) % d =
          (n * w.bytes - 1 - (d + (n - 1 - i) * w.bytes + j)) % d := by
        rw [Nat.mod_eq_sub_mod (by omega)]
        congr 1
        omega
      rw [hback, hmod]

theorem movs_repeated (hm : vm.memory.Sectioned) (hsrc : vm.Source w n)
    (hdst : vm.Destination w n) (hlag : vm.Repeating w n) {so : Bool}
    (hn : (vm.readRegw ecx so).toNat = n) :
    ∃ t, iterate (unroll .movs w so fun _ ↦ true) n vm = .inl t ∧
      Stored .movs w (fun j ↦ vm.memory.byteAt (vm.lowest w esi n + vm.origin w n j)) n n
        vm t := by
  refine Stored.run (by decide) hm hdst hn ?_
  intro i t hi h
  have hesi : t.regs esi = vm.elementAddress w esi i := h.walked.index esi (by decide)
  have hin : t.memory.Inside (t.regs esi) w.bytes := by
    rw [hesi, h.sections.inside_iff]
    exact hsrc.inside i hi
  obtain ⟨v, hv, hview⟩ := VM.element_ok (h.sections.sectioned hm) hin
  refine ⟨v, ?_, ?_⟩
  · rw [hesi, VM.elementAddress_toNat hsrc.fits hi, h.reread hlag hi] at hview
    exact hview
  · intro t' hset
    have hboth : t.element w (t.regs esi) >>= t.setElement w (t.regs edi) = .ok t' := by
      rw [hv]
      exact hset
    rw [movs_run, hboth]
    rfl

end Move

/-- REP MOVS into its own source fills the row with the bytes that it copied first, again and
again. -/
theorem rep_movs_repeats (h : p.Repeats .movs) (m : Machine σ) (hm : m.vm.memory.Sectioned)
    (hn : (m.vm.readRegw ecx p.sizeOverride).toNat = n) (hgas : p.PaidFor n m.vm)
    (hdst : m.vm.Destination p.elementWidth n) (hsrc : m.vm.Source p.elementWidth n)
    (hlag : m.vm.Repeating p.elementWidth n) :
    ∃ m', runSlot hv p m = .inl m' ∧ RowStored p .movs n m m' ∧
      ∀ j, j < n * p.elementWidth.bytes →
        m'.vm.memory.byteAt (m.vm.lowest p.elementWidth edi n + j) =
          m.vm.memory.byteAt (m.vm.lowest p.elementWidth esi n +
            m.vm.origin p.elementWidth n j) := by
  have hdst' : m.vm.bare.Destination p.elementWidth n := ⟨hdst.fits, hdst.inside, hdst.writeable⟩
  obtain ⟨t, hrun, ht⟩ := @movs_repeated p.elementWidth n m.vm.bare hm ⟨hsrc.fits, hsrc.inside⟩
    hdst' hlag p.sizeOverride hn
  obtain ⟨m', hslot, hrow, hbytes⟩ := @runSlot_stored σ hv p _ n h m _ hn hgas t hrun ht
  refine ⟨m', hslot, hrow, ?_⟩
  intro j hj
  rw [hbytes, overlay_inside (by omega) (by omega), Nat.add_sub_cancel_left]
  rfl

theorem rowMachine_destination_below :
    (rowMachine 0x80000002 0x80000001).vm.Destination .byte 2 where
  fits := by
    unfold VM.NonWrapping
    decide
  inside i hi := by
    refine ⟨DATA_MEM, _, rfl, ?_⟩
    revert i
    decide +kernel
  writeable := by decide +kernel

theorem rowMachine_source_above :
    (rowMachine 0x80000002 0x80000001).vm.Source .byte 2 where
  fits := by
    unfold VM.NonWrapping
    decide
  inside i hi := by
    refine ⟨DATA_MEM, _, rfl, ?_⟩
    revert i
    decide +kernel

/-- Two bytes copied downwards onto the byte below them. -/
theorem rep_movs_repeats_two :
    ∃ m', runSlot testHypervisor { stosbSlot with opcode := 0xA4 }
        (rowMachine 0x80000002 0x80000001) = .inl m' ∧
      view m'.vm.memory.byteAt 0x80000000 2 = [some 3, some 3] := by
  have hlag : (rowMachine 0x80000002 0x80000001).vm.Repeating .byte 2 := by
    unfold VM.Repeating
    decide
  obtain ⟨m', hslot, -, hrow⟩ := @rep_movs_repeats _ testHypervisor
    { stosbSlot with opcode := 0xA4 } 2 ⟨rfl, .inl rfl⟩ (rowMachine 0x80000002 0x80000001)
    (codeMemory_sectioned (by decide) (by decide)) (by decide) ⟨by decide, by decide⟩
    rowMachine_destination_below rowMachine_source_above hlag
  have hbyte : ∀ j, j < 2 → m'.vm.memory.byteAt (0x80000000 + j) = some 3 := by
    intro j hj
    refine (hrow j hj).trans ?_
    revert j
    decide +kernel
  refine ⟨m', hslot, ?_⟩
  change [m'.vm.memory.byteAt (0x80000000 + 0), m'.vm.memory.byteAt (0x80000000 + 1)] = _
  rw [hbyte 0 (by decide), hbyte 1 (by decide)]

end Qx86
