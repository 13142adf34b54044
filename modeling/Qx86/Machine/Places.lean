import Qx86.Machine.StringOps
import Qx86.Machine.WidthSafe

namespace Qx86

open Foundation Bytes Words MemorySystem Op

inductive Place where
  | nowhere
  | register (r : Register) (lo n : ℕ)
  | memory (a n : ℕ)
  deriving DecidableEq

def Place.Apart : Place → Place → Prop
  | .register r lo n, .register r' lo' n' => r ≠ r' ∨ lo' + n' ≤ lo ∨ lo + n ≤ lo'
  | .memory a n, .memory a' n' => a' + n' ≤ a ∨ a + n ≤ a'
  | _, _ => True

instance (x y : Place) : Decidable (x.Apart y) := by
  cases x <;> cases y <;> unfold Place.Apart <;> infer_instance

section Memory

variable {m m' : MemorySystem} {a a' size size' : BitVec 32} {d : List (BitVec 8)}

theorem getSizedMemory_setBytes (hd : d.length = size.toNat) (hs : 0 < size.toNat)
    (h : m.setBytes a size d = .ok m') : m'.getSizedMemory a size = .ok d := by
  obtain ⟨b, hb, hn, rfl⟩ := setBytes_eq_ok h
  obtain ⟨hb', hn'⟩ := section_copied (d := d) m hn
  rw [getSizedMemory_ok hb' hs hn', ← hd, BufferMemory.copyFromSlice, overwrite_slice (by omega)]

theorem getSizedMemory_insert {b b' : BufferMemory} (hb : m.map (page a) = some b)
    (hlen : b'.memory.length = b.memory.length)
    (h : page a' = page a → (b'.memory.drop (offset a')).take size'.toNat =
      (b.memory.drop (offset a')).take size'.toNat) :
    (m.insert (page a) b').getSizedMemory a' size' = m.getSizedMemory a' size' := by
  by_cases hp : page a' = page a
  · have hbytes := h hp
    have hmap : (m.insert (page a) b').map (page a') = some b' := if_pos hp
    rw [← hp] at hb
    simp only [getSizedMemory, getMemory, hmap, hb, hlen]
    split
    · rfl
    · simp only [bind, Except.bind, List.length_drop, hlen, hbytes]
  · have hmap : (m.insert (page a) b').map (page a') = m.map (page a') := if_neg hp
    simp only [getSizedMemory, getMemory, hmap]

theorem getSizedMemory_setBytes_apart {m m' : MemorySystem} {a size : BitVec 32}
    {d : List (BitVec 8)} (a' size' : BitVec 32) (hd : d.length = size.toNat)
    (ha : a'.toNat + size'.toNat ≤ a.toNat ∨ a.toNat + size.toNat ≤ a'.toNat)
    (h : m.setBytes a size d = .ok m') :
    m'.getSizedMemory a' size' = m.getSizedMemory a' size' := by
  obtain ⟨b, hb, hn, rfl⟩ := setBytes_eq_ok h
  refine getSizedMemory_insert hb (overwrite_length ..) fun hp ↦ ?_
  have hadd := page_add_offset a
  have hadd' := page_add_offset a'
  rw [hp] at hadd'
  exact overwrite_slice_apart (by omega) (by omega)

theorem getSizedMemory_setBytes_below {m m' : MemorySystem} {a size : BitVec 32}
    {d e : List (BitVec 8)} {k : ℕ} (a' size' : BitVec 32) (hd : d.length = size.toNat)
    (hs : 0 < size.toNat) (he : m.getSizedMemory a size = .ok e) (hk : d.take k = e.take k)
    (hks : k ≤ size.toNat) (ha : a'.toNat + size'.toNat ≤ a.toNat + k)
    (h : m.setBytes a size d = .ok m') :
    m'.getSizedMemory a' size' = m.getSizedMemory a' size' := by
  obtain ⟨b, hb, hn, rfl⟩ := setBytes_eq_ok h
  rw [getSizedMemory_ok hb hs hn] at he
  cases he
  rw [List.take_take, Nat.min_eq_left hks] at hk
  refine getSizedMemory_insert hb (overwrite_length ..) fun hp ↦ ?_
  have hadd := page_add_offset a
  have hadd' := page_add_offset a'
  rw [hp] at hadd'
  exact overwrite_slice_below (by omega) hk (by omega)

theorem getSizedMemory_take {k : ℕ} (hs : 0 < size.toNat) (hk : 0 < k) (hks : k ≤ size.toNat)
    (h : m.getSizedMemory a size = .ok d) :
    m.getSizedMemory a (BitVec.ofNat 32 k) = .ok (d.take k) := by
  obtain ⟨b, hb, hn⟩ := getSizedMemory_section h
  have hlt := size.isLt
  have hkn : (BitVec.ofNat 32 k).toNat = k := Nat.mod_eq_of_lt (by omega)
  rw [getSizedMemory_ok hb hs hn] at h
  cases h
  rw [getSizedMemory_ok hb (by omega) (by omega), hkn, List.take_take, Nat.min_eq_left hks]

theorem setBytes_not_before {k : ℕ} {d d' e e' : List (BitVec 8)} (hd : d.length = size.toNat)
    (hd' : d'.length = size.toNat) (hk : k < size.toNat) (he : m.getSizedMemory a size = .ok e)
    (he' : m.getSizedMemory a' size = .ok e') (hchange : d.take (k + 1) ≠ e.take (k + 1))
    (hkeep : d'.take k = e'.take k) (h : m.setBytes a size d = .ok m')
    (h' : m.setBytes a' size d' = .ok m') : ¬a.toNat < a'.toNat := by
  intro hlt
  have hs : 0 < size.toNat := by omega
  have hsize := size.isLt
  have hkn : (BitVec.ofNat 32 (k + 1)).toNat = k + 1 := Nat.mod_eq_of_lt (by omega)
  have hbelow := getSizedMemory_setBytes_below a (BitVec.ofNat 32 (k + 1)) hd' hs he' hkeep
    (by omega) (by omega) h'
  rw [getSizedMemory_take hs (by omega) (by omega) (getSizedMemory_setBytes hd hs h),
    getSizedMemory_take hs (by omega) (by omega) he] at hbelow
  exact hchange (Except.ok.inj hbelow)

theorem setBytes_setBytes (d' : List (BitVec 8)) (hd : d.length = size.toNat)
    (hd' : d'.length = size.toNat) (hs : 0 < size.toNat) (h : m.setBytes a size d = .ok m') :
    m'.setBytes a size d' = m.setBytes a size d' := by
  obtain ⟨b, hb, hn, rfl⟩ := setBytes_eq_ok h
  obtain ⟨hb', hn'⟩ := section_copied (d := d) m hn
  rw [setBytes_ok hb' hs hn', setBytes_ok hb hs hn]
  refine congrArg Except.ok (MemorySystem.ext (funext fun k ↦ ?_))
  by_cases hk : k = page a
  · refine (if_pos hk).trans (Eq.trans (congrArg some (BufferMemory.ext ?_)) (if_pos hk).symm)
    exact overwrite_overwrite (by omega) (by omega)
  · exact (if_neg hk).trans ((if_neg hk).trans (if_neg hk).symm)

theorem setBytes_self (hs : 0 < size.toNat) (h : m.getSizedMemory a size = .ok d) :
    m.setBytes a size d = .ok m := by
  obtain ⟨b, hb, hn⟩ := getSizedMemory_section h
  rw [getSizedMemory_ok hb hs hn] at h
  cases h
  rw [setBytes_ok hb hs hn]
  refine congrArg Except.ok (MemorySystem.ext (funext fun k ↦ ?_))
  by_cases hk : k = page a
  · refine (if_pos hk).trans (Eq.trans (congrArg some (BufferMemory.ext ?_)) (hk ▸ hb).symm)
    exact overwrite_self hn
  · exact if_neg hk

theorem setBytes_sections {d : List (BitVec 8)} (d' : List (BitVec 8)) (hs : SameSections m m')
    (h : ∃ t, m.setBytes a size d = .ok t) : ∃ t, m'.setBytes a size d' = .ok t := by
  obtain ⟨t, ht⟩ := h
  obtain ⟨⟨b, start⟩, hm, -⟩ := except_bind_eq_ok.mp ht
  obtain ⟨hb, rfl, hn⟩ := getMutSizedMemory_section hm
  obtain ⟨b', hb', hlen⟩ := hs.symm.map_some hb
  have hpos := b'.nonempty
  simp only [getMutSizedMemory, getMutMemory, hb] at hm
  simp only [setBytes, getMutSizedMemory, getMutMemory, hb', hlen]
  by_cases h₁ : b.memory.length - 1 < offset a
  · rw [if_pos h₁] at hm
    cases hm
  · rw [if_neg h₁]
    simp only [bind, Except.bind]
    by_cases h₂ : b.memory.length - offset a < size.toNat
    · rw [if_neg h₁] at hm
      simp only [bind, Except.bind, if_pos h₂] at hm
      cases hm
    · exact ⟨_, by rw [hlen, if_neg h₂]⟩

end Memory

namespace ElementWidth

theorem size_sized (w : ElementWidth) (v : BitVec w.operand.bits) :
    (w.operand.sized v).size = w.operand.size := by
  cases w <;> rfl

theorem sized_injective {w : ElementWidth} {a b : BitVec w.operand.bits}
    (h : w.operand.sized a = w.operand.sized b) : a = b := by
  cases w <;> cases h <;> rfl

theorem sized_of_size {w : ElementWidth} {v : SizedValue} (h : v.size = w.operand.size) :
    ∃ a, v = w.operand.sized a := by
  cases w with
  | byte => exact SizedValue.byte_of_size h
  | word => exact SizedValue.word_of_size h
  | dword => exact SizedValue.dword_of_size h

theorem size_ne_qword (w : ElementWidth) : w.operand.size ≠ .qword := by
  cases w <;> nofun

end ElementWidth

namespace VM

variable {w w' : ElementWidth} {vm t : VM} {a a' : BitVec 32} {r r' : Register}

section Memory

theorem setSized_eq (m : MemorySystem) (w : ElementWidth) (v : BitVec w.operand.bits) :
    m.setSized a (w.operand.sized v) = m.setBytes a w.step (leBytes w.bytes v) := by
  cases w <;> rfl

theorem getMem_eq (vm : VM) (a : BitVec 32) (w : ElementWidth) :
    vm.getMem a w.operand.size =
      (fun d ↦ w.operand.sized (fromLeBytes _ d)) <$> vm.memory.getSizedMemory a w.step := by
  cases w <;> exact Functor.map_map ..

theorem step_toNat (w : ElementWidth) : w.step.toNat = w.bytes := by
  cases w <;> rfl

theorem getMem_setMem {v : BitVec w.operand.bits} (h : vm.setMem a (w.operand.sized v) = .ok t) :
    t.getMem a w.operand.size = .ok (w.operand.sized v) := by
  obtain ⟨-, m, hm, rfl⟩ := setMem_ok h
  rw [setSized_eq] at hm
  have hget := getSizedMemory_setBytes (by rw [leBytes_length, step_toNat])
    (by rw [step_toNat]; exact w.bytes_pos) hm
  rw [getMem_eq, hget]
  exact congrArg (fun v ↦ Except.ok (w.operand.sized v)) (fromLeBytes_leBytes _ _ w.bits_eq)

theorem getMem_setMem_apart {v : BitVec w.operand.bits}
    (ha : a'.toNat + w'.bytes ≤ a.toNat ∨ a.toNat + w.bytes ≤ a'.toNat)
    (h : vm.setMem a (w.operand.sized v) = .ok t) :
    t.getMem a' w'.operand.size = vm.getMem a' w'.operand.size := by
  obtain ⟨-, m, hm, rfl⟩ := setMem_ok h
  rw [setSized_eq] at hm
  have hget := getSizedMemory_setBytes_apart a' w'.step
    (by rw [leBytes_length, step_toNat]) (by rwa [step_toNat, step_toNat]) hm
  rw [getMem_eq, getMem_eq, hget]

theorem setMem_setMem {v : BitVec w.operand.bits} (h : vm.setMem a (w.operand.sized v) = .ok t)
    (v' : BitVec w.operand.bits) :
    t.setMem a (w.operand.sized v') = vm.setMem a (w.operand.sized v') := by
  obtain ⟨ha, m, hm, rfl⟩ := setMem_ok h
  rw [setSized_eq] at hm
  have hset := setBytes_setBytes (leBytes w.bytes v') (by rw [leBytes_length, step_toNat])
    (by rw [leBytes_length, step_toNat]) (by rw [step_toNat]; exact w.bytes_pos) hm
  rw [WRITEABLE_MEMORY, ← topBit_eq_zero] at ha
  rw [setMem, setMem, if_neg ha, if_neg ha, setSized_eq, setSized_eq, hset]

theorem setMem_self {v : BitVec w.operand.bits} {t : VM} {v' : BitVec w.operand.bits}
    (h : vm.getMem a w.operand.size = .ok (w.operand.sized v))
    (hs : vm.setMem a (w.operand.sized v') = .ok t) :
    vm.setMem a (w.operand.sized v) = .ok vm := by
  obtain ⟨ha, -⟩ := setMem_ok hs
  rw [getMem_eq] at h
  obtain ⟨d, hd, hv⟩ := map_eq_ok.mp h
  have hlen := getSizedMemory_length hd
  rw [step_toNat] at hlen
  have hself := setBytes_self (by rw [step_toNat]; exact w.bytes_pos) hd
  rw [← leBytes_fromLeBytes hlen w.bits_eq, ElementWidth.sized_injective hv] at hself
  rw [WRITEABLE_MEMORY, ← topBit_eq_zero] at ha
  rw [setMem, if_neg ha, setSized_eq, hself]
  rfl

theorem getMem_of_setMem {v : BitVec w.operand.bits} (h : vm.setMem a (w.operand.sized v) = .ok t) :
    ∃ v, vm.getMem a w.operand.size = .ok (w.operand.sized v) := by
  obtain ⟨-, m, hm, -⟩ := setMem_ok h
  rw [setSized_eq] at hm
  obtain ⟨b, hb, hn, -⟩ := setBytes_eq_ok hm
  have hs : 0 < w.step.toNat := by rw [step_toNat]; exact w.bytes_pos
  rw [getMem_eq, getSizedMemory_ok hb hs hn]
  exact ⟨_, rfl⟩

theorem bytes_of_getMem {v : BitVec w.operand.bits}
    (h : vm.getMem a w.operand.size = .ok (w.operand.sized v)) :
    vm.memory.getSizedMemory a w.step = .ok (leBytes w.bytes v) := by
  rw [getMem_eq] at h
  obtain ⟨d, hd, hv⟩ := map_eq_ok.mp h
  have hlen := getSizedMemory_length hd
  rw [step_toNat] at hlen
  rw [hd, ← ElementWidth.sized_injective hv, leBytes_fromLeBytes hlen w.bits_eq]

/-- The same number added at two addresses gives the same memory only if the number is zero or
the addresses are equal. -/
theorem setMem_add_injective {x x' d : BitVec w.operand.bits} {u : VM} (hd : d ≠ 0)
    (hx : vm.getMem a w.operand.size = .ok (w.operand.sized x))
    (hx' : vm.getMem a' w.operand.size = .ok (w.operand.sized x'))
    (h : vm.setMem a (w.operand.sized (x + d)) = .ok t)
    (h' : vm.setMem a' (w.operand.sized (x' + d)) = .ok u) (heq : t.memory = u.memory) :
    a = a' := by
  obtain ⟨-, m, hm, rfl⟩ := setMem_ok h
  obtain ⟨-, m', hm', rfl⟩ := setMem_ok h'
  cases heq
  rw [setSized_eq] at hm hm'
  obtain ⟨k, hk, hkeep, hchange⟩ := exists_lowest_byte w.bits_eq hd
  have hbits := w.bits_eq
  have hkeeps : ∀ y : BitVec w.operand.bits,
      (leBytes w.bytes (y + d)).take k = (leBytes w.bytes y).take k := by
    intro y
    rw [leBytes_take _ (by omega), leBytes_take _ (by omega)]
    exact (leBytes_add_eq_iff (by omega)).mpr hkeep
  have hchanges : ∀ y : BitVec w.operand.bits,
      (leBytes w.bytes (y + d)).take (k + 1) ≠ (leBytes w.bytes y).take (k + 1) := by
    intro y
    rw [leBytes_take _ (by omega), leBytes_take _ (by omega)]
    exact fun hsame ↦ hchange ((leBytes_add_eq_iff (by omega)).mp hsame)
  have hlen : ∀ y : BitVec w.operand.bits, (leBytes w.bytes y).length = w.step.toNat := by
    intro y
    rw [leBytes_length, step_toNat]
  have hkstep : k < w.step.toNat := by
    rw [step_toNat]
    exact hk
  have hle := setBytes_not_before (hlen _) (hlen _) hkstep (bytes_of_getMem hx)
    (bytes_of_getMem hx') (hchanges x) (hkeeps x') hm hm'
  have hge := setBytes_not_before (hlen _) (hlen _) hkstep (bytes_of_getMem hx')
    (bytes_of_getMem hx) (hchanges x') (hkeeps x) hm' hm
  exact BitVec.eq_of_toNat_eq (by omega)

theorem setMem_sameSections {v : SizedValue} (h : vm.setMem a v = .ok t) :
    SameSections vm.memory t.memory := by
  obtain ⟨-, m, hm, rfl⟩ := setMem_ok h
  cases v with
  | none =>
    cases hm
    exact .refl _
  | byte | word | dword | qword => exact setBytes_sameSections hm

theorem setMem_writeable {v : BitVec w.operand.bits} {u : VM} (v' : BitVec w.operand.bits)
    (hs : SameSections vm.memory u.memory) (h : vm.setMem a (w.operand.sized v) = .ok t) :
    ∃ t', u.setMem a (w.operand.sized v') = .ok t' := by
  obtain ⟨ha, m, hm, rfl⟩ := setMem_ok h
  rw [setSized_eq] at hm
  obtain ⟨m', hm'⟩ := setBytes_sections (leBytes w.bytes v') hs ⟨m, hm⟩
  rw [WRITEABLE_MEMORY, ← topBit_eq_zero] at ha
  rw [setMem, if_neg ha, setSized_eq, hm']
  exact ⟨_, rfl⟩

end Memory

end VM

def Register.host : ElementWidth → Register → Register
  | .byte, r => if r &&& 4 = 0 then r else r &&& 3
  | .word, r | .dword, r => r

def Register.lowBit : ElementWidth → Register → ℕ
  | .byte, r => if r &&& 4 = 0 then 0 else 8
  | .word, _ | .dword, _ => 0

namespace VM

variable {w w' : ElementWidth} {vm t : VM} {r r' : Register}

section Register

theorem lowBit_le (w : ElementWidth) (r : Register) : r.lowBit w + w.operand.bits ≤ 32 := by
  cases w with
  | byte =>
    simp only [Register.lowBit]
    split <;> decide
  | word | dword => decide +revert

theorem getReg_eq (vm : VM) (w : ElementWidth) (r : Register) :
    vm.getReg r w.operand.size =
      w.operand.sized ((vm.regs (r.host w)).extractLsb' (r.lowBit w) w.operand.bits) := by
  cases w with
  | byte =>
    refine congrArg SizedValue.byte ?_
    simp only [reg8, Register.host, Register.lowBit]
    by_cases h : r &&& 4 = 0
    · rw [if_pos h, if_pos h, if_pos h]
      exact and_mask_extract 0 _ (by decide) (by decide)
    · rw [if_neg h, if_neg h, if_neg h]
      exact and_mask_extract 8 _ (by decide) (by decide)
  | word =>
    exact congrArg SizedValue.word (and_mask_extract 0 _ (by decide) (by decide))
  | dword =>
    refine congrArg SizedValue.dword ?_
    change vm.regs r = (vm.regs r).extractLsb' 0 32
    rw [BitVec.extractLsb'_eq_self]

theorem setReg_eq (vm : VM) (w : ElementWidth) (r : Register) (v : BitVec w.operand.bits) :
    vm.setReg r (w.operand.sized v) =
      vm.setReg32 (r.host w) (splice (vm.regs (r.host w)) (r.lowBit w) v) := by
  cases w with
  | byte =>
    simp only [ElementWidth.operand, width8, setReg, Register.host, Register.lowBit]
    by_cases h : r &&& 4 = 0
    · rw [if_pos h, if_pos h, if_pos h]
      exact congrArg (vm.setReg32 r) (splice_zero (vm.regs r) v).symm
    · rw [if_neg h, if_neg h, if_neg h]
      rfl
  | word => exact congrArg (vm.setReg32 r) (splice_zero (n := 32) (k := 16) _ v).symm
  | dword => exact congrArg (vm.setReg32 r) (splice_all (n := 32) _ v).symm

theorem host_apart (w : ElementWidth) {r r' : Register} (h : r ≠ r') :
    r.host w ≠ r'.host w ∨ r'.lowBit w + w.operand.bits ≤ r.lowBit w ∨
      r.lowBit w + w.operand.bits ≤ r'.lowBit w := by
  cases w with
  | byte =>
    revert r r'
    decide
  | word | dword => exact .inl h

theorem getReg_setReg (vm : VM) (r : Register) (v : BitVec w.operand.bits) :
    (vm.setReg r (w.operand.sized v)).getReg r w.operand.size = w.operand.sized v := by
  rw [getReg_eq, setReg_eq, setReg32_self, extract_splice _ _ (lowBit_le w r)]

theorem getReg_setReg_of_ne (vm : VM) {r r' : Register} (h : r' ≠ r) (v : BitVec w.operand.bits) :
    (vm.setReg r (w.operand.sized v)).getReg r' w.operand.size = vm.getReg r' w.operand.size := by
  rw [getReg_eq, getReg_eq, setReg_eq]
  by_cases hhost : r'.host w = r.host w
  · obtain hne | hdisjoint := host_apart w h
    · exact absurd hhost hne
    · rw [hhost, setReg32_self, extract_splice_disjoint _ _ hdisjoint.symm]
  · rw [setReg32_of_ne hhost]

theorem setReg_setReg (vm : VM) (r : Register) (v v' : BitVec w.operand.bits) :
    (vm.setReg r (w.operand.sized v)).setReg r (w.operand.sized v') =
      vm.setReg r (w.operand.sized v') := by
  rw [setReg_eq, setReg_eq, setReg_eq, setReg32_self, splice_splice, setReg32, setReg32, setReg32]
  simp only [Function.update_idem]

theorem setReg_comm (vm : VM) {r r' : Register} (h : r ≠ r') (v v' : BitVec w.operand.bits) :
    (vm.setReg r (w.operand.sized v)).setReg r' (w.operand.sized v') =
      (vm.setReg r' (w.operand.sized v')).setReg r (w.operand.sized v) := by
  simp only [setReg_eq]
  by_cases hhost : r.host w = r'.host w
  · obtain hne | hdisjoint := host_apart w h
    · exact absurd hhost hne
    · rw [hhost, setReg32_self, setReg32_self, splice_comm _ _ _ hdisjoint]
      simp only [setReg32, Function.update_idem]
  · rw [setReg32_of_ne (Ne.symm hhost), setReg32_of_ne hhost]
    simp only [setReg32, Function.update_comm hhost]

theorem setMem_setReg (vm : VM) (r : Register) (v : BitVec w.operand.bits) (a : BitVec 32)
    (x : SizedValue) :
    (vm.setReg r (w.operand.sized v)).setMem a x =
      (fun t ↦ t.setReg r (w.operand.sized v)) <$> vm.setMem a x := by
  simp only [setReg_eq, setReg32, setMem]
  split
  · rfl
  · rw [Functor.map_map]

end Register

end VM

namespace ArgLocation

/-- The registers that the address of an operand is computed from. -/
def addressedBy : ArgLocation → List Register
  | .none | .immediate _ | .address _ _ | .registerValue _ _ => []
  | .registerAddress r _ => [r]
  | .modRMAddress _ reg _ => reg.toList
  | .sibAddress _ base _ index _ => base.toList ++ index.toList

def place (vm : VM) (w : ElementWidth) : ArgLocation → Place
  | .none | .immediate _ => .nowhere
  | .registerValue r _ => .register (r.host w) (r.lowBit w) w.operand.bits
  | l =>
    match vm.getArgLea l with
    | .ok a => .memory a.toNat w.bytes
    | .error _ => .nowhere

variable {l : ArgLocation} {w : ElementWidth} {vm t : VM} {a : BitVec 32}

theorem kinds (hl : l.size = w.operand.size) (vm : VM) :
    (∃ v, l = .immediate (w.operand.sized v)) ∨ (∃ r, l = .registerValue r w.operand.size) ∨
      ∃ a, vm.getArgLea l = .ok a := by
  cases l with
  | none => cases w <;> cases hl
  | immediate v =>
    obtain ⟨a, rfl⟩ := ElementWidth.sized_of_size hl
    exact .inl ⟨a, rfl⟩
  | registerValue r s =>
    cases hl
    exact .inr (.inl ⟨r, rfl⟩)
  | address | registerAddress | modRMAddress | sibAddress => exact .inr (.inr ⟨_, rfl⟩)

theorem getArgLea_ok (h : vm.getArgLea l = .ok a) (t : VM) : ∃ a', t.getArgLea l = .ok a' := by
  cases l with
  | none | immediate | registerValue => cases h
  | address | registerAddress | modRMAddress | sibAddress => exact ⟨_, rfl⟩

theorem getArg_memory (h : vm.getArgLea l = .ok a) : vm.getArg l = vm.getMem a l.size := by
  cases l <;> cases h <;> rfl

theorem setArg_memory (h : vm.getArgLea l = .ok a) (hl : l.size = w.operand.size)
    (v : BitVec w.operand.bits) :
    vm.setArg l (w.operand.sized v) = vm.setMem a (w.operand.sized v) := by
  cases l with
  | none | immediate | registerValue => cases h
  | address | registerAddress | modRMAddress | sibAddress =>
    cases h
    cases hl
    cases w <;> rfl

theorem setArg_register (vm : VM) (r : Register) (v : BitVec w.operand.bits) :
    vm.setArg (.registerValue r w.operand.size) (w.operand.sized v) =
      .ok (vm.setReg r (w.operand.sized v)) := by
  cases w <;> rfl

theorem place_memory (h : vm.getArgLea l = .ok a) : l.place vm w = .memory a.toNat w.bytes := by
  cases l <;> cases h <;> rfl

theorem getArgLea_congr (h : ∀ r ∈ l.addressedBy, t.regs r = vm.regs r) :
    t.getArgLea l = vm.getArgLea l := by
  cases l with
  | none | immediate | address | registerValue => rfl
  | registerAddress r s => exact congrArg Except.ok (h r (List.mem_singleton_self r))
  | modRMAddress offset reg s =>
    cases reg with
    | none => rfl
    | some r =>
      have hr := h r (List.mem_singleton_self r)
      simp only [VM.getArgLea, VM.calculateModrmAddress, Option.map_some, hr]
  | sibAddress offset base scale index s =>
    have hbase : base.map t.regs = base.map vm.regs :=
      Option.map_congr fun r hr ↦ h r (by simp [addressedBy, hr])
    have hindex : index.map t.regs = index.map vm.regs :=
      Option.map_congr fun r hr ↦ h r (by simp [addressedBy, hr])
    simp only [VM.getArgLea, VM.calculateSibAddress, hbase, hindex]

theorem place_congr (h : ∀ r ∈ l.addressedBy, t.regs r = vm.regs r) :
    l.place t w = l.place vm w := by
  have ha := getArgLea_congr h
  cases l with
  | none | immediate | registerValue => rfl
  | address | registerAddress | modRMAddress | sibAddress => simp only [place, ha]

end ArgLocation

namespace VM

variable {w w' : ElementWidth} {vm t u : VM} {l l' : ArgLocation}

section Argument

theorem getArg_setArg {v : BitVec w.operand.bits} (hl : l.size = w.operand.size)
    (h : vm.setArg l (w.operand.sized v) = .ok t) : t.getArg l = .ok (w.operand.sized v) := by
  obtain ⟨x, rfl⟩ | ⟨r, rfl⟩ | ⟨a, ha⟩ := ArgLocation.kinds hl vm
  · cases h
  · rw [ArgLocation.setArg_register] at h
    cases h
    exact congrArg Except.ok (getReg_setReg vm r v)
  · rw [ArgLocation.setArg_memory ha hl] at h
    have hget := getMem_setMem h
    obtain ⟨-, m, -, rfl⟩ := setMem_ok h
    rw [← hl] at hget
    rw [← hget]
    exact ArgLocation.getArg_memory ha

theorem setArg_addressedBy {v : BitVec w.operand.bits} (hl : l.size = w.operand.size)
    (h : vm.setArg l (w.operand.sized v) = .ok t) : ∀ r ∈ l.addressedBy, t.regs r = vm.regs r := by
  intro r hr
  obtain ⟨x, rfl⟩ | ⟨r, rfl⟩ | ⟨a, ha⟩ := ArgLocation.kinds hl vm
  · cases hr
  · cases hr
  · rw [ArgLocation.setArg_memory ha hl] at h
    obtain ⟨-, m, -, rfl⟩ := setMem_ok h
    rfl

theorem getArgLea_setArg {v : BitVec w.operand.bits} (hl : l.size = w.operand.size)
    (h : vm.setArg l (w.operand.sized v) = .ok t) : t.getArgLea l = vm.getArgLea l :=
  ArgLocation.getArgLea_congr (setArg_addressedBy hl h)

theorem setArg_sameSections {v : SizedValue} (h : vm.setArg l v = .ok t) :
    SameSections vm.memory t.memory := (setArg_frame h).1.memory.sizes

theorem setArg_setArg {v : BitVec w.operand.bits} (hl : l.size = w.operand.size)
    (h : vm.setArg l (w.operand.sized v) = .ok t) (v' : BitVec w.operand.bits) :
    t.setArg l (w.operand.sized v') = vm.setArg l (w.operand.sized v') := by
  have haddress := getArgLea_setArg hl h
  obtain ⟨x, rfl⟩ | ⟨r, rfl⟩ | ⟨a, ha⟩ := ArgLocation.kinds hl vm
  · rfl
  · rw [ArgLocation.setArg_register] at h ⊢
    cases h
    rw [ArgLocation.setArg_register]
    exact congrArg Except.ok (setReg_setReg vm r v v')
  · rw [ha] at haddress
    rw [ArgLocation.setArg_memory ha hl] at h
    rw [ArgLocation.setArg_memory haddress hl, ArgLocation.setArg_memory ha hl]
    exact setMem_setMem h v'

theorem setReg_self {v : BitVec w.operand.bits} {r : Register}
    (h : vm.getReg r w.operand.size = w.operand.sized v) :
    vm.setReg r (w.operand.sized v) = vm := by
  rw [getReg_eq] at h
  have hv := ElementWidth.sized_injective h
  rw [setReg_eq, ← hv, splice_extract, setReg32, Function.update_eq_self]

theorem setArg_self {v v' : BitVec w.operand.bits} (hl : l.size = w.operand.size)
    (h : vm.getArg l = .ok (w.operand.sized v)) (hs : vm.setArg l (w.operand.sized v') = .ok t) :
    vm.setArg l (w.operand.sized v) = .ok vm := by
  obtain ⟨x, rfl⟩ | ⟨r, rfl⟩ | ⟨a, ha⟩ := ArgLocation.kinds hl vm
  · cases hs
  · rw [ArgLocation.setArg_register, setReg_self (Except.ok.inj h)]
  · rw [ArgLocation.setArg_memory ha hl] at hs ⊢
    rw [ArgLocation.getArg_memory ha, hl] at h
    exact setMem_self h hs

def Writeable (vm : VM) (w : ElementWidth) (l : ArgLocation) : Prop :=
  ∃ t, vm.setArg l (w.operand.sized 0) = .ok t

theorem setArg_writeable {v v' : BitVec w.operand.bits} (hl : l.size = w.operand.size)
    (hs : SameSections vm.memory u.memory) (ha : u.getArgLea l = vm.getArgLea l)
    (h : vm.setArg l (w.operand.sized v) = .ok t) :
    ∃ t', u.setArg l (w.operand.sized v') = .ok t' := by
  obtain ⟨x, rfl⟩ | ⟨r, rfl⟩ | ⟨a, hlea⟩ := ArgLocation.kinds hl vm
  · cases h
  · exact ⟨_, ArgLocation.setArg_register u r v'⟩
  · rw [ArgLocation.setArg_memory hlea hl] at h
    rw [hlea] at ha
    rw [ArgLocation.setArg_memory ha hl]
    exact setMem_writeable v' hs h

theorem Writeable.congr (h : vm.Writeable w l) (hl : l.size = w.operand.size)
    (hs : SameSections vm.memory u.memory) (ha : u.getArgLea l = vm.getArgLea l) :
    u.Writeable w l := by
  obtain ⟨t, ht⟩ := h
  exact setArg_writeable hl hs ha ht

theorem Writeable.store (h : vm.Writeable w l) (hl : l.size = w.operand.size)
    (v : BitVec w.operand.bits) : ∃ t, vm.setArg l (w.operand.sized v) = .ok t := by
  obtain ⟨t, ht⟩ := h
  exact setArg_writeable hl (.refl _) rfl ht

/-- Two operands with nothing in common, where a store into the first keeps the address of
the second too. -/
structure Separate (vm : VM) (w : ElementWidth) (l : ArgLocation) (w' : ElementWidth)
    (l' : ArgLocation) : Prop where
  apart : (l.place vm w).Apart (l'.place vm w')
  address : ∀ r ∈ l'.addressedBy, (l.place vm w).Apart (.register r 0 32)

theorem Separate.congr (h : vm.Separate w l w' l')
    (hl : ∀ r ∈ l.addressedBy, t.regs r = vm.regs r)
    (hl' : ∀ r ∈ l'.addressedBy, t.regs r = vm.regs r) : t.Separate w l w' l' := by
  obtain ⟨hapart, haddress⟩ := h
  constructor
  · rw [ArgLocation.place_congr hl, ArgLocation.place_congr hl']
    exact hapart
  · rw [ArgLocation.place_congr hl]
    exact haddress

theorem Separate.regs {v : BitVec w.operand.bits} (hl : l.size = w.operand.size)
    (hs : vm.Separate w l w' l') (h : vm.setArg l (w.operand.sized v) = .ok t) :
    ∀ r ∈ l'.addressedBy, t.regs r = vm.regs r := by
  intro r hr
  have hapart := hs.address r hr
  obtain ⟨x, rfl⟩ | ⟨r₀, rfl⟩ | ⟨a, ha⟩ := ArgLocation.kinds hl vm
  · cases h
  · rw [ArgLocation.setArg_register] at h
    cases h
    have hbits := lowBit_le w r₀
    have hpos : 0 < w.operand.bits := by cases w <;> decide
    have hne : r₀.host w ≠ r := by
      obtain hne | hlo | hhi := hapart
      · exact hne
      · omega
      · omega
    rw [setReg_eq, setReg32_of_ne (Ne.symm hne)]
  · rw [ArgLocation.setArg_memory ha hl] at h
    obtain ⟨-, m, -, rfl⟩ := setMem_ok h
    rfl

theorem Separate.getArgLea {v : BitVec w.operand.bits} (hl : l.size = w.operand.size)
    (hs : vm.Separate w l w' l') (h : vm.setArg l (w.operand.sized v) = .ok t) :
    t.getArgLea l' = vm.getArgLea l' :=
  ArgLocation.getArgLea_congr (hs.regs hl h)

theorem Separate.getArg {v : BitVec w.operand.bits} (hl : l.size = w.operand.size)
    (hl' : l'.size = w'.operand.size) (hs : vm.Separate w l w' l')
    (h : vm.setArg l (w.operand.sized v) = .ok t) : t.getArg l' = vm.getArg l' := by
  have haddress := hs.getArgLea hl h
  have hapart := hs.apart
  obtain ⟨x, rfl⟩ | ⟨r', rfl⟩ | ⟨a', ha'⟩ := ArgLocation.kinds hl' vm
  · rfl
  · obtain ⟨x, rfl⟩ | ⟨r, rfl⟩ | ⟨a, ha⟩ := ArgLocation.kinds hl vm
    · cases h
    · rw [ArgLocation.setArg_register] at h
      cases h
      change Except.ok _ = Except.ok _
      rw [getReg_eq, getReg_eq, setReg_eq]
      by_cases hhost : r'.host w' = r.host w
      · obtain hne | hdisjoint := hapart
        · exact absurd hhost.symm hne
        · rw [hhost, setReg32_self, extract_splice_disjoint _ _ hdisjoint]
      · rw [setReg32_of_ne hhost]
    · rw [ArgLocation.setArg_memory ha hl] at h
      obtain ⟨-, m, -, rfl⟩ := setMem_ok h
      rfl
  · rw [ha'] at haddress
    rw [ArgLocation.getArg_memory haddress, ArgLocation.getArg_memory ha', hl']
    obtain ⟨x, rfl⟩ | ⟨r, rfl⟩ | ⟨a, ha⟩ := ArgLocation.kinds hl vm
    · cases h
    · rw [ArgLocation.setArg_register] at h
      cases h
      rw [setReg_eq]
      rfl
    · rw [ArgLocation.setArg_memory ha hl] at h
      rw [ArgLocation.place_memory ha, ArgLocation.place_memory ha'] at hapart
      exact getMem_setMem_apart hapart h

theorem Separate.writeable {v : BitVec w.operand.bits} (hl : l.size = w.operand.size)
    (hl' : l'.size = w'.operand.size) (hs : vm.Separate w l w' l')
    (h : vm.setArg l (w.operand.sized v) = .ok t) (hw : vm.Writeable w' l') :
    t.Writeable w' l' := by
  obtain ⟨t', ht'⟩ := hw
  exact setArg_writeable hl' (setArg_sameSections h) (hs.getArgLea hl h) ht'

end Argument

section Flags

theorem getMem_congr (hm : t.memory = vm.memory) (a : BitVec 32) (s : ValueSize) :
    t.getMem a s = vm.getMem a s := by
  cases s <;> simp only [getMem, hm]

theorem getArg_congr (hr : t.regs = vm.regs) (hm : t.memory = vm.memory) (l : ArgLocation) :
    t.getArg l = vm.getArg l := by
  have hmem := getMem_congr hm
  cases l with
  | none | immediate => rfl
  | address | registerAddress | modRMAddress | sibAddress =>
    simp only [getArg, hmem, reg32, calculateModrmAddress, calculateSibAddress, hr]
  | registerValue r s =>
    cases s <;> simp only [getArg, getReg, reg8, reg16, reg32, hr]

theorem getArg_flags (vm : VM) (f : X86Flags) (l : ArgLocation) :
    VM.getArg { vm with flags := f } l = vm.getArg l := getArg_congr rfl rfl l

theorem setMem_flags (vm : VM) (f : X86Flags) (a : BitVec 32) (v : SizedValue) :
    VM.setMem { vm with flags := f } a v = (fun t ↦ { t with flags := f }) <$> vm.setMem a v := by
  unfold setMem
  split
  · rfl
  · rw [Functor.map_map]

theorem setReg_flags (vm : VM) (f : X86Flags) (r : Register) (v : SizedValue) :
    VM.setReg { vm with flags := f } r v = { vm.setReg r v with flags := f } := by
  cases v with
  | byte v =>
    simp only [setReg]
    split <;> rfl
  | none | word | dword | qword => rfl

theorem setArg_flags (vm : VM) (f : X86Flags) (l : ArgLocation) (v : SizedValue) :
    VM.setArg { vm with flags := f } l v = (fun t ↦ { t with flags := f }) <$> vm.setArg l v := by
  cases l with
  | none | immediate => rfl
  | address a s | registerAddress r s =>
    simp only [setArg]
    cases v.convertSizeZx s with
    | error x => rfl
    | ok u => exact setMem_flags ..
  | registerValue r s =>
    simp only [setArg]
    cases v.convertSizeZx s with
    | error x => rfl
    | ok u => exact congrArg Except.ok (setReg_flags ..)
  | modRMAddress | sibAddress => exact setMem_flags ..

end Flags

end VM

end Qx86
