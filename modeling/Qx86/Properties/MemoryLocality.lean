import Qx86.Execute.Lockstep
import Qx86.Machine.Extension
import Qx86.Properties.ReadOnlyMemory

namespace Qx86

open Foundation Op

variable {σ τ : Type} {hv : Hypervisor σ}

def Machine.extend (m : Machine σ) (extra : MemorySystem) : Machine σ :=
  { m with vm := m.vm.extend extra }

/-- A hypervisor that answers alike when the machine has more sections, unless it fails
for the want of one. -/
def Hypervisor.Local (hv : Hypervisor σ) : Prop :=
  ∀ vm n s extra, (∃ a, (hv.interrupt vm n s).1 = .error (.readUnloadedMemory a)) ∨
    hv.interrupt (vm.extend extra) n s =
      ((hv.interrupt vm n s).1, (hv.interrupt vm n s).2.1.extend extra, (hv.interrupt vm n s).2.2)

theorem testHypervisor_local : testHypervisor.Local := fun _ _ _ _ ↦ .inr rfl

theorem extend_congruence (extra : MemorySystem) :
    Congruence (fun vm vm' ↦ vm' = vm.extend extra) VMError.Unloaded where
  processor := by
    rintro vm _ rfl
    rfl
  withProcessor q := by
    rintro rfl
    rfl
  load a s := by
    rintro rfl
    exact VM.getMem_extend a s
  store a v := by
    rintro rfl
    exact VM.storeResult_extend a v
  gas := by
    rintro vm _ rfl
    rfl
  charger := by
    rintro vm _ rfl
    rfl
  setGas g := by
    rintro rfl
    rfl
  setErrorEip a := by
    rintro rfl
    rfl
  window a := by
    rintro rfl
    exact MemorySystem.getSizedMemory_extend a 16

theorem Hypervisor.Local.alike (h : hv.Local) (extra : MemorySystem) :
    hv.Alike hv (fun vm vm' ↦ vm' = vm.extend extra) Eq VMError.Unloaded := by
  rintro vm _ n s _ rfl rfl
  obtain ⟨a, ha⟩ | he := h vm n s extra
  · rw [ha]
    exact .excuse ⟨a, rfl⟩
  · rw [he]
    exact .same ⟨rfl, rfl⟩

/-- A run that misses no section is the same with more of them, which it leaves as they
are, and no run is another one with more of them. -/
theorem execution_local (hv : Hypervisor σ) (hlocal : hv.Local) (n : ℕ) (m : Machine σ)
    (extra : MemorySystem) :
    (∀ r m₁, Finishes (cycle hv) (start n m) (r, m₁) → (∀ a, r ≠ .err (.readUnloadedMemory a)) →
      Finishes (cycle hv) (start n (m.extend extra)) (r, m₁.extend extra)) ∧
    ∀ r m₂, Finishes (cycle hv) (start n (m.extend extra)) (r, m₂) →
      (∃ m₁, m₂ = m₁.extend extra ∧ Finishes (cycle hv) (start n m) (r, m₁)) ∨
        ∃ a m₁, Finishes (cycle hv) (start n m) (.err (.readUnloadedMemory a), m₁) := by
  have hV := extend_congruence extra
  have hh : ∀ vm k s, Asked hv (start n m) vm k s →
      hv.AlikeAt hv (fun vm vm' ↦ vm' = vm.extend extra) Eq VMError.Unloaded vm k s :=
    fun vm k s _ vm' t ↦ hlocal.alike extra vm vm' k s t
  have hstop : ¬VMError.internalVMStop.Unloaded := fun ⟨a, ha⟩ ↦ by cases ha
  have hm : Paired (fun vm vm' ↦ vm' = vm.extend extra) Eq m (m.extend extra) := ⟨rfl, rfl⟩
  have hext : ∀ {m₁ m₂ : Machine σ}, Paired (fun vm vm' ↦ vm' = vm.extend extra) Eq m₁ m₂ →
      m₂ = m₁.extend extra := fun ⟨hvm, hhost⟩ ↦ Machine.ext hvm hhost.symm
  constructor
  · intro r m₁ hr hne
    obtain ⟨⟨r', m₂⟩, hr', ho, hpair⟩ := finishes_related hV hstop hm hh hr fun x hx ⟨a, ha⟩ ↦
      hne a (ha ▸ hx)
    cases ho
    cases hext hpair
    exact hr'
  · intro r m₂ hr
    obtain ⟨⟨r', m₁⟩, hr', ⟨x, hx, a, ha⟩ | ⟨ho, hpair⟩⟩ := finishes_related_right hV hstop hm hh hr
    · cases hx
      cases ha
      exact .inr ⟨a, m₁, hr'⟩
    · cases ho
      exact .inl ⟨m₁, hext hpair, hr'⟩

def otherSections : MemorySystem :=
  ((default : MemorySystem).insert 0x90000000 zeroSection).insert CODE_MEM zeroSection

theorem execution_local_storeHlt : ∃ m : Machine (List (BitVec 8)), Finishes (cycle testHypervisor)
    (start PIPELINE_SIZE ((createMachine storeHlt).extend otherSections))
    (.ok true, m.extend otherSections) := by
  obtain ⟨⟨_, m⟩, hr, rfl⟩ := Finishes.of_getRight
    (show (iterate (cycle testHypervisor) 1
      (start PIPELINE_SIZE (createMachine storeHlt))).getRight?.map Prod.fst =
        some (.ok true) by decide +kernel)
  exact ⟨m, (execution_local testHypervisor testHypervisor_local PIPELINE_SIZE
    (createMachine storeHlt) otherSections).1 (.ok true) m hr fun a ha ↦ by cases ha⟩

theorem eq_congruence (excused : VMError → Prop) : Congruence Eq excused where
  processor h := h ▸ rfl
  withProcessor _ h := h ▸ rfl
  load _ _ h := .inr (h ▸ rfl)
  store _ _ h := h ▸ .same rfl
  gas h := h ▸ rfl
  charger h := h ▸ rfl
  setGas _ h := h ▸ rfl
  setErrorEip _ h := h ▸ rfl
  window _ h := .inr (h ▸ rfl)

/-- A hypervisor may be replaced in a run by any other that answers the interrupts of that run
alike, whatever it keeps for itself. -/
theorem host_unobservable (hv : Hypervisor σ) (hv' : Hypervisor τ) (H : σ → τ → Prop)
    (n : ℕ) (vm vm₁ : VM) (s s₁ : σ) (t : τ) (hst : H s t)
    (hh : ∀ u k x y, Asked hv (start n ⟨vm, s⟩) u k x → H x y →
      (hv.interrupt u k x).1 = (hv'.interrupt u k y).1 ∧
        (hv.interrupt u k x).2.1 = (hv'.interrupt u k y).2.1 ∧
        H (hv.interrupt u k x).2.2 (hv'.interrupt u k y).2.2)
    (r : Outcome VMError Bool) (hr : Finishes (cycle hv) (start n ⟨vm, s⟩) (r, ⟨vm₁, s₁⟩)) :
    ∃ t₁, H s₁ t₁ ∧ Finishes (cycle hv') (start n ⟨vm, t⟩) (r, ⟨vm₁, t₁⟩) := by
  have halike : ∀ u k x, Asked hv (start n ⟨vm, s⟩) u k x →
      hv.AlikeAt hv' Eq H (fun _ ↦ False) u k x := by
    rintro u k x hask _ y rfl hxy
    obtain ⟨ho, hvm, hhost⟩ := hh u k x y hask hxy
    exact .inr ⟨congrArg Outcome.ofExcept ho, hvm, hhost⟩
  obtain ⟨⟨r', _, t₁⟩, hr', ho, hvm, hhost⟩ := finishes_related (eq_congruence _) id
    (show Paired Eq H ⟨vm, s⟩ ⟨vm, t⟩ from ⟨rfl, hst⟩) halike hr fun _ _ ↦ id
  cases ho
  cases hvm
  exact ⟨t₁, hhost, hr'⟩

def countingHypervisor : Hypervisor ℕ where
  interrupt vm _ s := (.ok (), vm, s + 1)

def intHlt : BufferMemory :=
  ⟨[0xCD, 0x21, 0xF4] ++ List.replicate 16 0, by decide⟩

theorem host_unobservable_intHlt : ∃ vm, Finishes (cycle countingHypervisor)
    (start PIPELINE_SIZE ⟨createVm intHlt, 0⟩) (.ok true, ⟨vm, 1⟩) := by
  obtain ⟨⟨r, vm, s⟩, hr, he⟩ := Finishes.of_getRight
    (show (iterate (cycle testHypervisor) 2
      (start PIPELINE_SIZE (createMachine intHlt))).getRight?.map (fun r ↦ (r.1, r.2.host)) =
        some (.ok true, [0x21]) by decide +kernel)
  cases he
  obtain ⟨_, rfl, ht⟩ := host_unobservable testHypervisor countingHypervisor
    (fun s t ↦ s.length = t) PIPELINE_SIZE (createVm intHlt) vm [] [0x21] 0 rfl
    (fun u k s t _ h ↦ ⟨rfl, rfl, congrArg (· + 1) h⟩) (.ok true) hr
  exact ⟨vm, ht⟩

end Qx86
