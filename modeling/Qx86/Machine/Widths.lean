import Qx86.Machine.Op

namespace Qx86

open Foundation

namespace VMError

def isWidth : VMError → Bool
  | .wrongSizeExpectation | .tooBigSizeExpectation => true
  | _ => false

def isMemory : VMError → Bool
  | .readUnloadedMemory _ | .readBadMemory _ | .wroteBadMemory _ | .wroteReadOnlyMemory _ => true
  | _ => false

theorem not_isWidth_of_isMemory {x : VMError} (h : x.isMemory = true) : x.isWidth = false := by
  cases x <;> first | rfl | cases h

end VMError

namespace SizedValue

def size : SizedValue → ValueSize
  | .none => .none
  | .byte _ => .byte
  | .word _ => .word
  | .dword _ => .dword
  | .qword _ => .qword

theorem byte_of_size {v : SizedValue} (h : v.size = .byte) : ∃ u, v = .byte u := by
  cases v <;> first | exact ⟨_, rfl⟩ | cases h

theorem word_of_size {v : SizedValue} (h : v.size = .word) : ∃ u, v = .word u := by
  cases v <;> first | exact ⟨_, rfl⟩ | cases h

theorem dword_of_size {v : SizedValue} (h : v.size = .dword) : ∃ u, v = .dword u := by
  cases v <;> first | exact ⟨_, rfl⟩ | cases h

/-- A conversion that no value of the given size makes fail. -/
def Accepts {α : Type} (conv : SizedValue → Except VMError α) (s : ValueSize) : Prop :=
  ∀ v : SizedValue, v.size = s → ∃ a, conv v = .ok a

theorem accepts_exact :
    Accepts u8Exact .byte ∧ Accepts u16Exact .word ∧ Accepts u32Exact .dword ∧
      Accepts u64Exact .qword := by
  refine ⟨?_, ?_, ?_, ?_⟩ <;> rintro (_ | v | v | v | v) h <;> cases h <;> exact ⟨v, rfl⟩

theorem accepts_u32Zx {s : ValueSize} (hs : s ≠ .qword) : Accepts u32Zx s := by
  rintro (_ | v | v | v | v) rfl
  · exact ⟨0, rfl⟩
  · exact ⟨_, rfl⟩
  · exact ⟨_, rfl⟩
  · exact ⟨v, rfl⟩
  · exact absurd rfl hs

theorem accepts_u32Sx {s : ValueSize} (hs : s ≠ .qword) : Accepts u32Sx s := by
  rintro (_ | v | v | v | v) rfl
  · exact ⟨0, rfl⟩
  · exact ⟨_, rfl⟩
  · exact ⟨_, rfl⟩
  · exact ⟨v, rfl⟩
  · exact absurd rfl hs

theorem accepts_u16Zx {s : ValueSize} (hs : s ≠ .qword) (hs' : s ≠ .dword) :
    Accepts u16Zx s := by
  rintro (_ | v | v | v | v) rfl
  · exact ⟨0, rfl⟩
  · exact ⟨_, rfl⟩
  · exact ⟨v, rfl⟩
  · exact absurd rfl hs'
  · exact absurd rfl hs

theorem accepts_u16Sx {s : ValueSize} (hs : s ≠ .qword) (hs' : s ≠ .dword) :
    Accepts u16Sx s := by
  rintro (_ | v | v | v | v) rfl
  · exact ⟨0, rfl⟩
  · exact ⟨_, rfl⟩
  · exact ⟨v, rfl⟩
  · exact absurd rfl hs'
  · exact absurd rfl hs

end SizedValue

def ArgLocation.size : ArgLocation → ValueSize
  | .none => .none
  | .immediate v => v.size
  | .address _ s | .registerValue _ s | .registerAddress _ s | .modRMAddress _ _ s
  | .sibAddress _ _ _ _ s => s

section Errors

variable {m m' : MemorySystem} {a n : BitVec 32} {x : VMError}

theorem getSizedMemory_error (h : m.getSizedMemory a n = .error x) : x.isMemory = true := by
  unfold MemorySystem.getSizedMemory MemorySystem.getMemory at h
  obtain h | ⟨_, -, h⟩ := except_bind_eq_error.mp h
  · split at h
    · cases h
      rfl
    · split at h <;> cases h
      rfl
  · split at h <;> cases h
    rfl

theorem getMutSizedMemory_error (h : m.getMutSizedMemory a n = .error x) : x.isMemory = true := by
  unfold MemorySystem.getMutSizedMemory MemorySystem.getMutMemory at h
  obtain h | ⟨⟨_, _⟩, -, h⟩ := except_bind_eq_error.mp h
  · split at h
    · cases h
      rfl
    · split at h <;> cases h
      rfl
  · dsimp only at h
    split at h <;> cases h
    rfl

theorem setBytes_error {d : List (BitVec 8)} (h : m.setBytes a n d = .error x) :
    x.isMemory = true := by
  obtain h | ⟨_, -, h⟩ := except_bind_eq_error.mp h
  · exact getMutSizedMemory_error h
  · cases h

end Errors

namespace VM

variable {vm : VM} {a : BitVec 32} {s : ValueSize} {x : VMError}

theorem getMem_size {v : SizedValue} (h : vm.getMem a s = .ok v) : v.size = s := by
  cases s with
  | none => cases h; rfl
  | byte | word | dword | qword =>
    obtain ⟨_, -, rfl⟩ := map_eq_ok.mp h
    rfl

theorem getMem_error (h : vm.getMem a s = .error x) : x.isMemory = true := by
  cases s with
  | none => cases h
  | byte | word | dword | qword =>
    exact getSizedMemory_error (map_eq_error.mp (map_eq_error.mp h))

theorem setMem_error {v : SizedValue} (h : vm.setMem a v = .error x) : x.isMemory = true := by
  unfold setMem at h
  split at h
  · cases h
    rfl
  · cases v with
    | none => cases h
    | byte | word | dword | qword => exact setBytes_error (map_eq_error.mp h)

theorem getReg_size {r : Register} (hs : s ≠ .qword) : (vm.getReg r s).size = s := by
  cases s <;> first | rfl | exact absurd rfl hs

theorem getArg_size {arg : ArgLocation} {v : SizedValue} (hs : arg.size ≠ .qword)
    (h : vm.getArg arg = .ok v) : v.size = arg.size := by
  cases arg with
  | none => cases h; rfl
  | immediate v => cases h; rfl
  | registerValue r s => cases h; exact getReg_size hs
  | address | registerAddress | modRMAddress | sibAddress => exact getMem_size h

theorem getArg_error {arg : ArgLocation} (h : vm.getArg arg = .error x) :
    x.isMemory = true := by
  cases arg with
  | none | immediate | registerValue => cases h
  | address | registerAddress | modRMAddress | sibAddress => exact getMem_error h

theorem getArgLea_error {arg : ArgLocation} (h : vm.getArgLea arg = .error x) :
    x.isWidth = false := by
  cases arg <;> cases h <;> rfl

theorem setArg_error {arg : ArgLocation} {v : SizedValue} (hv : v.size = arg.size)
    (hs : arg.size ∈ [ValueSize.byte, .word, .dword]) (h : vm.setArg arg v = .error x) :
    x.isWidth = false := by
  have hconv : ∃ u, v.convertSizeZx arg.size = .ok u := by
    rw [← hv] at hs ⊢
    cases v <;> first | exact ⟨_, rfl⟩ | simp [SizedValue.size] at hs
  obtain ⟨u, hu⟩ := hconv
  cases arg with
  | none => cases h
  | immediate => cases h; rfl
  | address | registerAddress =>
    obtain h | ⟨_, -, h⟩ := except_bind_eq_error.mp h
    · cases hu.symm.trans h
    · exact VMError.not_isWidth_of_isMemory (setMem_error h)
  | registerValue =>
    cases hu.symm.trans (map_eq_error.mp h)
  | modRMAddress | sibAddress => exact VMError.not_isWidth_of_isMemory (setMem_error h)

end VM

namespace Op

open SizedValue

variable {e : Effects} {α β : Type} {c : Op e α} {f : α → Op e β} {P : VMError → Prop}

/-- Every error of a computation is of some kind. -/
def Throws (P : VMError → Prop) (c : Op e α) : Prop :=
  ∀ (vm : VM) (x : VMError), (c.run vm).1 = .err x → P x

abbrev WidthSafe (c : Op e α) : Prop := Throws (fun x ↦ x.isWidth = false) c

abbrev MemorySafe (c : Op e α) : Prop := Throws (fun x ↦ x.isMemory = true) c

theorem MemorySafe.widthSafe (h : MemorySafe c) : WidthSafe c :=
  fun vm x hx ↦ VMError.not_isWidth_of_isMemory (h vm x hx)

theorem throws_bind_of {Q : α → Prop} (hc : Throws P c)
    (hq : ∀ vm a vm', c.run vm = (.ok a, vm') → Q a) (hf : ∀ a, Q a → Throws P (f a)) :
    Throws P (c >>= f) := by
  intro vm x h
  rw [run_bind] at h
  have hx := hc vm x
  rcases hr : c.run vm with ⟨a | y | _, vm'⟩ <;> rw [hr] at h hx
  · exact hf a (hq vm a vm' hr) vm' x h
  · exact hx (congrArg Outcome.err (Outcome.err.inj h))
  · cases h

theorem Throws.bind (hc : Throws P c) (hf : ∀ a, Throws P (f a)) : Throws P (c >>= f) :=
  throws_bind_of (Q := fun _ ↦ True) hc (fun _ _ _ _ ↦ trivial) fun a _ ↦ hf a

theorem Throws.ite {p : Prop} {_ : Decidable p} {c' : Op e α} (h : p → Throws P c)
    (h' : ¬p → Throws P c') : Throws P (if p then c else c') := by
  split
  · exact h ‹_›
  · exact h' ‹_›

theorem throws_read {g : VM → Except VMError α} {hg} (h : ∀ vm x, g vm = .error x → P x) :
    Throws P (read g hg : Op e α) :=
  fun vm x hx ↦ h vm x (Outcome.ofExcept_eq_err.mp hx)

theorem throws_store {g : VM → Except VMError VM} {hf hg} (h : ∀ vm x, g vm = .error x → P x) :
    Throws P (store g hf hg : Op e Unit) := by
  intro vm x hx
  change (storeResult vm (g vm)).1 = _ at hx
  cases hr : g vm with
  | error y =>
    rw [hr] at hx
    exact h vm x (hr.trans (congrArg _ (Outcome.err.inj hx)))
  | ok vm' => rw [hr] at hx; cases hx

theorem throws_of_ok (g : VM → α) (h : ∀ vm, (c.run vm).1 = .ok (g vm)) : Throws P c :=
  fun vm _ hx ↦ nomatch (h vm).symm.trans hx

section Steps

variable (r : Register) (s : ValueSize) (v : SizedValue) (loc : ArgLocation)

theorem throws_pure (a : α) : Throws P (pure a : Op e α) :=
  throws_of_ok _ fun _ ↦ rfl

theorem throws_reg8 : Throws P (reg8 r : Op e _) := throws_of_ok _ fun _ ↦ rfl

theorem throws_reg16 : Throws P (reg16 r : Op e _) := throws_of_ok _ fun _ ↦ rfl

theorem throws_reg32 : Throws P (reg32 r : Op e _) := throws_of_ok _ fun _ ↦ rfl

theorem throws_getReg : Throws P (getReg r s : Op e _) :=
  throws_of_ok _ fun _ ↦ rfl

theorem throws_flags : Throws P (flags : Op e _) := throws_of_ok _ fun _ ↦ rfl

theorem throws_eipValue : Throws P (eipValue : Op e _) :=
  throws_of_ok _ fun _ ↦ rfl

theorem throws_setReg : Throws P (setReg r v : Op e Unit) :=
  throws_of_ok _ fun _ ↦ rfl

theorem throws_setReg32 (v : BitVec 32) : Throws P (setReg32 r v : Op e Unit) :=
  throws_of_ok _ fun _ ↦ rfl

theorem throws_modifyFlags (g : X86Flags → X86Flags) :
    Throws P (modifyFlags g : Op e Unit) :=
  throws_of_ok _ fun _ ↦ rfl

theorem throws_setEip (a : BitVec 32) : Throws P (setEip a) :=
  throws_of_ok _ fun _ ↦ rfl

theorem throws_unwindIf (b : Bool) : Throws P (unwindIf b) := by
  intro vm x h
  cases b <;> cases h

theorem widthSafe_throw {x : VMError} (h : x.isWidth = false) :
    WidthSafe (throw x : Op e α) :=
  fun _ _ hy ↦ Outcome.err.inj hy ▸ h

theorem widthSafe_getArg : WidthSafe (getArg loc : Op e _) :=
  throws_read fun _ _ h ↦ VMError.not_isWidth_of_isMemory (VM.getArg_error h)

theorem widthSafe_getArgLea : WidthSafe (getArgLea loc : Op e _) :=
  throws_read fun _ _ ↦ VM.getArgLea_error

theorem memorySafe_setMem (a : BitVec 32) : MemorySafe (setMem a v : Op e Unit) :=
  throws_store fun _ _ ↦ VM.setMem_error

theorem widthSafe_setMem (a : BitVec 32) : WidthSafe (setMem a v : Op e Unit) :=
  (memorySafe_setMem v a).widthSafe

end Steps

section Conversions

variable {conv : SizedValue → Except VMError α} {loc : ArgLocation}

theorem widthSafe_setArg {v : SizedValue} (hv : v.size = loc.size)
    (hs : loc.size ∈ [ValueSize.byte, .word, .dword]) : WidthSafe (setArg loc v : Op e Unit) :=
  throws_store fun _ _ ↦ VM.setArg_error hv hs

theorem throws_ofExcept {v : SizedValue} (h : Accepts conv v.size) :
    Throws P (ofExcept (conv v) : Op e α) :=
  throws_read fun _ x hx ↦ by
    obtain ⟨a, ha⟩ := h v rfl
    cases ha.symm.trans hx

theorem widthSafe_getArgAs (h : Accepts conv loc.size) (hs : loc.size ≠ .qword) :
    WidthSafe (getArgAs conv loc : Op e α) :=
  throws_read fun vm x hx ↦ by
    obtain hx | ⟨v, hv, hx⟩ := except_bind_eq_error.mp hx
    · exact VMError.not_isWidth_of_isMemory (VM.getArg_error hx)
    · obtain ⟨a, ha⟩ := h v (VM.getArg_size hs hv)
      cases ha.symm.trans hx

theorem memorySafe_getMemAs {a : BitVec 32} {s : ValueSize} (h : Accepts conv s) :
    MemorySafe (getMemAs conv a s : Op e α) :=
  throws_read fun vm x hx ↦ by
    obtain hx | ⟨v, hv, hx⟩ := except_bind_eq_error.mp hx
    · exact VM.getMem_error hx
    · obtain ⟨a, ha⟩ := h v (VM.getMem_size hv)
      cases ha.symm.trans hx

theorem widthSafe_getMemAs {a : BitVec 32} {s : ValueSize} (h : Accepts conv s) :
    WidthSafe (getMemAs conv a s : Op e α) :=
  (memorySafe_getMemAs h).widthSafe

theorem widthSafe_getArg_bind {f : SizedValue → Op e β} (hs : loc.size ≠ .qword)
    (hf : ∀ v : SizedValue, v.size = loc.size → WidthSafe (f v)) :
    WidthSafe (getArg loc >>= f) :=
  throws_bind_of (widthSafe_getArg loc) (fun vm a vm' h ↦ VM.getArg_size hs <| by
    rw [run_getArg, Prod.mk.injEq, Outcome.ofExcept_eq_ok] at h
    exact h.1) hf

theorem throws_getReg_bind {r : Register} {s : ValueSize} {f : SizedValue → Op e β}
    (hs : s ≠ .qword) (hf : ∀ v : SizedValue, v.size = s → Throws P (f v)) :
    Throws P (getReg r s >>= f) :=
  throws_bind_of (throws_getReg r s)
    (fun vm a vm' h ↦ by cases h; exact VM.getReg_size hs) hf

end Conversions

end Op

end Qx86
