import Qx86.Machine.Commands

namespace Qx86

open Foundation Op

/-- The error of an access to an address that has no section. -/
def VMError.Unloaded (x : VMError) : Prop := ∃ a, x = .readUnloadedMemory a

namespace MemorySystem

def extend (m extra : MemorySystem) : MemorySystem where
  map base := (m.map base).or (extra.map base)

variable {m extra : MemorySystem} {a : BitVec 32} {base : BitVec 32} {b : BufferMemory}

@[simp] theorem extend_map_some (h : m.map base = some b) : (m.extend extra).map base = some b := by
  simp [extend, h]

theorem insert_extend (key : BitVec 32) (b : BufferMemory) :
    (m.insert key b).extend extra = (m.extend extra).insert key b := by
  ext1
  funext base
  by_cases h : base = key <;> simp [extend, insert, h]

theorem getSizedMemory_extend (a n : BitVec 32) :
    (∃ x, m.getSizedMemory a n = .error x ∧ x.Unloaded) ∨
      m.getSizedMemory a n = (m.extend extra).getSizedMemory a n := by
  cases hm : m.map (page a) with
  | none =>
    refine .inl ⟨.readUnloadedMemory a, ?_, a, rfl⟩
    simp [getSizedMemory, getMemory, hm, bind, Except.bind]
  | some b => exact .inr (by simp [getSizedMemory, getMemory, hm])

theorem setBytes_extend (a n : BitVec 32) (d : List (BitVec 8)) :
    (∃ x, m.setBytes a n d = .error x ∧ x.Unloaded) ∨
      (m.extend extra).setBytes a n d = (·.extend extra) <$> m.setBytes a n d := by
  cases hm : m.map (page a) with
  | none =>
    refine .inl ⟨.readUnloadedMemory a, ?_, a, rfl⟩
    simp [setBytes, getMutSizedMemory, getMutMemory, hm, bind, Except.bind]
  | some b =>
    refine .inr ?_
    simp only [setBytes, getMutSizedMemory, getMutMemory, hm, extend_map_some hm]
    split
    · rfl
    · simp only [bind, Except.bind]
      split
      · rfl
      · exact congrArg Except.ok (insert_extend _ _).symm

theorem setSized_extend (a : BitVec 32) (v : SizedValue) :
    (∃ x, m.setSized a v = .error x ∧ x.Unloaded) ∨
      (m.extend extra).setSized a v = (·.extend extra) <$> m.setSized a v := by
  cases v with
  | none => exact .inr rfl
  | byte | word | dword | qword => exact setBytes_extend ..

end MemorySystem

namespace VM

def extend (vm : VM) (extra : MemorySystem) : VM := { vm with memory := vm.memory.extend extra }

variable {vm : VM} {extra : MemorySystem}

theorem map_excused {α β : Type} {P : VMError → Prop} {x y : Except VMError α} (f : α → β)
    (h : (∃ e, x = .error e ∧ P e) ∨ x = y) :
    (∃ e, f <$> x = .error e ∧ P e) ∨ f <$> x = f <$> y := by
  obtain ⟨e, rfl, he⟩ | rfl := h
  · exact .inl ⟨e, rfl, he⟩
  · exact .inr rfl

theorem getMem_extend (a : BitVec 32) (s : ValueSize) :
    (∃ x, vm.getMem a s = .error x ∧ x.Unloaded) ∨
      vm.getMem a s = (vm.extend extra).getMem a s := by
  have hread (n : BitVec 32) :=
    @MemorySystem.getSizedMemory_extend vm.memory extra a n
  cases s with
  | none => exact .inr rfl
  | byte => exact map_excused _ (map_excused _ (hread 1))
  | word => exact map_excused _ (map_excused _ (hread 2))
  | dword => exact map_excused _ (map_excused _ (hread 4))
  | qword => exact map_excused _ (map_excused _ (hread 8))

theorem storeResult_extend (a : BitVec 32) (v : SizedValue) :
    Agrees (fun vm vm' ↦ vm' = vm.extend extra) VMError.Unloaded
      (storeResult vm (vm.setMem a v))
      (storeResult (vm.extend extra) ((vm.extend extra).setMem a v)) := by
  unfold setMem
  split
  · exact .same rfl
  · obtain ⟨x, hx, hu⟩ | hx := @MemorySystem.setSized_extend vm.memory extra a v
    · rw [hx]
      exact .excuse hu
    · change Agrees _ _ _ (storeResult _ (_ <$> (vm.memory.extend extra).setSized a v))
      rw [hx]
      cases vm.memory.setSized a v with
      | error x => exact .same rfl
      | ok m => exact .same rfl

end VM

end Qx86
