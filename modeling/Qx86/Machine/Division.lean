import Qx86.Machine.WidthSafe

namespace Qx86

open Foundation

section Words

theorem setWidth_ne_allOnes {n m : ℕ} (h : n < m) (b : BitVec n) :
    b.setWidth m ≠ BitVec.allOnes m := by
  intro he
  have hbit := congrArg (BitVec.getLsbD · (m - 1)) he
  have hm : m - 1 < m := by omega
  have hn : n ≤ m - 1 := by omega
  simp [hm, BitVec.getLsbD_of_ge _ _ hn] at hbit

theorem signExtend_eq_allOnes {b : BitVec 32} :
    b.signExtend 64 = BitVec.allOnes 64 ↔ b = BitVec.allOnes 32 := by
  constructor
  · intro he
    have hint := congrArg BitVec.toInt he
    rw [BitVec.toInt_signExtend_of_le (by decide)] at hint
    apply BitVec.eq_of_toInt_eq
    rw [hint]
    decide
  · rintro rfl
    decide

theorem dividend_eq_intMin {high low : BitVec 32} :
    (high.signExtend 64 <<< 32) ||| low.signExtend 64 = BitVec.intMin 64 ↔
      high = 0x80000000 ∧ low = 0 := by
  constructor
  · intro he
    have hlow : low = 0 := by
      apply BitVec.eq_of_getLsbD_eq
      intro i hi
      have hbit := congrArg (BitVec.getLsbD · i) he
      have h₆₄ : i < 64 := by omega
      have h₆₃ : i ≠ 63 := by omega
      simp only [BitVec.getLsbD_or, BitVec.getLsbD_shiftLeft, BitVec.getLsbD_signExtend,
        BitVec.getLsbD_intMin, hi, h₆₄] at hbit
      simpa [h₆₃] using hbit
    subst hlow
    refine ⟨?_, rfl⟩
    apply BitVec.eq_of_getLsbD_eq
    intro i hi
    have hbit := congrArg (BitVec.getLsbD · (i + 32)) he
    have h₆₄ : i + 32 < 64 := by omega
    have hge : ¬i + 32 < 32 := by omega
    have hmin : (0x80000000 : BitVec 32) = BitVec.intMin 32 := rfl
    rw [hmin]
    simp only [BitVec.getLsbD_or, BitVec.getLsbD_shiftLeft, BitVec.getLsbD_signExtend,
      BitVec.getLsbD_intMin, hi, h₆₄, hge, Nat.add_sub_cancel] at hbit ⊢
    simpa [show i < 64 by omega, Nat.add_eq_right] using hbit
  · rintro ⟨rfl, rfl⟩
    decide
end Words

/-- The signed division whose quotient does not fit: the least dividend over minus one. -/
structure Pipeline.Overflows (p : Pipeline) (vm : VM) : Prop where
  function : p.function = .opcode (.logic .idivNativeWord)
  dword : p.sizeOverride = false
  high : vm.regs .edx = 0x80000000
  low : vm.regs .eax = 0
  divisor : vm.getArg (p.args 0).location = .ok (.dword 0xFFFFFFFF)

namespace Operations

open Op Register

variable {p : Pipeline} {vm : VM}

theorem divide_panics {d : Bool} {c c' : Prop} [Decidable c] [Decidable c'] {x x' : VMError}
    {r r' : Register} {v v' : SizedValue} :
    ((if c then throw x
      else do
        unwindIf d
        if c' then throw x'
        else
          setReg r v
          setReg r' v' : Op .division Unit).run vm).1 = .panic ↔ ¬c ∧ d = true := by
  by_cases h : c
  · simp [h]
  · by_cases h' : c' <;> cases d <;> simp [h, h', unwindIf]

theorem sdivOverflows_eq_true {w : ℕ} {a b : BitVec w} :
    sdivOverflows a b = true ↔ a = .intMin w ∧ b = .allOnes w := by
  simp [sdivOverflows]

theorem getArgAs_panics {e : Effects} {α β : Type} {conv : SizedValue → Except VMError α}
    {loc : ArgLocation} {f : α → Op e β} :
    ((getArgAs conv loc >>= f).run vm).1 = .panic ↔
      ∃ a, vm.getArg loc >>= conv = .ok a ∧ ((f a).run vm).1 = .panic := by
  rw [run_bind, run_getArgAs]
  cases vm.getArg loc >>= conv with
  | ok a => simp
  | error x => simp

theorem getArg_size {loc : ArgLocation} {s : ValueSize} (hs : loc.size = s) (hq : s ≠ .qword)
    {v : SizedValue} (hv : vm.getArg loc = .ok v) : v.size = s := by
  subst hs
  exact VM.getArg_size hq hv

theorem idiv8bit_returns (hs : (p.args 0).location.size = .byte) :
    ((idiv8bit p).run vm).1 ≠ .panic := by
  intro h
  rw [idiv8bit, run_bind, run_reg16, runBind_ok, getArgAs_panics] at h
  obtain ⟨d, hd, h⟩ := h
  rw [divide_panics, sdivOverflows_eq_true] at h
  obtain ⟨v, hv, hd⟩ := except_bind_eq_ok.mp hd
  obtain ⟨b, rfl⟩ := SizedValue.byte_of_size (getArg_size hs nofun hv)
  cases hd
  exact setWidth_ne_allOnes (by decide) b h.2.2

theorem idiv16bit_returns (hs : (p.args 0).location.size = .word) :
    ((idiv16bit p).run vm).1 ≠ .panic := by
  intro h
  rw [idiv16bit, run_bind, run_reg16, runBind_ok, run_bind, run_reg16, runBind_ok,
    getArgAs_panics] at h
  obtain ⟨d, hd, h⟩ := h
  rw [divide_panics, sdivOverflows_eq_true] at h
  obtain ⟨v, hv, hd⟩ := except_bind_eq_ok.mp hd
  obtain ⟨b, rfl⟩ := SizedValue.word_of_size (getArg_size hs nofun hv)
  cases hd
  exact setWidth_ne_allOnes (by decide) b h.2.2

theorem idiv32bit_panics (hs : (p.args 0).location.size = .dword) :
    ((idiv32bit p).run vm).1 = .panic ↔ vm.regs edx = 0x80000000 ∧ vm.regs eax = 0 ∧
      vm.getArg (p.args 0).location = .ok (.dword 0xFFFFFFFF) := by
  rw [idiv32bit, run_bind, run_reg32, runBind_ok, run_bind, run_reg32, runBind_ok,
    getArgAs_panics]
  simp only [divide_panics, sdivOverflows_eq_true, dividend_eq_intMin, signExtend_eq_allOnes]
  constructor
  · rintro ⟨d, hd, -, ⟨hhigh, hlow⟩, rfl⟩
    obtain ⟨v, hv, hd⟩ := except_bind_eq_ok.mp hd
    obtain ⟨b, rfl⟩ := SizedValue.dword_of_size (getArg_size hs nofun hv)
    cases hd
    exact ⟨hhigh, hlow, hv⟩
  · rintro ⟨hhigh, hlow, hv⟩
    refine ⟨BitVec.allOnes 32, ?_, by decide, ⟨hhigh, hlow⟩, rfl⟩
    rw [hv]
    rfl

theorem idivNativeWord_panics (hf : p.function = .opcode (.logic .idivNativeWord))
    (hs : (p.args 0).location.size = nativeSize p.sizeOverride) :
    ((idivNativeWord p).run vm).1 = .panic ↔ p.Overflows vm := by
  unfold idivNativeWord
  cases hso : p.sizeOverride with
  | true =>
    rw [hso] at hs
    refine iff_of_false (idiv16bit_returns hs) ?_
    intro h
    rw [h.dword] at hso
    cases hso
  | false =>
    rw [hso] at hs
    refine (idiv32bit_panics hs).trans ⟨?_, fun h ↦ ⟨h.high, h.low, h.divisor⟩⟩
    rintro ⟨hhigh, hlow, hv⟩
    exact ⟨hf, hso, hhigh, hlow, hv⟩

end Operations

end Qx86
