import Mathlib.Data.Nat.Fib.Basic
import Qx86.Execute.Rules
import Qx86.Machine.Loading
import Qx86.Properties.MeteringErasure

namespace Qx86.Fibonacci

open Foundation MemorySystem Register

variable {σ : Type} {hv : Hypervisor σ}

/-- The program of the tests that asks its host for a number and computes the Fibonacci
number with that index. -/
def image : BufferMemory :=
  ⟨[0xCD, 0xAB,                     -- int 0xAB
    0x89, 0xD8,                     -- mov eax, ebx
    0x83, 0xF8, 0x00,               -- cmp eax, 0
    0x74, 0x1D,                     -- je fib0
    0x83, 0xF8, 0x01,               -- cmp eax, 1
    0x74, 0x1F,                     -- je fib1
    0x89, 0xC1,                     -- mov ecx, eax
    0x49,                           -- dec ecx
    0xB8, 0x01, 0x00, 0x00, 0x00,   -- mov eax, 1
    0xBB, 0x00, 0x00, 0x00, 0x00,   -- mov ebx, 0
    0x89, 0xC2,                     -- compute: mov edx, eax
    0x01, 0xD8,                     -- add eax, ebx
    0x89, 0xD3,                     -- mov ebx, edx
    0x49,                           -- dec ecx
    0x75, 0xF7,                     -- jnz compute
    0xEB, 0x0C,                     -- jmp end_fib
    0xB8, 0x00, 0x00, 0x00, 0x00,   -- fib0: mov eax, 0
    0xEB, 0x05,                     -- jmp end_fib
    0xB8, 0x01, 0x00, 0x00, 0x00,   -- fib1: mov eax, 1
    0x90,                           -- end_fib: nop
    0xF4] ++                        -- hlt
    List.replicate 16 0, by decide⟩

def intSlot : Pipeline where
  function := .opcode .interrupt
  args := ![byteArg 0xAB, {}, {}]
  gasCost := 0
  eipSize := 2
  sizeOverride := false
  opcode := 0xCD

def listing : List (BitVec 32 × Pipeline) :=
  [(0x10000, intSlot),
    (0x10002, instruction .mov ![regArg eax, regArg ebx, {}] 2 0x89),
    (0x10004, instruction .cmpNativeWord ![regArg eax, byteArg 0, {}] 3 0x83),
    (0x10007, instruction .jcc ![byteArg 0x1D, {}, {}] 2 0x74),
    (0x10009, instruction .cmpNativeWord ![regArg eax, byteArg 1, {}] 3 0x83),
    (0x1000C, instruction .jcc ![byteArg 0x1F, {}, {}] 2 0x74),
    (0x1000E, instruction .mov ![regArg ecx, regArg eax, {}] 2 0x89),
    (0x10010, instruction .decrementNativeWord ![regArg ecx, {}, {}] 1 0x49),
    (0x10011, instruction .mov ![regArg eax, dwordArg 1, {}] 5 0xB8),
    (0x10016, instruction .mov ![regArg ebx, dwordArg 0, {}] 5 0xBB),
    (0x1001B, instruction .mov ![regArg edx, regArg eax, {}] 2 0x89),
    (0x1001D, instruction .addNativeWord ![regArg eax, regArg ebx, {}] 2 0x01),
    (0x1001F, instruction .mov ![regArg ebx, regArg edx, {}] 2 0x89),
    (0x10021, instruction .decrementNativeWord ![regArg ecx, {}, {}] 1 0x49),
    (0x10022, instruction .jcc ![byteArg 0xF7, {}, {}] 2 0x75),
    (0x10024, instruction .jmpRel ![byteArg 0x0C, {}, {}] 2 0xEB),
    (0x10026, instruction .mov ![regArg eax, dwordArg 0, {}] 5 0xB8),
    (0x1002B, instruction .jmpRel ![byteArg 0x05, {}, {}] 2 0xEB),
    (0x1002D, instruction .mov ![regArg eax, dwordArg 1, {}] 5 0xB8),
    (0x10032, instruction .nop ![{}, {}, {}] 1 0x90),
    (0x10033, instruction .hlt ![{}, {}, {}] 1 0xF4)]

theorem image_lists : (createVm image).Lists listing := by
  decide +kernel

theorem listing_page : ∀ e ∈ listing, MemorySystem.page e.1 = CODE_MEM ∧
    MemorySystem.offset e.1 + 16 ≤ image.memory.length := by
  decide +kernel

theorem lists_of_append {vm : VM} {b : BufferMemory} {rest : List (BitVec 8)}
    (hb : vm.memory.map CODE_MEM = some b) (himage : b.memory = image.memory ++ rest) :
    vm.Lists listing := by
  refine image_lists.congr fun e he ↦ ?_
  obtain ⟨hpage, hle⟩ := listing_page e he
  have hmax : offset e.1 + max 1 (16 : BitVec 32).toNat ≤ image.memory.length := hle
  have hlen : offset e.1 + max 1 (16 : BitVec 32).toNat ≤ b.memory.length := by
    rw [himage, List.length_append]
    omega
  have hb' : vm.memory.map (page e.1) = some b := hpage ▸ hb
  have hi : (createVm image).memory.map (page e.1) = some image := by
    rw [hpage]
    rfl
  have hdrop : (16 : BitVec 32).toNat ≤ (image.memory.drop (offset e.1)).length := by
    rw [List.length_drop]
    exact Nat.le_sub_of_add_le' hle
  rw [getSizedMemory_slice hi hmax, getSizedMemory_slice hb' hlen, himage,
    List.drop_append_of_le_length (by omega), List.take_append_of_le_length hdrop]

section Loop

/-- What the loop has computed when it has `k` passes to go. -/
structure Pending (n k : ℕ) (q : Processor) : Prop where
  pos : 0 < k
  lt : k < n
  eax : q.regs eax = BitVec.ofNat 32 (Nat.fib (n - k))
  ebx : q.regs ebx = BitVec.ofNat 32 (Nat.fib (n - k - 1))
  ecx : q.regs ecx = BitVec.ofNat 32 k

structure Passed (n k : ℕ) (q : Processor) : Prop where
  pos : 0 < k
  lt : k < n
  eax : q.regs eax = BitVec.ofNat 32 (Nat.fib (n - (k - 1)))
  ebx : q.regs ebx = BitVec.ofNat 32 (Nat.fib (n - k))
  ecx : q.regs ecx = BitVec.ofNat 32 (k - 1)
  zero : q.flags.zero = (BitVec.ofNat 32 (k - 1) == 0#32)

def Computed (n : ℕ) (q : Processor) : Prop := q.regs eax = BitVec.ofNat 32 (Nat.fib n)

variable {vm₀ : VM} {s : σ} {n k : ℕ} (hl : vm₀.Lists listing)

theorem fib_sub_add (hk : 0 < k) (hlt : k < n) :
    Nat.fib (n - k) + Nat.fib (n - k - 1) = Nat.fib (n - (k - 1)) := by
  obtain ⟨j, rfl⟩ := Nat.exists_eq_add_of_lt hlt
  rw [show k + j + 1 - k = j + 1 by omega, show k + j + 1 - (k - 1) = j + 2 by omega,
    Nat.fib_add_two, Nat.add_sub_cancel, Nat.add_comm]

theorem ofNat_sub_one (hk : 0 < k) : BitVec.ofNat 32 k - 1#32 = BitVec.ofNat 32 (k - 1) := by
  obtain ⟨j, rfl⟩ := Nat.exists_eq_add_of_lt hk
  rw [Nat.zero_add, BitVec.ofNat_add]
  exact BitVec.add_sub_cancel _ _

include hl

theorem pass_leads : Leads (Core.step hv) (Core.Listed listing)
    (Core.At vm₀.memory s 0x1001B (Pending n k)) (Core.At vm₀.memory s 0x10022 (Passed n k)) := by
  have hpass : Leads (Core.step hv) (Core.Listed listing) _
      (Core.At vm₀.memory s 0x10022 (Passed n k)) :=
    (leads_back hl (a := 0x1001B) (b := 0x1001D) (by decide)
      (mov_reg_computes edx eax {} 2 0x89) fun q hq ↦ by simp [hq]).trans <|
    (leads_back hl (b := 0x1001F) (by decide)
      (add_reg_computes eax ebx {} 2 0x01) fun q hq ↦ by simp [hq]).trans <|
    (leads_back hl (b := 0x10021) (by decide)
      (mov_reg_computes ebx edx {} 2 0x89) fun q hq ↦ by simp [hq]).trans <|
    leads_back hl (by decide)
      (decrement_computes ecx {} {} 1 0x49) fun q hq ↦ by simp [hq]
  refine hpass.weaken (fun c hc ↦ ?_) fun _ h ↦ h
  obtain ⟨hpos, hlt, heax, hebx, hecx⟩ := hc.holds
  have hdec := ofNat_sub_one hpos
  refine ⟨hc.memory, hc.host, hc.eip, hpos, hlt, ?_, ?_, ?_, ?_⟩
  · simp +decide [heax, hebx, ← BitVec.ofNat_add, fib_sub_add hpos hlt]
  · simp +decide [heax]
  · simp +decide [hecx, hdec]
  · refine (decrement_zero ecx {} {} 1 0x49 _).trans ?_
    simp +decide [hecx, hdec]

theorem jnz_leads (hn : n < 2 ^ 32) : Leads (Core.step hv) (Core.Listed listing)
    (Core.At vm₀.memory s 0x10022 (Passed n k)) fun c ↦
      c.At vm₀.memory s 0x10024 (Computed n) ∨
        ∃ j < k, c.At vm₀.memory s 0x1001B (Pending n j) := by
  refine leads_computes hl (by decide) (jcc_computes {} {} 2 0x75 0xF7) fun c hc ↦ ?_
  obtain ⟨hpos, hlt, heax, hebx, hecx, hzero⟩ := hc.holds
  have hcc : Operations.ccMatches 0x75 c.processor.flags = !c.processor.flags.zero := rfl
  rw [hcc, hzero]
  by_cases hk : k = 1
  · subst hk
    rw [if_neg (by decide)]
    exact .inl (hc.become (by rw [Processor.skip_eip, hc.eip]; rfl) heax)
  · have hne : BitVec.ofNat 32 (k - 1) ≠ 0#32 := by
      intro h
      have h' := congrArg BitVec.toNat h
      rw [BitVec.toNat_ofNat, Nat.mod_eq_of_lt (by omega), BitVec.toNat_zero] at h'
      omega
    rw [if_pos (by rw [beq_eq_false_iff_ne.mpr hne]; rfl)]
    refine .inr ⟨k - 1, by omega, hc.become ?_ ⟨by omega, by omega, heax, ?_, hecx⟩⟩
    · rw [Processor.jump_eip, hc.eip]
      decide
    · rw [show n - (k - 1) - 1 = n - k by omega]
      exact hebx

theorem loop_leads (hn : n < 2 ^ 32) : Leads (Core.step hv) (Core.Listed listing)
    (Core.At vm₀.memory s 0x1001B (Pending n k)) (Core.At vm₀.memory s 0x10024 (Computed n)) :=
  .loop (J := fun k ↦ Core.At vm₀.memory s 0x1001B (Pending n k))
    (fun _ ↦ (pass_leads hl).trans (jnz_leads hl hn)) k

end Loop

section Program

variable {vm₀ : VM} {s s' : σ} {n : ℕ} {v : BitVec 32} (hl : vm₀.Lists listing)

def Given (v : BitVec 32) (q : Processor) : Prop := q.regs ebx = v

structure Compared (v : BitVec 32) (d : BitVec 8) (q : Processor) : Prop where
  eax : q.regs eax = v
  zero : q.flags.zero = (v - d.signExtend 32 == 0)

include hl

theorem int_leads (hv' : ∀ vm, hv.interrupt vm 0xAB s = (.ok (), vm.setReg32 ebx v, s')) :
    Leads (Core.step hv) (Core.Listed listing)
      (Core.At vm₀.memory s 0x10000 fun _ ↦ True) (Core.At vm₀.memory s' 0x10002 (Given v)) := by
  have he : ((0x10000 : BitVec 32), intSlot) ∈ listing := by decide
  intro c hc
  have hstep : Core.step hv c = Core.execute hv intSlot c :=
    Core.Listed.step_eq (hc.lists hl) he hc.eip
  have hint : Core.execute hv intSlot c = _ :=
    execute_int rfl rfl (hc.host ▸ hv' c.machine.vm)
  refine ⟨_, .single (hc.listed hl he) (hstep.trans hint), hc.memory, rfl, ?_, ?_⟩
  · change c.processor.eip + BitVec.setWidth 32 2#8 = 0x10002
    rw [hc.eip]
    decide
  · exact Function.update_self ebx v c.machine.vm.regs

theorem given_leads : Leads (Core.step hv) (Core.Listed listing)
    (Core.At vm₀.memory s 0x10002 (Given v)) (Core.At vm₀.memory s 0x10007 (Compared v 0)) := by
  have hmov : Leads (Core.step hv) (Core.Listed listing)
      (Core.At vm₀.memory s 0x10002 (Given v))
      (Core.At vm₀.memory s 0x10004 fun q ↦ q.regs eax = v) :=
    leads_at hl (by decide) (mov_reg_computes eax ebx {} 2 0x89)
      fun q hq hv ↦ ⟨by simp [hq], (Processor.put_self ..).trans hv⟩
  exact hmov.trans <| leads_at hl (by decide) (cmp_imm_computes eax {} 3 0x83 0) fun q hq hv ↦
    ⟨by simp [hq], hv, (cmp_imm_zero eax {} 3 0x83 0 q).trans (by rw [hv])⟩

theorem compare_leads : Leads (Core.step hv) (Core.Listed listing)
    (Core.At vm₀.memory s 0x10009 (fun q ↦ q.regs eax = v))
    (Core.At vm₀.memory s 0x1000C (Compared v 1)) :=
  leads_at hl (by decide) (cmp_imm_computes eax {} 3 0x83 1) fun q hq hv ↦
    ⟨by simp [hq], hv, (cmp_imm_zero eax {} 3 0x83 1 q).trans (by rw [hv])⟩

theorem enter_leads (h : 1 < v.toNat) : Leads (Core.step hv) (Core.Listed listing)
    (Core.At vm₀.memory s 0x1000E (fun q ↦ q.regs eax = v))
    (Core.At vm₀.memory s 0x1001B (Pending v.toNat (v.toNat - 1))) := by
  have hinit : Leads (Core.step hv) (Core.Listed listing) _
      (Core.At vm₀.memory s 0x1001B (Pending v.toNat (v.toNat - 1))) :=
    (leads_back hl (a := 0x1000E) (b := 0x10010) (by decide)
      (mov_reg_computes ecx eax {} 2 0x89) fun q hq ↦ by simp [hq]).trans <|
    (leads_back hl (b := 0x10011) (by decide)
      (decrement_computes ecx {} {} 1 0x49) fun q hq ↦ by simp [hq]).trans <|
    (leads_back hl (b := 0x10016) (by decide)
      (mov_imm_computes eax {} 5 0xB8 1) fun q hq ↦ by simp [hq]).trans <|
    leads_back hl (by decide)
      (mov_imm_computes ebx {} 5 0xBB 0) fun q hq ↦ by simp [hq]
  refine hinit.weaken (fun c hc ↦ ?_) fun _ h ↦ h
  have hsub : v.toNat - (v.toNat - 1) = 1 := by omega
  have heax : c.processor.regs eax = v := hc.holds
  have hdec : v - 1#32 = BitVec.ofNat 32 (v.toNat - 1) := by
    rw [← ofNat_sub_one (by omega), BitVec.ofNat_toNat, BitVec.setWidth_eq]
  refine ⟨hc.memory, hc.host, hc.eip, by omega, by omega, ?_, ?_, ?_⟩
  · simp +decide [hsub]
  · simp +decide [hsub]
  · simp +decide [heax, hdec]

theorem je_leads (a : BitVec 32) (d rel : BitVec 8)
    (he : (a, instruction .jcc ![byteArg rel, {}, {}] 2 0x74) ∈ listing) :
    Leads (Core.step hv) (Core.Listed listing) (Core.At vm₀.memory s a (Compared v d))
      (Core.At vm₀.memory s
        (if v = d.signExtend 32 then a + 2 + rel.signExtend 32 else a + 2)
        fun q ↦ q.regs eax = v) := by
  refine leads_computes hl he (jcc_computes {} {} 2 0x74 rel) fun c hc ↦ ?_
  obtain ⟨heax, hzero⟩ := hc.holds
  have hcc : Operations.ccMatches 0x74 c.processor.flags = c.processor.flags.zero := rfl
  rw [hcc, hzero]
  by_cases hvd : v = d.signExtend 32
  · rw [if_pos hvd, if_pos (beq_iff_eq.mpr (sub_eq_zero.mpr hvd))]
    exact hc.become (by rw [Processor.jump_eip, hc.eip]; rfl) heax
  · rw [if_neg hvd, if_neg fun h ↦ hvd (sub_eq_zero.mp (beq_iff_eq.mp h))]
    exact hc.become (by rw [Processor.skip_eip, hc.eip]; rfl) heax

theorem const_leads {a b : BitVec 32}
    (he : (a, instruction .mov ![regArg eax, dwordArg v, {}] 5 0xB8) ∈ listing)
    (hb : a + 5 = b) (hval : v = BitVec.ofNat 32 (Nat.fib n)) {P : Processor → Prop} :
    Leads (Core.step hv) (Core.Listed listing) (Core.At vm₀.memory s a P)
      (Core.At vm₀.memory s b (Computed n)) :=
  leads_at hl he (mov_imm_computes eax {} 5 0xB8 v) fun q hq _ ↦
    ⟨by rw [Processor.put_eip, hq, ← hb]; rfl, (Processor.put_self ..).trans hval⟩

theorem jmp_leads {a : BitVec 32} (rel : BitVec 8)
    (he : (a, instruction .jmpRel ![byteArg rel, {}, {}] 2 0xEB) ∈ listing)
    (hb : a + 2 + rel.signExtend 32 = 0x10032) :
    Leads (Core.step hv) (Core.Listed listing) (Core.At vm₀.memory s a (Computed n))
      (Core.At vm₀.memory s 0x10032 (Computed n)) :=
  leads_at hl he (jmp_computes {} {} 2 0xEB rel) fun q hq h ↦
    ⟨by rw [Processor.jump_eip, hq, ← hb]; rfl, h⟩

theorem end_leads : Leads (Core.step hv) (Core.Listed listing)
    (Core.At vm₀.memory s 0x10032 (Computed n)) (Core.At vm₀.memory s 0x10033 (Computed n)) :=
  leads_at hl (by decide) (nop_computes 1 0x90 ![{}, {}, {}]) fun q hq h ↦ ⟨by simp [hq], h⟩

theorem program_leads : Leads (Core.step hv) (Core.Listed listing)
    (Core.At vm₀.memory s 0x10002 (Given v))
    (Core.At vm₀.memory s 0x10032 (Computed v.toNat)) := by
  refine (given_leads hl).trans ((je_leads hl 0x10007 0 0x1D (by decide)).trans ?_)
  by_cases h0 : v = 0
  · subst h0
    exact (const_leads hl (a := 0x10026) (b := 0x1002B) (v := 0) (by decide) (by decide) rfl).trans
      (jmp_leads hl 0x05 (by decide) (by decide))
  rw [if_neg (show v ≠ BitVec.signExtend 32 (0 : BitVec 8) from h0)]
  refine (compare_leads hl).trans ((je_leads hl 0x1000C 1 0x1F (by decide)).trans ?_)
  by_cases h1 : v = 1
  · subst h1
    exact const_leads hl (a := 0x1002D) (v := 1) (by decide) (by decide) rfl
  rw [if_neg (show v ≠ BitVec.signExtend 32 (1 : BitVec 8) from h1)]
  have hlt : 1 < v.toNat := by
    have h0' : v.toNat ≠ 0 := fun h ↦ h0 (BitVec.eq_of_toNat_eq h)
    have h1' : v.toNat ≠ 1 := fun h ↦ h1 (BitVec.eq_of_toNat_eq h)
    omega
  exact (enter_leads hl hlt).trans ((loop_leads hl v.isLt).trans
    (jmp_leads hl 0x0C (by decide) (by decide)))

theorem program_ends (hhost : ∀ vm, hv.interrupt vm 0xAB s = (.ok (), vm.setReg32 ebx v, s')) :
    Ends (Core.step hv) (Core.Listed listing) (Core.At vm₀.memory s 0x10000 fun _ ↦ True) fun q ↦
      q.1 = .ok true ∧ q.2.At vm₀.memory s' 0x10033 (Computed v.toNat) := by
  have he : ((0x10033 : BitVec 32), instruction .hlt ![{}, {}, {}] 1 0xF4) ∈ listing := by decide
  refine ((int_leads hl hhost).trans ((program_leads hl).trans (end_leads hl))).ends fun c hc ↦
    ⟨hc.listed hl he, (.ok true, c), ?_, rfl, hc⟩
  rw [Core.Listed.step_eq (hc.lists hl) he hc.eip]
  rfl

end Program

end Qx86.Fibonacci

namespace Qx86

open Foundation Register

variable {σ : Type}

/-- In any memory that lists the program, and for every answer of the host, it halts with that
Fibonacci number in EAX, or is out of gas before it does. -/
theorem fibonacci_computed (hv : Hypervisor σ) (hu : hv.Unmetered) {n : ℕ} (hn : 0 < n)
    (m : Machine σ) (hl : m.vm.Lists Fibonacci.listing)
    (heip : m.vm.eip = CODE_MEM) (v : BitVec 32) (s' : σ)
    (hhost : ∀ vm, hv.interrupt vm 0xAB m.host = (.ok (), vm.setReg32 ebx v, s')) :
    ∃ c : Core σ, Finishes (Core.step hv) m.core (.ok true, c) ∧
      c.processor.regs eax = BitVec.ofNat 32 (Nat.fib v.toNat) ∧
      c.memory = m.vm.memory ∧ c.host = s' ∧
      ∃ r m', Finishes (cycle hv) (start n m) (r, m') ∧
        (r = .err .outOfGas ∨ r = .ok true ∧ m'.core = c) := by
  have hends := Fibonacci.program_ends hl hhost
  obtain ⟨⟨o, c⟩, hc, ⟨rfl, hend⟩, ⟨r, m'⟩, hr, he⟩ :=
    ends_metered hu hn hends (m := m) ⟨rfl, rfl, heip, trivial⟩
  exact ⟨c, hc, hend.holds, hend.memory, hend.host, r, m', hr,
    he.imp id fun he ↦ ⟨congrArg Prod.fst he, congrArg Prod.snd he⟩⟩

def numberHypervisor : Hypervisor (List (BitVec 32)) where
  interrupt vm num s :=
    match num, s with
    | 0xAB, v :: s => (.ok (), vm.setReg32 ebx v, s)
    | _, s => (.ok (), vm, s)

theorem numberHypervisor_unmetered : numberHypervisor.Unmetered where
  alike vm vm' n s s' h hs := by
    subst hs
    unfold numberHypervisor
    dsimp only
    split
    · next v s =>
      have hset : (vm.setReg32 ebx v).processor = (vm'.setReg32 ebx v).processor :=
        congrArg (fun p : Processor ↦
          (⟨Function.update p.regs ebx v, p.eip, p.flags⟩ : Processor)) h.1
      exact .same ⟨⟨hset, h.2⟩, rfl⟩
    · exact .same ⟨h, rfl⟩
  ne_outOfGas vm n s := by
    unfold numberHypervisor
    dsimp only
    split <;> exact fun h ↦ by cases h

/-- The program in a section of the size that the tests use. -/
def fibonacciSection : BufferMemory :=
  ⟨Fibonacci.image.memory ++ List.replicate (0x10000 - 68) 0,
    Nat.lt_of_lt_of_le Fibonacci.image.nonempty (List.length_append ▸ Nat.le_add_right _ _)⟩

def fibonacciMachine (s : List (BitVec 32)) : Machine (List (BitVec 32)) :=
  ⟨createVm fibonacciSection, s⟩

theorem fibonacci_computed_ten : ∃ c : Core (List (BitVec 32)),
    Finishes (Core.step numberHypervisor) (fibonacciMachine [10]).core (.ok true, c) ∧
      c.processor.regs eax = 55 := by
  obtain ⟨c, hc, heax, -⟩ := fibonacci_computed numberHypervisor numberHypervisor_unmetered
    (n := PIPELINE_SIZE) (by decide) (fibonacciMachine [10])
    (Fibonacci.lists_of_append (b := fibonacciSection) rfl rfl) rfl 10 [] fun _ ↦ rfl
  exact ⟨c, hc, heax.trans (by decide)⟩

end Qx86
