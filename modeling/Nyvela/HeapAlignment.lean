import Mathlib.Algebra.Ring.Parity
import Nyvela.HeapRealloc
import Nyvela.HeapReuse

/-!
# Alignment of the heap's pointers

`kmalloc` rounds sizes to sixteen bytes, but a header takes twenty-four, so that the payload of
the first block of a page is not aligned, and each block with a rounded size moves the next one
by eight.
-/

namespace Nyvela

namespace Heap

/-- How many blocks lie before `b` in its page that have a rounded size. -/
def shifts (h : Heap) (bs : List ℕ) (b : ℕ) : ℕ :=
  bs.countP fun c => c / 4096 = b / 4096 ∧ c < b ∧ (h.hdr c).size % 16 = 0

/-- The blocks before `b` have moved it by an odd multiple of eight bytes. -/
def Shifted (h : Heap) (b : ℕ) : Prop := ∃ bs, h.Lists bs ∧ Odd (h.shifts bs b)

/-- `kmalloc` comes to a block that is large enough and shifted. -/
def ServesShifted (h : Heap) (size : ℕ) : Prop :=
  ∃ b, h.FirstFree b ∧ align size ≤ (h.hdr b).size ∧ h.Shifted b

/-- The same for `krealloc`, which keeps a block that is large enough. -/
def KeepsShifted (h : Heap) (ptr size : ℕ) : Prop :=
  if ptr = 0 ∨ (h.hdr (ptr - 24)).size < align size then h.ServesShifted size
  else h.Shifted (ptr - 24)

/-! ## Sizes -/

/-- Sizes are multiples of eight. -/
def Sized (h : Heap) (bs : List ℕ) : Prop := ∀ b ∈ bs, (h.hdr b).size % 8 = 0

theorem Sized.congr {h h' : Heap} {bs : List ℕ} (hs : h.Sized bs)
    (hsize : ∀ b, (h'.hdr b).size = (h.hdr b).size) : h'.Sized bs := fun b hb => by
  rw [hsize]
  exact hs b hb

theorem Sized.kmalloc {h h' : Heap} {bs : List ℕ} {fuel size ptr : ℕ} (hw : h.Wf bs)
    (hs : h.Sized bs) (hr : h.kmalloc fuel size = some (ptr, h')) :
    ∃ bs', h'.Wf bs' ∧ h'.Sized bs' := by
  have hl : h.Lists bs := hw.chain
  by_cases hsize : size = 0 ∨ 4072 ≤ size
  · unfold Heap.kmalloc at hr
    rw [if_pos hsize] at hr
    obtain ⟨-, rfl⟩ : 0 = ptr ∧ h = h' := by simpa using hr
    exact ⟨bs, hw, hs⟩
  obtain ⟨heq, -⟩ | ⟨b, hb, ha⟩ := kmalloc_answer hl (by omega) (by omega) hr
  · obtain ⟨-, rfl⟩ := Prod.mk.inj heq
    exact ⟨bs, hw, hs⟩
  obtain ⟨l₁, l₂, hl', -, -⟩ := hb
  obtain rfl := hl.unique hl'
  cases ha with
  | noFrame => exact ⟨_, hw, hs⟩
  | grow hlt hp =>
    have hw' := grow_wf hw hp
    have hne : b ≠ h.pmm.kpalloc.1.toNat :=
      fun he => ne_of_nodup hw'.chain.nodup (c := h.pmm.kpalloc.1.toNat) (by simp) he.symm
    refine ⟨_, hw', fun c hc => ?_⟩
    by_cases hcp : c = h.pmm.kpalloc.1.toNat
    · rw [hcp, grow_hdr_page hne]
      exact (by decide : 4072 % 8 = 0)
    · by_cases hcb : c = b
      · rw [hcb, grow_hdr_self hne]
        exact hs b (by simp)
      · rw [grow_hdr_of_ne hcb hcp]
        refine hs c ?_
        simpa [hcb, hcp] using hc
  | take hle hlt =>
    refine ⟨_, take_wf hw b, fun c hc => ?_⟩
    by_cases hcb : c = b
    · rw [hcb, take_hdr_self]
      exact hs b (by simp)
    · rw [take_hdr_of_ne hcb]
      exact hs c hc
  | split hle =>
    refine ⟨_, split_wf hw hle, fun c hc => ?_⟩
    have hal : align size % 16 = 0 := by rw [align]; omega
    have hb8 := hs b (by simp)
    by_cases hcb : c = b
    · rw [hcb, split_hdr_self]
      dsimp only
      omega
    · by_cases hcr : c = b + align size + 24
      · rw [hcr, split_hdr_rest]
        dsimp only
        omega
      · rw [split_hdr_of_ne hcb hcr]
        refine hs c ?_
        simpa [hcb, hcr] using hc

theorem Sized.krealloc {h h' : Heap} {bs : List ℕ} {fuel ptr size q : ℕ} (hw : h.Wf bs)
    (hs : h.Sized bs) (hr : h.krealloc fuel ptr size = some (q, h')) :
    ∃ bs', h'.Wf bs' ∧ h'.Sized bs' := by
  cases krealloc_outcome hr with
  | null _ hr => exact hs.kmalloc hw hr
  | free => exact ⟨bs, kfree_wf hw ptr, hs.congr (h.kfree_hdr_size ptr)⟩
  | tooBig => exact ⟨bs, hw, hs⟩
  | stay => exact ⟨bs, hw, hs⟩
  | noRoom _ _ hr => exact hs.kmalloc hw hr
  | move _ _ _ hmalloc _ =>
    obtain ⟨bs', hw', hs'⟩ := hs.kmalloc hw hmalloc
    refine ⟨bs', kfree_wf ?_ ptr, hs'.congr (kfree_hdr_size _ ptr)⟩
    exact hw'.congr rfl rfl hw'.pagesUsed (fun _ => rfl) fun _ => rfl

/-! ## Addresses -/

/-- One element makes the difference. -/
theorem countP_eq_add {bs : List ℕ} {c : ℕ} (hn : bs.Nodup) (hc : c ∈ bs) {p q : ℕ → Prop}
    [DecidablePred p] [DecidablePred q] (hq : ¬q c) (hpq : ∀ d ∈ bs, d ≠ c → (p d ↔ q d)) :
    bs.countP p = bs.countP q + if p c then 1 else 0 := by
  obtain ⟨l₁, l₂, rfl⟩ := List.append_of_mem hc
  have hsame : ∀ l : List ℕ, (∀ d ∈ l, d ∈ l₁ ++ l₂) → l.countP p = l.countP q := by
    intro l hl
    refine List.countP_congr fun d hd => ?_
    have hne := ne_of_nodup hn (hl d hd)
    have hmem : d ∈ l₁ ++ c :: l₂ := by
      have := hl d hd
      simp only [List.mem_append, List.mem_cons] at this ⊢
      tauto
    simpa using hpq d hmem hne
  rw [List.countP_append, List.countP_append, List.countP_cons, List.countP_cons,
    hsame l₁ (by simp +contextual), hsame l₂ (by simp +contextual)]
  simp [hq, Nat.add_assoc]

/-- A block that is not the first one of its page starts where another one ends. -/
theorem Wf.exists_pred {h : Heap} {bs : List ℕ} (hw : h.Wf bs) {b : ℕ} (hb : b ∈ bs)
    (hfirst : b % 4096 ≠ 0) : ∃ c ∈ bs, h.last c = b ∧ c / 4096 = b / 4096 := by
  obtain ⟨P, hP, hPb, hbP⟩ := hw.inPage b hb
  have hPa := hw.aligned P hP
  have hb24 : b + 24 ≤ h.last b := Nat.le_add_right _ _
  obtain ⟨c, hc, hcb, hbc⟩ := hw.covered P hP (b - 1) (by omega) (by omega)
  have hend : h.last c = b := by
    obtain hle | hle := hw.apart c hc b hb (by omega) <;> omega
  obtain ⟨Q, hQ, hQc, hcQ⟩ := hw.inPage c hc
  have hQa := hw.aligned Q hQ
  exact ⟨c, hc, hend, by omega⟩

/-- The address of a block, by the blocks before it. -/
theorem Wf.mod_eq {h : Heap} {bs : List ℕ} (hw : h.Wf bs) (hs : h.Sized bs) {b : ℕ} (hb : b ∈ bs) :
    b % 16 = 8 * (h.shifts bs b % 2) := by
  induction b using Nat.strong_induction_on with
  | _ b ih =>
    by_cases hfirst : b % 4096 = 0
    · have hzero : h.shifts bs b = 0 := by
        rw [shifts, List.countP_eq_zero]
        intro c hc
        rw [decide_eq_true_eq]
        omega
      rw [hzero]
      omega
    · obtain ⟨c, hc, hend, hpage⟩ := hw.exists_pred hb hfirst
      have hlt : c < b := by
        rw [last] at hend
        omega
      have hcount : h.shifts bs b = h.shifts bs c + if (h.hdr c).size % 16 = 0 then 1 else 0 := by
        have hadd := countP_eq_add hw.chain.nodup hc
          (p := fun d => d / 4096 = b / 4096 ∧ d < b ∧ (h.hdr d).size % 16 = 0)
          (q := fun d => d / 4096 = c / 4096 ∧ d < c ∧ (h.hdr d).size % 16 = 0)
          (fun hq => Nat.lt_irrefl c hq.2.1) fun d hd hdc => by
            have hdlast : d + 24 ≤ h.last d := Nat.le_add_right _ _
            have hside : d < b ↔ d < c := by
              obtain hle | hle := hw.apart d hd c hc hdc <;> omega
            rw [hpage, hside]
        rw [shifts, hadd, shifts]
        congr 1
        exact if_congr (by simp [hpage, hlt]) rfl rfl
      have hih := ih c hlt hc
      have hsize := hs c hc
      rw [hcount]
      rw [last] at hend
      split_ifs with h16 <;> omega

theorem Wf.shifted_iff {h : Heap} {bs : List ℕ} (hw : h.Wf bs) (hs : h.Sized bs) {b : ℕ}
    (hb : b ∈ bs) : 16 ∣ b + 24 ↔ h.Shifted b := by
  have hmod := hw.mod_eq hs hb
  constructor
  · intro hdvd
    exact ⟨bs, hw.chain, Nat.odd_iff.mpr (by omega)⟩
  · rintro ⟨bs', hl', hodd⟩
    obtain rfl : bs = bs' := IsChain.unique hw.chain hl'
    have hone := Nat.odd_iff.mp hodd
    omega

/-- A pointer from `kmalloc`. -/
theorem kmalloc_shifted_iff {h h' : Heap} {bs : List ℕ} {fuel size q : ℕ} (hw : h.Wf bs)
    (hs : h.Sized bs) (hr : h.kmalloc fuel size = some (q, h')) (hq : q ≠ 0) :
    16 ∣ q ↔ h.ServesShifted size := by
  have hl : h.Lists bs := hw.chain
  have hsize : ¬(size = 0 ∨ 4072 ≤ size) := by
    intro hbad
    unfold Heap.kmalloc at hr
    rw [if_pos hbad] at hr
    exact hq (Prod.mk.inj (Option.some.inj hr)).1.symm
  obtain ⟨heq, -⟩ | ⟨b, hb, ha⟩ := kmalloc_answer hl (by omega) (by omega) hr
  · exact absurd (Prod.mk.inj heq).1 hq
  have hmem : b ∈ bs := (hl.isFree_iff.mp hb.isFree).1
  have hserves : align size ≤ (h.hdr b).size → (16 ∣ b + 24 ↔ h.ServesShifted size) := by
    intro hle
    rw [hw.shifted_iff hs hmem]
    constructor
    · exact fun hshift => ⟨b, hb, hle, hshift⟩
    · rintro ⟨c, hc, -, hshift⟩
      rwa [hb.unique hc]
  cases ha with
  | noFrame => exact absurd rfl hq
  | grow hlt hp =>
    -- the first payload of a page
    have hpage : h.pmm.kpalloc.1.toNat % 4096 = 0 := by
      obtain ⟨f, hf, -⟩ := Pmm.kpalloc_frame hp
      omega
    refine iff_of_false (by omega) ?_
    rintro ⟨c, hc, hle, -⟩
    rw [hb.unique hc] at hlt
    omega
  | take hle _ => exact hserves hle
  | split hle => exact hserves (by omega)

end Heap

namespace HeapState

theorem sized_init {s : HeapState} (hs : heapSystem.init s) :
    ∃ bs, s.heap.Wf bs ∧ s.heap.Sized bs := by
  obtain ⟨bs, hw, -⟩ := inv_init hs
  obtain ⟨⟨h, -, hinit⟩, -⟩ := hs
  simp only [Heap.kmallocInit] at hinit
  split_ifs at hinit with hp
  · simp at hinit
  · have hheap := (Prod.mk.inj hinit).2
    have hlist : s.heap.Lists [s.heap.current] := by
      rw [← hheap]
      obtain ⟨f, hf, hf0, -⟩ := Pmm.kpalloc_frame hp
      exact ⟨rfl, by dsimp only; omega, by simp [IsChain]⟩
    obtain rfl := IsChain.unique hw.chain hlist
    refine ⟨_, hw, fun b hb => ?_⟩
    rw [List.mem_singleton.mp hb, ← hheap]
    simp

theorem sized_step {s s' : HeapState} {op : HeapOp} (h : ∃ bs, s.heap.Wf bs ∧ s.heap.Sized bs)
    (hs : heapSystem.step s op s') : ∃ bs, s'.heap.Wf bs ∧ s'.heap.Sized bs := by
  obtain ⟨bs, hw, hsized⟩ := h
  cases hs with
  | kmalloc hr =>
    obtain ⟨h, hh, rfl⟩ := kmalloc_eq_some hr
    exact hsized.kmalloc hw hh
  | krealloc _ hr =>
    obtain ⟨h, hh, rfl⟩ := krealloc_eq_some hr
    exact hsized.krealloc hw hh
  | kfree _ => exact ⟨bs, Heap.kfree_wf hw _, hsized.congr (Heap.kfree_hdr_size _ _)⟩
  | frames hb => exact ⟨bs, hw.congr rfl rfl hb (fun _ => rfl) fun _ => rfl, hsized⟩

/-- **Alignment.** A pointer is aligned to sixteen bytes exactly when it is that of a block that
others have shifted. -/
theorem heap_pointer_aligned_iff {s : HeapState} (hs : heapSystem.Reachable s) :
    (∀ (fuel size q : ℕ) (s' : HeapState), s.kmalloc fuel size = some (q, s') → q ≠ 0 →
      (16 ∣ q ↔ s.heap.ServesShifted size)) ∧
    ∀ (fuel ptr size q : ℕ) (s' : HeapState), ptr = 0 ∨ (s.live ptr).isSome →
      s.krealloc fuel ptr size = some (q, s') → q ≠ 0 →
      (16 ∣ q ↔ s.heap.KeepsShifted ptr size) := by
  obtain ⟨bs, hw, hsized⟩ := hs.invariant (fun _ => sized_init) fun _ _ _ => sized_step
  constructor
  · intro fuel size q s' hr hq
    obtain ⟨h, hh, -⟩ := kmalloc_eq_some hr
    exact Heap.kmalloc_shifted_iff hw hsized hh hq
  · intro fuel ptr size q s' hptr hr hq
    obtain ⟨h, hh, -⟩ := krealloc_eq_some hr
    rw [Heap.KeepsShifted]
    cases Heap.krealloc_outcome hh with
    | null h0 hr =>
      rw [if_pos (.inl h0)]
      exact Heap.kmalloc_shifted_iff hw hsized hr hq
    | free => exact absurd rfl hq
    | tooBig => exact absurd rfl hq
    | stay h0 _ hle =>
      obtain ⟨n, hlive⟩ := Option.isSome_iff_exists.mp (hptr.resolve_left h0)
      obtain ⟨bs', hw', hl'⟩ := inv_of_reachable hs
      obtain rfl := IsChain.unique hw.chain hw'.chain
      obtain ⟨b, hb, rfl, -⟩ := hl' _ _ hlive
      rw [if_neg (by omega), Nat.add_sub_cancel]
      exact hw.shifted_iff hsized hb
    | noRoom => exact absurd rfl hq
    | move _ _ hlt hr hq' =>
      rw [if_pos (.inr hlt)]
      exact Heap.kmalloc_shifted_iff hw hsized hr hq'

/-- The second request of a fresh machine. -/
theorem heap_pointer_aligned_iff_second : ∃ s, heapSystem.Reachable s ∧
    (s.kmalloc 2 64).map Prod.fst = some 0x200070 ∧ s.heap.ServesShifted 64 := by
  have hfirst : ((sixteenMiB.kmalloc 1 64).bind fun r => (r.2.kmalloc 2 64).map Prod.fst) =
      some 0x200070 := by decide
  obtain ⟨⟨q, s⟩, hr, hsecond⟩ := Option.bind_eq_some_iff.mp hfirst
  have hs := sixteenMiB_reachable.step (Step.kmalloc hr)
  obtain ⟨⟨q', s'⟩, hr', hq'⟩ := Option.map_eq_some_iff.mp hsecond
  obtain rfl : q' = 0x200070 := hq'
  exact ⟨s, hs, hsecond, ((heap_pointer_aligned_iff hs).1 2 64 _ s' hr' (by decide)).mp (by decide)⟩

/-- The first one. -/
theorem heap_pointer_misaligned : ∃ s s' : HeapState, heapSystem.Reachable s ∧
    s.kmalloc 1 64 = some (0x200018, s') ∧ ¬16 ∣ 0x200018 := by
  have hfirst : (sixteenMiB.kmalloc 1 64).map Prod.fst = some 0x200018 := by decide
  obtain ⟨⟨q, s'⟩, hr, hq⟩ := Option.map_eq_some_iff.mp hfirst
  obtain rfl : q = 0x200018 := hq
  exact ⟨sixteenMiB, s', sixteenMiB_reachable, hr, by decide⟩

end HeapState

end Nyvela
