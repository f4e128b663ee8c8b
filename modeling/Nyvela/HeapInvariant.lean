import Nyvela.Heap

/-!
# The representation invariant of the heap

The blocks on the list are exactly a tiling of the pages the heap owns, and the
live pointers are payloads of used blocks. The invariant is stated for a list
`bs` of block addresses, in the order in which the `next` pointers visit them.
-/

namespace Nyvela

namespace Pmm

/-- A frame from `kpalloc`: free before, used after, all else as it was. -/
theorem kpalloc_frame {p : Pmm} (h : p.kpalloc.1 ≠ 0) :
    ∃ f, p.kpalloc.1.toNat = f * 4096 ∧ 0 < f ∧ f < p.frameCount ∧ p.bitmap.test f = true ∧
      ∀ g, p.kpalloc.2.bitmap.test g = (p.bitmap.test g && decide (g ≠ f)) := by
  obtain ⟨f, hleast, heq⟩ := kpalloc_eq_some h
  have hf : f ∈ p.allocatable := hleast.1
  refine ⟨f, ?_, p.firstPage_pos.trans_le hf.2.1, hf.2.2.1, hf.1, fun g => ?_⟩
  · rw [heq]
    exact physOf_toNat (hf.2.2.1.trans p.frameCount_lt)
  · rw [heq]
    exact Bitmap.test_clear _ _ _

theorem kpalloc_null {p : Pmm} (h : p.kpalloc.1 = 0) : p.kpalloc.2 = p := p.kpalloc_takes.unchanged h

end Pmm

namespace Heap

/-- The first address behind a block. -/
def last (h : Heap) (b : ℕ) : ℕ := b + 24 + (h.hdr b).size

structure Wf (h : Heap) (bs : List ℕ) : Prop where
  chain : IsChain 0 (fun b => (h.hdr b).next) h.current bs
  pagesNodup : h.pages.Nodup
  aligned : ∀ P ∈ h.pages, P % 4096 = 0
  pagesUsed : ∀ P ∈ h.pages, h.pmm.bitmap.test (P / 4096) = false
  inPage : ∀ b ∈ bs, ∃ P ∈ h.pages, P ≤ b ∧ h.last b ≤ P + 4096
  covered : ∀ P ∈ h.pages, ∀ a, P ≤ a → a < P + 4096 → ∃ b ∈ bs, b ≤ a ∧ a < h.last b
  apart : ∀ b ∈ bs, ∀ c ∈ bs, b ≠ c → h.last b ≤ c ∨ h.last c ≤ b

/-- Only sizes and `next` pointers matter to the tiling. -/
theorem Wf.congr {h h' : Heap} {bs : List ℕ} (hw : h.Wf bs) (hcur : h'.current = h.current)
    (hpages : h'.pages = h.pages)
    (hused : ∀ P ∈ h.pages, h'.pmm.bitmap.test (P / 4096) = false)
    (hnext : ∀ b, (h'.hdr b).next = (h.hdr b).next)
    (hsize : ∀ b, (h'.hdr b).size = (h.hdr b).size) : h'.Wf bs := by
  have hlast : ∀ b, h'.last b = h.last b := fun b => by rw [last, last, hsize]
  constructor
  · rw [hcur]
    exact hw.chain.congr fun c _ => hnext c
  · rw [hpages]
    exact hw.pagesNodup
  · rw [hpages]
    exact hw.aligned
  · rw [hpages]
    exact hused
  · intro b hb
    rw [hpages, hlast]
    exact hw.inPage b hb
  · intro P hP a h1 h2
    rw [hpages] at hP
    simpa only [hlast] using hw.covered P hP a h1 h2
  · intro b hb c hc hne
    rw [hlast, hlast]
    exact hw.apart b hb c hc hne

/-! ## One call of `kmalloc` -/

/-- What the walk does at the first free block. -/
inductive Answer (h : Heap) (aligned b : ℕ) : ℕ × Heap → Prop
  | noFrame : (h.hdr b).size < aligned → h.pmm.kpalloc.1 = 0 → Answer h aligned b (0, h)
  | grow : (h.hdr b).size < aligned → h.pmm.kpalloc.1 ≠ 0 →
    Answer h aligned b
      (h.pmm.kpalloc.1.toNat + 24, h.grow b h.pmm.kpalloc.1.toNat h.pmm.kpalloc.2)
  | take : aligned ≤ (h.hdr b).size → (h.hdr b).size < aligned + 24 + 16 →
    Answer h aligned b (b + 24, h.take b)
  | split : aligned + 24 + 16 ≤ (h.hdr b).size → Answer h aligned b (b + 24, h.split b aligned)

/-- Everything the walk can do: nothing, or one change at one free block. -/
inductive Outcome (h : Heap) (aligned : ℕ) (bs : List ℕ) : ℕ × Heap → Prop
  | fail : Outcome h aligned bs (0, h)
  | grow {b : ℕ} : b ∈ bs → (h.hdr b).isUsed = false → (h.hdr b).size < aligned →
    h.pmm.kpalloc.1 ≠ 0 →
    Outcome h aligned bs
      (h.pmm.kpalloc.1.toNat + 24, h.grow b h.pmm.kpalloc.1.toNat h.pmm.kpalloc.2)
  | take {b : ℕ} : b ∈ bs → (h.hdr b).isUsed = false → aligned ≤ (h.hdr b).size →
    Outcome h aligned bs (b + 24, h.take b)
  | split {b : ℕ} : b ∈ bs → (h.hdr b).isUsed = false → aligned + 24 + 16 ≤ (h.hdr b).size →
    Outcome h aligned bs (b + 24, h.split b aligned)

theorem Answer.outcome {h : Heap} {aligned b : ℕ} {bs : List ℕ} {r : ℕ × Heap}
    (ha : Answer h aligned b r) (hb : b ∈ bs) (hu : (h.hdr b).isUsed = false) :
    Outcome h aligned bs r := by
  cases ha with
  | noFrame _ _ => exact .fail
  | grow hs hp => exact .grow hb hu hs hp
  | take hs _ => exact .take hb hu hs
  | split hs => exact .split hb hu hs

/-- The body of the walk at a free block. -/
theorem kmallocLoop_free {h : Heap} {aligned b : ℕ} (fuel : ℕ) (h0 : b ≠ 0)
    (hu : (h.hdr b).isUsed = false) :
    ∃ r, h.kmallocLoop aligned (fuel + 1) b = some r ∧ Answer h aligned b r := by
  unfold kmallocLoop
  simp only [if_neg h0, hu, Bool.false_eq_true, if_false]
  by_cases hs : (h.hdr b).size < aligned
  · rw [if_pos hs]
    by_cases hp : h.pmm.kpalloc.1 = 0
    · refine ⟨(0, h), ?_, .noFrame hs hp⟩
      rw [if_pos hp, Pmm.kpalloc_null hp]
    · rw [if_neg hp]
      exact ⟨_, rfl, .grow hs hp⟩
  · rw [if_neg hs]
    by_cases ht : (h.hdr b).size < aligned + 24 + 16
    · rw [if_pos ht]
      exact ⟨_, rfl, .take (by omega) ht⟩
    · rw [if_neg ht]
      exact ⟨_, rfl, .split (by omega)⟩

/-- Along a chain the walk ends, given fuel for the chain. -/
theorem kmallocLoop_returns {h : Heap} {aligned fuel block : ℕ} {bs : List ℕ}
    (hc : IsChain 0 (fun b => (h.hdr b).next) block bs) (hfuel : bs.length < fuel) :
    ∃ r, h.kmallocLoop aligned fuel block = some r := by
  induction bs generalizing block fuel with
  | nil =>
    obtain rfl : block = 0 := hc
    obtain ⟨fuel, rfl⟩ : ∃ n, fuel = n + 1 := ⟨fuel - 1, by simp at hfuel; omega⟩
    exact ⟨(0, h), by simp [kmallocLoop]⟩
  | cons b bs ih =>
    obtain ⟨fuel, rfl⟩ : ∃ n, fuel = n + 1 := ⟨fuel - 1, by simp at hfuel; omega⟩
    obtain ⟨rfl, h0, hrest⟩ := hc
    cases hu : (h.hdr block).isUsed with
    | false =>
      obtain ⟨r, hr, -⟩ := kmallocLoop_free fuel h0 hu
      exact ⟨r, hr⟩
    | true =>
      unfold kmallocLoop
      simp only [if_neg h0, hu, if_true]
      exact ih hrest (by simpa using hfuel)

/-- The walk finds every block used, or stops at the first free one. -/
theorem kmallocLoop_search {h : Heap} {aligned fuel block : ℕ} {bs : List ℕ} {r : ℕ × Heap}
    (hc : IsChain 0 (fun b => (h.hdr b).next) block bs)
    (hr : h.kmallocLoop aligned fuel block = some r) :
    (r = (0, h) ∧ ∀ b ∈ bs, (h.hdr b).isUsed = true) ∨
      ∃ l₁ b l₂, bs = l₁ ++ b :: l₂ ∧ (∀ c ∈ l₁, (h.hdr c).isUsed = true) ∧
        (h.hdr b).isUsed = false ∧ Answer h aligned b r := by
  induction bs generalizing block fuel with
  | nil =>
    obtain rfl : block = 0 := hc
    cases fuel with
    | zero => simp [kmallocLoop] at hr
    | succ fuel =>
      obtain rfl : (0, h) = r := by simpa [kmallocLoop] using hr
      exact Or.inl ⟨rfl, by simp⟩
  | cons b bs ih =>
    obtain ⟨rfl, h0, hrest⟩ := hc
    cases fuel with
    | zero => simp [kmallocLoop] at hr
    | succ fuel =>
      cases hu : (h.hdr block).isUsed with
      | false =>
        obtain ⟨r', hr', ha⟩ := kmallocLoop_free fuel h0 hu
        rw [hr'] at hr
        obtain rfl := Option.some.inj hr
        exact Or.inr ⟨[], block, bs, rfl, by simp, hu, ha⟩
      | true =>
        unfold kmallocLoop at hr
        simp only [if_neg h0, hu, if_true] at hr
        rcases ih hrest hr with ⟨rfl, hall⟩ | ⟨l₁, b, l₂, rfl, hall, hb, ha⟩
        · exact Or.inl ⟨rfl, by simpa [hu] using hall⟩
        · exact Or.inr ⟨block :: l₁, b, l₂, rfl, by simpa [hu] using hall, hb, ha⟩

theorem kmallocLoop_outcome {h : Heap} {aligned fuel block : ℕ} {bs : List ℕ} {r : ℕ × Heap}
    (hc : IsChain 0 (fun b => (h.hdr b).next) block bs)
    (hr : h.kmallocLoop aligned fuel block = some r) : Outcome h aligned bs r := by
  rcases kmallocLoop_search hc hr with ⟨rfl, -⟩ | ⟨l₁, b, l₂, rfl, -, hb, ha⟩
  · exact .fail
  · exact ha.outcome (by simp) hb

/-! ## The three changes keep the tiling -/

theorem take_wf {h : Heap} {bs : List ℕ} (hw : h.Wf bs) (b : ℕ) : (h.take b).Wf bs := by
  refine hw.congr rfl rfl hw.pagesUsed ?_ ?_
  all_goals
    intro c
    by_cases hc : c = b
    · simp [take, hc]
    · simp [take, hc]

theorem take_hdr_self (h : Heap) (b : ℕ) :
    (h.take b).hdr b = { h.hdr b with isUsed := true } := by
  simp [take]

theorem take_hdr_of_ne {h : Heap} {b c : ℕ} (hc : c ≠ b) : (h.take b).hdr c = h.hdr c := by
  simp [take, hc]

theorem split_hdr_self (h : Heap) (b aligned : ℕ) :
    (h.split b aligned).hdr b = ⟨aligned, true, b + aligned + 24⟩ := by
  simp [split]

theorem split_hdr_rest (h : Heap) (b aligned : ℕ) :
    (h.split b aligned).hdr (b + aligned + 24) =
      ⟨(h.hdr b).size - 24 - aligned, false, (h.hdr b).next⟩ := by
  have hne : b + aligned + 24 ≠ b := by omega
  simp [split, hne]

theorem split_hdr_of_ne {h : Heap} {b aligned c : ℕ} (hb : c ≠ b) (hr : c ≠ b + aligned + 24) :
    (h.split b aligned).hdr c = h.hdr c := by
  simp [split, hb, hr]

theorem grow_hdr_self {h : Heap} {b page : ℕ} (hne : b ≠ page) (pmm : Pmm) :
    (h.grow b page pmm).hdr b = { h.hdr b with next := page } := by
  simp [grow, hne]

theorem grow_hdr_page {h : Heap} {b page : ℕ} (hne : b ≠ page) (pmm : Pmm) :
    (h.grow b page pmm).hdr page = ⟨4072, true, (h.hdr b).next⟩ := by
  simp [grow, hne.symm]

theorem grow_hdr_of_ne {h : Heap} {b page c : ℕ} (hb : c ≠ b) (hp : c ≠ page) (pmm : Pmm) :
    (h.grow b page pmm).hdr c = h.hdr c := by
  simp [grow, hb, hp]

/-- An address strictly inside a block is no block's address. -/
theorem Wf.inside_not_mem {h : Heap} {bs : List ℕ} (hw : h.Wf bs) {b a : ℕ} (hb : b ∈ bs)
    (h1 : b < a) (h2 : a < h.last b) : a ∉ bs := by
  intro ha
  have hlast : a ≤ h.last a := by unfold last; omega
  rcases hw.apart b hb a ha (by omega) with h | h <;> omega

theorem mem_insert_after {b n c : ℕ} {l₁ l₂ : List ℕ} :
    c ∈ l₁ ++ b :: n :: l₂ ↔ c = n ∨ c ∈ l₁ ++ b :: l₂ := by
  simp only [List.mem_append, List.mem_cons]
  tauto

/-- Both changes that add a block splice it in behind the block `b`. -/
theorem chain_insert {h h' : Heap} {b n : ℕ} {l₁ l₂ : List ℕ}
    (hc : IsChain 0 (fun b => (h.hdr b).next) h.current (l₁ ++ b :: l₂)) (hn : n ≠ 0)
    (hfresh : n ∉ l₁ ++ b :: l₂) (hb : (h'.hdr b).next = n)
    (hnn : (h'.hdr n).next = (h.hdr b).next)
    (hold : ∀ c, c ≠ b → c ≠ n → h'.hdr c = h.hdr c) (hcur : h'.current = h.current) :
    IsChain 0 (fun b => (h'.hdr b).next) h'.current (l₁ ++ b :: n :: l₂) := by
  rw [hcur]
  refine hc.insert_after hn hfresh hb hnn ?_
  intro d hd
  have hnd := hc.nodup
  rw [List.nodup_append] at hnd
  have hdb : d ≠ b := by
    rintro rfl
    rcases List.mem_append.mp hd with h1 | h1
    · exact hnd.2.2 d h1 d (by simp) rfl
    · exact (List.nodup_cons.mp hnd.2.1).1 h1
  have hdn : d ≠ n := by
    rintro rfl
    apply hfresh
    rcases List.mem_append.mp hd with h1 | h1 <;> simp [h1]
  simp only [hold d hdb hdn]

theorem split_wf {h : Heap} {b aligned : ℕ} {l₁ l₂ : List ℕ} (hw : h.Wf (l₁ ++ b :: l₂))
    (hs : aligned + 24 + 16 ≤ (h.hdr b).size) :
    (h.split b aligned).Wf (l₁ ++ b :: (b + aligned + 24) :: l₂) := by
  have hb : b ∈ l₁ ++ b :: l₂ := by simp
  have hbl : h.last b = b + 24 + (h.hdr b).size := rfl
  have hfresh : b + aligned + 24 ∉ l₁ ++ b :: l₂ :=
    hw.inside_not_mem hb (by omega) (by omega)
  -- where the blocks of the new list end
  have hself : (h.split b aligned).last b = b + aligned + 24 := by
    simp only [last, split_hdr_self]
    omega
  have hrest : (h.split b aligned).last (b + aligned + 24) = h.last b := by
    simp only [last, split_hdr_rest]
    omega
  have hold : ∀ c ∈ l₁ ++ b :: l₂, c ≠ b → (h.split b aligned).last c = h.last c := by
    intro c hc hcb
    rw [last, last, split_hdr_of_ne hcb (fun he => hfresh (he ▸ hc))]
  obtain ⟨P, hP, hPb, hPl⟩ := hw.inPage b hb
  refine ⟨?_, hw.pagesNodup, hw.aligned, hw.pagesUsed, ?_, ?_, ?_⟩
  · exact chain_insert hw.chain (by omega) hfresh (by rw [split_hdr_self])
      (by rw [split_hdr_rest]) (fun c h1 h2 => split_hdr_of_ne h1 h2) rfl
  · intro c hc
    rcases mem_insert_after.mp hc with rfl | hc
    · exact ⟨P, hP, by omega, by omega⟩
    · by_cases hcb : c = b
      · rw [hcb]
        exact ⟨P, hP, hPb, by omega⟩
      · rw [hold c hc hcb]
        exact hw.inPage c hc
  · intro Q hQ a h1 h2
    obtain ⟨c, hc, hca, hal⟩ := hw.covered Q hQ a h1 h2
    by_cases hcb : c = b
    · -- the old block is now two: which half holds `a`?
      rw [hcb] at hca hal
      by_cases ha : a < b + aligned + 24
      · exact ⟨b, by simp, hca, by omega⟩
      · exact ⟨b + aligned + 24, by simp, by omega, by omega⟩
    · exact ⟨c, mem_insert_after.mpr (Or.inr hc), hca, by rwa [hold c hc hcb]⟩
  · -- each half of the old block keeps apart from what the whole kept apart from
    have hone : ∀ c ∈ l₁ ++ b :: l₂, (h.split b aligned).last (b + aligned + 24) ≤ c ∨
        (h.split b aligned).last c ≤ b + aligned + 24 := by
      intro c hc
      by_cases hcb : c = b
      · rw [hcb]
        exact Or.inr (by omega)
      · rw [hold c hc hcb]
        have := hw.apart b hb c hc (Ne.symm hcb)
        omega
    have htwo : ∀ c ∈ l₁ ++ b :: l₂, ∀ d ∈ l₁ ++ b :: l₂, c ≠ d →
        (h.split b aligned).last c ≤ d ∨ (h.split b aligned).last d ≤ c := by
      intro c hc d hd hne
      have := hw.apart c hc d hd hne
      by_cases hcb : c = b <;> by_cases hdb : d = b
      · omega
      · rw [hold d hd hdb, hcb]
        rw [hcb] at this
        omega
      · rw [hold c hc hcb, hdb]
        rw [hdb] at this
        omega
      · rwa [hold c hc hcb, hold d hd hdb]
    intro c hc d hd hne
    rcases mem_insert_after.mp hc with rfl | hc <;> rcases mem_insert_after.mp hd with rfl | hd
    · exact absurd rfl hne
    · exact hone d hd
    · exact (hone c hc).symm
    · exact htwo c hc d hd hne

/-- A frame that was free is no page of the heap. -/
theorem Wf.page_not_mem {h : Heap} {bs : List ℕ} (hw : h.Wf bs) {f : ℕ}
    (hf : h.pmm.bitmap.test f = true) : f * 4096 ∉ h.pages := by
  intro hP
  have := hw.pagesUsed _ hP
  rw [Nat.mul_div_cancel f (by decide)] at this
  simp [this] at hf

theorem grow_wf {h : Heap} {b : ℕ} {l₁ l₂ : List ℕ} (hw : h.Wf (l₁ ++ b :: l₂))
    (hp : h.pmm.kpalloc.1 ≠ 0) :
    (h.grow b h.pmm.kpalloc.1.toNat h.pmm.kpalloc.2).Wf
      (l₁ ++ b :: h.pmm.kpalloc.1.toNat :: l₂) := by
  obtain ⟨f, hfp, hf0, -, hfree, htest⟩ := Pmm.kpalloc_frame hp
  rw [hfp]
  have hb : b ∈ l₁ ++ b :: l₂ := by simp
  have hnew : f * 4096 ∉ h.pages := hw.page_not_mem hfree
  -- every old block lies in an old page, so apart from the new one
  have hout : ∀ c ∈ l₁ ++ b :: l₂, h.last c ≤ f * 4096 ∨ f * 4096 + 4096 ≤ c := by
    intro c hc
    obtain ⟨P, hP, hPc, hlP⟩ := hw.inPage c hc
    have hPal := hw.aligned P hP
    have hne : P ≠ f * 4096 := fun he => hnew (he ▸ hP)
    have : c ≤ h.last c := by unfold last; omega
    omega
  have hfresh : f * 4096 ∉ l₁ ++ b :: l₂ := by
    intro hc
    have : f * 4096 + 24 ≤ h.last (f * 4096) := by unfold last; omega
    rcases hout _ hc with h1 | h1 <;> omega
  have hbn : b ≠ f * 4096 := fun he => hfresh (he ▸ hb)
  have hself : (h.grow b (f * 4096) h.pmm.kpalloc.2).last (f * 4096) = f * 4096 + 4096 := by
    simp only [last, grow_hdr_page hbn]
  have hold : ∀ c ∈ l₁ ++ b :: l₂, (h.grow b (f * 4096) h.pmm.kpalloc.2).last c = h.last c := by
    intro c hc
    have hcn : c ≠ f * 4096 := fun he => hfresh (he ▸ hc)
    by_cases hcb : c = b
    · simp only [last, hcb, grow_hdr_self hbn]
    · simp only [last, grow_hdr_of_ne hcb hcn]
  have hpages : ∀ P, P ∈ (h.grow b (f * 4096) h.pmm.kpalloc.2).pages ↔
      P ∈ h.pages ∨ P = f * 4096 := by
    intro P
    simp [grow]
  refine ⟨?_, ?_, ?_, ?_, ?_, ?_, ?_⟩
  · exact chain_insert hw.chain (by omega) hfresh (by rw [grow_hdr_self hbn])
      (by rw [grow_hdr_page hbn]) (fun c h1 h2 => grow_hdr_of_ne h1 h2 _) rfl
  · refine List.nodup_append.mpr ⟨hw.pagesNodup, List.nodup_singleton _, ?_⟩
    intro P hP Q hQ
    rw [List.mem_singleton.mp hQ]
    exact fun he => hnew (he ▸ hP)
  · intro P hP
    rcases (hpages P).mp hP with hP | rfl
    · exact hw.aligned P hP
    · omega
  · intro P hP
    change h.pmm.kpalloc.2.bitmap.test (P / 4096) = false
    rw [htest]
    rcases (hpages P).mp hP with hP | rfl
    · simp [hw.pagesUsed P hP]
    · simp
  · intro c hc
    rcases mem_insert_after.mp hc with rfl | hc
    · exact ⟨f * 4096, (hpages _).mpr (Or.inr rfl), le_rfl, by omega⟩
    · rw [hold c hc]
      obtain ⟨P, hP, h1, h2⟩ := hw.inPage c hc
      exact ⟨P, (hpages P).mpr (Or.inl hP), h1, h2⟩
  · intro P hP a h1 h2
    rcases (hpages P).mp hP with hP | rfl
    · obtain ⟨c, hc, hca, hal⟩ := hw.covered P hP a h1 h2
      exact ⟨c, mem_insert_after.mpr (Or.inr hc), hca, by rwa [hold c hc]⟩
    · exact ⟨f * 4096, mem_insert_after.mpr (Or.inl rfl), h1, by omega⟩
  · intro c hc d hd hne
    rcases mem_insert_after.mp hc with rfl | hc <;> rcases mem_insert_after.mp hd with rfl | hd
    · exact absurd rfl hne
    · rw [hself, hold d hd]
      exact (hout d hd).symm
    · rw [hself, hold c hc]
      exact hout c hc
    · rw [hold c hc, hold d hd]
      exact hw.apart c hc d hd hne

/-! ## What a call gives and what it keeps -/

/-- `ptr` is the payload of a used block of at least `n` bytes. -/
def Denotes (h : Heap) (bs : List ℕ) (ptr n : ℕ) : Prop :=
  ∃ b ∈ bs, ptr = b + 24 ∧ (h.hdr b).isUsed = true ∧ n ≤ (h.hdr b).size

/-- The used blocks are still there, of the same size and in use. -/
def KeepsUsed (h : Heap) (bs : List ℕ) (h' : Heap) (bs' : List ℕ) : Prop :=
  ∀ b ∈ bs, (h.hdr b).isUsed = true →
    b ∈ bs' ∧ (h'.hdr b).isUsed = true ∧ (h'.hdr b).size = (h.hdr b).size

theorem KeepsUsed.denotes {h h' : Heap} {bs bs' : List ℕ} (hk : KeepsUsed h bs h' bs')
    {ptr n : ℕ} (hd : h.Denotes bs ptr n) : h'.Denotes bs' ptr n := by
  obtain ⟨b, hb, rfl, hu, hn⟩ := hd
  obtain ⟨hb', hu', hs⟩ := hk b hb hu
  exact ⟨b, hb', rfl, hu', by rwa [hs]⟩

theorem Denotes.mono {h : Heap} {bs : List ℕ} {ptr n m : ℕ} (hd : h.Denotes bs ptr n)
    (hm : m ≤ n) : h.Denotes bs ptr m := by
  obtain ⟨b, hb, hp, hu, hn⟩ := hd
  exact ⟨b, hb, hp, hu, hm.trans hn⟩

/-- A block handed out is new on the list or was free. -/
def WasFree (h : Heap) (bs : List ℕ) (ptr : ℕ) : Prop :=
  ∀ b ∈ bs, ptr = b + 24 → (h.hdr b).isUsed = false

theorem Outcome.spec {h : Heap} {aligned : ℕ} {bs : List ℕ} {r : ℕ × Heap} (hw : h.Wf bs)
    (ho : Outcome h aligned bs r) :
    ∃ bs', r.2.Wf bs' ∧ r.2.mem = h.mem ∧ KeepsUsed h bs r.2 bs' ∧
      (r.1 ≠ 0 → r.2.Denotes bs' r.1 (min aligned 4072) ∧ WasFree h bs r.1) := by
  cases ho with
  | fail => exact ⟨bs, hw, rfl, fun b hb hu => ⟨hb, hu, rfl⟩, fun h0 => absurd rfl h0⟩
  | @grow b hb hu hs hp =>
    obtain ⟨l₁, l₂, rfl⟩ := List.append_of_mem hb
    have hw' := grow_wf hw hp
    obtain ⟨f, hfp, -, -, hfree, -⟩ := Pmm.kpalloc_frame hp
    have hfresh : h.pmm.kpalloc.1.toNat ∉ l₁ ++ b :: l₂ := by
      intro hc
      obtain ⟨P, hP, hPc, hlP⟩ := hw.inPage _ hc
      have hPal := hw.aligned P hP
      have hne : P ≠ f * 4096 := fun he => hw.page_not_mem hfree (he ▸ hP)
      unfold last at hlP
      omega
    have hbn : b ≠ h.pmm.kpalloc.1.toNat := fun he => hfresh (he ▸ hb)
    refine ⟨_, hw', rfl, ?_, fun _ => ⟨⟨_, mem_insert_after.mpr (Or.inl rfl), rfl, ?_, ?_⟩, ?_⟩⟩
    · intro c hc huc
      have hcb : c ≠ b := fun he => by rw [he, hu] at huc; exact absurd huc (by simp)
      have hcn : c ≠ h.pmm.kpalloc.1.toNat := fun he => hfresh (he ▸ hc)
      rw [grow_hdr_of_ne hcb hcn]
      exact ⟨mem_insert_after.mpr (Or.inr hc), huc, rfl⟩
    · simp only [grow_hdr_page hbn]
    · simp only [grow_hdr_page hbn]
      omega
    · intro c hc he
      exact absurd (show h.pmm.kpalloc.1.toNat ∈ l₁ ++ b :: l₂ by
        rwa [show h.pmm.kpalloc.1.toNat = c by omega]) hfresh
  | @take b hb hu hs =>
    refine ⟨bs, take_wf hw b, rfl, ?_, fun _ => ⟨⟨b, hb, rfl, ?_, ?_⟩, ?_⟩⟩
    · intro c hc huc
      have hcb : c ≠ b := fun he => by rw [he, hu] at huc; exact absurd huc (by simp)
      rw [take_hdr_of_ne hcb]
      exact ⟨hc, huc, rfl⟩
    · simp only [take_hdr_self]
    · simp only [take_hdr_self]
      omega
    · intro c _ he
      rwa [show c = b by omega]
  | @split b hb hu hs =>
    obtain ⟨l₁, l₂, rfl⟩ := List.append_of_mem hb
    have hfresh : b + aligned + 24 ∉ l₁ ++ b :: l₂ :=
      hw.inside_not_mem hb (by omega) (by unfold last; omega)
    refine ⟨_, split_wf hw hs, rfl, ?_, fun _ => ⟨⟨b, by simp, rfl, ?_, ?_⟩, ?_⟩⟩
    · intro c hc huc
      have hcb : c ≠ b := fun he => by rw [he, hu] at huc; exact absurd huc (by simp)
      have hcr : c ≠ b + aligned + 24 := fun he => hfresh (he ▸ hc)
      rw [split_hdr_of_ne hcb hcr]
      exact ⟨mem_insert_after.mpr (Or.inr hc), huc, rfl⟩
    · simp only [split_hdr_self]
    · simp only [split_hdr_self]
      omega
    · intro c _ he
      rwa [show c = b by omega]

theorem le_align (size : ℕ) : size ≤ align size := by
  unfold align
  omega

theorem kmalloc_returns {h : Heap} {bs : List ℕ} (hw : h.Wf bs) (size : ℕ) :
    ∃ r, h.kmalloc (bs.length + 1) size = some r := by
  unfold kmalloc
  split_ifs
  · exact ⟨_, rfl⟩
  · exact kmallocLoop_returns hw.chain (by omega)

theorem kmalloc_spec {h h' : Heap} {bs : List ℕ} {fuel size ptr : ℕ} (hw : h.Wf bs)
    (hr : h.kmalloc fuel size = some (ptr, h')) :
    ∃ bs', h'.Wf bs' ∧ h'.mem = h.mem ∧ KeepsUsed h bs h' bs' ∧
      (ptr ≠ 0 → h'.Denotes bs' ptr (min (align size) 4072) ∧ size < 4072 ∧
        WasFree h bs ptr) := by
  unfold kmalloc at hr
  split_ifs at hr with hbad
  · obtain ⟨rfl, rfl⟩ : 0 = ptr ∧ h = h' := by simpa using hr
    exact ⟨bs, hw, rfl, fun b hb hu => ⟨hb, hu, rfl⟩, fun h0 => absurd rfl h0⟩
  · obtain ⟨bs', hw', hm, hk, hgive⟩ := (kmallocLoop_outcome hw.chain hr).spec hw
    exact ⟨bs', hw', hm, hk, fun hp => ⟨(hgive hp).1, by omega, (hgive hp).2⟩⟩

/-- Everything `krealloc` can do. -/
inductive ReallocOutcome (h : Heap) (fuel ptr size : ℕ) : ℕ → Heap → Prop
  | null {q : ℕ} {h' : Heap} : ptr = 0 → h.kmalloc fuel size = some (q, h') →
    ReallocOutcome h fuel ptr size q h'
  | free : ptr ≠ 0 → size = 0 → ReallocOutcome h fuel ptr size 0 (h.kfree ptr)
  | tooBig : ptr ≠ 0 → 4072 ≤ size → ReallocOutcome h fuel ptr size 0 h
  | stay : ptr ≠ 0 → size ≠ 0 → align size ≤ (h.hdr (ptr - 24)).size →
    ReallocOutcome h fuel ptr size ptr h
  | noRoom {h' : Heap} : ptr ≠ 0 → size ≠ 0 → h.kmalloc fuel size = some (0, h') →
    ReallocOutcome h fuel ptr size 0 h'
  | move {q : ℕ} {h' : Heap} : ptr ≠ 0 → size ≠ 0 → (h.hdr (ptr - 24)).size < align size →
    h.kmalloc fuel size = some (q, h') → q ≠ 0 →
    ReallocOutcome h fuel ptr size q
      (kfree { h' with mem := h'.mem.memcpy q ptr (h.hdr (ptr - 24)).size } ptr)

theorem krealloc_outcome {h h' : Heap} {fuel ptr size q : ℕ}
    (hr : h.krealloc fuel ptr size = some (q, h')) : ReallocOutcome h fuel ptr size q h' := by
  simp only [krealloc] at hr
  split_ifs at hr with hnull hzero hbig hfit
  · exact .null hnull hr
  · obtain ⟨rfl, rfl⟩ : 0 = q ∧ h.kfree ptr = h' := by simpa using hr
    exact .free hnull hzero
  · obtain ⟨rfl, rfl⟩ : 0 = q ∧ h = h' := by simpa using hr
    exact .tooBig hnull hbig
  · obtain ⟨rfl, rfl⟩ : ptr = q ∧ h = h' := by simpa using hr
    exact .stay hnull hzero hfit
  · cases hk : h.kmalloc fuel size with
    | none => simp [hk] at hr
    | some r =>
      obtain ⟨q', h''⟩ := r
      simp only [hk] at hr
      by_cases hq : q' = 0
      · rw [if_pos hq] at hr
        obtain ⟨rfl, rfl⟩ : 0 = q ∧ h'' = h' := by simpa using hr
        exact .noRoom hnull hzero (by rw [hk, hq])
      · rw [if_neg hq] at hr
        obtain ⟨rfl, rfl⟩ := Prod.mk.inj (Option.some.inj hr)
        exact .move hnull hzero (by omega) hk hq

theorem kfree_wf {h : Heap} {bs : List ℕ} (hw : h.Wf bs) (ptr : ℕ) : (h.kfree ptr).Wf bs := by
  unfold kfree
  split_ifs
  · exact hw
  · refine hw.congr rfl rfl hw.pagesUsed ?_ ?_
    all_goals
      intro c
      by_cases hc : c = ptr - 24
      · simp [hc]
      · simp [hc]

theorem kfree_denotes {h : Heap} {bs : List ℕ} {ptr q n : ℕ} (hd : h.Denotes bs q n)
    (hne : q ≠ ptr) (hp : 24 ≤ ptr ∨ ptr = 0) : (h.kfree ptr).Denotes bs q n := by
  obtain ⟨b, hb, rfl, hu, hn⟩ := hd
  unfold kfree
  split_ifs
  · exact ⟨b, hb, rfl, hu, hn⟩
  · have hbp : b ≠ ptr - 24 := by omega
    exact ⟨b, hb, rfl, by simpa [hbp] using hu, by simpa [hbp] using hn⟩

end Heap

/-! ## Runs -/

namespace HeapState

def Inv (s : HeapState) : Prop :=
  ∃ bs, s.heap.Wf bs ∧ ∀ ptr n, s.live ptr = some n → s.heap.Denotes bs ptr n

theorem inv_mk {h : Heap} {live : ℕ → Option ℕ} {bs : List ℕ} (hw : h.Wf bs)
    (hl : ∀ ptr n, live ptr = some n → h.Denotes bs ptr n) : Inv ⟨h, live⟩ := ⟨bs, hw, hl⟩

theorem inv_init {s : HeapState} (hs : heapSystem.init s) : s.Inv := by
  obtain ⟨⟨h, hpages, hinit⟩, hlive⟩ := hs
  simp only [Heap.kmallocInit] at hinit
  split_ifs at hinit with hp
  · simp at hinit
  · obtain ⟨f, hfp, hf0, -, -, htest⟩ := Pmm.kpalloc_frame hp
    have hheap := (Prod.mk.inj hinit).2
    rw [hfp, hpages] at hheap
    refine ⟨[f * 4096], ?_, fun ptr n hn => by simp [hlive] at hn⟩
    rw [← hheap]
    refine ⟨?_, List.nodup_singleton _, ?_, ?_, ?_, ?_, ?_⟩
    · exact ⟨rfl, by omega, by simp [IsChain]⟩
    · simp
    · simp [htest]
    · simp [Heap.last]
    · intro P hP a h1 h2
      obtain rfl : P = f * 4096 := by simpa using hP
      exact ⟨f * 4096, by simp, h1, by simpa [Heap.last] using h2⟩
    · intro b hb c hc hne
      simp only [List.mem_singleton] at hb hc
      omega

/-- A live pointer is no longer live once the block behind it was free. -/
theorem not_live_of_wasFree {h : Heap} {bs : List ℕ} {ptr q n : ℕ} (hf : h.WasFree bs ptr)
    (hd : h.Denotes bs q n) : q ≠ ptr := by
  rintro rfl
  obtain ⟨b, hb, rfl, hu, -⟩ := hd
  simp [hf b hb rfl] at hu

theorem inv_kmalloc {s : HeapState} {size fuel ptr : ℕ} {h : Heap} (hi : s.Inv)
    (hr : s.heap.kmalloc fuel size = some (ptr, h)) :
    Inv ⟨h, if ptr = 0 then s.live else Function.update s.live ptr (some size)⟩ := by
  obtain ⟨bs, hw, hl⟩ := hi
  obtain ⟨bs', hw', -, hk, hgive⟩ := Heap.kmalloc_spec hw hr
  refine inv_mk hw' fun q n hq => ?_
  by_cases hp : ptr = 0
  · rw [if_pos hp] at hq
    exact hk.denotes (hl q n hq)
  · rw [if_neg hp] at hq
    by_cases hqp : q = ptr
    · rw [hqp, Function.update_self] at hq
      obtain rfl := Option.some.inj hq
      obtain ⟨hden, hmax, -⟩ := hgive hp
      have := Heap.le_align size
      rw [hqp]
      exact hden.mono (by omega)
    · rw [Function.update_of_ne hqp] at hq
      exact hk.denotes (hl q n hq)

theorem denotes_ge {h : Heap} {bs : List ℕ} {ptr n : ℕ} (hd : h.Denotes bs ptr n) : 24 ≤ ptr := by
  obtain ⟨b, -, rfl, -⟩ := hd
  omega

theorem live_zero {s : HeapState} (hi : s.Inv) : s.live 0 = none := by
  obtain ⟨bs, -, hl⟩ := hi
  cases h0 : s.live 0 with
  | none => rfl
  | some n => exact absurd (denotes_ge (hl 0 n h0)) (by omega)

theorem inv_kfree {s : HeapState} {ptr : ℕ} (hi : s.Inv)
    (hp : ptr = 0 ∨ (s.live ptr).isSome) :
    Inv ⟨s.heap.kfree ptr, Function.update s.live ptr none⟩ := by
  obtain ⟨bs, hw, hl⟩ := hi
  have hge : 24 ≤ ptr ∨ ptr = 0 := by
    rcases hp with hp | hp
    · exact Or.inr hp
    · obtain ⟨n, hn⟩ := Option.isSome_iff_exists.mp hp
      exact Or.inl (denotes_ge (hl ptr n hn))
  refine inv_mk (Heap.kfree_wf hw ptr) fun q n hq => ?_
  by_cases hqp : q = ptr
  · simp [hqp] at hq
  · rw [Function.update_of_ne hqp] at hq
    exact Heap.kfree_denotes (hl q n hq) hqp hge

/-- Moving a live block: a new block, the copy, and the old block given back. -/
theorem inv_move {s : HeapState} {ptr size fuel q n : ℕ} {h : Heap} {mem : Memory} (hi : s.Inv)
    (hlive : s.live ptr = some n) (hr : s.heap.kmalloc fuel size = some (q, h)) (hq : q ≠ 0) :
    Inv ⟨Heap.kfree { h with mem := mem } ptr,
      Function.update (Function.update s.live ptr none) q (some size)⟩ := by
  obtain ⟨bs, hw, hl⟩ := hi
  obtain ⟨bs', hw', -, hk, hgive⟩ := Heap.kmalloc_spec hw hr
  obtain ⟨hden, hmax, hfree⟩ := hgive hq
  have hne : ptr ≠ q := not_live_of_wasFree hfree (hl ptr n hlive)
  have hge : 24 ≤ ptr ∨ ptr = 0 := Or.inl (denotes_ge (hl ptr n hlive))
  -- the copy touches payload bytes only
  have hwm : Heap.Wf { h with mem := mem } bs' :=
    hw'.congr rfl rfl hw'.pagesUsed (fun _ => rfl) fun _ => rfl
  refine inv_mk (Heap.kfree_wf hwm ptr) fun p m hp => ?_
  by_cases hpq : p = q
  · rw [hpq, Function.update_self] at hp
    obtain rfl := Option.some.inj hp
    have := Heap.le_align size
    rw [hpq]
    exact Heap.kfree_denotes (h := { h with mem := mem }) (hden.mono (by omega)) hne.symm hge
  · rw [Function.update_of_ne hpq] at hp
    by_cases hpp : p = ptr
    · simp [hpp] at hp
    · rw [Function.update_of_ne hpp] at hp
      exact Heap.kfree_denotes (h := { h with mem := mem }) (hk.denotes (hl p m hp)) hpp hge

theorem inv_krealloc {s : HeapState} {ptr size fuel q : ℕ} {h : Heap} (hi : s.Inv)
    (hp : ptr = 0 ∨ (s.live ptr).isSome)
    (hr : s.heap.krealloc fuel ptr size = some (q, h)) :
    Inv ⟨h, liveAfterRealloc s.live ptr size q⟩ := by
  cases Heap.krealloc_outcome hr with
  | null hnull hk =>
    have hupd : Function.update s.live ptr none = s.live := by
      rw [← live_zero hi, hnull, Function.update_eq_self]
    unfold liveAfterRealloc
    rw [hupd]
    simpa only [ite_self] using inv_kmalloc hi hk
  | free hnull hzero => simpa [liveAfterRealloc, hzero] using inv_kfree hi hp
  | tooBig hnull hbig =>
    have hzero : size ≠ 0 := by omega
    simpa [liveAfterRealloc, hzero] using hi
  | stay hnull hzero hfit =>
    obtain ⟨n, hn⟩ := Option.isSome_iff_exists.mp (hp.resolve_left hnull)
    obtain ⟨bs, hw, hl⟩ := hi
    refine inv_mk hw fun p m hm => ?_
    simp only [liveAfterRealloc, if_neg hnull] at hm
    by_cases hpp : p = ptr
    · rw [hpp, Function.update_self] at hm
      obtain rfl := Option.some.inj hm
      obtain ⟨b, hb, hbp, hu, -⟩ := hl ptr n hn
      rw [hpp]
      refine ⟨b, hb, hbp, hu, (Heap.le_align size).trans ?_⟩
      rwa [show b = ptr - 24 by omega]
    · rw [Function.update_of_ne hpp, Function.update_of_ne hpp] at hm
      exact hl p m hm
  | noRoom hnull hzero hk =>
    simpa [liveAfterRealloc, hzero] using inv_kmalloc hi hk
  | move hnull hzero hgrow hk hq =>
    obtain ⟨n, hn⟩ := Option.isSome_iff_exists.mp (hp.resolve_left hnull)
    simpa only [liveAfterRealloc, if_neg hq] using inv_move hi hn hk hq

theorem kmalloc_eq_some {s s' : HeapState} {fuel size ptr : ℕ}
    (hr : s.kmalloc fuel size = some (ptr, s')) :
    ∃ h, s.heap.kmalloc fuel size = some (ptr, h) ∧
      s' = ⟨h, if ptr = 0 then s.live else Function.update s.live ptr (some size)⟩ := by
  obtain ⟨⟨q, h⟩, hh, he⟩ := Option.map_eq_some_iff.mp hr
  obtain ⟨rfl, rfl⟩ := Prod.mk.inj he
  exact ⟨h, hh, rfl⟩

theorem krealloc_eq_some {s s' : HeapState} {fuel ptr size q : ℕ}
    (hr : s.krealloc fuel ptr size = some (q, s')) :
    ∃ h, s.heap.krealloc fuel ptr size = some (q, h) ∧
      s' = ⟨h, liveAfterRealloc s.live ptr size q⟩ := by
  obtain ⟨⟨q', h⟩, hh, he⟩ := Option.map_eq_some_iff.mp hr
  obtain ⟨rfl, rfl⟩ := Prod.mk.inj he
  exact ⟨h, hh, rfl⟩

theorem inv_step {s s' : HeapState} {op : HeapOp} (hi : s.Inv) (hs : heapSystem.step s op s') :
    s'.Inv := by
  cases hs with
  | kmalloc hr =>
    obtain ⟨h, hh, rfl⟩ := kmalloc_eq_some hr
    exact inv_kmalloc hi hh
  | krealloc hp hr =>
    obtain ⟨h, hh, rfl⟩ := krealloc_eq_some hr
    exact inv_krealloc hi hp hh
  | kfree hp => exact inv_kfree hi hp
  | frames hb =>
    obtain ⟨bs, hw, hl⟩ := hi
    exact ⟨bs, hw.congr rfl rfl hb (fun _ => rfl) fun _ => rfl, hl⟩

/-- The list from `CURRENT_BLOCK` visits `bs` and ends; its blocks tile the pages
of the heap; the live pointers are disjoint payloads of used blocks. -/
structure Represented (s : HeapState) (bs : List ℕ) : Prop where
  chain : IsChain 0 (fun b => (s.heap.hdr b).next) s.heap.current bs
  acyclic : bs.Nodup
  pagesNodup : s.heap.pages.Nodup
  inOnePage : ∀ b ∈ bs, ∃ P ∈ s.heap.pages, P ≤ b ∧ s.heap.last b ≤ P + 4096
  tiled : ∀ P ∈ s.heap.pages, ∀ a, P ≤ a → a < P + 4096 →
    ∃! b, b ∈ bs ∧ b ≤ a ∧ a < s.heap.last b
  liveUsed : ∀ ptr n, s.live ptr = some n → s.heap.Denotes bs ptr n
  payloadsApart : ∀ ptr n ptr' n', s.live ptr = some n → s.live ptr' = some n' → ptr ≠ ptr' →
    s.heap.last (ptr - 24) ≤ ptr' ∨ s.heap.last (ptr' - 24) ≤ ptr
  headersApart : ∀ ptr n, s.live ptr = some n → ∀ b ∈ bs,
    b + 24 ≤ ptr ∨ s.heap.last (ptr - 24) ≤ b

theorem represented_of_inv {s : HeapState} (hi : s.Inv) : ∃ bs, s.Represented bs := by
  obtain ⟨bs, hw, hl⟩ := hi
  refine ⟨bs, hw.chain, hw.chain.nodup, hw.pagesNodup, hw.inPage, ?_, hl, ?_, ?_⟩
  · intro P hP a h1 h2
    obtain ⟨b, hb, hba, hal⟩ := hw.covered P hP a h1 h2
    refine ⟨b, ⟨hb, hba, hal⟩, ?_⟩
    rintro c ⟨hc, hca, hac⟩
    by_contra hne
    rcases hw.apart c hc b hb hne with h | h <;> omega
  · intro ptr n ptr' n' hn hn' hne
    obtain ⟨b, hb, rfl, -⟩ := hl ptr n hn
    obtain ⟨c, hc, rfl, -⟩ := hl ptr' n' hn'
    simp only [Nat.add_sub_cancel]
    rcases hw.apart b hb c hc (by omega) with h | h <;> omega
  · intro ptr n hn c hc
    obtain ⟨b, hb, rfl, -⟩ := hl ptr n hn
    simp only [Nat.add_sub_cancel]
    by_cases hcb : c = b
    · omega
    · have hcl : c + 24 ≤ s.heap.last c := by unfold Heap.last; omega
      rcases hw.apart c hc b hb hcb with h | h <;> omega

/-- In every reachable state the heap is represented by some list of blocks, and
every request returns. -/
theorem heap_represented {s : HeapState} (hs : heapSystem.Reachable s) :
    (∃ bs, s.Represented bs) ∧ ∀ size, ∃ fuel r, s.heap.kmalloc fuel size = some r := by
  have hi : s.Inv := hs.invariant (fun _ => inv_init) fun _ _ _ => inv_step
  refine ⟨represented_of_inv hi, fun size => ?_⟩
  obtain ⟨bs, hw, -⟩ := hi
  exact ⟨bs.length + 1, Heap.kmalloc_returns hw size⟩

/-- The heap that `kmalloc_init` makes on a fresh machine. -/
def sixteenMiB : HeapState :=
  ⟨(Heap.kmallocInit ⟨0, fun _ => ⟨0, false, 0⟩, fun _ => 0, Pmm.sixteenMiB, []⟩).2, fun _ => none⟩

theorem sixteenMiB_reachable : heapSystem.Reachable sixteenMiB := by
  refine .init ⟨⟨⟨0, fun _ => ⟨0, false, 0⟩, fun _ => 0, Pmm.sixteenMiB, []⟩, rfl, ?_⟩, rfl⟩
  have h : (Heap.kmallocInit
      ⟨0, fun _ => ⟨0, false, 0⟩, fun _ => 0, Pmm.sixteenMiB, []⟩).1 = true := by decide
  exact Prod.ext h rfl

/-- A first request of 64 bytes, on the first page of a fresh machine. -/
theorem heap_represented_first_request : ∃ s, heapSystem.Reachable s ∧
    s.live 0x200018 = some 64 ∧ (∃ bs, s.Represented bs) := by
  have hr : (sixteenMiB.kmalloc 1 64).map (fun r => (r.1, r.2.live 0x200018)) =
      some (0x200018, some 64) := by decide
  obtain ⟨r, hr, hlive⟩ := Option.map_eq_some_iff.mp hr
  have hs := sixteenMiB_reachable.step (HeapState.Step.kmalloc hr)
  exact ⟨_, hs, (Prod.ext_iff.mp hlive).2, (heap_represented hs).1⟩

end HeapState

end Nyvela
