import Nyvela.HeapClient
import Nyvela.Lib.Fitting

/-!
# When the heap reuses its blocks

`kmalloc` goes to the first free block of the list and to no other. If that block is too small
it takes a page, whatever else is free, and if there is none it fails, whatever frames there
are. This module says exactly when a call fails and when it takes a page, and bounds the pages
that a program takes by repeating what it does.
-/

namespace Nyvela

open Fitting (taken)

namespace Heap

/-! ## The free blocks -/

/-- The list from `CURRENT_BLOCK` visits `bs`. -/
def Lists (h : Heap) (bs : List ℕ) : Prop := IsChain 0 (fun b => (h.hdr b).next) h.current bs

/-- A block of the list that is free. -/
def IsFree (h : Heap) (b : ℕ) : Prop := ∃ bs, h.Lists bs ∧ b ∈ bs ∧ (h.hdr b).isUsed = false

/-- The block at which the walk of `kmalloc` stops. -/
def FirstFree (h : Heap) (b : ℕ) : Prop :=
  ∃ l₁ l₂, h.Lists (l₁ ++ b :: l₂) ∧ (∀ c ∈ l₁, (h.hdr c).isUsed = true) ∧
    (h.hdr b).isUsed = false

/-- The size of a block that is enough for a request: the rounded request, or the request
itself where rounding exceeds what a page holds. -/
def need (size : ℕ) : ℕ := if 4072 < align size then size else align size

/-- The block holds the request, and `kmalloc` does not split it. -/
def Snug (h : Heap) (size b : ℕ) : Prop :=
  align size ≤ (h.hdr b).size ∧ (h.hdr b).size < align size + 40

theorem FirstFree.isFree {h : Heap} {b : ℕ} (hb : h.FirstFree b) : h.IsFree b := by
  obtain ⟨l₁, l₂, hl, -, hf⟩ := hb
  exact ⟨_, hl, by simp, hf⟩

theorem Lists.isFree_iff {h : Heap} {bs : List ℕ} (hl : h.Lists bs) {b : ℕ} :
    h.IsFree b ↔ b ∈ bs ∧ (h.hdr b).isUsed = false := by
  refine ⟨?_, fun hb => ⟨bs, hl, hb⟩⟩
  rintro ⟨bs', hl', hb⟩
  rwa [hl.unique hl']

theorem FirstFree.unique {h : Heap} {b c : ℕ} (hb : h.FirstFree b) (hc : h.FirstFree c) :
    b = c := by
  obtain ⟨l₁, l₂, hl, hused, hfree⟩ := hb
  obtain ⟨k₁, k₂, hk, hused', hfree'⟩ := hc
  have heq := hl.unique hk
  -- a longer used part would contain the other free block
  rcases List.append_eq_append_iff.mp heq with ⟨l, h1, h2⟩ | ⟨l, h1, h2⟩
  · cases l with
    | nil => exact (List.cons.inj h2).1
    | cons d l =>
      obtain ⟨rfl, -⟩ := List.cons.inj h2
      simp [hused' b (by rw [h1]; simp)] at hfree
  · cases l with
    | nil => exact (List.cons.inj h2).1.symm
    | cons d l =>
      obtain ⟨rfl, -⟩ := List.cons.inj h2
      simp [hused c (by rw [h1]; simp)] at hfree'

/-- An admissible request is answered at the first free block, or there is none. -/
theorem kmalloc_answer {h : Heap} {bs : List ℕ} {fuel size : ℕ} {r : ℕ × Heap}
    (hl : h.Lists bs) (h0 : 0 < size) (h1 : size < 4072) (hr : h.kmalloc fuel size = some r) :
    (r = (0, h) ∧ ∀ b, ¬h.IsFree b) ∨ ∃ b, h.FirstFree b ∧ Answer h (align size) b r := by
  unfold kmalloc at hr
  rw [if_neg (by omega)] at hr
  rcases kmallocLoop_search hl hr with ⟨rfl, hall⟩ | ⟨l₁, b, l₂, rfl, hall, hb, ha⟩
  · refine Or.inl ⟨rfl, fun b hb => ?_⟩
    obtain ⟨hm, hf⟩ := hl.isFree_iff.mp hb
    simp [hall b hm] at hf
  · exact Or.inr ⟨b, ⟨l₁, l₂, hl, hall, hb⟩, ha⟩

theorem allocatable_of_kpalloc {p : Pmm} (h : p.kpalloc.1 ≠ 0) : p.allocatable.Nonempty := by
  obtain ⟨f, hleast, -⟩ := Pmm.kpalloc_eq_some h
  exact ⟨f, hleast.1⟩

theorem allocatable_of_kpalloc_null {p : Pmm} (h : p.kpalloc.1 = 0) : p.allocatable = ∅ :=
  Set.eq_empty_of_forall_notMem (Pmm.kpalloc_eq_null h)

/-- A call takes a page exactly when the first free block is too small and a frame is left. -/
theorem kmalloc_takes_page_iff {h h' : Heap} {bs : List ℕ} {fuel size ptr : ℕ}
    (hl : h.Lists bs) (h0 : 0 < size) (h1 : size < 4072)
    (hr : h.kmalloc fuel size = some (ptr, h')) :
    h'.pages ≠ h.pages ↔
      (∃ b, h.FirstFree b ∧ (h.hdr b).size < align size) ∧ h.pmm.allocatable.Nonempty := by
  have hlarge : ∀ b, h.FirstFree b → align size ≤ (h.hdr b).size →
      ¬∃ c, h.FirstFree c ∧ (h.hdr c).size < align size := by
    rintro b hb hs ⟨c, hc, hlt⟩
    rw [hb.unique hc] at hs
    omega
  rcases kmalloc_answer hl h0 h1 hr with ⟨heq, hnone⟩ | ⟨b, hb, ha⟩
  · obtain ⟨-, rfl⟩ := Prod.mk.inj heq
    refine ⟨fun hne => absurd rfl hne, ?_⟩
    rintro ⟨⟨b, hb, -⟩, -⟩
    exact absurd hb.isFree (hnone b)
  · cases ha with
    | noFrame hs hp =>
      refine ⟨fun hne => absurd rfl hne, fun hh => ?_⟩
      rw [allocatable_of_kpalloc_null hp] at hh
      exact absurd hh.2 Set.not_nonempty_empty
    | grow hs hp =>
      refine ⟨fun _ => ⟨⟨b, hb, hs⟩, allocatable_of_kpalloc hp⟩, fun _ => ?_⟩
      simp [Heap.grow]
    | take hs _ => exact ⟨fun hne => absurd rfl hne, fun hh => absurd hh.1 (hlarge b hb hs)⟩
    | split hs =>
      exact ⟨fun hne => absurd rfl hne, fun hh => absurd hh.1 (hlarge b hb (by omega))⟩

/-- The first free block has `n` bytes or more. -/
def Room (h : Heap) (n : ℕ) : Prop :=
  ∃ l₁ b l₂, h.Wf (l₁ ++ b :: l₂) ∧ (∀ c ∈ l₁, (h.hdr c).isUsed = true) ∧
    (h.hdr b).isUsed = false ∧ n ≤ (h.hdr b).size

/-- Frames that others take do not matter to the heap. -/
theorem Room.congr {h h' : Heap} {n : ℕ} (hr : h.Room n) (hcur : h'.current = h.current)
    (hpages : h'.pages = h.pages) (hhdr : h'.hdr = h.hdr)
    (hused : ∀ f, h.pmm.bitmap.test f = false → h'.pmm.bitmap.test f = false) : h'.Room n := by
  obtain ⟨l₁, b, l₂, hw, hl⟩ := hr
  rw [← hhdr] at hl
  exact ⟨l₁, b, l₂, hw.congr hcur hpages (fun P hP => hused _ (hw.pagesUsed P hP))
    (fun b => by rw [hhdr]) (fun b => by rw [hhdr]), hl⟩

/-- The rest of a block that is split is the first free block then. -/
theorem Room.split {h : Heap} {b aligned m : ℕ} {l₁ l₂ : List ℕ} (hw : h.Wf (l₁ ++ b :: l₂))
    (hused : ∀ c ∈ l₁, (h.hdr c).isUsed = true) (hm : 16 ≤ m)
    (hs : m + aligned + 24 ≤ (h.hdr b).size) : (h.split b aligned).Room m := by
  have hw' := split_wf hw (show aligned + 24 + 16 ≤ (h.hdr b).size by omega)
  refine ⟨l₁ ++ [b], b + aligned + 24, l₂, by simpa using hw', fun c hc => ?_, ?_, ?_⟩
  · rcases List.mem_append.mp hc with hc | hc
    · have hne : c ≠ b := fun he => (List.nodup_append.mp hw.chain.nodup).2.2 c hc b (by simp) he
      have hne' : c ≠ b + aligned + 24 := by
        rintro rfl
        exact (List.nodup_append.mp hw'.chain.nodup).2.2 _ hc _ (by simp) rfl
      rw [split_hdr_of_ne hne hne']
      exact hused c hc
    · rw [List.mem_singleton.mp hc, split_hdr_self]
  · rw [split_hdr_rest]
  · rw [split_hdr_rest]
    show m ≤ (h.hdr b).size - 24 - aligned
    omega

/-- A request for part of the first free block. -/
theorem Room.kmalloc {h : Heap} {n m size : ℕ} (hr : h.Room n) (h0 : 0 < size) (hm : 16 ≤ m)
    (hn : m + align size + 24 ≤ n) :
    ∃ fuel ptr h', h.kmalloc fuel size = some (ptr, h') ∧ ptr ≠ 0 ∧ h'.Room m ∧
      h'.pmm = h.pmm := by
  obtain ⟨l₁, b, l₂, hw, hused, hfree, hsize⟩ := hr
  have hbound : 24 + (h.hdr b).size ≤ 4096 := by
    obtain ⟨P, -, hlow, hhigh⟩ := hw.inPage b (by simp)
    rw [last] at hhigh
    omega
  have hle := le_align size
  obtain ⟨r, hr⟩ := kmalloc_returns hw size
  rcases kmalloc_answer hw.chain h0 (by omega) hr with ⟨-, hnone⟩ | ⟨b', hb', ha⟩
  · exact absurd ⟨_, hw.chain, by simp, hfree⟩ (hnone b)
  · obtain rfl : b = b' := FirstFree.unique ⟨l₁, l₂, hw.chain, hused, hfree⟩ hb'
    cases ha with
    | noFrame hs _ => omega
    | grow hs _ => omega
    | take _ hs => omega
    | split _ =>
      exact ⟨_, _, _, hr, by omega, Room.split hw hused hm (by omega), rfl⟩

/-- No block of the list would have served the request better than what the walk found: the
first free block is snug, or it is split and no free block is snug, or none is large enough. -/
def Frugal (h : Heap) (size : ℕ) : Prop :=
  ∀ b, h.FirstFree b → h.Snug size b ∨
    (align size ≤ (h.hdr b).size ∧ ∀ c, h.IsFree c → ¬h.Snug size c) ∨
    ∀ c, h.IsFree c → (h.hdr c).size < need size

/-! ## The blocks as a multiset of sizes and flags -/

/-- Size and flag of every block. -/
def cells (h : Heap) (bs : List ℕ) : Multiset (ℕ × Bool) :=
  (bs : Multiset ℕ).map fun b => ((h.hdr b).size, (h.hdr b).isUsed)

theorem cells_middle (h : Heap) (b : ℕ) (l₁ l₂ : List ℕ) :
    h.cells (l₁ ++ b :: l₂) = ((h.hdr b).size, (h.hdr b).isUsed) ::ₘ h.cells (l₁ ++ l₂) := by
  have hperm : ((l₁ ++ b :: l₂ : List ℕ) : Multiset ℕ) = b ::ₘ ((l₁ ++ l₂ : List ℕ) : Multiset ℕ) :=
    Multiset.coe_eq_coe.mpr List.perm_middle
  rw [cells, hperm, Multiset.map_cons, cells]

theorem cells_congr {h h' : Heap} {bs : List ℕ}
    (hs : ∀ b ∈ bs, h'.hdr b = h.hdr b) : h'.cells bs = h.cells bs := by
  refine Multiset.map_congr rfl fun b hb => ?_
  rw [hs b (Multiset.mem_coe.mp hb)]

/-- The blocks other than `b` on a list that visits `b` once. -/
theorem ne_of_nodup {b c : ℕ} {l₁ l₂ : List ℕ} (hn : (l₁ ++ b :: l₂).Nodup)
    (hc : c ∈ l₁ ++ l₂) : c ≠ b := by
  rintro rfl
  exact (List.nodup_middle.mp hn).notMem hc

theorem cells_take {h : Heap} {b : ℕ} {l₁ l₂ : List ℕ} (hn : (l₁ ++ b :: l₂).Nodup) :
    (h.take b).cells (l₁ ++ b :: l₂) = ((h.hdr b).size, true) ::ₘ h.cells (l₁ ++ l₂) := by
  rw [cells_middle, take_hdr_self,
    cells_congr fun c hc => take_hdr_of_ne (ne_of_nodup hn hc)]

theorem cells_kfree {h : Heap} {b : ℕ} {l₁ l₂ : List ℕ} (hn : (l₁ ++ b :: l₂).Nodup) :
    (h.kfree (b + 24)).cells (l₁ ++ b :: l₂) =
      ((h.hdr b).size, false) ::ₘ h.cells (l₁ ++ l₂) := by
  have hother : ∀ c ∈ l₁ ++ l₂, (h.kfree (b + 24)).hdr c = h.hdr c := fun c hc => by
    simp [kfree, ne_of_nodup hn hc]
  rw [cells_middle, cells_congr hother]
  simp [kfree]

theorem cells_split {h : Heap} {b aligned : ℕ} {l₁ l₂ : List ℕ}
    (hn : (l₁ ++ b :: (b + aligned + 24) :: l₂).Nodup) :
    (h.split b aligned).cells (l₁ ++ b :: (b + aligned + 24) :: l₂) =
      (aligned, true) ::ₘ ((h.hdr b).size - 24 - aligned, false) ::ₘ h.cells (l₁ ++ l₂) := by
  have hr := List.nodup_middle.mp hn
  have hother : ∀ c ∈ l₁ ++ l₂, (h.split b aligned).hdr c = h.hdr c := by
    intro c hc
    refine split_hdr_of_ne (ne_of_nodup hn ?_) (ne_of_nodup hr.of_cons hc)
    simp only [List.mem_append, List.mem_cons] at hc ⊢
    tauto
  rw [cells_middle, cells_middle, split_hdr_self, split_hdr_rest, cells_congr hother]

theorem cells_grow {h : Heap} {b page : ℕ} {l₁ l₂ : List ℕ} (pmm : Pmm)
    (hn : (l₁ ++ b :: page :: l₂).Nodup) :
    (h.grow b page pmm).cells (l₁ ++ b :: page :: l₂) =
      (4072, true) ::ₘ h.cells (l₁ ++ b :: l₂) := by
  have hr := List.nodup_middle.mp hn
  have hne : b ≠ page := fun he => ne_of_nodup hn (c := page) (by simp) he.symm
  have hother : ∀ c ∈ l₁ ++ l₂, (h.grow b page pmm).hdr c = h.hdr c := by
    intro c hc
    refine grow_hdr_of_ne (ne_of_nodup hn ?_) (ne_of_nodup hr.of_cons hc) pmm
    simp only [List.mem_append, List.mem_cons] at hc ⊢
    tauto
  rw [cells_middle, cells_middle, grow_hdr_self hne, grow_hdr_page hne, cells_congr hother,
    cells_middle, Multiset.cons_swap]

/-! ## What one call costs -/

section Cost

variable (U : ℕ) (A T : Finset ℕ)

/-- What the blocks of the list still have to pay for pages. -/
def credit (h : Heap) (bs : List ℕ) : ℕ :=
  Fitting.potential 40 U A T ((h.cells bs).map Prod.fst)

variable {U A T}

/-- If no free block has a property of its size, few blocks have it. -/
theorem countP_le_taken {h : Heap} {bs : List ℕ} (hl : h.Lists bs) {p : ℕ → Prop}
    [DecidablePred p] (hp : ∀ b, h.IsFree b → ¬p (h.hdr b).size) :
    ((h.cells bs).map Prod.fst).countP p ≤ taken (h.cells bs) := by
  refine Fitting.countP_le_taken fun c hc hpc => ?_
  obtain ⟨b, hb, rfl⟩ := Multiset.mem_map.mp hc
  by_contra hu
  exact hp b (hl.isFree_iff.mpr ⟨Multiset.mem_coe.mp hb, by simpa using hu⟩) hpc

theorem need_le {size : ℕ} (h : size < 4072) : need size ≤ 4072 := by
  unfold need
  split_ifs <;> omega

/-- A frugal call marks at most one block and takes a page only against credit. -/
theorem kmalloc_pays {h h' : Heap} {bs : List ℕ} {fuel size ptr : ℕ} (hw : h.Wf bs)
    (hr : h.kmalloc fuel size = some (ptr, h')) (hok : h.Frugal size)
    (hU : taken (h.cells bs) ≤ U) (hA : align size ∈ A) (hT : need size ∈ T) :
    ∃ bs', h'.Wf bs' ∧
      taken (h'.cells bs') = taken (h.cells bs) + (if ptr = 0 then 0 else 1) ∧
      h'.pages.length + h'.credit U A T bs' ≤ h.pages.length + h.credit U A T bs := by
  have hl : h.Lists bs := hw.chain
  by_cases hsize : size = 0 ∨ 4072 ≤ size
  · unfold kmalloc at hr
    rw [if_pos hsize] at hr
    obtain ⟨rfl, rfl⟩ : 0 = ptr ∧ h = h' := by simpa using hr
    exact ⟨bs, hw, by simp, le_rfl⟩
  obtain ⟨h0, h1⟩ : 0 < size ∧ size < 4072 := by omega
  rcases kmalloc_answer hl h0 h1 hr with ⟨heq, -⟩ | ⟨b, hb, ha⟩
  · obtain ⟨rfl, rfl⟩ := Prod.mk.inj heq
    exact ⟨bs, hw, by simp, le_rfl⟩
  have hfrugal := hok b hb
  obtain ⟨l₁, l₂, hl', -, hfree⟩ := id hb
  obtain rfl := hl.unique hl'
  have hn := hl.nodup
  cases ha with
  | noFrame => exact ⟨_, hw, by simp, le_rfl⟩
  | grow hs hp =>
    have hw' := grow_wf hw hp
    have hcells := cells_grow (h := h) h.pmm.kpalloc.2 hw'.chain.nodup
    -- the walk found too small a block, so no free block is large enough
    have hnone : ∀ c, h.IsFree c → ¬need size ≤ (h.hdr c).size := by
      rcases hfrugal with hsnug | hfits | hnone
      · exact absurd hsnug.1 (by omega)
      · exact absurd hfits.1 (by omega)
      · exact fun c hc => Nat.not_le.mpr (hnone c hc)
    have hlow := (countP_le_taken hl hnone).trans hU
    refine ⟨_, hw', ?_, ?_⟩
    · rw [hcells, if_neg (by omega)]
      simp [taken]
    · have hpay := Fitting.potential_grow (g := 40) (A := A) hT (need_le h1) hlow
      have hlen : (h.grow b h.pmm.kpalloc.1.toNat h.pmm.kpalloc.2).pages.length =
          h.pages.length + 1 := by simp [Heap.grow]
      rw [credit, hcells, Multiset.map_cons, hlen, credit]
      dsimp only
      omega
  | take hs hlt =>
    refine ⟨_, take_wf hw b, ?_, ?_⟩
    · rw [cells_take hn, cells_middle, hfree, if_neg (by omega)]
      simp [taken]
    · simp only [credit, cells_take hn, cells_middle, hfree, Multiset.map_cons]
      exact le_rfl
  | split hs =>
    have hw' := split_wf hw hs
    have hcells := cells_split (h := h) hw'.chain.nodup
    -- the first free block is not snug, so no free block is
    have hnone : ∀ c, h.IsFree c → ¬h.Snug size c := by
      rcases hfrugal with hsnug | hfits | hnone
      · exact absurd hsnug.2 (by omega)
      · exact hfits.2
      · have := hnone b hb.isFree
        have hlt : (h.hdr b).size < align size := this.trans_le (by unfold need; split_ifs <;> omega)
        omega
    have hlow := (countP_le_taken (p := fun x => align size ≤ x ∧ x < align size + 40) hl
      hnone).trans hU
    rw [cells_middle, hfree, Multiset.map_cons] at hlow
    refine ⟨_, hw', ?_, ?_⟩
    · rw [hcells, cells_middle, hfree, if_neg (by omega)]
      simp [taken]
    · have hpay := Fitting.potential_split (g := 40) (T := T)
        (r := (h.hdr b).size - 24 - align size) (by omega) hA hs hlow
      simp only [credit, hcells, cells_middle h b, hfree, Multiset.map_cons]
      exact Nat.add_le_add_left hpay _

end Cost

theorem taken_kfree {h : Heap} {bs : List ℕ} {ptr n : ℕ} (hw : h.Wf bs)
    (hd : h.Denotes bs ptr n) :
    taken ((h.kfree ptr).cells bs) + 1 = taken (h.cells bs) ∧
      ((h.kfree ptr).cells bs).map Prod.fst = (h.cells bs).map Prod.fst := by
  obtain ⟨b, hb, rfl, hu, -⟩ := hd
  obtain ⟨l₁, l₂, rfl⟩ := List.append_of_mem hb
  rw [cells_kfree hw.chain.nodup, cells_middle, hu]
  simp [taken]

end Heap

/-! ## A sequence of calls, repeated -/

/-- The calls of a program: a request, or giving back what its `i`-th request returned. -/
inductive HeapCall
  | kmalloc (size : ℕ)
  | kfree (i : ℕ)

namespace HeapCall

/-- Whatever is requested is given back once: `opened` are the requests not given back so far,
and `n` is the number of the next request. -/
def Balanced : List HeapCall → List ℕ → ℕ → Prop
  | [], opened, _ => opened = []
  | .kmalloc _ :: l, opened, n => Balanced l (n :: opened) (n + 1)
  | .kfree i :: l, opened, n => i ∈ opened ∧ Balanced l (opened.erase i) n

/-- The requests of a program. -/
def sizes (l : List HeapCall) : Finset ℕ :=
  (l.filterMap fun c => match c with
    | .kmalloc size => some size
    | .kfree _ => none).toFinset

/-- A bound on the pages that a program takes by repeating `l` on a heap with `used` used
blocks. -/
def pageBound (used : ℕ) (l : List HeapCall) : ℕ :=
  Fitting.bound (used + l.length) ((sizes l).image Heap.align) ((sizes l).image Heap.need)

end HeapCall

namespace HeapState

open HeapCall

/-- One pass over the calls, `env` being what the requests so far have returned. Between two
calls the rest of the kernel takes and frees frames. -/
inductive Plays (ok : Heap → ℕ → Prop) : HeapState → List ℕ → List HeapCall → HeapState → Prop
  | nil {s : HeapState} {env : List ℕ} : Plays ok s env [] s
  | kmalloc {s s' t : HeapState} {env : List ℕ} {l : List HeapCall} {size fuel ptr : ℕ} :
    ok s.heap size → s.kmalloc fuel size = some (ptr, s') → Plays ok s' (env ++ [ptr]) l t →
    Plays ok s env (.kmalloc size :: l) t
  | kfree {s t : HeapState} {env : List ℕ} {l : List HeapCall} {i ptr : ℕ} :
    env[i]? = some ptr → Plays ok (s.kfree ptr) env l t → Plays ok s env (.kfree i :: l) t
  | frames {s t : HeapState} {env : List ℕ} {l : List HeapCall} {bitmap : Bitmap} :
    (∀ page ∈ s.heap.pages, bitmap.test (page / 4096) = false) →
    Plays ok { s with heap := { s.heap with pmm := { s.heap.pmm with bitmap := bitmap } } } env l t →
    Plays ok s env l t

/-- `n` passes. -/
inductive Repeats (ok : Heap → ℕ → Prop) (l : List HeapCall) : ℕ → HeapState → HeapState → Prop
  | zero {s : HeapState} : Repeats ok l 0 s s
  | succ {n : ℕ} {s s' t : HeapState} : Plays ok s [] l s' → Repeats ok l n s' t →
    Repeats ok l (n + 1) s t

/-- The requests that a pass has still to give back are live, and no two are the same. -/
structure Holding (s : HeapState) (env opened : List ℕ) : Prop where
  nodup : opened.Nodup
  bound : ∀ i ∈ opened, i < env.length
  live : ∀ i ∈ opened, ∀ ptr, env[i]? = some ptr → ptr = 0 ∨ (s.live ptr).isSome
  apart : ∀ i ∈ opened, ∀ j ∈ opened, i ≠ j → ∀ ptr, env[i]? = some ptr → env[j]? = some ptr →
    ptr = 0

/-- How many blocks a pass has still to give back. -/
def held (env opened : List ℕ) : ℕ := opened.countP fun i => env[i]? ≠ some 0

theorem holding_nil (s : HeapState) (env : List ℕ) : s.Holding env [] where
  nodup := List.nodup_nil
  bound := by simp
  live := by simp
  apart := by simp

theorem Holding.kmalloc {s s' : HeapState} {env opened : List ℕ} {size fuel ptr : ℕ}
    (hh : s.Holding env opened) (hi : s.Inv) (hr : s.kmalloc fuel size = some (ptr, s')) :
    s'.Holding (env ++ [ptr]) (env.length :: opened) := by
  obtain ⟨-, -, hcase⟩ := kmalloc_client hi hr
  have hold : ∀ i ∈ opened, (env ++ [ptr])[i]? = env[i]? := fun i hm =>
    List.getElem?_append_left (hh.bound i hm)
  have hnew : (env ++ [ptr])[env.length]? = some ptr := List.getElem?_concat_length
  -- what was live stays live, and the new pointer was not live
  have hkeep : ∀ q, (s.live q).isSome → (s'.live q).isSome := by
    intro q hq
    rcases hcase with ⟨-, hlive⟩ | ⟨-, -, hlive⟩
    · rwa [hlive]
    · rw [hlive]
      by_cases hqp : q = ptr
      · simp [hqp]
      · rwa [Function.update_of_ne hqp]
  have hfresh : ptr = 0 ∨ s.live ptr = none ∧ (s'.live ptr).isSome := by
    rcases hcase with ⟨h0, -⟩ | ⟨-, hnone, hlive⟩
    · exact Or.inl h0
    · exact Or.inr ⟨hnone, by simp [hlive]⟩
  have hmeet : ∀ i ∈ opened, env[i]? = some ptr → ptr = 0 := by
    intro i hm hget
    rcases hfresh with h0 | ⟨hnone, -⟩
    · exact h0
    · rcases hh.live i hm ptr hget with h0 | hsome
      · exact h0
      · simp [hnone] at hsome
  refine ⟨List.nodup_cons.mpr ⟨fun hm => ?_, hh.nodup⟩, ?_, ?_, ?_⟩
  · exact lt_irrefl _ (hh.bound _ hm)
  · intro i hm
    rw [List.length_append, List.length_singleton]
    rcases List.mem_cons.mp hm with rfl | hm
    · omega
    · have := hh.bound i hm
      omega
  · intro i hm q hq
    rcases List.mem_cons.mp hm with rfl | hm
    · obtain rfl := Option.some.inj (hnew.symm.trans hq)
      exact hfresh.imp_right And.right
    · rw [hold i hm] at hq
      exact (hh.live i hm q hq).imp_right (hkeep q)
  · intro i hm j hm' hij q hq hq'
    rcases List.mem_cons.mp hm with rfl | hm <;> rcases List.mem_cons.mp hm' with rfl | hm'
    · exact absurd rfl hij
    · obtain rfl := Option.some.inj (hnew.symm.trans hq)
      exact hmeet j hm' (hold j hm' ▸ hq')
    · obtain rfl := Option.some.inj (hnew.symm.trans hq')
      exact hmeet i hm (hold i hm ▸ hq)
    · rw [hold i hm] at hq
      rw [hold j hm'] at hq'
      exact hh.apart i hm j hm' hij q hq hq'

theorem Holding.kfree {s : HeapState} {env opened : List ℕ} {i ptr : ℕ}
    (hh : s.Holding env opened) (hm : i ∈ opened) (hget : env[i]? = some ptr) :
    (s.kfree ptr).Holding env (opened.erase i) := by
  have hsub : ∀ j ∈ opened.erase i, j ∈ opened ∧ j ≠ i := fun j hj =>
    ⟨List.mem_of_mem_erase hj, (hh.nodup.mem_erase_iff.mp hj).1⟩
  refine ⟨hh.nodup.erase i, fun j hj => hh.bound j (hsub j hj).1, ?_, ?_⟩
  · intro j hj q hq
    obtain ⟨hj, hji⟩ := hsub j hj
    by_cases hqp : q = ptr
    · rw [hqp] at hq ⊢
      exact Or.inl (hh.apart j hj i hm hji ptr hq hget)
    · simp only [HeapState.kfree, Function.update_of_ne hqp]
      exact hh.live j hj q hq
  · intro j hj k hk
    exact hh.apart j (hsub j hj).1 k (hsub k hk).1

theorem held_le (env opened : List ℕ) : held env opened ≤ opened.length := List.countP_le_length

theorem held_kmalloc {s : HeapState} {env opened : List ℕ} (hh : s.Holding env opened) (ptr : ℕ) :
    held (env ++ [ptr]) (env.length :: opened) =
      held env opened + if ptr = 0 then 0 else 1 := by
  have hold : opened.countP (fun i => (env ++ [ptr])[i]? ≠ some 0) = held env opened := by
    refine List.countP_congr fun i hm => ?_
    rw [List.getElem?_append_left (hh.bound i hm)]
  rw [held, List.countP_cons, hold, List.getElem?_concat_length]
  by_cases h0 : ptr = 0 <;> simp [h0]

theorem held_kfree {env opened : List ℕ} {i ptr : ℕ} (hm : i ∈ opened)
    (hget : env[i]? = some ptr) :
    held env opened = held env (opened.erase i) + if ptr = 0 then 0 else 1 := by
  rw [held, (List.perm_cons_erase hm).countP_eq, List.countP_cons, hget, held]
  by_cases h0 : ptr = 0 <;> simp [h0]

/-- A pass that found at most `base` used blocks: those in use now are among them or are held. -/
structure Accounts (s : HeapState) (bs env opened : List ℕ) (base : ℕ) : Prop where
  wf : s.heap.Wf bs
  denotes : ∀ ptr n, s.live ptr = some n → s.heap.Denotes bs ptr n
  holding : s.Holding env opened
  taken_le : taken (s.heap.cells bs) ≤ base + held env opened

section Pass

variable {U base : ℕ} {A T : Finset ℕ} {bs env opened : List ℕ}

theorem Accounts.inv {s : HeapState} (ha : s.Accounts bs env opened base) : s.Inv :=
  ⟨bs, ha.wf, ha.denotes⟩

theorem Accounts.kmalloc {s s' : HeapState} {size fuel ptr : ℕ}
    (ha : s.Accounts bs env opened base) (hr : s.kmalloc fuel size = some (ptr, s'))
    (hok : s.heap.Frugal size) (hU : base + opened.length ≤ U) (hA : Heap.align size ∈ A)
    (hT : Heap.need size ∈ T) :
    ∃ bs', s'.Accounts bs' (env ++ [ptr]) (env.length :: opened) base ∧
      s'.heap.pages.length + s'.heap.credit U A T bs' ≤
        s.heap.pages.length + s.heap.credit U A T bs := by
  have hheld := held_le env opened
  have hle := ha.taken_le
  obtain ⟨h, hh, heq⟩ := kmalloc_eq_some hr
  have htU : taken (s.heap.cells bs) ≤ U := by omega
  obtain ⟨bs', hw', htaken, hpay⟩ := Heap.kmalloc_pays ha.wf hh hok htU hA hT
  obtain ⟨bs'', hw'', hden⟩ := (kmalloc_client ha.inv hr).1
  rw [show h = s'.heap by rw [heq]] at hw' htaken hpay
  obtain rfl := hw'.chain.unique hw''.chain
  refine ⟨bs', ⟨hw', hden, ha.holding.kmalloc ha.inv hr, ?_⟩, hpay⟩
  rw [htaken, held_kmalloc ha.holding]
  omega

theorem Accounts.kfree {s : HeapState} {i ptr : ℕ} (ha : s.Accounts bs env opened base)
    (hm : i ∈ opened) (hget : env[i]? = some ptr) :
    (s.kfree ptr).Accounts bs env (opened.erase i) base ∧
      (s.kfree ptr).heap.pages.length + (s.kfree ptr).heap.credit U A T bs ≤
        s.heap.pages.length + s.heap.credit U A T bs := by
  have hlive := ha.holding.live i hm ptr hget
  have hle := ha.taken_le
  have hheld := held_kfree hm hget
  obtain ⟨bs', hw', hden⟩ := inv_kfree ha.inv hlive
  obtain rfl := (Heap.kfree_wf ha.wf ptr).chain.unique hw'.chain
  have hhold := ha.holding.kfree hm hget
  by_cases h0 : ptr = 0
  · have hsame : (s.kfree ptr).heap = s.heap := by simp [HeapState.kfree, Heap.kfree, h0]
    rw [if_pos h0] at hheld
    refine ⟨⟨hw', hden, hhold, ?_⟩, ?_⟩
    · rw [hsame]
      omega
    · rw [hsame]
  · obtain ⟨n, hn⟩ := Option.isSome_iff_exists.mp (hlive.resolve_left h0)
    obtain ⟨htaken, hsizes⟩ := Heap.taken_kfree ha.wf (ha.denotes ptr n hn)
    rw [if_neg h0] at hheld
    refine ⟨⟨hw', hden, hhold, ?_⟩, ?_⟩
    · show taken ((s.heap.kfree ptr).cells bs) ≤ _
      omega
    · have hpages : (s.kfree ptr).heap.pages = s.heap.pages := by
        simp [HeapState.kfree, Heap.kfree, h0]
      rw [hpages, Heap.credit, Heap.credit]
      exact (congrArg (fun m => _ + Fitting.potential 40 U A T m) hsizes).le

theorem Accounts.frames {s : HeapState} {bitmap : Bitmap} (ha : s.Accounts bs env opened base)
    (hb : ∀ page ∈ s.heap.pages, bitmap.test (page / 4096) = false) :
    Accounts { s with heap := { s.heap with pmm := { s.heap.pmm with bitmap := bitmap } } }
      bs env opened base where
  wf := ha.wf.congr rfl rfl hb (fun _ => rfl) fun _ => rfl
  denotes := ha.denotes
  holding := ⟨ha.holding.nodup, ha.holding.bound, ha.holding.live, ha.holding.apart⟩
  taken_le := ha.taken_le

/-- A frugal pass pays for its pages and gives everything back. -/
theorem Accounts.plays {s t : HeapState} {l : List HeapCall} (hp : Plays Heap.Frugal s env l t)
    (ha : s.Accounts bs env opened base) (hbal : Balanced l opened env.length)
    (hU : base + opened.length + l.length ≤ U)
    (hsizes : ∀ size, .kmalloc size ∈ l → Heap.align size ∈ A ∧ Heap.need size ∈ T) :
    ∃ bs' env', t.Accounts bs' env' [] base ∧
      t.heap.pages.length + t.heap.credit U A T bs' ≤
        s.heap.pages.length + s.heap.credit U A T bs := by
  induction hp generalizing bs opened with
  | nil =>
    obtain rfl : opened = [] := hbal
    exact ⟨bs, _, ha, le_rfl⟩
  | @kmalloc s s' t env l size fuel ptr hok hr _ ih =>
    obtain ⟨hA, hT⟩ := hsizes size (by simp)
    rw [List.length_cons] at hU
    obtain ⟨bs', ha', hpay⟩ := ha.kmalloc hr hok (U := U) (by omega) hA hT
    have hbal' : Balanced l (env.length :: opened) (env ++ [ptr]).length := by
      rw [List.length_append]
      exact hbal
    obtain ⟨bs'', env', ha'', hpay'⟩ := ih ha' hbal' (by rw [List.length_cons]; omega)
      fun n hn => hsizes n (List.mem_cons_of_mem _ hn)
    exact ⟨bs'', env', ha'', hpay'.trans hpay⟩
  | @kfree s t env l i ptr hget _ ih =>
    obtain ⟨hm, hbal'⟩ := hbal
    obtain ⟨ha', hpay⟩ := ha.kfree (U := U) (A := A) (T := T) hm hget
    have hlen := List.length_erase_of_mem hm
    rw [List.length_cons] at hU
    obtain ⟨bs'', env', ha'', hpay'⟩ := ih ha' hbal' (by omega)
      fun n hn => hsizes n (List.mem_cons_of_mem _ hn)
    exact ⟨bs'', env', ha'', hpay'.trans hpay⟩
  | frames hb _ ih => exact ih (ha.frames hb) hbal hU hsizes

theorem Accounts.repeats {s t : HeapState} {l : List HeapCall} {n : ℕ}
    (hr : Repeats Heap.Frugal l n s t) (ha : s.Accounts bs env [] base) (hbal : Balanced l [] 0)
    (hU : base + l.length ≤ U)
    (hsizes : ∀ size, .kmalloc size ∈ l → Heap.align size ∈ A ∧ Heap.need size ∈ T) :
    ∃ bs', t.heap.pages.length + t.heap.credit U A T bs' ≤
        s.heap.pages.length + s.heap.credit U A T bs := by
  induction hr generalizing bs env with
  | zero => exact ⟨bs, le_rfl⟩
  | @succ n s s' t hp _ ih =>
    have hstart : s.Accounts bs [] [] base := ⟨ha.wf, ha.denotes, holding_nil s [], ha.taken_le⟩
    obtain ⟨bs', env', ha', hpay⟩ := hstart.plays hp hbal (by simpa using hU) hsizes
    obtain ⟨bs'', hpay'⟩ := ih ha'
    exact ⟨bs'', hpay'.trans hpay⟩

end Pass

/-! ## When a request fails, and when it takes a page -/

theorem inv_of_reachable {s : HeapState} (hs : heapSystem.Reachable s) : s.Inv :=
  hs.invariant (fun _ => inv_init) fun _ _ _ => inv_step

/-- A request that could be met fails although frames are left exactly if the list has no free
block: only a free block that is too small makes `kmalloc` ask for a page. -/
theorem kmalloc_available_iff {s : HeapState} (hs : heapSystem.Reachable s) {size : ℕ}
    (h0 : 0 < size) (h1 : size < 4096 - 24) :
    (∃ fuel r, s.heap.kmalloc fuel size = some r) ∧
      ∀ fuel ptr h', s.heap.kmalloc fuel size = some (ptr, h') →
        ((ptr = 0 → s.heap.pmm.allocatable = ∅) ↔
          (∃ b, s.heap.IsFree b) ∨ s.heap.pmm.allocatable = ∅) := by
  obtain ⟨bs, hw, -⟩ := inv_of_reachable hs
  refine ⟨⟨_, Heap.kmalloc_returns hw size⟩, fun fuel ptr h' hr => ?_⟩
  rcases Heap.kmalloc_answer hw.chain h0 h1 hr with ⟨heq, hnone⟩ | ⟨b, hb, ha⟩
  · obtain ⟨rfl, rfl⟩ := Prod.mk.inj heq
    refine ⟨fun h => Or.inr (h rfl), ?_⟩
    rintro (⟨b, hb⟩ | hempty) -
    · exact absurd hb (hnone b)
    · exact hempty
  · refine ⟨fun _ => Or.inl ⟨b, hb.isFree⟩, fun _ hptr => ?_⟩
    cases ha with
    | noFrame _ hp => exact Heap.allocatable_of_kpalloc_null hp
    | grow _ _ => omega
    | take _ _ => omega
    | split _ => omega

/-- The heap of a fresh machine lists one free block. -/
theorem sixteenMiB_lists : sixteenMiB.heap.Lists [0x200000] :=
  ⟨by decide, by decide, show (sixteenMiB.heap.hdr 0x200000).next = 0 by decide⟩

theorem kmalloc_available_iff_fresh : ∃ s, heapSystem.Reachable s ∧
    ∀ fuel ptr h', s.heap.kmalloc fuel 64 = some (ptr, h') → ptr = 0 →
      s.heap.pmm.allocatable = ∅ :=
  ⟨sixteenMiB, sixteenMiB_reachable, fun fuel ptr h' hr =>
    ((kmalloc_available_iff sixteenMiB_reachable (by decide) (by decide)).2 fuel ptr h' hr).mpr
      (Or.inl ⟨0x200000, sixteenMiB_lists.isFree_iff.mpr ⟨by simp, by decide⟩⟩)⟩

/-- After a first request of 4064 bytes the only block is used, and a request for one byte
fails on a machine that has fifteen megabytes left. -/
theorem kmalloc_fails_with_frames_left : ∃ s, heapSystem.Reachable s ∧
    s.heap.pmm.allocatable.Nonempty ∧ ∃ h', s.heap.kmalloc 2 1 = some (0, h') := by
  have hr : (sixteenMiB.kmalloc 1 4064).map (fun r =>
      ((r.2.heap.kmalloc 2 1).map Prod.fst, r.2.heap.pmm.kpalloc.1)) =
      some (some 0, 0x201000) := by decide
  obtain ⟨r, hr, heq⟩ := Option.map_eq_some_iff.mp hr
  obtain ⟨hfail, hframe⟩ := Prod.mk.inj heq
  refine ⟨_, sixteenMiB_reachable.step (HeapState.Step.kmalloc hr), ?_, ?_⟩
  · exact Heap.allocatable_of_kpalloc (by rw [hframe]; decide)
  · obtain ⟨⟨q, h'⟩, hk, rfl⟩ := Option.map_eq_some_iff.mp hfail
    exact ⟨h', hk⟩

theorem mem_sizes {l : List HeapCall} {size : ℕ} (h : .kmalloc size ∈ l) : size ∈ sizes l := by
  simp only [sizes, List.mem_toFinset, List.mem_filterMap]
  exact ⟨_, h, rfl⟩

/-- A call takes a page in spite of a free block that is large enough exactly if the first free
block is too small, another is not, and a frame is left. Where every request of a program finds
its first free block to be as good as any, repeating what the program does takes a number of
pages that does not depend on how often it is repeated. -/
theorem kmalloc_reuses_iff (s : HeapState) (hs : heapSystem.Reachable s) :
    (∀ size, 0 < size → size < 4096 - 24 →
      (∃ fuel r, s.heap.kmalloc fuel size = some r) ∧
      ∀ fuel ptr h', s.heap.kmalloc fuel size = some (ptr, h') →
        ((h'.pages ≠ s.heap.pages →
            ∀ b, s.heap.IsFree b → (s.heap.hdr b).size < Heap.need size) ↔
          (∀ b, s.heap.FirstFree b → Heap.align size ≤ (s.heap.hdr b).size) ∨
          (∀ b, s.heap.IsFree b → (s.heap.hdr b).size < Heap.need size) ∨
          s.heap.pmm.allocatable = ∅)) ∧
    ∀ l, Balanced l [] 0 → ∀ bs, s.heap.Lists bs →
      ∀ n t, Repeats Heap.Frugal l n s t →
        t.heap.pages.length ≤
          s.heap.pages.length + pageBound (taken (s.heap.cells bs)) l := by
  refine ⟨fun size h0 h1 => ?_, fun l hbal bs hl n t hr => ?_⟩
  · obtain ⟨bs, hw, -⟩ := inv_of_reachable hs
    refine ⟨⟨_, Heap.kmalloc_returns hw size⟩, fun fuel ptr h' hr => ?_⟩
    rw [Heap.kmalloc_takes_page_iff hw.chain h0 h1 hr]
    constructor
    · intro h
      by_cases hsmall : ∃ b, s.heap.FirstFree b ∧ (s.heap.hdr b).size < Heap.align size
      · rcases Set.eq_empty_or_nonempty s.heap.pmm.allocatable with hempty | hne
        · exact Or.inr (Or.inr hempty)
        · exact Or.inr (Or.inl (h ⟨hsmall, hne⟩))
      · refine Or.inl fun b hb => ?_
        by_contra hlt
        exact hsmall ⟨b, hb, Nat.not_le.mp hlt⟩
    · rintro (hfits | hnone | hempty) ⟨⟨b, hb, hlt⟩, hne⟩
      · exact absurd (hfits b hb) (Nat.not_le.mpr hlt)
      · exact hnone
      · exact absurd hempty hne.ne_empty
  · obtain ⟨bs', hw, hden⟩ := inv_of_reachable hs
    obtain rfl := hl.unique hw.chain
    have ha : s.Accounts bs [] [] (taken (s.heap.cells bs)) :=
      ⟨hw, hden, holding_nil s [], by simp⟩
    obtain ⟨bs', hpay⟩ := ha.repeats hr hbal le_rfl
      fun size hm => ⟨Finset.mem_image_of_mem Heap.align (mem_sizes hm),
        Finset.mem_image_of_mem Heap.need (mem_sizes hm)⟩
    have hmax := Fitting.potential_le (g := 40) (U := taken (s.heap.cells bs) + l.length)
      (A := (sizes l).image Heap.align) (T := (sizes l).image Heap.need)
      ((s.heap.cells bs).map Prod.fst)
    unfold pageBound
    unfold Heap.credit at hpay
    omega

/-- A fresh machine, and a program that takes and gives back 4064 bytes. -/
theorem kmalloc_reuses_iff_fresh :
    (∀ fuel ptr h', sixteenMiB.heap.kmalloc fuel 4064 = some (ptr, h') →
      h'.pages ≠ sixteenMiB.heap.pages →
      ∀ b, sixteenMiB.heap.IsFree b → (sixteenMiB.heap.hdr b).size < Heap.need 4064) ∧
    ∃ t, Repeats Heap.Frugal [.kmalloc 4064, .kfree 0] 1 sixteenMiB t ∧
      t.heap.pages.length ≤ sixteenMiB.heap.pages.length +
        pageBound (taken (sixteenMiB.heap.cells [0x200000])) [.kmalloc 4064, .kfree 0] := by
  have hfirst : ∀ b, sixteenMiB.heap.FirstFree b → sixteenMiB.heap.Snug 4064 b := by
    intro b hb
    obtain ⟨hm, -⟩ := sixteenMiB_lists.isFree_iff.mp hb.isFree
    obtain rfl := List.mem_singleton.mp hm
    exact ⟨by decide, by decide⟩
  refine ⟨fun fuel ptr h' hr => ?_, ?_⟩
  · exact (((kmalloc_reuses_iff sixteenMiB sixteenMiB_reachable).1 4064 (by decide)
      (by decide)).2 fuel ptr h' hr).mpr (Or.inl fun b hb => (hfirst b hb).1)
  · have hr : (sixteenMiB.kmalloc 1 4064).map Prod.fst = some 0x200018 := by decide
    obtain ⟨⟨_, s⟩, hr, rfl⟩ := Option.map_eq_some_iff.mp hr
    have hrep : Repeats Heap.Frugal [.kmalloc 4064, .kfree 0] 1 sixteenMiB (s.kfree 0x200018) :=
      .succ (.kmalloc (fun b hb => Or.inl (hfirst b hb)) hr (.kfree rfl .nil)) .zero
    have hbal : Balanced [.kmalloc 4064, .kfree 0] [] 0 := by simp [HeapCall.Balanced]
    exact ⟨_, hrep, (kmalloc_reuses_iff sixteenMiB sixteenMiB_reachable).2 _ hbal _
      sixteenMiB_lists 1 _ hrep⟩

/-- A machine on which 16 bytes were taken and given back. -/
def sixteenFreed : HeapState :=
  match sixteenMiB.kmalloc 1 16 with
  | some r => r.2.kfree r.1
  | none => sixteenMiB

theorem sixteenFreed_reachable : heapSystem.Reachable sixteenFreed := by
  have hr : (sixteenMiB.kmalloc 1 16).map (fun r => (r.2.live r.1).isSome) = some true := by
    decide
  obtain ⟨r, hr, hlive⟩ := Option.map_eq_some_iff.mp hr
  have heq : sixteenFreed = r.2.kfree r.1 := by simp [sixteenFreed, hr]
  rw [heq]
  exact (sixteenMiB_reachable.step (HeapState.Step.kmalloc hr)).step
    (HeapState.Step.kfree (Or.inr hlive))

/-- Its free blocks have 16 and 4032 bytes, and a request of 32 bytes takes a page. -/
theorem kmalloc_takes_page_beside_free_block : heapSystem.Reachable sixteenFreed ∧
    (∃ b, sixteenFreed.heap.IsFree b ∧ Heap.need 32 ≤ (sixteenFreed.heap.hdr b).size) ∧
    ∃ ptr h', sixteenFreed.heap.kmalloc 1 32 = some (ptr, h') ∧
      h'.pages ≠ sixteenFreed.heap.pages := by
  have hlists : sixteenFreed.heap.Lists [0x200000, 0x200028] :=
    ⟨by decide, by decide, by decide, by decide,
      show (sixteenFreed.heap.hdr 0x200028).next = 0 by decide⟩
  have hr : (sixteenFreed.heap.kmalloc 1 32).map (fun r => r.2.pages.length) = some 2 := by decide
  obtain ⟨r, hr, hlen⟩ := Option.map_eq_some_iff.mp hr
  refine ⟨sixteenFreed_reachable, ⟨0x200028, ?_, by decide⟩, r.1, r.2, hr, fun heq => ?_⟩
  · exact hlists.isFree_iff.mpr ⟨by simp, by decide⟩
  · rw [heq] at hlen
    exact absurd hlen (by decide)

end HeapState

end Nyvela
