import Nyvela.HeapClient

/-!
# The frames of the heap (`src/mm/heap.c`)

The heap takes a free frame when it has no block that fits, and it keeps its frames for good. A
frame that is in use and not the heap's is never its own later on.
-/

namespace Nyvela

/-- The heap serves the call from a block, or with the next frame. -/
theorem Heap.kmalloc_takes {h h' : Heap} {fuel size q : ℕ}
    (hr : h.kmalloc fuel size = some (q, h')) :
    h'.pages = h.pages ∨
      h.pmm.kpalloc.1 ≠ 0 ∧ h'.pages = h.pages ++ [h.pmm.kpalloc.1.toNat] := by
  have hloop : ∀ aligned fuel block, h.kmallocLoop aligned fuel block = some (q, h') →
      h'.pages = h.pages ∨
        h.pmm.kpalloc.1 ≠ 0 ∧ h'.pages = h.pages ++ [h.pmm.kpalloc.1.toNat] := by
    intro aligned fuel
    induction fuel with
    | zero => intro block hr; cases hr
    | succ fuel ih =>
      intro block hr
      simp only [kmallocLoop] at hr
      split_ifs at hr with h0 hu hs hp
      · obtain ⟨-, rfl⟩ := Prod.mk.inj (Option.some.inj hr)
        exact Or.inl rfl
      · exact ih _ hr
      · obtain ⟨-, rfl⟩ := Prod.mk.inj (Option.some.inj hr)
        exact Or.inl rfl
      · obtain ⟨-, rfl⟩ := Prod.mk.inj (Option.some.inj hr)
        exact Or.inr ⟨hp, rfl⟩
      · obtain ⟨-, rfl⟩ := Prod.mk.inj (Option.some.inj hr)
        exact Or.inl rfl
      · obtain ⟨-, rfl⟩ := Prod.mk.inj (Option.some.inj hr)
        exact Or.inl rfl
  unfold kmalloc at hr
  split_ifs at hr
  · obtain ⟨-, rfl⟩ := Prod.mk.inj (Option.some.inj hr)
    exact Or.inl rfl
  · exact hloop _ _ _ hr

namespace HeapState

@[simp] theorem setMem_pages (s : HeapState) (mem : Memory) :
    (s.setMem mem).heap.pages = s.heap.pages := rfl

@[simp] theorem setPmm_pages (s : HeapState) (pmm : Pmm) :
    (s.setPmm pmm).heap.pages = s.heap.pages := rfl

theorem kfree_setMem (s : HeapState) (ptr : ℕ) (mem : Memory) :
    (s.setMem mem).kfree ptr = (s.kfree ptr).setMem mem := by
  unfold HeapState.kfree Heap.kfree
  by_cases h0 : ptr = 0
  · rw [if_pos h0, if_pos h0]
    rfl
  · rw [if_neg h0, if_neg h0]
    rfl

/-- A live block lies in a page of the heap. -/
theorem live_page {s : HeapState} (hi : s.Inv) {ptr n : ℕ} (hp : s.live ptr = some n) :
    ∃ f, f * 4096 ∈ s.heap.pages ∧ f * 4096 + 24 ≤ ptr ∧ ptr + n ≤ f * 4096 + 4096 := by
  obtain ⟨bs, hw, hl⟩ := hi
  obtain ⟨b, hb, rfl, -, hn⟩ := hl ptr n hp
  obtain ⟨P, hP, hle, hlast⟩ := hw.inPage b hb
  have haligned := hw.aligned P hP
  rw [Heap.last] at hlast
  have hframe : P / 4096 * 4096 = P := by omega
  exact ⟨P / 4096, by rwa [hframe], by omega, by omega⟩

/-- A live block and a byte that is not in a page of the heap. -/
theorem live_apart {s : HeapState} (hi : s.Inv) {p n a : ℕ} (hp : s.live p = some n)
    (ha : a / 4096 * 4096 ∉ s.heap.pages) : a < p ∨ p + n ≤ a := by
  obtain ⟨f, hpage, hlo, hhi⟩ := live_page hi hp
  have hne : a / 4096 ≠ f := by
    intro heq
    rw [heq] at ha
    exact ha hpage
  omega

/-- A frame that is in use, but not by the heap. -/
structure Outside (s : HeapState) (g : ℕ) : Prop where
  used : s.heap.pmm.bitmap.test g = false
  heap : g * 4096 ∉ s.heap.pages

theorem page_used {s : HeapState} (hi : s.Inv) {f : ℕ} (hf : f * 4096 ∈ s.heap.pages) :
    s.heap.pmm.bitmap.test f = false := by
  obtain ⟨bs, hw, -⟩ := hi
  have hused := hw.pagesUsed _ hf
  rwa [Nat.mul_div_cancel f (by decide)] at hused

/-- `kmalloc` takes a free frame at most. -/
theorem kmalloc_frames {s h : HeapState} {fuel size q : ℕ}
    (hk : s.kmalloc fuel size = some (q, h)) :
    h.heap.pages = s.heap.pages ∨
      ∃ f ∈ s.heap.pmm.allocatable, h.heap.pages = s.heap.pages ++ [f * 4096] := by
  obtain ⟨h₁, hh₁, rfl⟩ := kmalloc_eq_some hk
  refine (Heap.kmalloc_takes hh₁).imp id ?_
  rintro ⟨hne, hpages⟩
  obtain ⟨f, hleast, heq⟩ := Pmm.kpalloc_eq_some hne
  have hf : f ∈ s.heap.pmm.allocatable := hleast.1
  have hphys : s.heap.pmm.kpalloc.1.toNat = f * 4096 := by
    rw [heq]
    exact Pmm.physOf_toNat (hf.2.2.1.trans s.heap.pmm.frameCount_lt)
  exact ⟨f, hf, by rw [hpages, hphys]⟩

theorem Outside.kmalloc {s h : HeapState} {fuel size q g : ℕ} (hg : s.Outside g)
    (hk : s.kmalloc fuel size = some (q, h)) : h.Outside g := by
  refine ⟨kmalloc_used hk hg.used, ?_⟩
  obtain hpages | ⟨f, hf, hpages⟩ := kmalloc_frames hk
  · rw [hpages]
    exact hg.heap
  · rw [hpages, List.mem_append, List.mem_singleton]
    refine not_or.mpr ⟨hg.heap, fun heq => ?_⟩
    obtain rfl : g = f := by omega
    exact Bool.noConfusion (hf.1.symm.trans hg.used)

theorem Outside.kfree {s : HeapState} {g : ℕ} (hg : s.Outside g) (ptr : ℕ) :
    (s.kfree ptr).Outside g := by
  obtain ⟨hpmm, hpages⟩ := s.heap.kfree_frames ptr
  exact ⟨hpmm ▸ hg.used, hpages ▸ hg.heap⟩

/-- From `s` to `h` the heap took free frames, or none. -/
def Within (s h : HeapState) : Prop := ∀ g, s.Outside g → h.Outside g

theorem Within.refl (s : HeapState) : s.Within s := fun _ => id

theorem Within.trans {s h h' : HeapState} (h₁ : s.Within h) (h₂ : h.Within h') : s.Within h' :=
  fun g hg => h₂ g (h₁ g hg)

theorem within_kmalloc {s h : HeapState} {fuel size q : ℕ}
    (hk : s.kmalloc fuel size = some (q, h)) : s.Within h := fun _ hg => hg.kmalloc hk

theorem within_kfree (s : HeapState) (ptr : ℕ) : s.Within (s.kfree ptr) :=
  fun _ hg => hg.kfree ptr

theorem within_setMem (s : HeapState) (mem : Memory) : s.Within (s.setMem mem) :=
  fun _ hg => ⟨hg.used, hg.heap⟩

end HeapState

end Nyvela
