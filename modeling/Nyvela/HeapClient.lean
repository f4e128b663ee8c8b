import Nyvela.HeapInvariant
import Nyvela.Lib.Fuel

/-!
# What a client of the heap relies on

A block handed out was not live, and whatever the heap does for others, a live
payload keeps its place, its length and its bytes until its owner gives it back.
-/

namespace Nyvela

theorem Heap.kmallocLoop_mono {h : Heap} {aligned fuel fuel' block : ℕ} {r : ℕ × Heap}
    (hr : h.kmallocLoop aligned fuel block = some r) (hf : fuel ≤ fuel') :
    h.kmallocLoop aligned fuel' block = some r := by
  induction fuel generalizing block fuel' with
  | zero => cases hr
  | succ fuel ih =>
    obtain ⟨n, rfl⟩ : ∃ n, fuel' = n + 1 := ⟨fuel' - 1, by omega⟩
    unfold kmallocLoop at hr ⊢
    split_ifs at hr ⊢ with h0 hu
    · exact hr
    · exact ih hr (by omega)
    · exact hr
    · exact hr
    · exact hr

/-- The heap may have taken a frame for a new page. -/
def Heap.Draws (h h' : Heap) : Prop :=
  (h'.pmm = h.pmm ∧ h'.pages = h.pages) ∨
    ∃ f, h.pmm.bitmap.test f = true ∧ h'.pages = h.pages ++ [f * 4096] ∧
      h'.pmm.frameCount = h.pmm.frameCount ∧
      ∀ g, h'.pmm.bitmap.test g = (h.pmm.bitmap.test g && decide (g ≠ f))

theorem Heap.kmallocLoop_draws {h h' : Heap} {aligned fuel block q : ℕ}
    (hr : h.kmallocLoop aligned fuel block = some (q, h')) : h.Draws h' := by
  induction fuel generalizing block with
  | zero => cases hr
  | succ fuel ih =>
    simp only [kmallocLoop] at hr
    split_ifs at hr with h0 hu hs hp
    · obtain ⟨-, rfl⟩ : 0 = q ∧ h = h' := by simpa using hr
      exact .inl ⟨rfl, rfl⟩
    · exact ih hr
    · obtain ⟨-, rfl⟩ : 0 = q ∧ { h with pmm := h.pmm.kpalloc.2 } = h' := by simpa using hr
      exact .inl ⟨Pmm.kpalloc_null hp, rfl⟩
    · obtain ⟨-, rfl⟩ : _ ∧ h.grow block _ _ = h' := by simpa using hr
      obtain ⟨f, hf, -, -, hfree, htest⟩ := Pmm.kpalloc_frame hp
      exact .inr ⟨f, hfree, by rw [grow, hf], h.pmm.kpalloc_takes.frameCount, htest⟩
    · obtain ⟨-, rfl⟩ : _ ∧ h.take block = h' := by simpa using hr
      exact .inl ⟨rfl, rfl⟩
    · obtain ⟨-, rfl⟩ : _ ∧ h.split block aligned = h' := by simpa using hr
      exact .inl ⟨rfl, rfl⟩

namespace Heap

theorem kmalloc_draws {h h' : Heap} {fuel size q : ℕ} (hr : h.kmalloc fuel size = some (q, h')) :
    h.Draws h' := by
  unfold kmalloc at hr
  split_ifs at hr
  · obtain ⟨-, rfl⟩ : 0 = q ∧ h = h' := by simpa using hr
    exact .inl ⟨rfl, rfl⟩
  · exact kmallocLoop_draws hr

theorem kfree_frames (h : Heap) (ptr : ℕ) :
    (h.kfree ptr).pmm = h.pmm ∧ (h.kfree ptr).pages = h.pages := by
  unfold kfree
  split_ifs <;> exact ⟨rfl, rfl⟩

theorem krealloc_draws {h h' : Heap} {fuel ptr size q : ℕ}
    (hr : h.krealloc fuel ptr size = some (q, h')) : h.Draws h' := by
  cases krealloc_outcome hr with
  | null _ hk => exact kmalloc_draws hk
  | free => exact .inl (h.kfree_frames ptr)
  | tooBig => exact .inl ⟨rfl, rfl⟩
  | stay => exact .inl ⟨rfl, rfl⟩
  | noRoom _ _ hk => exact kmalloc_draws hk
  | @move q h₁ _ _ _ hk _ =>
    obtain ⟨hpmm, hpages⟩ := kfree_frames
      { h₁ with mem := h₁.mem.memcpy q ptr (h.hdr (ptr - 24)).size } ptr
    have hdraws : h.Draws h₁ := kmalloc_draws hk
    rw [Draws, hpmm, hpages]
    exact hdraws

end Heap

namespace HeapState

def setMem (s : HeapState) (mem : Memory) : HeapState :=
  { s with heap := { s.heap with mem := mem } }

def setPmm (s : HeapState) (pmm : Pmm) : HeapState :=
  { s with heap := { s.heap with pmm := pmm } }

section

variable (s : HeapState) (mem : Memory) (pmm : Pmm)

@[simp] theorem setMem_live : (s.setMem mem).live = s.live := rfl
@[simp] theorem setMem_mem : (s.setMem mem).heap.mem = mem := rfl
@[simp] theorem setMem_pmm : (s.setMem mem).heap.pmm = s.heap.pmm := rfl
@[simp] theorem setPmm_live : (s.setPmm pmm).live = s.live := rfl
@[simp] theorem setPmm_pmm : (s.setPmm pmm).heap.pmm = pmm := rfl

end

theorem kmalloc_draws {s s' : HeapState} {fuel size q : ℕ}
    (hr : s.kmalloc fuel size = some (q, s')) : s.heap.Draws s'.heap := by
  obtain ⟨h, hh, rfl⟩ := kmalloc_eq_some hr
  exact Heap.kmalloc_draws hh

theorem krealloc_draws {s s' : HeapState} {fuel ptr size q : ℕ}
    (hr : s.krealloc fuel ptr size = some (q, s')) : s.heap.Draws s'.heap := by
  obtain ⟨h, hh, rfl⟩ := krealloc_eq_some hr
  exact Heap.krealloc_draws hh

/-- The heap takes frames but gives none back. -/
theorem kmalloc_used {s s' : HeapState} {fuel size q g : ℕ}
    (hr : s.kmalloc fuel size = some (q, s')) (hg : s.heap.pmm.bitmap.test g = false) :
    s'.heap.pmm.bitmap.test g = false := by
  rcases kmalloc_draws hr with ⟨hpmm, -⟩ | ⟨f, -, -, -, htest⟩
  · rw [hpmm, hg]
  · rw [htest, hg, Bool.false_and]

theorem kmalloc_mono {s : HeapState} {fuel fuel' size : ℕ} {r : ℕ × HeapState}
    (hr : s.kmalloc fuel size = some r) (hf : fuel ≤ fuel') : s.kmalloc fuel' size = some r := by
  obtain ⟨q, hq, rfl⟩ := Option.map_eq_some_iff.mp hr
  refine Option.map_eq_some_iff.mpr ⟨q, ?_, rfl⟩
  unfold Heap.kmalloc at hq ⊢
  split_ifs at hq ⊢
  · exact hq
  · exact Heap.kmallocLoop_mono hq hf

theorem kmalloc_total {s : HeapState} (hi : s.Inv) (size : ℕ) :
    ∃ fuel r, s.kmalloc fuel size = some r := by
  obtain ⟨bs, hw, -⟩ := hi
  obtain ⟨r, hr⟩ := Heap.kmalloc_returns hw size
  exact ⟨bs.length + 1, _, by rw [kmalloc, hr]; rfl⟩

theorem kmalloc_returns {s : HeapState} (hi : s.Inv) (size : ℕ) :
    ∃ r, Returns (fun fuel => s.kmalloc fuel size) r := by
  obtain ⟨n, r, hr⟩ := kmalloc_total hi size
  exact ⟨r, n, fun fuel hf => kmalloc_mono hr hf⟩

theorem live_disjoint {s : HeapState} (hi : s.Inv) {p q n m : ℕ} (hp : s.live p = some n)
    (hq : s.live q = some m) (hne : p ≠ q) : p + n ≤ q ∨ q + m ≤ p := by
  obtain ⟨bs, hw, hl⟩ := hi
  obtain ⟨b, hb, rfl, -, hbn⟩ := hl p n hp
  obtain ⟨c, hc, rfl, -, hcm⟩ := hl q m hq
  have hbc := hw.apart b hb c hc (by omega)
  unfold Heap.last at hbc
  omega

theorem inv_mem {s : HeapState} (hi : s.Inv) (mem : Memory) :
    Inv { s with heap := { s.heap with mem := mem } } := by
  obtain ⟨bs, hw, hl⟩ := hi
  exact ⟨bs, hw.congr rfl rfl hw.pagesUsed (fun _ => rfl) fun _ => rfl, hl⟩

/-- Any other frames, as long as the heap has its pages. -/
theorem inv_setPmm_pages {s : HeapState} (hi : s.Inv) {pmm : Pmm}
    (hused : ∀ P ∈ s.heap.pages, pmm.bitmap.test (P / 4096) = false) : (s.setPmm pmm).Inv := by
  obtain ⟨bs, hw, hl⟩ := hi
  exact ⟨bs, hw.congr rfl rfl hused (fun _ => rfl) fun _ => rfl, hl⟩

theorem inv_setPmm {s : HeapState} (hi : s.Inv) {pmm : Pmm}
    (hused : ∀ g, s.heap.pmm.bitmap.test g = false → pmm.bitmap.test g = false) :
    (s.setPmm pmm).Inv := by
  obtain ⟨bs, hw, -⟩ := id hi
  exact inv_setPmm_pages hi fun P hP => hused _ (hw.pagesUsed P hP)

theorem kmalloc_client {s s' : HeapState} {fuel size q : ℕ} (hi : s.Inv)
    (hr : s.kmalloc fuel size = some (q, s')) :
    s'.Inv ∧ s'.heap.mem = s.heap.mem ∧
      ((q = 0 ∧ s'.live = s.live) ∨
        (q ≠ 0 ∧ s.live q = none ∧ s'.live = Function.update s.live q (some size))) := by
  obtain ⟨h, hh, rfl⟩ := kmalloc_eq_some hr
  refine ⟨inv_kmalloc hi hh, ?_⟩
  obtain ⟨bs, hw, hl⟩ := hi
  obtain ⟨bs', -, hmem, -, hgive⟩ := Heap.kmalloc_spec hw hh
  refine ⟨hmem, ?_⟩
  by_cases hq : q = 0
  · exact Or.inl ⟨hq, by simp [hq]⟩
  · refine Or.inr ⟨hq, ?_, by simp [hq]⟩
    cases hlq : s.live q with
    | none => rfl
    | some n => exact absurd rfl (not_live_of_wasFree (hgive hq).2.2 (hl q n hlq))

theorem kfree_mem (h : Heap) (ptr : ℕ) : (h.kfree ptr).mem = h.mem := by
  unfold Heap.kfree
  split_ifs <;> rfl

/-- The copy that `krealloc` makes stays inside the block it was given, and that
block was not live. -/
theorem krealloc_client {s s' : HeapState} {fuel ptr size q p n : ℕ} (hi : s.Inv)
    (hptr : ptr = 0 ∨ (s.live ptr).isSome) (hr : s.krealloc fuel ptr size = some (q, s'))
    (hp : s.live p = some n) (hne : p ≠ ptr) :
    s'.live p = some n ∧ ∀ i < n, s'.heap.mem (p + i) = s.heap.mem (p + i) := by
  obtain ⟨h, hh, rfl⟩ := krealloc_eq_some hr
  obtain ⟨bs, hw, hl⟩ := hi
  have hfresh : ∀ {q : ℕ} {h : Heap}, s.heap.kmalloc fuel size = some (q, h) → q ≠ 0 →
      p ≠ q := by
    intro q h hk hq
    obtain ⟨_, -, -, -, hgive⟩ := Heap.kmalloc_spec hw hk
    exact not_live_of_wasFree (hgive hq).2.2 (hl p n hp)
  have hmalloc : ∀ {q : ℕ} {h : Heap}, s.heap.kmalloc fuel size = some (q, h) →
      h.mem = s.heap.mem := by
    intro q h hk
    obtain ⟨_, -, hmem, -⟩ := Heap.kmalloc_spec hw hk
    exact hmem
  have hlive : (q = 0 ∨ q = ptr ∨ p ≠ q) → liveAfterRealloc s.live ptr size q p = some n := by
    intro hq
    unfold liveAfterRealloc
    split_ifs with h1 h2
    · rwa [Function.update_of_ne hne]
    · exact hp
    · have hpq : p ≠ q := by
        rcases hq with hq | hq | hq
        · exact absurd hq h1
        · rwa [hq]
        · exact hq
      rwa [Function.update_of_ne hpq, Function.update_of_ne hne]
  cases Heap.krealloc_outcome hh with
  | null hnull hk =>
    refine ⟨hlive ?_, fun i _ => by rw [hmalloc hk]⟩
    by_cases hq : q = 0
    · exact Or.inl hq
    · exact Or.inr (Or.inr (hfresh hk hq))
  | free => exact ⟨hlive (Or.inl rfl), fun i _ => by rw [kfree_mem]⟩
  | tooBig => exact ⟨hlive (Or.inl rfl), fun i _ => rfl⟩
  | stay => exact ⟨hlive (Or.inr (Or.inl rfl)), fun i _ => rfl⟩
  | noRoom _ _ hk => exact ⟨hlive (Or.inl rfl), fun i _ => by rw [hmalloc hk]⟩
  | @move q h' hnull _ hgrow hk hq =>
    refine ⟨hlive (Or.inr (Or.inr (hfresh hk hq))), fun i hin => ?_⟩
    obtain ⟨bs', hw', hmem, hkeep, hgive⟩ := Heap.kmalloc_spec hw hk
    -- the old block is no longer than a page allows, so the new one holds the copy
    obtain ⟨m, hm⟩ := Option.isSome_iff_exists.mp (hptr.resolve_left hnull)
    obtain ⟨o, ho, rfl, -⟩ := hl ptr m hm
    obtain ⟨P, -, hPo, hoP⟩ := hw.inPage o ho
    obtain ⟨b, hb, rfl, -, hbn⟩ := hkeep.denotes (hl p n hp)
    obtain ⟨c, hc, rfl, -, hcn⟩ := (hgive hq).1
    have hbc := hw'.apart b hb c hc (fun he => hfresh hk hq (by rw [he]))
    unfold Heap.last at hbc hoP
    simp only [Nat.add_sub_cancel] at hgrow ⊢
    rw [kfree_mem]
    change h'.mem.memcpy _ _ _ _ = _
    rw [Memory.memcpy_outside _ _ _ _ (by omega), hmem]

/-- An operation on another pointer leaves a live payload as it was. -/
theorem step_keeps {s s' : HeapState} {op : HeapOp} (hi : s.Inv) (hs : Step s op s') {p n : ℕ}
    (hp : s.live p = some n) (hne : p ≠ op.target) :
    s'.live p = some n ∧ ∀ i < n, s'.heap.mem (p + i) = s.heap.mem (p + i) := by
  cases hs with
  | kmalloc hr =>
    obtain ⟨-, hmem, hlive⟩ := kmalloc_client hi hr
    refine ⟨?_, fun i _ => by rw [hmem]⟩
    rcases hlive with ⟨-, hlive⟩ | ⟨-, hnone, hlive⟩
    · rwa [hlive]
    · rw [hlive, Function.update_of_ne (by rintro rfl; simp [hnone] at hp)]
      exact hp
  | krealloc hptr hr => exact krealloc_client hi hptr hr hp hne
  | kfree hptr =>
    refine ⟨?_, fun i _ => by rw [kfree, kfree_mem]⟩
    exact (Function.update_of_ne hne ..).trans hp
  | frames hb => exact ⟨hp, fun i _ => rfl⟩

end HeapState

end Nyvela
