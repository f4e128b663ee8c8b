import Nyvela.VmmCreate

/-!
# Frames that are given back (`kpfree`)

Nothing is written: a table that is freed keeps its entries.
-/

namespace Nyvela.Vmm

/-- `w` is `v` with the frames in `S` given back. -/
structure Freed (v w : Vmm) (S : Set ℕ) : Prop where
  frameCount : w.pmm.frameCount = v.pmm.frameCount
  kernelEnd : w.pmm.kernelEnd = v.pmm.kernelEnd
  codePageCount : w.codePageCount = v.codePageCount
  mmapEntries : w.mmapEntries = v.mmapEntries
  mem : w.mem = v.mem
  test : ∀ f, w.pmm.bitmap.test f = true ↔ v.pmm.bitmap.test f = true ∨ f ∈ S

section freed

variable {v w w' : Vmm} {S T : Set ℕ}

theorem Freed.refl (v : Vmm) : Freed v v ∅ := ⟨rfl, rfl, rfl, rfl, rfl, by simp⟩

theorem Freed.trans (h : Freed v w S) (h' : Freed w w' T) : Freed v w' (S ∪ T) where
  frameCount := h'.frameCount.trans h.frameCount
  kernelEnd := h'.kernelEnd.trans h.kernelEnd
  codePageCount := h'.codePageCount.trans h.codePageCount
  mmapEntries := h'.mmapEntries.trans h.mmapEntries
  mem := h'.mem.trans h.mem
  test f := by rw [h'.test, h.test, Set.mem_union, or_assoc]

theorem Freed.congr (h : Freed v w S) (hST : ∀ f, f ∈ S ↔ f ∈ T) : Freed v w T := by
  rwa [← Set.ext hST]

theorem Freed.used (h : Freed v w S) {f : ℕ} (hf : v.pmm.bitmap.test f = false) (hS : f ∉ S) :
    w.pmm.bitmap.test f = false := by
  rw [Bool.eq_false_iff, Ne, h.test, hf]
  simpa using hS

/-- What `kpfree` gives back; a call with `NULL` does nothing. -/
theorem freed_of_kpfree {page : Word} (h : v.kpfree page = some w) :
    Freed v w {f | f = Pte.frame page ∧ f ≠ 0} := by
  obtain ⟨rfl, rfl⟩ | ⟨h0, haddr, -, -, rfl⟩ := kpfree_cases h
  · refine (Freed.refl _).congr fun f => ?_
    have hzero : Pte.frame 0 = 0 := by decide
    simp only [Set.mem_empty_iff_false, Set.mem_ofPred_eq, hzero, false_iff, not_and_not_right]
    exact id
  · refine ⟨rfl, rfl, rfl, rfl, rfl, fun f => ?_⟩
    have hne : Pte.frame page ≠ 0 := by
      intro hzero
      apply h0
      apply BitVec.eq_of_toNat_eq
      rw [← haddr, Pte.addr_toNat_eq_frame, hzero]
      rfl
    simp only [Bitmap.test_set, Bool.or_eq_true, decide_eq_true_eq, Set.mem_ofPred_eq]
    constructor
    · rintro (hf | rfl)
      · exact .inl hf
      · exact .inr ⟨rfl, hne⟩
    · rintro (hf | ⟨hf, -⟩)
      · exact .inl hf
      · exact .inr hf

theorem kpfree_total {page : Word} (haddr : Pte.addr page = page)
    (hlt : Pte.frame page < v.pmm.frameCount) (hused : v.pmm.bitmap.test (Pte.frame page) = false) :
    ∃ w, v.kpfree page = some w := by
  have hpage : page = Pmm.physOf (Pte.frame page) := haddr.symm.trans (Pte.addr_eq_ofFrame page)
  by_cases h0 : Pte.frame page = 0
  · have hnull : page = 0 := by
      rw [hpage, h0]
      rfl
    exact ⟨v, by simp [Vmm.kpfree, Pmm.kpfree, hnull]⟩
  · have hcall := Pmm.kpfree_used (Nat.pos_of_ne_zero h0) hlt
      (show Pte.frame page ∉ v.pmm.free by simpa [Pmm.free] using hused)
    rw [← hpage] at hcall
    exact ⟨_, by rw [Vmm.kpfree, hcall, Option.map_some]⟩

theorem freed_of_freeAll {pages : List Word} (h : freeAll pages v = some w) :
    Freed v w {f | f ≠ 0 ∧ ∃ page ∈ pages, f = Pte.frame page} := by
  induction pages generalizing v with
  | nil =>
    obtain rfl := Option.some.inj h
    exact (Freed.refl _).congr fun f => by simp
  | cons page pages ih =>
    simp only [freeAll, List.foldlM_cons, Option.bind_eq_bind, Option.bind_eq_some_iff] at h
    obtain ⟨u, hu, h⟩ := h
    refine ((freed_of_kpfree hu).trans (ih h)).congr fun f => ?_
    simp only [Set.mem_union, Set.mem_ofPred_eq, List.mem_cons, exists_eq_or_imp]
    tauto

end freed

end Nyvela.Vmm
