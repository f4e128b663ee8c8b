import Nyvela.VmmFree

/-!
# Failed creations

When the frames run out `kvmm_create_user_pml4` frees what it has taken, and also what
the entries that it goes through name besides.
-/

namespace Nyvela.Vmm

section

variable {v u w : Vmm} {sp : Space} {taken : List ℕ} {pages strays : List Word}

/-- What can be said of addresses that were freed one after the other. -/
theorem used_of_freeAll (h : freeAll pages u = some w) :
    (∀ page ∈ pages, page ≠ 0 → Pte.addr page = page ∧
      u.pmm.bitmap.test (Pte.frame page) = false) ∧ (pages.filter (· ≠ 0)).Nodup := by
  induction pages generalizing u with
  | nil => simp
  | cons page pages ih =>
    simp only [freeAll, List.foldlM_cons, Option.bind_eq_bind, Option.bind_eq_some_iff] at h
    obtain ⟨u', hu, h⟩ := h
    obtain ⟨hused, hnodup⟩ := ih h
    obtain ⟨rfl, rfl⟩ | ⟨h0, haddr, -, htest, rfl⟩ := kpfree_cases hu
    · refine ⟨?_, by simpa using hnodup⟩
      rintro page (_ | ⟨_, hmem⟩) h0
      · exact absurd rfl h0
      · exact hused page hmem h0
    · have hlater : ∀ page' ∈ pages, page' ≠ 0 →
          u.pmm.bitmap.test (Pte.frame page') = false ∧ Pte.frame page' ≠ Pte.frame page := by
        intro page' hmem h0'
        have htest' := (hused page' hmem h0').2
        simpa [Bitmap.test_set] using htest'
      constructor
      · rintro page' (_ | ⟨_, hmem⟩) h0'
        · exact ⟨haddr, htest⟩
        · exact ⟨(hused page' hmem h0').1, (hlater page' hmem h0').1⟩
      · rw [List.filter_cons_of_pos (by simpa using h0), List.nodup_cons]
        refine ⟨fun hmem => ?_, hnodup⟩
        rw [List.mem_filter] at hmem
        exact (hlater page hmem.1 h0).2 rfl

/-- Different frames that are in use can be freed. -/
theorem freeAll_total {frames : List ℕ} (hnodup : frames.Nodup)
    (hused : ∀ f ∈ frames, 0 < f ∧ f < u.pmm.frameCount ∧ u.pmm.bitmap.test f = false)
    (hpages : (pages.filter (· ≠ 0)).Perm (frames.map Pte.ofFrame)) :
    ∃ w, freeAll pages u = some w := by
  induction pages generalizing u frames with
  | nil => exact ⟨u, rfl⟩
  | cons page pages ih =>
    simp only [freeAll, List.foldlM_cons, Option.bind_eq_bind]
    by_cases h0 : page = 0
    · have hnull : u.kpfree page = some u := by simp [Vmm.kpfree, Pmm.kpfree, h0]
      rw [hnull, Option.bind_some]
      rw [List.filter_cons_of_neg (by simpa using h0)] at hpages
      exact ih hnodup hused hpages
    · rw [List.filter_cons_of_pos (by simpa using h0)] at hpages
      obtain ⟨f, hf, rfl⟩ := List.mem_map.mp (hpages.mem_iff.mp List.mem_cons_self)
      obtain ⟨-, hlt, htest⟩ := hused f hf
      have hframe : Pte.frame (Pte.ofFrame f) = f :=
        Pte.frame_ofFrame (hlt.trans u.pmm.frameCount_lt)
      obtain ⟨u', hu⟩ := kpfree_total (v := u) (Pte.addr_ofFrame f) (by rwa [hframe])
        (by rwa [hframe])
      rw [hu, Option.bind_some]
      refine ih (hnodup.erase f) ?_ ?_
      · intro g hg
        obtain ⟨hne, hmem⟩ := hnodup.mem_erase_iff.mp hg
        obtain ⟨hpos, hglt, hgtest⟩ := hused g hmem
        have hfreed := freed_of_kpfree hu
        refine ⟨hpos, by rwa [hfreed.frameCount], hfreed.used hgtest ?_⟩
        rintro ⟨rfl, -⟩
        exact hne hframe
      · have hperm : (frames.map Pte.ofFrame).Perm
            (Pte.ofFrame f :: (frames.erase f).map Pte.ofFrame) := by
          simpa using (List.perm_cons_erase hf).map Pte.ofFrame
        exact (hpages.trans hperm).cons_inv

/-- The bitmap is what it was before the frames were taken exactly if nothing else is freed. -/
theorem freeAll_restores_iff (hext : Took v u taken)
    (hperm : pages.Perm (taken.map Pte.ofFrame ++ strays)) :
    (∃ w, freeAll pages u = some w ∧ w.pmm = v.pmm) ↔ ∀ page ∈ strays, page = 0 := by
  have hframe : ∀ f ∈ taken, Pte.frame (Pte.ofFrame f) = f ∧ Pte.ofFrame f ≠ 0 := by
    intro f hf
    have hlt := hext.lt hf
    have hpos := v.pmm.firstPage_pos.trans_le (hext.fresh f hf).2.1
    exact ⟨Pte.frame_ofFrame hlt, Pmm.physOf_ne_zero hlt hpos⟩
  constructor
  · rintro ⟨w, hfree, hpmm⟩ page hpage
    by_contra h0
    obtain ⟨hused, hnodup⟩ := used_of_freeAll hfree
    have hmem : page ∈ pages := hperm.mem_iff.mpr (List.mem_append_right _ hpage)
    obtain ⟨haddr, htest⟩ := hused page hmem h0
    -- the frame is free in the end, so it was before; in between it was taken
    have hne : Pte.frame page ≠ 0 := by
      intro hzero
      apply h0
      rw [← haddr, Pte.addr_eq_ofFrame, hzero]
      rfl
    have hfreed : v.pmm.bitmap.test (Pte.frame page) = true := by
      rw [← hpmm, (freed_of_freeAll hfree).test]
      exact .inr ⟨hne, page, hmem, rfl⟩
    have htaken : Pte.frame page ∈ taken := by
      by_contra hnot
      rw [hext.test, hfreed] at htest
      simp [hnot] at htest
    -- so it is freed twice
    have htwice : page ∈ taken.map Pte.ofFrame := by
      refine List.mem_map.mpr ⟨_, htaken, ?_⟩
      rw [← Pte.addr_eq_ofFrame, haddr]
    have hnd := (hperm.filter (· ≠ 0)).nodup_iff.mp hnodup
    rw [List.filter_append] at hnd
    exact List.disjoint_of_nodup_append hnd (List.mem_filter.mpr ⟨htwice, by simpa using h0⟩)
      (List.mem_filter.mpr ⟨hpage, by simpa using h0⟩)
  · intro hzero
    have hfilter : (pages.filter (· ≠ 0)).Perm (taken.map Pte.ofFrame) := by
      refine (hperm.filter _).trans (List.Perm.of_eq ?_)
      rw [List.filter_append, List.filter_eq_self.mpr, List.filter_eq_nil_iff.mpr,
        List.append_nil]
      · intro page hpage
        simpa using hzero page hpage
      · intro page hpage
        obtain ⟨f, hf, rfl⟩ := List.mem_map.mp hpage
        simpa using (hframe f hf).2
    obtain ⟨w, hw⟩ := freeAll_total hext.nodup (fun f hf => ⟨v.pmm.firstPage_pos.trans_le
      (hext.fresh f hf).2.1, by rw [hext.frameCount]; exact (hext.fresh f hf).2.2.1, by
        rw [hext.test]; simp [hf]⟩) hfilter
    have hfreed := freed_of_freeAll hw
    refine ⟨w, hw, Pmm.ext_test ?_ (hfreed.frameCount.trans hext.frameCount)
      (hfreed.kernelEnd.trans hext.kernelEnd)⟩
    intro f
    have hiff : w.pmm.bitmap.test f = true ↔ v.pmm.bitmap.test f = true := by
      rw [hfreed.test, hext.test, Bool.and_eq_true, decide_eq_true_eq]
      constructor
      · rintro (⟨htest, -⟩ | ⟨h0, page, hpage, rfl⟩)
        · exact htest
        · rcases List.mem_append.mp (hperm.mem_iff.mp hpage) with hmem | hmem
          · obtain ⟨f, hf, rfl⟩ := List.mem_map.mp hmem
            rw [(hframe f hf).1]
            exact (hext.fresh f hf).1
          · rw [hzero page hmem] at h0
            exact absurd (by decide) h0
      · intro htest
        by_cases hf : f ∈ taken
        · refine .inr ⟨?_, Pte.ofFrame f, ?_, (hframe f hf).1.symm⟩
          · have := v.pmm.firstPage_pos
            have := (hext.fresh f hf).2.1
            omega
          · exact hperm.mem_iff.mpr (List.mem_append_left _ (List.mem_map_of_mem hf))
        · exact .inl ⟨htest, hf⟩
    rw [Bool.eq_iff_iff, hiff]

theorem Ext.length_eq {k : ℕ} (hext : Ext v u taken) (hk : v.pmm.Spare k)
    (hscarce : ¬v.pmm.Plenty (taken.length + 1)) : taken.length = k := by
  obtain ⟨⟨l, hnodup, hlen, hl⟩, hmore⟩ := hk
  by_contra hne
  rcases Nat.lt_or_gt_of_ne hne with hlt | hlt
  · exact hscarce ⟨l, hnodup, by omega, hl⟩
  · exact hmore ⟨taken, hext.nodup, hlt, hext.fresh⟩

end

/-! ## Four free frames -/

end Nyvela.Vmm
