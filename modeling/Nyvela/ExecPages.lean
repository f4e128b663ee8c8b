import Nyvela.ExecMachine

/-!
# The pages of a program

`sys_exec` empties the 16 pages at `PROG_BASE` in the address space of the child, maps new
frames there, and undoes that when it fails. An entry that is present but not for users leads
to a frame of the caller, and `kvmunmap_and_free_at` frees it all the same.
-/

namespace Nyvela.Vmm

/-! ## Frames that are freed behind the back of their owner -/

/-- `v` with the frames of `fs` free. -/
def freeing (v : Vmm) (fs : List ℕ) : Vmm :=
  { v with pmm := { v.pmm with bitmap := fs.foldl Bitmap.set v.pmm.bitmap } }

theorem test_freeing (v : Vmm) (fs : List ℕ) (g : ℕ) :
    (v.freeing fs).pmm.bitmap.test g = (v.pmm.bitmap.test g || decide (g ∈ fs)) := by
  have hfold : ∀ b : Bitmap, (fs.foldl Bitmap.set b).test g = (b.test g || decide (g ∈ fs)) := by
    induction fs with
    | nil => simp
    | cons f fs ih =>
      intro b
      rw [List.foldl_cons, ih, Bitmap.test_set, Bool.or_assoc]
      simp
  exact hfold v.pmm.bitmap

theorem freeing_append (v : Vmm) (fs gs : List ℕ) :
    v.freeing (fs ++ gs) = (v.freeing fs).freeing gs := by
  simp only [freeing, List.foldl_append]

section rebase

variable {v w u : Vmm} {h : Held} {loose : List ℕ}

/-- A frame is freed that the address space does not hold. -/
theorem Holds.freeOther (hh : Holds v w h loose) {f : ℕ} (hf : f ∉ loose ++ h.frames) :
    Holds (v.freeing [f]) (w.freeing [f]) h loose := by
  have htook : Took (v.freeing [f]) (w.freeing [f]) (loose ++ h.frames) := by
    refine ⟨hh.took.frameCount, hh.took.kernelEnd, hh.took.codePageCount, hh.took.mmapEntries,
      fun g hg => ?_, hh.took.nodup, fun g => ?_⟩
    · obtain ⟨hfree, hrest⟩ := hh.took.fresh g hg
      have hfree' : v.pmm.bitmap.test g = true := hfree
      exact ⟨(test_freeing ..).trans (by simp [hfree']), hrest⟩
    · rw [test_freeing, test_freeing, hh.took.test]
      by_cases hg : g = f
      · simp [hg, hf]
      · simp [hg]
  exact ⟨htook, hh.pml4e, hh.pdpte,
    fun s hs => ((hh.slot s hs).congr (u := w.freeing [f]) rfl rfl rfl fun _ _ _ _ => rfl).1⟩

/-- An entry that is not a page of the address space is cleared. -/
theorem Holds.clearOther (hh : Holds v w h loose) {s t j : ℕ} (hs : s = 2 ∨ s = 3)
    (ht : t ∈ h.table s) (hj : j < 512) (hpriv : w.isPrivateIn h.pd s (slotBase s) j = false) :
    Holds v (w.setEntry t j 0) h loose := by
  obtain ⟨hd2, hd3, hd4⟩ := hh.table_ne hs ht
  have hentry : ∀ g i, i < 512 → (w.setEntry t j 0).mem.entry g i =
      if g = t ∧ i = j then 0 else w.mem.entry g i := fun g i hi => setEntry_entry _ _ hj hi
  have htook : Took v (w.setEntry t j 0) (loose ++ h.frames) := hh.took.setMem _
  have hcode : (w.setEntry t j 0).codePageCount = w.codePageCount := rfl
  generalize w.setEntry t j 0 = u at hentry htook hcode ⊢
  have hother : ∀ g, g ≠ t → ∀ i < 512, u.mem.entry g i = w.mem.entry g i := by
    intro g hg i hi
    rw [hentry g i hi, if_neg fun hc => hg hc.1]
  refine ⟨htook, ?_, ?_, fun s' hs' => ?_⟩
  · rw [hother _ hd4.symm 0 (by decide)]
    exact hh.pml4e
  · rw [hother _ hd3.symm 0 (by decide)]
    exact hh.pdpte
  have hpd := hother _ hd2.symm s' (by omega)
  by_cases hss : s' = s
  · subst hss
    obtain ⟨hlink, hempty, hpages⟩ := hh.slot s' hs
    have hlead : Leads (u.mem.entry h.pd s') t := by rw [hpd]; exact hlink t ht
    refine ⟨by rw [hpd]; exact hlink, by rw [hpd]; exact hempty, ?_⟩
    refine (hpages.congr fun i hi => ?_).congr_num fun i hi hp => ?_
    · rw [isPrivateIn_of_leads hlead, isPrivateIn_of_leads (hlink t ht), privateAt, privateAt,
        hentry t i hi]
      by_cases hij : i = j
      · rw [isPrivateIn_of_leads (hlink t ht), privateAt] at hpriv
        rw [if_pos ⟨rfl, hij⟩, hij, hpriv]
        simp [isPrivate, show Pte.present 0#64 = false from by decide]
      · simp only [isPrivate, isSharedUserPage, hcode, hij, and_false, if_false]
    · have hij : i ≠ j := by
        rintro rfl
        rw [isPrivateIn_of_leads hlead, privateAt, hentry t i hi, if_pos ⟨rfl, rfl⟩] at hp
        simp [isPrivate, show Pte.present 0#64 = false from by decide] at hp
      rw [pageFrame_of_leads hlead, pageFrame_of_leads (hlink t ht), hentry t i hi,
        if_neg fun hc => hij hc.2]
  · refine ((hh.slot s' hs').congr hcode (congrArg Pte.present hpd) (congrArg Pte.frame hpd)
      fun t' ht' => hother t' (hh.tables_ne hs' hs hss ht' ht)).1

end rebase

/-! ## Emptying the pages -/

/-- The frame that is freed with an entry but is not one of the address space. -/
def strayFrame (e : Word) : List ℕ :=
  if (Pte.present e && Pte.user e) = false ∧ Pte.frame e ≠ 0 then [Pte.frame e] else []

section unmap

variable {v w u : Vmm} {h : Held} {i n : ℕ}

theorem Holds.isPrivateIn_leaf {loose : List ℕ} (hh : Holds v w h loose) (hi : i < 1024)
    (hshared : w.isSharedUserPage (windowPage i).toNat = false) :
    w.isPrivateIn h.pd (2 + i / 512) (slotBase (2 + i / 512)) (i % 512) =
      (Pte.present (w.leafEntry h i) && Pte.user (w.leafEntry h i)) := by
  have hslot := hh.slot (2 + i / 512) (by omega)
  rw [windowPage_toNat hi] at hshared
  rw [leafEntry]
  cases ht : h.table (2 + i / 512) with
  | none =>
    rw [isPrivateIn, hslot.empty ht, Option.elim_none]
    rfl
  | some t =>
    rw [isPrivateIn_of_leads (hslot.link t ht), privateAt, slotBase_window, isPrivate, hshared,
      Option.elim_some, Bool.not_false, Bool.and_true]

theorem Held.frames_erase (h : Held) {s t f : ℕ} (hs : s = 2 ∨ s = 3) (ht : t ∈ h.table s) :
    (h.setSlot s (some t) ((h.made s).erase f)).frames ⊆ h.frames := by
  intro a ha
  have hcount := h.count_setSlot hs (some t) ((h.made s).erase f) a
  rw [Option.mem_def.mp ht] at hcount
  have hle : ((h.made s).erase f).count a ≤ (h.made s).count a := List.erase_sublist.count_le a
  have hpos := List.count_pos_iff.mpr ha
  exact List.count_pos_iff.mp (by omega)

/-- Clearing an entry of the table `t`, which is the only change to memory. -/
theorem Holds.setsLeaf_zero (hh : Holds v w h []) (hi : i < 1024) {t : ℕ}
    (ht : t ∈ h.table (2 + i / 512)) (hmem : u.mem = w.mem) {h' : Held}
    (htable : h'.table = h.table) (hpml4 : h'.pml4 = h.pml4) :
    SetsLeaf w (u.setEntry t (i % 512) 0) h h' i 0 := by
  refine setsLeaf_of_setEntry hi (htable ▸ ht) (fun s hs hne t' ht' => ?_) hpml4 0 (fun j _ => ?_)
    fun a _ => by rw [hmem]
  · rw [htable] at ht'
    exact hh.tables_ne hs (by omega) hne ht' ht
  · rw [leafEntry, leafEntry, htable, hmem]

/-- One page is unmapped, whatever it is. -/
theorem Holds.unmapPage (hh : Holds v w h []) (hi : i < 1024)
    (hshared : w.isSharedUserPage (windowPage i).toNat = false)
    (hstray : ∀ f ∈ strayFrame (w.leafEntry h i), f ∉ h.frames) {b : Bool}
    (hcall : w.kvmunmapAndFreeAt (Pte.ofFrame h.pml4) (windowPage i) = some (b, u)) :
    ∃ h', Holds (v.freeing (strayFrame (w.leafEntry h i))) u h' [] ∧ SetsLeaf w u h h' i 0 ∧
      h'.frames ⊆ h.frames := by
  have hs : 2 + i / 512 = 2 ∨ 2 + i / 512 = 3 := by omega
  have hmod : i % 512 < 512 := Nat.mod_lt _ (by decide)
  have hprivate := hh.isPrivateIn_leaf hi hshared
  rw [kvmunmapAndFreeAt, hh.kgetPteAddrAt hi] at hcall
  cases ht : h.table (2 + i / 512) with
  | none =>
    have hleaf : w.leafEntry h i = 0 := by rw [leafEntry, ht, Option.elim_none]
    rw [hleaf, show strayFrame 0 = [] from by decide]
    simp only [ht, Option.map_none, Option.some.injEq, Prod.mk.injEq] at hcall
    obtain ⟨-, rfl⟩ := hcall
    refine ⟨h, hh, ⟨rfl, fun j _ => ?_, fun _ _ => rfl⟩, List.Subset.refl _⟩
    split_ifs with hji
    · rw [hji, hleaf]
    · rfl
  | some t =>
    simp only [ht, Option.map_some, Option.map_eq_some_iff, Prod.mk.injEq] at hcall
    obtain ⟨u', hfree, -, rfl⟩ := hcall
    have hleaf : w.leafEntry h i = w.mem.entry t (i % 512) := by rw [leafEntry, ht, Option.elim_some]
    rw [← hleaf] at hfree
    have hmem := kpfree_mem hfree
    by_cases hp : (Pte.present (w.leafEntry h i) && Pte.user (w.leafEntry h i)) = true
    · -- a page of the address space
      rw [hp] at hprivate
      rw [strayFrame, if_neg (by simp [hp])]
      rw [hleaf] at hfree
      exact ⟨_, hh.clearLeaf hs ht hmod hprivate hfree,
        hh.setsLeaf_zero hi ht hmem (Held.table_setSlot ht _) rfl, h.frames_erase hs ht⟩
    · rw [Bool.not_eq_true] at hp
      rw [hp] at hprivate
      have hset : SetsLeaf w (u'.setEntry t (i % 512) 0) h h i 0 := hh.setsLeaf_zero hi ht hmem rfl rfl
      obtain ⟨h0, hsame⟩ | ⟨h0, -, -, -, rfl⟩ := kpfree_cases hfree
      · have hframe : Pte.frame (w.leafEntry h i) = 0 := by
          rw [← Pte.frame_addr, h0]
          rfl
        rw [strayFrame, if_neg (by simp [hframe])]
        rw [hsame] at hset ⊢
        exact ⟨h, hh.clearOther hs ht hmod hprivate, hset, List.Subset.refl _⟩
      · have hframe : Pte.frame (w.leafEntry h i) ≠ 0 := by
          intro hc
          rw [Pte.addr_eq_ofFrame, hc] at h0
          exact h0 rfl
        have heq : strayFrame (w.leafEntry h i) = [Pte.frame (w.leafEntry h i)] :=
          if_pos ⟨hp, hframe⟩
        rw [heq] at hstray ⊢
        have hholds := hh.freeOther (hstray _ List.mem_cons_self)
        rw [Pte.frame_addr] at hset ⊢
        exact ⟨h, hholds.clearOther hs ht hmod hprivate, hset, List.Subset.refl _⟩

theorem progPage_eq (i : ℕ) : progPage i = windowPage (256 + i) := by
  rw [progPage, windowPage, progBase, userCodeVirt]
  congr 1
  omega

/-- The bound on shared pages adds a number of pages to an address, and `init` is not as long
as 4 GiB. -/
theorem progPage_unshared (hcode : v.codePageCount ≤ 0x100000) (hi : i < 16) :
    v.isSharedUserPage (windowPage (256 + i)).toNat = false := by
  rw [windowPage_toNat (by omega)]
  have hcode' : ¬userCodeVirt + (256 + i) * 4096 < userCodeVirt + v.codePageCount := by omega
  have hstack : ¬userCodeVirt + (256 + i) * 4096 < userStackTop := by
    rw [userCodeVirt, userStackTop]
    omega
  rw [isSharedUserPage, decide_eq_false hcode', decide_eq_false hstack, Bool.and_false,
    Bool.and_false, Bool.or_false]

theorem Held.tables_subset (h : Held) : h.tables ⊆ h.frames := by
  intro f hf
  simp only [Held.tables, Held.frames, List.mem_append] at hf ⊢
  tauto

/-- What the first `n` pages at `PROG_BASE` lead to, if it is not a frame of the address
space. -/
def strayFrames (w : Vmm) (h : Held) (n : ℕ) : List ℕ :=
  (List.range n).flatMap fun i => strayFrame (w.leafEntry h (256 + i))

theorem strayFrames_succ (w : Vmm) (h : Held) (n : ℕ) :
    w.strayFrames h (n + 1) = w.strayFrames h n ++ strayFrame (w.leafEntry h (256 + n)) := by
  rw [strayFrames, List.range_succ, List.flatMap_append, List.flatMap_singleton, strayFrames]

/-- From `w` to `u` the first `n` pages at `PROG_BASE` become empty. -/
structure Emptied (w u : Vmm) (h h' : Held) (n : ℕ) : Prop where
  pml4 : h'.pml4 = h.pml4
  frames : h'.frames ⊆ h.frames
  leaf : ∀ j < 1024, u.leafEntry h' j = if 256 ≤ j ∧ j < 256 + n then 0 else w.leafEntry h j
  bytes : ∀ a, a / 4096 ∉ h.frames → u.mem a = w.mem a

theorem Holds.unmapProgPages (hh : Holds v w h []) (hcode : w.codePageCount ≤ 0x100000)
    (hn : n ≤ 16) (hstray : ∀ f ∈ w.strayFrames h n, f ∉ h.frames)
    (hcall : w.unmapProgPages (Pte.ofFrame h.pml4) n = some u) :
    ∃ h', Holds (v.freeing (w.strayFrames h n)) u h' [] ∧ Emptied w u h h' n := by
  induction n generalizing u with
  | zero =>
    obtain rfl := Option.some.inj hcall
    refine ⟨h, hh, rfl, List.Subset.refl _, fun j _ => ?_, fun _ _ => rfl⟩
    rw [if_neg (by omega)]
  | succ n ih =>
    obtain ⟨u₁, h₁, hcall⟩ := Option.bind_eq_some_iff.mp hcall
    obtain ⟨⟨b, u₂⟩, hpage, rfl⟩ := Option.map_eq_some_iff.mp hcall
    rw [strayFrames_succ] at hstray ⊢
    obtain ⟨h', hh', hempty⟩ := ih (by omega) (fun f hf => hstray f (List.mem_append_left _ hf)) h₁
    have hleaf : u₁.leafEntry h' (256 + n) = w.leafEntry h (256 + n) := by
      rw [hempty.leaf _ (by omega), if_neg (by omega)]
    have hcode₁ : u₁.codePageCount = w.codePageCount :=
      hh'.took.codePageCount.trans hh.took.codePageCount.symm
    rw [progPage_eq, ← hempty.pml4] at hpage
    obtain ⟨h₂, hh₂, hset, hsub⟩ := hh'.unmapPage (by omega)
      (progPage_unshared (hcode₁.trans_le hcode) (by omega))
      (fun f hf hc => hstray f (List.mem_append_right _ (hleaf ▸ hf)) (hempty.frames hc)) hpage
    rw [hleaf, ← freeing_append] at hh₂
    refine ⟨h₂, hh₂, hset.pml4.trans hempty.pml4, List.Subset.trans hsub hempty.frames, fun j hj => ?_,
      fun a ha => ?_⟩
    · rw [hset.leaf j hj, hempty.leaf j hj]
      by_cases hjn : j = 256 + n
      · rw [if_pos hjn, if_pos (by omega)]
      · rw [if_neg hjn]
        congr 1
        exact propext (by omega)
    · rw [hset.bytes a fun hc => ha (hempty.frames (hsub (h₂.tables_subset hc))), hempty.bytes a ha]

end unmap

/-! ## New pages -/

/-- The first `n` pages at `PROG_BASE` are in the frames `page`, and the others are empty. -/
structure Loaded (v w : Vmm) (h : Held) (n : ℕ) (page : ℕ → ℕ) : Prop where
  holds : Holds v w h []
  le : n ≤ 16
  code : w.codePageCount ≤ 0x100000
  leaf : ∀ j < 16, w.leafEntry h (256 + j) = if j < n then Pte.ofFrame (page j) ||| 0x07 else 0
  lt : ∀ j < n, page j < 2 ^ 52
  isOpen : 0 < n → w.OpenTo h 2

section load

variable {v w u : Vmm} {h : Held} {n i j : ℕ} {page : ℕ → ℕ}

/-- All pages were emptied. -/
theorem Emptied.loaded {h' : Held} (he : Emptied w u h h' 16) (hh : Holds v u h' [])
    (hcode : u.codePageCount ≤ 0x100000) : Loaded v u h' 0 page := by
  refine ⟨hh, by decide, hcode, fun j hj => ?_, fun j hj => absurd hj (by omega),
    fun hc => absurd hc (by omega)⟩
  rw [he.leaf (256 + j) (by omega), if_pos (by omega), if_neg (by omega)]

theorem Loaded.isPrivateIn (hl : Loaded v w h n page) (hj : j < n) :
    w.isPrivateIn h.pd 2 (slotBase 2) (256 + j) = true ∧ w.pageFrame h.pd 2 (256 + j) = page j := by
  have hn := hl.le
  have hleaf := hl.leaf j (by omega)
  rw [if_pos hj] at hleaf
  have hlead : Leads (Pte.ofFrame (page j) ||| 0x07) (page j) :=
    leads_ofFrame_or (hl.lt j hj) (by decide) (by decide)
  have hpriv := hl.holds.isPrivateIn_leaf (i := 256 + j) (by omega)
    (progPage_unshared hl.code (by omega))
  rw [hleaf, hlead.1, user_ofFrame_or, show 2 + (256 + j) / 512 = 2 by omega,
    show (256 + j) % 512 = 256 + j by omega] at hpriv
  refine ⟨hpriv, ?_⟩
  rw [leafEntry, show 2 + (256 + j) / 512 = 2 by omega, show (256 + j) % 512 = 256 + j by omega] at hleaf
  cases ht : h.table 2 with
  | none =>
    rw [ht, Option.elim_none] at hleaf
    rw [← hleaf] at hlead
    exact absurd hlead.1 (by decide)
  | some t =>
    rw [ht, Option.elim_some] at hleaf
    rw [pageFrame_of_leads ((hl.holds.slot 2 (.inl rfl)).link t ht), hleaf, hlead.2]

theorem Loaded.page_mem (hl : Loaded v w h n page) (hj : j < n) : page j ∈ h.made 2 := by
  have hn := hl.le
  obtain ⟨hpriv, hpage⟩ := hl.isPrivateIn hj
  rw [← hpage]
  exact (hl.holds.slot 2 (.inl rfl)).pages.mem _ (by omega) hpriv

theorem Loaded.page_inj (hl : Loaded v w h n page) (hi : i < n) (hj : j < n)
    (heq : page i = page j) : i = j := by
  have hn := hl.le
  obtain ⟨hpi, hi'⟩ := hl.isPrivateIn hi
  obtain ⟨hpj, hj'⟩ := hl.isPrivateIn hj
  have := (hl.holds.slot 2 (.inl rfl)).pages.inj _ (by omega) _ (by omega) hpi hpj (by rw [hi', hj', heq])
  omega

theorem Loaded.page_fresh (hl : Loaded v w h n page) (hj : j < n) : page j ∈ v.pmm.allocatable :=
  hl.holds.took.fresh _ (by simp [Held.frames, hl.page_mem hj])

theorem Holds.made_notMem_tables (hh : Holds v w h []) {f : ℕ} (hf : f ∈ h.made 2) : f ∉ h.tables := by
  have hnd : h.frames.Nodup := hh.took.nodup
  simp only [Held.frames, List.nodup_append, List.mem_append] at hnd
  obtain ⟨-, ⟨-, ⟨-, -, h2⟩, h3⟩, -⟩ := hnd
  simp only [Held.tables, List.mem_append]
  rintro (hc | hc | hc)
  · exact h3 f hc f (.inl hf) rfl
  · exact h2 f hf f (.inl hc) rfl
  · exact h2 f hf f (.inr hc) rfl

theorem Loaded.page_notMem_tables (hl : Loaded v w h n page) (hj : j < n) : page j ∉ h.tables :=
  hl.holds.made_notMem_tables (hl.page_mem hj)

theorem Held.table_mem_tables {s t : ℕ} (hs : s = 2 ∨ s = 3) (ht : t ∈ h.table s) : t ∈ h.tables := by
  rcases hs with rfl | rfl <;> simp [Held.tables, Option.mem_def.mp ht]

section setMem

variable {m : Memory} (hm : ∀ a, a / 4096 ∈ h.tables → m a = w.mem a)

include hm

theorem entry_setMem_tables {t : ℕ} (ht : t ∈ h.tables) (hi : i < 512) :
    (w.setMem m).mem.entry t i = w.mem.entry t i := by
  refine entry_eq_of_bytes (fun a ha => ?_) hi
  rw [setMem_mem]
  exact hm a (ha ▸ ht)

/-- Memory changes, but the tables do not. -/
theorem Holds.setMem {loose : List ℕ} (hh : Holds v w h loose) : Holds v (w.setMem m) h loose := by
  refine (hh.congr (hh.took.setMem m) ?_ fun s hs t ht i hi => ?_).1
  · intro g hg i hi
    rw [entry_setMem_tables hm (List.mem_append_right _ (List.mem_append_right _ hg)) hi]
    exact ⟨rfl, rfl⟩
  · exact entry_setMem_tables hm (Held.table_mem_tables hs ht) hi

theorem leafEntry_setMem (hj : j < 1024) : (w.setMem m).leafEntry h j = w.leafEntry h j := by
  rw [leafEntry, leafEntry]
  cases ht : h.table (2 + j / 512) with
  | none => rfl
  | some t =>
    rw [Option.elim_some, Option.elim_some]
    exact entry_setMem_tables hm (Held.table_mem_tables (by omega) ht) (Nat.mod_lt _ (by decide))

end setMem

/-- One more page. -/
theorem Loaded.mapPage (hl : Loaded v w h n page) (hn : n < 16) (hne : w.kpalloc.1 ≠ 0)
    (hcall : (w.kpalloc.2.setMem (w.kpalloc.2.mem.zeroFrame (Pte.frame w.kpalloc.1))).kvmmapAt
      (Pte.ofFrame h.pml4) (progPage n) w.kpalloc.1 0x07 = some u) :
    ∃ h' f, Loaded v u h' (n + 1) (Function.update page n f) ∧ h'.pml4 = h.pml4 ∧ f ∉ h.frames ∧
      (∀ k < 4096, u.mem (f * 4096 + k) = 0) ∧
      ∀ a, a / 4096 ∉ h'.tables → a / 4096 ≠ f → u.mem a = w.mem a := by
  obtain ⟨f, hf, hnew, hh⟩ := hl.holds.kpalloc hne
  have hflt : f < 2 ^ 52 := hh.took.lt (by simp)
  have hmem : w.kpalloc.2.mem = w.mem := rfl
  have hcode : w.kpalloc.2.codePageCount = w.codePageCount := rfl
  rw [hf, Pte.frame_ofFrame hflt, progPage_eq] at hcall
  generalize w.kpalloc.2 = w₁ at hh hmem hcode hcall
  have hzero : ∀ k < 4096, w₁.mem.zeroFrame f (f * 4096 + k) = 0 := by
    intro k hk
    rw [Memory.zeroFrame, Memory.memset_apply, if_pos (by omega)]
  have hrest : ∀ a, a / 4096 ≠ f → w₁.mem.zeroFrame f a = w.mem a := by
    intro a ha
    rw [Memory.zeroFrame_apply_of_ne _ ha, hmem]
  generalize w₁.mem.zeroFrame f = m at hzero hrest hcall
  have hnot : f ∉ h.frames := hnew
  have hm : ∀ a, a / 4096 ∈ h.tables → m a = w₁.mem a := by
    intro a ha
    rw [hmem, hrest a fun hc => hnot (h.tables_subset (hc ▸ ha))]
  have hz : Holds v (w₁.setMem m) h [f] := hh.setMem hm
  have hleaf : ∀ j < 1024, (w₁.setMem m).leafEntry h j = w.leafEntry h j := by
    intro j hj
    rw [leafEntry_setMem hm hj, leafEntry, leafEntry, hmem]
  have hcode₂ : (w₁.setMem m).codePageCount ≤ 0x100000 := by
    rw [setMem_codePageCount, hcode]
    exact hl.code
  have hshared : (w₁.setMem m).isSharedUserPage (windowPage (256 + n)).toNat = false :=
    progPage_unshared hcode₂ hn
  have hempty : (w₁.setMem m).isPrivateIn h.pd (2 + (256 + n) / 512)
      (slotBase (2 + (256 + n) / 512)) ((256 + n) % 512) = false := by
    rw [hz.isPrivateIn_leaf (by omega) hshared, hleaf _ (by omega), hl.leaf n hn,
      if_neg (lt_irrefl n)]
    decide
  obtain ⟨h', hh', hset, hopen⟩ := hz.kvmmapAt (by omega) hshared hempty hcall
  have hload : Loaded v u h' (n + 1) (Function.update page n f) := by
    refine ⟨hh', by omega, ?_, fun j hj => ?_, fun j hj => ?_, fun _ => ?_⟩
    · rw [hh'.took.codePageCount, ← hz.took.codePageCount]
      exact hcode₂
    · rw [hset.leaf _ (by omega), hleaf _ (by omega), hl.leaf j hj]
      by_cases hjn : j = n
      · subst hjn
        rw [if_pos rfl, if_pos (by omega), Function.update_self]
      · rw [if_neg (by omega), Function.update_of_ne hjn]
        by_cases hlt : j < n
        · rw [if_pos hlt, if_pos (by omega)]
        · rw [if_neg hlt, if_neg (by omega)]
    · by_cases hjn : j = n
      · rw [hjn, Function.update_self]
        exact hflt
      · rw [Function.update_of_ne hjn]
        exact hl.lt j (by omega)
    · rwa [show 2 + (256 + n) / 512 = 2 by omega] at hopen
  have hpage := hload.page_notMem_tables (Nat.lt_succ_self n)
  rw [Function.update_self] at hpage
  refine ⟨h', f, hload, hset.pml4, hnot, fun k hk => ?_, fun a ha hne' => ?_⟩
  · rw [hset.bytes _ (by rwa [show (f * 4096 + k) / 4096 = f by omega]), setMem_mem, hzero k hk]
  · rw [hset.bytes a ha, setMem_mem, hrest a hne']

theorem kpalloc_eq_self (h0 : w.kpalloc.1 = 0) : w.kpalloc.2 = w := by
  have hsame := w.pmm.kpalloc_takes.unchanged h0
  simp only [Vmm.kpalloc, hsame]

/-- What `sys_exec` has when its second loop ends: `m` new pages, all zero. -/
structure ZeroedPages (v w u : Vmm) (h h' : Held) (m : ℕ) (page : ℕ → ℕ) : Prop extends
    Loaded v u h' m page where
  pml4 : h'.pml4 = h.pml4
  zero : ∀ j < m, ∀ k < 4096, u.mem (page j * 4096 + k) = 0
  kept : ∀ a, a / 4096 ∉ v.pmm.allocatable → u.mem a = w.mem a

theorem Loaded.mapProgPages (hl : Loaded v w h 0 page) (hn : n ≤ 16) {r : Except ℕ Unit}
    (hcall : w.mapProgPages (Pte.ofFrame h.pml4) n = some (r, u)) :
    ∃ m h' page', (r = .ok () ∧ m = n ∨ r = .error m ∧ m < n) ∧ ZeroedPages v w u h h' m page' := by
  induction n generalizing r u with
  | zero =>
    obtain ⟨rfl, rfl⟩ := Prod.mk.inj (Option.some.inj hcall)
    exact ⟨0, h, page, .inl ⟨rfl, rfl⟩, hl, rfl, by simp, fun _ _ => rfl⟩
  | succ n ih =>
    obtain ⟨⟨r₁, u₁⟩, h₁, hstep⟩ := Option.bind_eq_some_iff.mp hcall
    obtain ⟨m, h', page', hm, hfill⟩ := ih (by omega) h₁
    rcases hm with ⟨rfl, rfl⟩ | ⟨rfl, hlt⟩
    swap
    · simp only [Option.some.injEq, Prod.mk.injEq] at hstep
      obtain ⟨rfl, rfl⟩ := hstep
      exact ⟨m, h', page', .inr ⟨rfl, by omega⟩, hfill⟩
    simp only at hstep
    split_ifs at hstep with h0
    · simp only [Option.some.injEq, Prod.mk.injEq] at hstep
      obtain ⟨rfl, rfl⟩ := hstep
      rw [kpalloc_eq_self h0]
      exact ⟨m, h', page', .inr ⟨rfl, by omega⟩, hfill⟩
    · obtain ⟨u₂, hmap, heq⟩ := Option.map_eq_some_iff.mp hstep
      obtain ⟨rfl, rfl⟩ := Prod.mk.inj heq
      rw [← hfill.pml4] at hmap
      obtain ⟨h₂, f, hload, hpml4, hnew, hzero, hbytes⟩ := hfill.mapPage (by omega) h0 hmap
      refine ⟨m + 1, h₂, _, .inl ⟨rfl, rfl⟩, hload, hpml4.trans hfill.pml4, fun j hj k hk => ?_,
        fun a ha => ?_⟩
      · have hout := hload.page_notMem_tables hj
        by_cases hjm : j = m
        · rw [hjm, Function.update_self]
          exact hzero k hk
        · rw [Function.update_of_ne hjm] at hout ⊢
          have hdiv : (page' j * 4096 + k) / 4096 = page' j := by omega
          have hold : page' j ∈ h'.frames := by
            simp [Held.frames, hfill.page_mem (show j < m by omega)]
          rw [hbytes _ (by rwa [hdiv]) (by rw [hdiv]; rintro rfl; exact hnew hold)]
          exact hfill.zero j (by omega) k hk
      · have htook := hload.holds.took
        have hf := hload.page_fresh (Nat.lt_succ_self m)
        rw [Function.update_self] at hf
        rw [hbytes a (fun hc => ha (htook.fresh _ (h₂.tables_subset hc)))
          (by rintro rfl; exact ha hf), hfill.kept a ha]

/-! ## Writing through the address space -/

/-- Where byte `d` of the image is in memory. -/
def imageAddr (page : ℕ → ℕ) (d : ℕ) : ℕ := page (d / 4096) * 4096 + d % 4096

theorem imageAddr_div (page : ℕ → ℕ) (d : ℕ) : imageAddr page d / 4096 = page (d / 4096) := by
  rw [imageAddr]
  omega

theorem progByte_toNat {d : ℕ} (hd : d < 0x10000) :
    (progPage 0 + BitVec.ofNat 64 d).toNat = progBase + d := by
  rw [progPage, BitVec.toNat_add, BitVec.toNat_ofNat, BitVec.toNat_ofNat, progBase]
  omega

theorem Loaded.imageAddr_inj (hl : Loaded v w h n page) {d d' : ℕ} (hd : d < n * 4096)
    (hd' : d' < n * 4096) (heq : imageAddr page d = imageAddr page d') : d = d' := by
  have hpage : page (d / 4096) = page (d' / 4096) := by
    rw [← imageAddr_div page d, ← imageAddr_div page d', heq]
  have hdiv := hl.page_inj (by omega) (by omega) hpage
  rw [imageAddr, imageAddr, hpage] at heq
  omega

theorem Loaded.imageAddr_notMem (hl : Loaded v w h n page) {d : ℕ} (hd : d < n * 4096) :
    imageAddr page d / 4096 ∉ h.tables := by
  rw [imageAddr_div]
  exact hl.page_notMem_tables (by omega)

/-- The kernel finds the image where the child does. -/
theorem Loaded.translate (hl : Loaded v w h n page) {d : ℕ} (hd : d < n * 4096) :
    w.translate (Pte.ofFrame h.pml4) (progPage 0 + BitVec.ofNat 64 d) = some (imageAddr page d) := by
  have hn := hl.le
  have hnat := progByte_toNat (show d < 0x10000 by omega)
  have hwin : (windowPage (256 + d / 4096)).toNat = userCodeVirt + (256 + d / 4096) * 4096 :=
    windowPage_toNat (by omega)
  rw [progBase] at hnat
  rw [userCodeVirt] at hwin
  have hsame : w.kgetPteAddrAt (Pte.ofFrame h.pml4) (progPage 0 + BitVec.ofNat 64 d) =
      w.kgetPteAddrAt (Pte.ofFrame h.pml4) (windowPage (256 + d / 4096)) := by
    have h4 : Pte.pml4Index (progPage 0 + BitVec.ofNat 64 d) =
        Pte.pml4Index (windowPage (256 + d / 4096)) := by
      rw [Pte.pml4Index_eq, Pte.pml4Index_eq, hnat, hwin]
      omega
    have h3 : Pte.pdptIndex (progPage 0 + BitVec.ofNat 64 d) =
        Pte.pdptIndex (windowPage (256 + d / 4096)) := by
      rw [Pte.pdptIndex_eq, Pte.pdptIndex_eq, hnat, hwin]
      omega
    have h2 : Pte.pdIndex (progPage 0 + BitVec.ofNat 64 d) =
        Pte.pdIndex (windowPage (256 + d / 4096)) := by
      rw [Pte.pdIndex_eq, Pte.pdIndex_eq, hnat, hwin]
      omega
    have h1 : Pte.ptIndex (progPage 0 + BitVec.ofNat 64 d) =
        Pte.ptIndex (windowPage (256 + d / 4096)) := by
      rw [Pte.ptIndex_eq, Pte.ptIndex_eq, hnat, hwin]
      omega
    rw [kgetPteAddrAt, kgetPteAddrAt, h4, h3, h2, h1]
  have hleaf := hl.leaf (d / 4096) (by omega)
  rw [if_pos (by omega), leafEntry] at hleaf
  have hlead : Leads (Pte.ofFrame (page (d / 4096)) ||| 0x07) (page (d / 4096)) :=
    leads_ofFrame_or (hl.lt _ (by omega)) (by decide) (by decide)
  rw [Vmm.translate, hsame, hl.holds.kgetPteAddrAt (by omega)]
  cases ht : h.table (2 + (256 + d / 4096) / 512) with
  | none =>
    rw [ht, Option.elim_none] at hleaf
    rw [← hleaf] at hlead
    exact absurd hlead.1 (by decide)
  | some t =>
    rw [ht, Option.elim_some] at hleaf
    simp only [Option.map_some, hleaf, hlead.1, hlead.2, if_true, hnat, imageAddr, Option.some.injEq]
    omega

theorem Loaded.setMem (hl : Loaded v w h n page) {m : Memory}
    (hm : ∀ a, a / 4096 ∈ h.tables → m a = w.mem a) : Loaded v (w.setMem m) h n page where
  holds := hl.holds.setMem hm
  le := hl.le
  code := hl.code
  leaf j hj := (leafEntry_setMem hm (by omega)).trans (hl.leaf j hj)
  lt := hl.lt
  isOpen hn := by
    obtain ⟨h4, h3, h2⟩ := hl.isOpen hn
    have hkeep : ∀ {t i : ℕ}, t ∈ h.tables → i < 512 → Pte.user (w.mem.entry t i) = true →
        Pte.user ((w.setMem m).mem.entry t i) = true := fun ht hi hu => by
      rw [entry_setMem_tables hm ht hi, hu]
    exact ⟨hkeep (by simp [Held.tables]) (by decide) h4, hkeep (by simp [Held.tables]) (by decide) h3,
      hkeep (by simp [Held.tables]) (by decide) h2⟩

/-- `memcpy` to the image stores the bytes there and changes no others. -/
theorem Loaded.writeAt (hl : Loaded v w h n page) (l : List (BitVec 8)) {d : ℕ}
    (hd : d + l.length ≤ n * 4096) :
    ∃ m, Vmm.writeAt (Pte.ofFrame h.pml4) (progPage 0 + BitVec.ofNat 64 d) l w = some (w.setMem m) ∧
      (∀ k (hk : k < l.length), m (imageAddr page (d + k)) = l[k]) ∧
      ∀ a, (∀ k < l.length, a ≠ imageAddr page (d + k)) → m a = w.mem a := by
  induction l generalizing d w with
  | nil => exact ⟨w.mem, rfl, by simp, fun _ _ => rfl⟩
  | cons b l ih =>
    rw [List.length_cons] at hd
    have hout := hl.imageAddr_notMem (show d < n * 4096 by omega)
    have hl' : Loaded v (w.setMem (w.mem.store (imageAddr page d) b)) h n page := by
      refine hl.setMem fun a ha => Memory.store_of_ne _ _ ?_
      rintro rfl
      exact hout ha
    obtain ⟨m, hcall, hin, hrest⟩ := ih hl' (d := d + 1) (by omega)
    have hnext : progPage 0 + BitVec.ofNat 64 d + 1 = progPage 0 + BitVec.ofNat 64 (d + 1) := by
      rw [BitVec.add_assoc, BitVec.ofNat_add]
      rfl
    refine ⟨m, ?_, ?_, ?_⟩
    · rw [Vmm.writeAt, hl.translate (by omega), Option.bind_some, hnext, hcall]
      rfl
    · intro k hk
      cases k with
      | zero =>
        rw [Nat.add_zero, hrest _ fun k hk' heq => ?_, setMem_mem, Memory.store_self]
        · rfl
        · have := hl.imageAddr_inj (show d < n * 4096 by omega) (by omega) heq
          omega
      | succ k =>
        rw [List.length_cons] at hk
        rw [show d + (k + 1) = d + 1 + k by omega, hin k (by omega)]
        rfl
    · intro a ha
      rw [hrest a fun k hk => ?_, setMem_mem, Memory.store_of_ne _ _ ?_]
      · exact ha 0 (by simp)
      · rw [show d + 1 + k = d + (k + 1) by omega]
        exact ha (k + 1) (by simpa using hk)

end load

end Nyvela.Vmm
