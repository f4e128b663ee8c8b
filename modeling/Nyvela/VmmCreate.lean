import Nyvela.VmmBuild

/-!
# Making an address space

In the layout of the identity map `kvmm_create_user_pml4` makes an address space like the
ones there are.
-/

namespace Nyvela.Vmm

/-! ## Clean-up after a failure -/

/-- What is left after a failure: apart from frames that were free before, only the frames
`named` may have become free, and no frame that was used has been written. -/
structure Undone (v w : Vmm) (named : ℕ → Prop) : Prop where
  frameCount : w.pmm.frameCount = v.pmm.frameCount
  kernelEnd : w.pmm.kernelEnd = v.pmm.kernelEnd
  codePageCount : w.codePageCount = v.codePageCount
  mmapEntries : w.mmapEntries = v.mmapEntries
  test : ∀ f, w.pmm.bitmap.test f = true → v.pmm.bitmap.test f = true ∨ named f
  bytes : ∀ a, v.pmm.bitmap.test (a / 4096) = false → w.mem a = v.mem a

section undone

variable {v w w' : Vmm} {named : ℕ → Prop} {taken : List ℕ}

theorem Ext.undone (h : Ext v w taken) (named : ℕ → Prop) : Undone v w named where
  frameCount := h.frameCount
  kernelEnd := h.kernelEnd
  codePageCount := h.codePageCount
  mmapEntries := h.mmapEntries
  test f hf := by
    rw [h.test, Bool.and_eq_true] at hf
    exact .inl hf.1
  bytes a ha := h.bytes a (h.notMem_of_used ha)

theorem Undone.kpfree (h : Undone v w named) {page : Word} (hw' : w.kpfree page = some w')
    (hpage : page ≠ 0 → v.pmm.bitmap.test (Pte.frame page) = true ∨ named (Pte.frame page)) :
    Undone v w' named := by
  obtain ⟨-, rfl⟩ | ⟨h0, -, -, -, rfl⟩ := kpfree_cases hw'
  · exact h
  · constructor
    case frameCount => exact h.frameCount
    case kernelEnd => exact h.kernelEnd
    case codePageCount => exact h.codePageCount
    case mmapEntries => exact h.mmapEntries
    case test =>
      intro f hf
      rw [Bitmap.test_set, Bool.or_eq_true, decide_eq_true_eq] at hf
      rcases hf with hf | rfl
      · exact h.test f hf
      · exact hpage h0
    case bytes => exact h.bytes

theorem Undone.freeAll {pages : List Word} (h : Undone v w named)
    (hw' : Vmm.freeAll pages w = some w')
    (hpages : ∀ page ∈ pages, page ≠ 0 →
      v.pmm.bitmap.test (Pte.frame page) = true ∨ named (Pte.frame page)) :
    Undone v w' named := by
  induction pages generalizing w with
  | nil =>
    obtain rfl := Option.some.inj hw'
    exact h
  | cons page pages ih =>
    simp only [Vmm.freeAll, List.foldlM_cons, Option.bind_eq_bind,
      Option.bind_eq_some_iff] at hw'
    obtain ⟨w1, hw1, hw'⟩ := hw'
    exact ih (h.kpfree hw1 (hpages page List.mem_cons_self)) hw'
      fun p hp => hpages p (List.mem_cons_of_mem _ hp)

end undone

/-! ## Creation in a layout -/

/-- The frames that the present entries of table `t` name. -/
def Names (v : Vmm) (t f : ℕ) : Prop :=
  ∃ i < 512, Pte.present (v.mem.entry t i) = true ∧ Pte.frame (v.mem.entry t i) = f

/-- `w` has a new address space, made after `sp` of `v`. Page `i` of the window is in frame
`page i`, one of `made`, if it is private. -/
structure Created (v w : Vmm) (sp new : Space) (page : ℕ → ℕ) (made : List ℕ) : Prop where
  ext : Ext v w (new.pt3 :: (made ++ [new.pt2, new.pd, new.pdpt, new.pml4]))
  first : IsLeast v.pmm.allocatable new.pml4
  pml4e : Leads (w.mem.entry new.pml4 0) new.pdpt
  pdpte : Leads (w.mem.entry new.pdpt 0) new.pd
  pde2 : Leads (w.mem.entry new.pd 2) new.pt2
  pde3 : Leads (w.mem.entry new.pd 3) new.pt3
  pde : ∀ i < 512, i ≠ 2 → i ≠ 3 → w.mem.entry new.pd i = v.mem.entry sp.pd i
  pt2 : ∀ i < 512, w.mem.entry new.pt2 i =
    v.copyOf (userCodeVirt + i * 4096) (v.mem.entry sp.pt2 i) (page i)
  pt3 : ∀ i < 512, w.mem.entry new.pt3 i = v.mem.entry sp.pt3 i
  page_mem : ∀ i < 512, v.isPrivate (userCodeVirt + i * 4096) (v.mem.entry sp.pt2 i) = true →
    page i ∈ made
  page_inj : ∀ i < 512, ∀ j < 512,
    v.isPrivate (userCodeVirt + i * 4096) (v.mem.entry sp.pt2 i) = true →
    v.isPrivate (userCodeVirt + j * 4096) (v.mem.entry sp.pt2 j) = true → page i = page j → i = j

section create

variable {v w : Vmm} {own : ℕ → Option Owner} {shared : ℕ → ℕ} {spaces : List Space} {sp : Space}

theorem Layout.source_eq (h : v.Layout own shared spaces) (hsp : sp ∈ spaces) {cr3 : Word}
    (hcr3 : Pte.frame cr3 = sp.pml4) : v.source cr3 = sp := by
  have h2 : Pte.frame (v.mem.entry sp.pd 2) = sp.pt2 := (h.pde sp hsp 2 (by decide)).2
  have h3 : Pte.frame (v.mem.entry sp.pd 3) = sp.pt3 := (h.pde sp hsp 3 (by decide)).2
  simp only [source, hcr3, (h.pml4e sp hsp).2, (h.pdpte sp hsp).2, h2, h3]

theorem notAllocatable_of_used {f : ℕ} (hf : v.pmm.bitmap.test f = false) :
    f ∉ v.pmm.allocatable := by
  intro hmem
  have hfree : v.pmm.bitmap.test f = true := hmem.1
  simp [hf] at hfree

theorem Layout.intact (h : v.Layout own shared spaces) (hsp : sp ∈ spaces) : Intact v sp where
  pml4 := notAllocatable_of_used (h.used _ (by simp [h.ownPml4 sp hsp]))
  pdpt := notAllocatable_of_used (h.used _ (by simp [h.ownPdpt sp hsp]))
  pd := notAllocatable_of_used (h.used _ (by simp [h.ownPd sp hsp]))
  pt2 _ := notAllocatable_of_used (h.used _ (by simp [h.ownPt2 sp hsp]))
  pt3 _ := notAllocatable_of_used (h.used _ (by simp [h.ownPt3 sp hsp]))

/-- No page from `0x600000` on is open to users, so none is private. -/
theorem Layout.not_isPrivateIn (h : v.Layout own shared spaces) (hsp : sp ∈ spaces) {i : ℕ}
    (hi : i < 512) : v.isPrivateIn sp.pd 3 progStackTop i = false := by
  have h3 : Pte.frame (v.mem.entry sp.pd 3) = sp.pt3 := (h.pde sp hsp 3 (by decide)).2
  simp [isPrivateIn, privateAt, isPrivate, h3, h.kernelOnly sp hsp i hi]

theorem Layout.privateBefore_eq_zero (h : v.Layout own shared spaces) (hsp : sp ∈ spaces) :
    v.privateBefore sp.pd 3 progStackTop 512 = 0 := by
  rw [privateBefore, List.countP_eq_zero]
  intro i hi
  simp [h.not_isPrivateIn hsp (List.mem_range.mp hi)]

theorem Built.created {new : NewSpace} (hb : Built v w sp new) (h : v.Layout own shared spaces)
    (hsp : sp ∈ spaces) : ∃ space, space.pml4 = new.pml4 ∧
      Created v w sp space new.page2 new.made2 := by
  obtain ⟨hp2, hf2⟩ := h.pde sp hsp 2 (by decide)
  obtain ⟨hp3, hf3⟩ := h.pde sp hsp 3 (by decide)
  obtain ⟨p4, p3, p2, t2, t3, page2, page3, made2, made3⟩ := new
  obtain ⟨t2, rfl⟩ := Option.isSome_iff_exists.mp (hb.slot2.present.trans hp2)
  obtain ⟨t3, rfl⟩ := Option.isSome_iff_exists.mp (hb.slot3.present.trans hp3)
  have hnone : made3 = [] := by
    apply List.eq_nil_iff_forall_not_mem.mpr
    intro f hf
    obtain ⟨i, hi, hp, -⟩ := hb.slot3.pages.of_mem f hf
    simp [h.not_isPrivateIn hsp hi] at hp
  subst hnone
  have hext := hb.ext
  simp only [NewSpace.frames, Option.toList_some, List.nil_append, List.cons_append] at hext
  have hpages : Numbering (v.privateAt sp.pt2 userCodeVirt) 512 page2 made2 :=
    hb.slot2.pages.congr fun i _ => by
      rw [isPrivateIn, hp2, Bool.true_and, hf2]
      rfl
  refine ⟨⟨p4, p3, p2, t2, t3⟩, rfl, ?_⟩
  constructor
  case ext => exact hext
  case first => exact hb.first
  case pml4e =>
    rw [hb.pml4e]
    exact leads_linkTo (hext.lt (by simp)) _
  case pdpte =>
    rw [hb.pdpte]
    exact leads_linkTo (hext.lt (by simp)) _
  case pde2 =>
    rw [hb.slot2.link t2 rfl]
    exact leads_linkTo (hext.lt (by simp)) _
  case pde3 =>
    rw [hb.slot3.link t3 rfl]
    exact leads_linkTo (hext.lt (by simp)) _
  case pde => exact hb.pd
  case pt2 =>
    intro i hi
    rw [hb.slot2.entry t2 rfl i hi, hf2]
    rfl
  case pt3 =>
    intro i hi
    have hpriv := h.not_isPrivateIn hsp hi
    rw [isPrivateIn, hp3, Bool.true_and, hf3] at hpriv
    rw [hb.slot3.entry t3 rfl i hi, hf3, copyOf_of_not_private hpriv]
    exact if_pos (h.pt3e hsp hi).1
  case page_mem => exact hpages.mem
  case page_inj => exact hpages.inj

/-- In a layout only frames that the table of `0x400000` names are freed by mistake. -/
theorem Stopped.undone {taken : List ℕ} {pages : List Word} {u : Vmm}
    (hs : Stopped v sp u taken pages) (h : v.Layout own shared spaces) (hsp : sp ∈ spaces)
    (hw : freeAll pages u = some w) : Undone v w (v.Names sp.pt2) := by
  obtain ⟨hp2, hf2⟩ := h.pde sp hsp 2 (by decide)
  obtain ⟨strays, hperm, hstrays⟩ := hs.frees
  have hnames : ∀ {m sel page}, (∀ i e, sel i e = true → Pte.present e = true) →
      v.Kept sp.pd 2 userCodeVirt m sel page → v.Names sp.pt2 (Pte.frame page) := by
    rintro m sel page hsel ⟨i, hi, -, -, hs, rfl⟩
    rw [cleanupEntry, if_pos hp2, hf2] at hs ⊢
    exact ⟨i, hi, hsel i _ hs, by rw [Pte.frame_addr]; rfl⟩
  refine (hs.ext.undone _).freeAll hw fun page hpage h0 => ?_
  rcases List.mem_append.mp (hperm.mem_iff.mp hpage) with hmem | hmem
  · obtain ⟨f, hf, rfl⟩ := List.mem_map.mp hmem
    rw [Pte.frame_ofFrame (hs.ext.lt hf)]
    exact .inl (hs.ext.fresh f hf).1
  · right
    have hstray := (hstrays page h0).mp hmem
    unfold Stray at hstray
    split_ifs at hstray
    · exact hnames (fun _ _ hp => hp) hstray
    · rcases hstray with hkept | ⟨hlt, -⟩
      · exact hnames present_of_userPresent hkept
      · have hshort := hs.short
        simp only [framesNeeded, h.privateBefore_eq_zero hsp] at hshort
        split_ifs at hshort <;> omega

theorem createUserPml4_ensures (h : v.Layout own shared spaces) (hsp : sp ∈ spaces) {cr3 : Word}
    (hcr3 : Pte.frame cr3 = sp.pml4) :
    Ensures (v.createUserPml4 cr3)
      (fun r => ∃ new page made, r.1 = Pte.ofFrame new.pml4 ∧ Created v r.2 sp new page made)
      (fun c => ¬v.pmm.Plenty 517 ∧ ∀ w, c = some w → Undone v w (v.Names sp.pt2)) := by
  apply (createUserPml4_spec (h.source_eq hsp hcr3).symm (h.intact hsp)).mono
  · rintro r ⟨new, hr, hbuilt⟩
    obtain ⟨space, hpml4, hcreated⟩ := hbuilt.created h hsp
    exact ⟨space, _, _, hpml4 ▸ hr, hcreated⟩
  · rintro c ⟨u, taken, pages, hs, rfl⟩
    refine ⟨?_, fun w hw => hs.undone h hsp hw⟩
    rintro ⟨l, hnodup, hlen, hl⟩
    have hle := v.privateBefore_le sp.pd 2 userCodeVirt 512
    have hshort := hs.short
    simp only [framesNeeded, takenBefore, tablesBefore, h.privateBefore_eq_zero hsp] at hshort
    exact hs.scarce ⟨l, hnodup, by split_ifs at hshort <;> omega, hl⟩

theorem Undone.entry {named : ℕ → Prop} (h : Undone v w named) {f j : ℕ}
    (hf : v.pmm.bitmap.test f = false) (hj : j < 512) : w.mem.entry f j = v.mem.entry f j := by
  apply Memory.entry_congr _ hj
  intro k hk
  apply h.bytes
  rwa [show (f * 4096 + k) / 4096 = f by omega]

/-- A failed creation keeps the layout if it frees nothing that is in use. -/
theorem Undone.layout {named : ℕ → Prop} (hu : Undone v w named)
    (h : v.Layout own shared spaces) (hown : ∀ f, own f ≠ none → ¬named f) :
    w.Layout own shared spaces := by
  refine h.congr ?_ ?_ ?_
  · intro f hf
    rw [Bool.eq_false_iff]
    intro htest
    rcases hu.test f htest with hfree | hnamed
    · rw [h.used f hf] at hfree
      exact Bool.false_ne_true hfree
    · exact hown f hf hnamed
  · intro f o hf ho j hj
    rw [hu.entry (h.used f (by simp [hf])) hj]
    exact ⟨rfl, rfl⟩
  · intro sp hsp j hj
    exact hu.entry (h.used _ (by simp [h.ownPt3 sp hsp])) hj

/-- A layout also describes a later state, with more frames in use. -/
theorem Ext.layout {taken : List ℕ} (hext : Ext v w taken) (h : v.Layout own shared spaces)
    {own' : ℕ → Option Owner} (hown : ∀ f, f ∉ taken → own' f = own f) :
    w.Layout own' shared spaces := by
  have hsame : ∀ {f o}, own f = some o → own' f = some o := by
    intro f o hf
    rw [hown f (hext.notMem_of_used (h.used f (by simp [hf]))), hf]
  have hentry : ∀ {f o}, own f = some o → ∀ {j}, j < 512 →
      w.mem.entry f j = v.mem.entry f j := by
    intro f o hf j hj
    exact hext.entry (hext.notMem_of_used (h.used f (by simp [hf]))) hj
  constructor
  case used =>
    intro f hf
    rw [hext.test f]
    by_cases hmem : f ∈ taken
    · simp [hmem]
    · rw [hown f hmem] at hf
      rw [h.used f hf, Bool.false_and]
  case ownPml4 => exact fun sp hsp => hsame (h.ownPml4 sp hsp)
  case ownPdpt => exact fun sp hsp => hsame (h.ownPdpt sp hsp)
  case ownPd => exact fun sp hsp => hsame (h.ownPd sp hsp)
  case ownPt2 => exact fun sp hsp => hsame (h.ownPt2 sp hsp)
  case ownPt3 => exact fun sp hsp => hsame (h.ownPt3 sp hsp)
  case ownShared => exact fun i hi h2 h3 => hsame (h.ownShared i hi h2 h3)
  case pml4e =>
    intro sp hsp
    rw [hentry (h.ownPml4 sp hsp) (by decide)]
    exact h.pml4e sp hsp
  case pdpte =>
    intro sp hsp
    rw [hentry (h.ownPdpt sp hsp) (by decide)]
    exact h.pdpte sp hsp
  case pde =>
    intro sp hsp i hi
    rw [hentry (h.ownPd sp hsp) hi]
    exact h.pde sp hsp i hi
  case pte =>
    intro sp hsp i hi h2 j hj
    obtain ⟨o, ho⟩ := h.own_pt hsp hi
    rw [hentry ho hj]
    exact h.pte sp hsp i hi h2 j hj
  case kernelOnly =>
    intro sp hsp j hj
    rw [hentry (h.ownPt3 sp hsp) hj]
    exact h.kernelOnly sp hsp j hj

/-- Who owns what once there is a new address space; its private pages are for `o`. -/
def createdOwner (own : ℕ → Option Owner) (new : Space) (made : List ℕ) (o : Option Owner)
    (f : ℕ) : Option Owner :=
  if f = new.pml4 then some (.table new.pml4 0)
  else if f = new.pdpt then some (.table new.pml4 1)
  else if f = new.pd then some (.table new.pml4 2)
  else if f = new.pt2 then some (.table new.pml4 3)
  else if f = new.pt3 then some (.table new.pml4 4)
  else if f ∈ made then o else own f

theorem createdOwner_of_notMem {new : Space} {made : List ℕ} {o : Option Owner} {f : ℕ}
    (hf : f ∉ new.pt3 :: (made ++ [new.pt2, new.pd, new.pdpt, new.pml4])) :
    createdOwner own new made o f = own f := by
  simp only [List.mem_cons, List.mem_append, List.not_mem_nil, or_false, not_or] at hf
  obtain ⟨h3, hm, h2, hpd, hpdpt, hpml4⟩ := hf
  simp [createdOwner, h3, hm, h2, hpd, hpdpt, hpml4]

/-- The new address space joins the layout. -/
theorem Created.layout {new : Space} {page : ℕ → ℕ} {made : List ℕ}
    (hc : Created v w sp new page made) (h : v.Layout own shared spaces) (hsp : sp ∈ spaces)
    (o : Option Owner) : w.Layout (createdOwner own new made o) shared (new :: spaces) := by
  have hnd := hc.ext.nodup
  simp only [List.nodup_cons, List.nodup_append, List.mem_append, List.mem_cons, List.not_mem_nil,
    or_false, not_or] at hnd
  obtain ⟨⟨-, h32, h3p2, h3p3, h3p4⟩, -, ⟨⟨h2p2, h2p3, h2p4⟩, ⟨h23, h24⟩, h34, -⟩, -⟩ := hnd
  have h4 : createdOwner own new made o new.pml4 = some (.table new.pml4 0) := by
    simp [createdOwner]
  have h3 : createdOwner own new made o new.pdpt = some (.table new.pml4 1) := by
    simp [createdOwner, h34]
  have h2 : createdOwner own new made o new.pd = some (.table new.pml4 2) := by
    simp [createdOwner, h24, h23]
  have ht2 : createdOwner own new made o new.pt2 = some (.table new.pml4 3) := by
    simp [createdOwner, h2p4, h2p3, h2p2]
  have ht3 : createdOwner own new made o new.pt3 = some (.table new.pml4 4) := by
    simp [createdOwner, h3p4, h3p3, h3p2, h32]
  have hold : w.Layout (createdOwner own new made o) shared spaces :=
    hc.ext.layout h fun f hf => createdOwner_of_notMem hf
  constructor
  case used => exact hold.used
  case ownPml4 => exact List.forall_mem_cons.mpr ⟨h4, hold.ownPml4⟩
  case ownPdpt => exact List.forall_mem_cons.mpr ⟨h3, hold.ownPdpt⟩
  case ownPd => exact List.forall_mem_cons.mpr ⟨h2, hold.ownPd⟩
  case ownPt2 => exact List.forall_mem_cons.mpr ⟨ht2, hold.ownPt2⟩
  case ownPt3 => exact List.forall_mem_cons.mpr ⟨ht3, hold.ownPt3⟩
  case ownShared => exact hold.ownShared
  case pml4e => exact List.forall_mem_cons.mpr ⟨hc.pml4e, hold.pml4e⟩
  case pdpte => exact List.forall_mem_cons.mpr ⟨hc.pdpte, hold.pdpte⟩
  case pde =>
    refine List.forall_mem_cons.mpr ⟨fun i hi => ?_, hold.pde⟩
    by_cases hi2 : i = 2
    · simpa [Space.pt, hi2] using hc.pde2
    · by_cases hi3 : i = 3
      · simpa [Space.pt, hi3] using hc.pde3
      · have hpde := h.pde sp hsp i hi
        rw [hc.pde i hi hi2 hi3]
        simpa only [Space.pt, hi2, hi3, if_false] using hpde
  case pte =>
    refine List.forall_mem_cons.mpr ⟨fun i hi hi2 j hj => ?_, hold.pte⟩
    by_cases hi3 : i = 3
    · subst hi3
      have hpt3 : new.pt shared 3 = new.pt3 := rfl
      rw [hpt3, hc.pt3 j hj]
      exact h.pt3e hsp hj
    · have hpte := hold.pte sp hsp i hi hi2 j hj
      simpa only [Space.pt, hi2, hi3, if_false] using hpte
  case kernelOnly =>
    refine List.forall_mem_cons.mpr ⟨fun j hj => ?_, hold.kernelOnly⟩
    rw [hc.pt3 j hj]
    exact h.kernelOnly sp hsp j hj

end create

end Nyvela.Vmm
