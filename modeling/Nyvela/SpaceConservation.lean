import Mathlib.Logic.Relation
import Nyvela.SpaceCopy
import Nyvela.VmmFailure

/-!
# Conservation of frames

Creation, `kvmmap_at`, `kvmunmap_and_free_at` and `kvmm_free_user_pml4` each tell by the
entry alone whether a page belongs to the address space. Here the frames that an
address space holds are followed from its creation to its end.
-/

namespace Nyvela.Vmm

/-- The frame in entry `i` of the table that entry `slot` of the directory leads to. -/
def pageFrame (w : Vmm) (pd slot i : ℕ) : ℕ :=
  Pte.frame (w.mem.entry (Pte.frame (w.mem.entry pd slot)) i)

/-- The address where the table behind entry `slot` of the first directory starts. -/
def slotBase (slot : ℕ) : ℕ := slot * 0x200000

/-- The tables of an address space, and for the entries 2 and 3 of its directory the table
there, if any, and the frames of the pages. -/
structure Held where
  pml4 : ℕ
  pdpt : ℕ
  pd : ℕ
  table : ℕ → Option ℕ
  made : ℕ → List ℕ

def Held.frames (h : Held) : List ℕ :=
  h.made 3 ++ ((h.table 3).toList ++ (h.made 2 ++ ((h.table 2).toList ++ [h.pd, h.pdpt, h.pml4])))

/-- The frames of the page tables alone. -/
def Held.tables (h : Held) : List ℕ :=
  (h.table 3).toList ++ ((h.table 2).toList ++ [h.pd, h.pdpt, h.pml4])

/-- The table behind one entry of the directory, and its pages. -/
structure HoldsSlot (w : Vmm) (pd slot : ℕ) (t : Option ℕ) (made : List ℕ) : Prop where
  link : ∀ t' ∈ t, Leads (w.mem.entry pd slot) t'
  empty : t = none → Pte.present (w.mem.entry pd slot) = false
  pages : Numbering (w.isPrivateIn pd slot (slotBase slot)) 512 (w.pageFrame pd slot) made

/-- Since `v` exactly the frames of the address space `h` and those in `loose` were taken. -/
structure Holds (v w : Vmm) (h : Held) (loose : List ℕ) : Prop where
  took : Took v w (loose ++ h.frames)
  pml4e : Leads (w.mem.entry h.pml4 0) h.pdpt
  pdpte : Leads (w.mem.entry h.pdpt 0) h.pd
  slot : ∀ s, s = 2 ∨ s = 3 → HoldsSlot w h.pd s (h.table s) (h.made s)

section holds

variable {v w u : Vmm} {h : Held} {loose : List ℕ}

/-! ## The end of an address space -/

/-- What `kvmm_free_user_pml4` frees of one table. -/
def slotPages (w : Vmm) (pd slot : ℕ) : List Word :=
  if Pte.present (w.mem.entry pd slot) then
    selected w.mem (Pte.frame (w.mem.entry pd slot))
      (fun i e => Pte.present e && Pte.user e && !w.isSharedUserPage (slotBase slot + i * 4096)) 512
        ++ [Pte.addr (w.mem.entry pd slot)]
  else []

theorem freeTable_bind {pd slot : ℕ} {f : Vmm → Option Vmm} {l : List Word}
    (hf : ∀ u, u.mem = w.mem → u.codePageCount = w.codePageCount → f u = freeAll l u) :
    (w.freeTable pd slot (slotBase slot)).bind f = freeAll (w.slotPages pd slot ++ l) w := by
  simp only [freeTable, slotPages]
  split_ifs with hp
  · rw [Option.bind_assoc, List.append_assoc]
    refine freeEntries_bind fun u hmem hcode => ?_
    simp only [List.cons_append, List.nil_append, freeAll, List.foldlM_cons, Option.bind_eq_bind]
    refine Option.bind_congr fun u' hu' => ?_
    refine hf u' ((kpfree_mem hu').trans hmem) ?_
    obtain ⟨-, rfl⟩ | ⟨-, -, -, -, rfl⟩ := kpfree_cases hu' <;> exact hcode
  · exact hf w rfl rfl

theorem HoldsSlot.perm {pd slot : ℕ} {t : Option ℕ} {made : List ℕ}
    (hs : HoldsSlot w pd slot t made) :
    (w.slotPages pd slot).Perm ((made ++ t.toList).map Pte.ofFrame) := by
  cases t with
  | none =>
    have hp := hs.empty rfl
    have hnil : made = [] := by
      apply List.eq_nil_iff_forall_not_mem.mpr
      intro f hf
      obtain ⟨i, -, hpriv, -⟩ := hs.pages.of_mem f hf
      simp [isPrivateIn, hp] at hpriv
    rw [slotPages, hp, hnil]
    exact List.Perm.refl _
  | some t =>
    obtain ⟨hp, hf⟩ := hs.link t rfl
    rw [slotPages, if_pos hp, List.map_append, Option.toList_some, List.map_singleton,
      Pte.addr_eq_ofFrame, hf]
    refine List.Perm.append_right _ (List.Perm.trans (List.Perm.of_eq ?_) (hs.pages.perm.map _))
    rw [selected, List.map_map]
    have hfilter : (List.range 512).filter (fun i => Pte.present (w.mem.entry t i) &&
        Pte.user (w.mem.entry t i) && !w.isSharedUserPage (slotBase slot + i * 4096)) =
        (List.range 512).filter (w.isPrivateIn pd slot (slotBase slot)) := by
      apply List.filter_congr
      intro i _
      rw [isPrivateIn, hp, Bool.true_and, hf, privateAt, isPrivate, Bool.and_right_comm]
    rw [hfilter]
    apply List.map_congr_left
    intro i _
    rw [Function.comp_apply, Pte.addr_eq_ofFrame, pageFrame, hf]

/-- `kvmm_free_user_pml4` gives back what was taken. -/
theorem Holds.kvmmFreeUserPml4 (hh : Holds v w h []) {active : Word}
    (hactive : Pte.addr (Pte.ofFrame h.pml4) ≠ Pte.addr active) :
    ∃ u, w.kvmmFreeUserPml4 active (Pte.ofFrame h.pml4) = some u ∧ u.pmm = v.pmm := by
  have htook : Took v w h.frames := hh.took
  have hlt : ∀ f ∈ h.frames, f < 2 ^ 52 := fun f hf => htook.lt hf
  have hframe : ∀ f ∈ h.frames, Pte.frame (Pte.ofFrame f) = f := fun f hf =>
    Pte.frame_ofFrame (hlt f hf)
  have h4 := hframe h.pml4 (by simp [Held.frames])
  have h3 := hframe h.pdpt (by simp [Held.frames])
  have h2 := hframe h.pd (by simp [Held.frames])
  have hne : Pte.ofFrame h.pml4 ≠ 0 := Pmm.physOf_ne_zero (hlt _ (by simp [Held.frames]))
    (v.pmm.firstPage_pos.trans_le (htook.fresh h.pml4 (by simp [Held.frames])).2.1)
  obtain ⟨hp4, hf4⟩ := hh.pml4e
  obtain ⟨hp3, hf3⟩ := hh.pdpte
  have hcall : w.kvmmFreeUserPml4 active (Pte.ofFrame h.pml4) =
      freeAll (w.slotPages h.pd 2 ++ (w.slotPages h.pd 3 ++
        [Pte.ofFrame h.pd, Pte.ofFrame h.pdpt, Pte.ofFrame h.pml4])) w := by
    rw [Vmm.kvmmFreeUserPml4, if_neg hne, if_neg hactive]
    simp only [h4, hp4, Pte.addr_eq_ofFrame, hf4, h3, hp3, hf3, h2, Bool.not_true,
      Bool.false_eq_true, if_false]
    refine freeTable_bind fun u hmem hcode => ?_
    have hsame : u.slotPages h.pd 3 = w.slotPages h.pd 3 := by
      simp only [slotPages, hmem, isSharedUserPage, hcode]
    rw [← hsame]
    exact freeTable_bind fun _ _ _ => rfl
  have hperm : (w.slotPages h.pd 2 ++ (w.slotPages h.pd 3 ++
      [Pte.ofFrame h.pd, Pte.ofFrame h.pdpt, Pte.ofFrame h.pml4])).Perm
        (h.frames.map Pte.ofFrame ++ []) := by
    refine List.perm_iff_count.mpr fun a => ?_
    have hcount2 := (hh.slot 2 (.inl rfl)).perm.count_eq a
    have hcount3 := (hh.slot 3 (.inr rfl)).perm.count_eq a
    simp only [Held.frames, List.map_append, List.map_cons, List.map_nil, List.count_append,
      List.count_cons, List.count_nil] at hcount2 hcount3 ⊢
    omega
  rw [hcall]
  exact (freeAll_restores_iff htook hperm).mpr (by simp)

/-! ## Its beginning -/

theorem holdsSlot_of_slotCopy {oldPd newPd slot : ℕ} {t : Option ℕ} {num : ℕ → ℕ}
    {made taken : List ℕ} (hs : SlotCopy v w oldPd newPd slot (slotBase slot) t num made)
    (htook : Took v w taken) (hmem : ∀ f ∈ made ++ t.toList, f ∈ taken) :
    HoldsSlot w newPd slot t made := by
  have hlt : ∀ t' ∈ t, t' < 2 ^ 52 := fun t' ht' =>
    htook.lt (hmem t' (List.mem_append_right _ (Option.mem_toList.mpr ht')))
  have hlink : ∀ t' ∈ t, Leads (w.mem.entry newPd slot) t' := by
    intro t' ht'
    rw [hs.link t' ht']
    exact leads_linkTo (hlt t' ht') _
  have hempty : t = none → Pte.present (w.mem.entry newPd slot) = false := by
    intro hnone
    rw [hs.empty hnone]
    decide
  -- copies keep the flags, so the same pages are private
  have hpriv : ∀ i < 512, w.isPrivateIn newPd slot (slotBase slot) i =
      v.isPrivateIn oldPd slot (slotBase slot) i := by
    intro i hi
    cases t with
    | none =>
      have hp : Pte.present (v.mem.entry oldPd slot) = false := by simpa using hs.present.symm
      simp only [isPrivateIn, hempty rfl, hp, Bool.false_and]
    | some t =>
      obtain ⟨hp', hf'⟩ := hlink t rfl
      have hp : Pte.present (v.mem.entry oldPd slot) = true := by simpa using hs.present.symm
      simp only [isPrivateIn, privateAt, isPrivate, hp', hf', hp, hs.entry t rfl i hi,
        present_copyOf, htook.isSharedUserPage]
      cases hpe : Pte.present (v.mem.entry (Pte.frame (v.mem.entry oldPd slot)) i) with
      | false => rfl
      | true => rw [user_copyOf hpe]
  refine ⟨hlink, hempty, (hs.pages.congr hpriv).congr_num fun i hi hp => ?_⟩
  rw [hpriv i hi] at hp
  cases t with
  | none =>
    have hp' : Pte.present (v.mem.entry oldPd slot) = false := by simpa using hs.present.symm
    simp [isPrivateIn, hp'] at hp
  | some t =>
    have hpage := hs.pages.mem i hi hp
    have hp' : v.privateAt (Pte.frame (v.mem.entry oldPd slot)) (slotBase slot) i = true :=
      (Bool.and_eq_true _ _ ▸ hp : _ ∧ _).2
    rw [pageFrame, (hlink t rfl).2, hs.entry t rfl i hi, ← Pte.frame_addr,
      addr_copyOf (htook.lt (hmem _ (by simp [hpage]))) hp']
    exact Pte.frame_ofFrame (htook.lt (hmem _ (by simp [hpage])))

/-- What a new address space holds. -/
def NewSpace.held (new : NewSpace) : Held where
  pml4 := new.pml4
  pdpt := new.pdpt
  pd := new.pd
  table s := if s = 2 then new.pt2 else new.pt3
  made s := if s = 2 then new.made2 else new.made3

theorem Built.holds {sp : Space} {new : NewSpace} (hb : Built v w sp new) :
    Holds v w new.held [] := by
  have htook : Took v w new.frames := hb.ext.toTook
  constructor
  case took => exact htook
  case pml4e =>
    rw [show w.mem.entry new.held.pml4 0 = _ from hb.pml4e]
    exact leads_linkTo (htook.lt (by simp [NewSpace.frames])) _
  case pdpte =>
    rw [show w.mem.entry new.held.pdpt 0 = _ from hb.pdpte]
    exact leads_linkTo (htook.lt (by simp [NewSpace.frames])) _
  case slot =>
    rintro s (rfl | rfl)
    · exact holdsSlot_of_slotCopy hb.slot2 htook (by simp [NewSpace.frames]; tauto)
    · exact holdsSlot_of_slotCopy hb.slot3 htook (by simp [NewSpace.frames]; tauto)

/-! ## Its pages -/

/-- The private pages behind entry `slot` are the same. -/
def SamePages (w u : Vmm) (pd slot : ℕ) : Prop :=
  ∀ i < 512, u.isPrivateIn pd slot (slotBase slot) i = w.isPrivateIn pd slot (slotBase slot) i

theorem HoldsSlot.congr {pd slot : ℕ} {t : Option ℕ} {made : List ℕ}
    (hs : HoldsSlot w pd slot t made) (hcode : u.codePageCount = w.codePageCount)
    (hpres : Pte.present (u.mem.entry pd slot) = Pte.present (w.mem.entry pd slot))
    (hframe : Pte.frame (u.mem.entry pd slot) = Pte.frame (w.mem.entry pd slot))
    (htable : ∀ t' ∈ t, ∀ i < 512, u.mem.entry t' i = w.mem.entry t' i) :
    HoldsSlot u pd slot t made ∧ SamePages w u pd slot := by
  have hpriv : SamePages w u pd slot := by
    intro i hi
    rw [isPrivateIn, isPrivateIn, hpres, hframe]
    cases t with
    | none => simp only [hs.empty rfl, Bool.false_and]
    | some t =>
      rw [privateAt, privateAt, (hs.link t rfl).2, htable t rfl i hi]
      simp only [isPrivate, isSharedUserPage, hcode]
  refine ⟨⟨fun t' ht' => ?_, fun hnone => hpres.trans (hs.empty hnone), ?_⟩, hpriv⟩
  · obtain ⟨hp, hf⟩ := hs.link t' ht'
    exact ⟨hpres.trans hp, hframe.trans hf⟩
  · refine (hs.pages.congr hpriv).congr_num fun i hi hp => ?_
    rw [hpriv i hi] at hp
    cases t with
    | none => simp [isPrivateIn, hs.empty rfl] at hp
    | some t => rw [pageFrame, pageFrame, hframe, (hs.link t rfl).2, htable t rfl i hi]

theorem Holds.codePageCount (hh : Holds v w h loose) : w.codePageCount = v.codePageCount :=
  hh.took.codePageCount

theorem Holds.congr (hh : Holds v w h loose) {loose' : List ℕ}
    (htook : Took v u (loose' ++ h.frames))
    (hupper : ∀ f ∈ [h.pd, h.pdpt, h.pml4], ∀ i < 512,
      Pte.present (u.mem.entry f i) = Pte.present (w.mem.entry f i) ∧
        Pte.frame (u.mem.entry f i) = Pte.frame (w.mem.entry f i))
    (htable : ∀ s, s = 2 ∨ s = 3 → ∀ t ∈ h.table s, ∀ i < 512,
      u.mem.entry t i = w.mem.entry t i) :
    Holds v u h loose' ∧ ∀ s, s = 2 ∨ s = 3 → SamePages w u h.pd s := by
  have hleads : ∀ f ∈ [h.pd, h.pdpt, h.pml4], ∀ {i t}, i < 512 → Leads (w.mem.entry f i) t →
      Leads (u.mem.entry f i) t := by
    intro f hf i t hi hl
    obtain ⟨hp, hframe⟩ := hupper f hf i hi
    exact ⟨hp.trans hl.1, hframe.trans hl.2⟩
  have hslot : ∀ s, s = 2 ∨ s = 3 → HoldsSlot u h.pd s (h.table s) (h.made s) ∧
      SamePages w u h.pd s := by
    intro s hs
    obtain ⟨hp, hframe⟩ := hupper h.pd (by simp) s (by omega)
    exact (hh.slot s hs).congr (htook.codePageCount.trans hh.codePageCount.symm) hp hframe
      (htable s hs)
  exact ⟨⟨htook, hleads _ (by simp) (by decide) hh.pml4e, hleads _ (by simp) (by decide) hh.pdpte,
    fun s hs => (hslot s hs).1⟩, fun s hs => (hslot s hs).2⟩

theorem Holds.kpalloc (hh : Holds v w h loose) (hne : w.kpalloc.1 ≠ 0) :
    ∃ f, w.kpalloc.1 = Pte.ofFrame f ∧ f ∉ loose ++ h.frames ∧
      Holds v w.kpalloc.2 h (f :: loose) := by
  obtain ⟨f, -, hpage, hnew, htook⟩ := hh.took.kpalloc hne
  have htook' : Took v w.kpalloc.2 ((f :: loose) ++ h.frames) := htook
  exact ⟨f, hpage, hnew, (hh.congr htook' (fun _ _ _ _ => ⟨rfl, rfl⟩) fun _ _ _ _ _ _ => rfl).1⟩

/-- The frames of the tables are different. -/
theorem Holds.table_ne (hh : Holds v w h loose) {s t : ℕ} (hs : s = 2 ∨ s = 3)
    (ht : t ∈ h.table s) : t ≠ h.pd ∧ t ≠ h.pdpt ∧ t ≠ h.pml4 := by
  have hnd : h.frames.Nodup := hh.took.nodup.of_append_right
  simp only [Held.frames, List.nodup_append, List.mem_append, List.mem_cons, List.not_mem_nil,
    or_false, Option.mem_toList] at hnd
  obtain ⟨-, ⟨-, ⟨-, ⟨-, -, hd2⟩, -⟩, hd3⟩, -⟩ := hnd
  rcases hs with rfl | rfl
  · exact ⟨hd2 t ht _ (.inl rfl), hd2 t ht _ (.inr (.inl rfl)), hd2 t ht _ (.inr (.inr rfl))⟩
  · exact ⟨hd3 t ht _ (.inr (.inr (.inl rfl))), hd3 t ht _ (.inr (.inr (.inr (.inl rfl)))),
      hd3 t ht _ (.inr (.inr (.inr (.inr rfl))))⟩

/-- An entry above the last level is opened to users. -/
theorem Holds.orEntry (hh : Holds v w h loose) {f i : ℕ} (hf : f ∈ [h.pd, h.pdpt, h.pml4])
    (hi : i < 512) : Holds v (w.orEntry f i 0x04) h loose ∧
      ∀ s, s = 2 ∨ s = 3 → SamePages w (w.orEntry f i 0x04) h.pd s := by
  refine hh.congr (hh.took.setMem _) ?_ ?_
  · intro g _ j hj
    rw [Vmm.orEntry, setEntry_entry _ _ hi hj]
    split_ifs with hc
    · obtain ⟨rfl, rfl⟩ := hc
      rw [Pte.present_or, Pte.frame_or _ (by decide), show Pte.present 0x04 = false from by decide,
        Bool.or_false]
      exact ⟨rfl, rfl⟩
    · exact ⟨rfl, rfl⟩
  · intro s hs t ht j hj
    obtain ⟨h2, h3, h4⟩ := hh.table_ne hs ht
    rw [Vmm.orEntry, setEntry_entry _ _ hi hj, if_neg]
    rintro ⟨rfl, -⟩
    simp only [List.mem_cons, List.not_mem_nil, or_false] at hf
    rcases hf with rfl | rfl | rfl
    · exact h2 rfl
    · exact h3 rfl
    · exact h4 rfl

theorem Holds.upper_ne (hh : Holds v w h loose) :
    h.pd ≠ h.pdpt ∧ h.pd ≠ h.pml4 ∧ h.pdpt ≠ h.pml4 := by
  have hnd : h.frames.Nodup := hh.took.nodup.of_append_right
  have hsub : [h.pd, h.pdpt, h.pml4].Nodup := by
    refine @List.Nodup.of_append_right _ (h.table 2).toList _ (@List.Nodup.of_append_right
      _ (h.made 2) _ (List.Nodup.of_append_right (List.Nodup.of_append_right hnd)))
  simpa [and_assoc] using hsub

/-- The two tables of the window are different. -/
theorem Holds.tables_ne (hh : Holds v w h loose) {s s' t t' : ℕ} (hs : s = 2 ∨ s = 3)
    (hs' : s' = 2 ∨ s' = 3) (hne : s ≠ s') (ht : t ∈ h.table s) (ht' : t' ∈ h.table s') :
    t ≠ t' := by
  have hnd : h.frames.Nodup := hh.took.nodup.of_append_right
  simp only [Held.frames, List.nodup_append, List.mem_append, List.mem_cons, List.not_mem_nil,
    or_false, Option.mem_toList] at hnd
  obtain ⟨-, ⟨-, -, hd3⟩, -⟩ := hnd
  rcases hs with rfl | rfl <;> rcases hs' with rfl | rfl
  · exact absurd rfl hne
  · exact fun heq => hd3 t' ht' t (.inr (.inl ht)) heq.symm
  · exact hd3 t ht t' (.inr (.inl ht'))
  · exact absurd rfl hne

theorem isPrivateIn_of_leads {pd s t : ℕ} (hl : Leads (w.mem.entry pd s) t) (base j : ℕ) :
    w.isPrivateIn pd s base j = w.privateAt t base j := by
  rw [isPrivateIn, hl.1, hl.2, Bool.true_and]

theorem pageFrame_of_leads {pd s t : ℕ} (hl : Leads (w.mem.entry pd s) t) (j : ℕ) :
    w.pageFrame pd s j = Pte.frame (w.mem.entry t j) := by
  rw [pageFrame, hl.2]

/-- An entry for users that leads to frame `f`. -/
theorem leads_ofFrame_or {f : ℕ} (hf : f < 2 ^ 52) {flags : Word} (hflags : flags.toNat < 4096)
    (hp : Pte.present flags = true) : Leads (Pte.ofFrame f ||| flags) f := by
  refine ⟨?_, ?_⟩
  · rw [Pte.present_or, hp, Bool.or_true]
  · rw [Pte.frame_or _ hflags, Pte.frame_ofFrame hf]

theorem user_ofFrame_or (f : ℕ) : Pte.user (Pte.ofFrame f ||| 0x07) = true := by
  rw [Pte.user_or, show Pte.user 0x07 = true from by decide, Bool.or_true]

/-- The address space with another table and other pages behind one entry. -/
def Held.setSlot (h : Held) (s : ℕ) (t : Option ℕ) (made : List ℕ) : Held :=
  { h with table := Function.update h.table s t, made := Function.update h.made s made }

theorem Held.count_setSlot (h : Held) {s : ℕ} (hs : s = 2 ∨ s = 3) (t : Option ℕ) (made : List ℕ)
    (a : ℕ) : (h.setSlot s t made).frames.count a + (h.table s).toList.count a +
      (h.made s).count a = h.frames.count a + t.toList.count a + made.count a := by
  rcases hs with rfl | rfl <;>
    simp only [Held.frames, Held.setSlot, Function.update_self, List.count_append,
      Function.update_of_ne (show 3 ≠ 2 by decide), Function.update_of_ne (show 2 ≠ 3 by decide)] <;>
    omega

/-- Only what is behind entry `s` changes. -/
theorem Holds.setSlot (hh : Holds v w h loose) {s : ℕ} (hs : s = 2 ∨ s = 3) {t : Option ℕ}
    {made loose' : List ℕ} (htook : Took v u (loose' ++ (h.setSlot s t made).frames))
    (hupper : ∀ f ∈ [h.pdpt, h.pml4], ∀ i < 512, u.mem.entry f i = w.mem.entry f i)
    (hpd : ∀ i < 512, i ≠ s → u.mem.entry h.pd i = w.mem.entry h.pd i)
    (htable : ∀ s', s' = 2 ∨ s' = 3 → s' ≠ s → ∀ t' ∈ h.table s', ∀ i < 512,
      u.mem.entry t' i = w.mem.entry t' i)
    (hslot : HoldsSlot u h.pd s t made) : Holds v u (h.setSlot s t made) loose' := by
  refine ⟨htook, ?_, ?_, fun s' hs' => ?_⟩
  · rw [show u.mem.entry (h.setSlot s t made).pml4 0 = _ from hupper h.pml4 (by simp) 0 (by decide)]
    exact hh.pml4e
  · rw [show u.mem.entry (h.setSlot s t made).pdpt 0 = _ from hupper h.pdpt (by simp) 0 (by decide)]
    exact hh.pdpte
  · by_cases heq : s' = s
    · subst heq
      simpa [Held.setSlot] using hslot
    · have hentry := hpd s' (by omega) heq
      simpa [Held.setSlot, Function.update_of_ne heq] using
        ((hh.slot s' hs').congr (htook.codePageCount.trans hh.codePageCount.symm)
          (congrArg Pte.present hentry) (congrArg Pte.frame hentry) (htable s' hs' heq)).1

/-- From `w` to `u` the table `t` is made behind entry `s`, or it is there already. -/
structure Ensured (w u : Vmm) (h h' : Held) (s t : ℕ) : Prop where
  pml4 : h'.pml4 = h.pml4
  pdpt : h'.pdpt = h.pdpt
  pd : h'.pd = h.pd
  mem : t ∈ h'.table s
  other : ∀ s', s' ≠ s → h'.table s' = h.table s'
  pages : SamePages w u h.pd s
  entry : ∀ j < 512, u.mem.entry t j = (h.table s).elim 0 fun t => w.mem.entry t j
  bytes : ∀ a, a / 4096 ≠ t → a / 4096 ≠ h.pd → u.mem a = w.mem a

/-- `kvmmap_at` makes the table behind entry `s` if there is none. -/
theorem Holds.ensureTable (hh : Holds v w h loose) {s t : ℕ} (hs : s = 2 ∨ s = 3)
    (hcall : w.ensureTable h.pd s 0x07 = some (t, u)) :
    ∃ h', Holds v u h' loose ∧ Ensured w u h h' s t := by
  have hslot := hh.slot s hs
  have hlt : s < 512 := by omega
  rw [Vmm.ensureTable] at hcall
  cases ht : h.table s with
  | some t' =>
    obtain ⟨hp, hf⟩ := hslot.link t' ht
    rw [if_pos hp, hf] at hcall
    obtain ⟨rfl, rfl⟩ := Prod.mk.inj (Option.some.inj hcall)
    exact ⟨h, hh, rfl, rfl, rfl, ht, fun _ _ => rfl, fun _ _ => rfl, fun j _ => by rw [ht]; rfl,
      fun _ _ _ => rfl⟩
  | none =>
    have hp := hslot.empty ht
    have hmade : h.made s = [] := by
      apply List.eq_nil_iff_forall_not_mem.mpr
      intro f hf
      obtain ⟨i, -, hpriv, -⟩ := hslot.pages.of_mem f hf
      simp [isPrivateIn, hp] at hpriv
    rw [hp, if_neg (by decide)] at hcall
    simp only at hcall
    split_ifs at hcall with hne
    obtain ⟨f, hpage, hnew, hh1⟩ := hh.kpalloc hne
    have hmem1 : w.kpalloc.2.mem = w.mem := rfl
    obtain ⟨hnd, hnupper⟩ : f ≠ h.pd ∧ f ∉ [h.pdpt, h.pml4] := by
      simp only [Held.frames, List.mem_append, List.mem_cons, List.not_mem_nil] at hnew
      simp only [List.mem_cons, List.not_mem_nil]
      tauto
    generalize w.kpalloc.2 = w1 at hcall hh1 hmem1
    have hflt : f < 2 ^ 52 := hh1.took.lt (by simp)
    rw [hpage, Pte.frame_ofFrame hflt] at hcall
    obtain ⟨rfl, rfl⟩ := Prod.mk.inj (Option.some.inj hcall)
    have hentry : ∀ g j, j < 512 → ((w1.setMem (w1.mem.zeroFrame f)).setEntry h.pd s
        (Pte.ofFrame f ||| 0x07)).mem.entry g j =
          if g = h.pd ∧ j = s then Pte.ofFrame f ||| 0x07
          else if g = f then 0 else w.mem.entry g j := by
      intro g j hj
      rw [setEntry_entry _ _ hlt hj, setMem_mem, Memory.entry_zeroFrame _ _ _ hj, hmem1]
    have hbytes : ∀ a, a / 4096 ≠ f → a / 4096 ≠ h.pd → ((w1.setMem (w1.mem.zeroFrame f)).setEntry
        h.pd s (Pte.ofFrame f ||| 0x07)).mem a = w.mem a := by
      intro a hf hd
      rw [Vmm.setEntry, setMem_mem, Memory.setEntry_apply_of_ne _ _ hlt hd, setMem_mem,
        Memory.zeroFrame_apply_of_ne _ hf, hmem1]
    have htook1 : Took v ((w1.setMem (w1.mem.zeroFrame f)).setEntry h.pd s (Pte.ofFrame f ||| 0x07))
        (f :: (loose ++ h.frames)) := (hh1.took.setMem _).setMem _
    generalize ((w1.setMem (w1.mem.zeroFrame f)).setEntry h.pd s (Pte.ofFrame f ||| 0x07)) = u
      at hentry hbytes htook1 ⊢
    have hleads : Leads (u.mem.entry h.pd s) f := by
      rw [hentry _ _ hlt, if_pos ⟨rfl, rfl⟩]
      exact leads_ofFrame_or hflt (by decide) (by decide)
    have hpriv : ∀ j < 512, u.isPrivateIn h.pd s (slotBase s) j = false := by
      intro j hj
      rw [isPrivateIn, hleads.2, privateAt, isPrivate, hentry f j hj, if_neg fun hc => hnd hc.1,
        if_pos rfl]
      simp [show Pte.present 0#64 = false from by decide]
    refine ⟨h.setSlot s (some f) [], hh.setSlot hs ?_ ?_ ?_ ?_ ?_, rfl, rfl, rfl, ?_, ?_, ?_, ?_, hbytes⟩
    · refine htook1.perm (List.perm_iff_count.mpr fun a => ?_)
      have := h.count_setSlot hs (some f) [] a
      simp only [ht, hmade, List.count_append, List.count_cons, List.count_nil, Option.toList_some,
        Option.toList_none] at this ⊢
      omega
    · intro g hg i hi
      have hne' : g ≠ h.pd := by
        obtain ⟨h1, h2, -⟩ := hh.upper_ne
        simp only [List.mem_cons, List.not_mem_nil, or_false] at hg
        rcases hg with rfl | rfl
        · exact h1.symm
        · exact h2.symm
      rw [hentry g i hi, if_neg fun hc => hne' hc.1, if_neg]
      rintro rfl
      exact hnupper hg
    · intro i hi hne'
      rw [hentry _ i hi, if_neg fun hc => hne' hc.2, if_neg hnd.symm]
    · intro s' hs' _ t' ht' i hi
      have hne' := (hh.table_ne hs' ht').1
      rw [hentry t' i hi, if_neg fun hc => hne' hc.1, if_neg]
      rintro rfl
      apply hnew
      rcases hs' with rfl | rfl <;> simp [Held.frames, Option.mem_def.mp ht']
    · exact ⟨by simpa using hleads, by simp, Numbering.nil hpriv _⟩
    · simp [Held.setSlot]
    · exact fun s' hne' => Function.update_of_ne hne' ..
    · intro j hj
      rw [hpriv j hj, isPrivateIn, hp, Bool.false_and]
    · intro j hj
      rw [hentry f j hj, if_neg fun hc => hnd hc.1, if_pos rfl, ht]
      rfl

/-- A page that was taken is mapped in the window. -/
theorem Holds.setLeaf {f : ℕ} (hh : Holds v w h (f :: loose)) {s t j : ℕ} (hs : s = 2 ∨ s = 3)
    (ht : t ∈ h.table s) (hj : j < 512)
    (hshared : w.isSharedUserPage (slotBase s + j * 4096) = false)
    (hpriv : w.isPrivateIn h.pd s (slotBase s) j = false) :
    Holds v (w.setEntry t j (Pte.ofFrame f ||| 0x07)) (h.setSlot s (some t) (f :: h.made s)) loose := by
  have htake : h.table s = some t := ht
  obtain ⟨hd2, hd3, hd4⟩ := hh.table_ne hs ht
  have hslot := hh.slot s hs
  obtain ⟨hp, hf⟩ := hslot.link t ht
  have hflt : f < 2 ^ 52 := hh.took.lt (by simp)
  have hentry : ∀ g i, i < 512 → (w.setEntry t j (Pte.ofFrame f ||| 0x07)).mem.entry g i =
      if g = t ∧ i = j then Pte.ofFrame f ||| 0x07 else w.mem.entry g i := fun g i hi =>
    setEntry_entry _ _ hj hi
  have htook : Took v (w.setEntry t j (Pte.ofFrame f ||| 0x07)) (f :: loose ++ h.frames) :=
    hh.took.setMem _
  have hcode : (w.setEntry t j (Pte.ofFrame f ||| 0x07)).codePageCount = w.codePageCount := rfl
  generalize w.setEntry t j (Pte.ofFrame f ||| 0x07) = u at hentry htook hcode ⊢
  have hother : ∀ g, g ≠ t → ∀ i < 512, u.mem.entry g i = w.mem.entry g i := by
    intro g hg i hi
    rw [hentry g i hi, if_neg fun hc => hg hc.1]
  refine hh.setSlot hs ?_ ?_ (fun i hi _ => hother _ hd2.symm i hi) ?_ ?_
  · refine htook.perm (List.perm_iff_count.mpr fun a => ?_)
    have := h.count_setSlot hs (some t) (f :: h.made s) a
    simp only [htake, List.count_append, List.count_cons, List.cons_append] at this ⊢
    omega
  · intro g hg
    simp only [List.mem_cons, List.not_mem_nil, or_false] at hg
    rcases hg with rfl | rfl
    · exact hother _ hd3.symm
    · exact hother _ hd4.symm
  · intro s' hs' hne t' ht'
    exact hother t' (hh.tables_ne hs' hs hne ht' ht)
  · have hlead : Leads (u.mem.entry h.pd s) t := by
      rw [hother _ hd2.symm s (by omega)]
      exact ⟨hp, hf⟩
    have hfmade : f ∉ h.made s := by
      have hnew : f ∉ loose ++ h.frames := (List.nodup_cons.mp hh.took.nodup).1
      rcases hs with rfl | rfl <;> simp [Held.frames] at hnew ⊢ <;> tauto
    have hnum : u.pageFrame h.pd s j = f := by
      rw [pageFrame_of_leads hlead, hentry t j hj, if_pos ⟨rfl, rfl⟩]
      exact (leads_ofFrame_or hflt (by decide) (by decide)).2
    refine ⟨by simpa using hlead, by simp, ?_⟩
    rw [← hnum]
    refine hslot.pages.insert hj hpriv (fun i hi => ?_) (fun i hi hpi => ?_) (by rwa [hnum])
    · rw [isPrivateIn_of_leads hlead, isPrivateIn_of_leads ⟨hp, hf⟩, privateAt, privateAt,
        hentry t i hi]
      by_cases hij : i = j
      · subst hij
        rw [if_pos ⟨rfl, rfl⟩, isPrivate, isSharedUserPage, hcode, ← isSharedUserPage, hshared,
          (leads_ofFrame_or hflt (by decide) (by decide)).1, user_ofFrame_or f]
        simp
      · rw [if_neg fun hc => hij hc.2, decide_eq_false hij, Bool.or_false]
        simp only [isPrivate, isSharedUserPage, hcode]
    · have hij : i ≠ j := by
        rintro rfl
        simp [hpriv] at hpi
      rw [pageFrame_of_leads hlead, pageFrame_of_leads ⟨hp, hf⟩, hentry t i hi,
        if_neg fun hc => hij hc.2]

/-- A private page of the window is unmapped and its frame given back. -/
theorem Holds.clearLeaf (hh : Holds v w h loose) {s t j : ℕ} (hs : s = 2 ∨ s = 3)
    (ht : t ∈ h.table s) (hj : j < 512) (hpriv : w.isPrivateIn h.pd s (slotBase s) j = true)
    (hfree : w.kpfree (Pte.addr (w.mem.entry t j)) = some u) :
    Holds v (u.setEntry t j 0)
      (h.setSlot s (some t) ((h.made s).erase (w.pageFrame h.pd s j))) loose := by
  have htake : h.table s = some t := ht
  obtain ⟨hd2, hd3, hd4⟩ := hh.table_ne hs ht
  have hslot := hh.slot s hs
  obtain ⟨hp, hf⟩ := hslot.link t ht
  have hpage : w.pageFrame h.pd s j ∈ h.made s := hslot.pages.mem j hj hpriv
  have hheld : w.pageFrame h.pd s j ∈ loose ++ h.frames := by
    rcases hs with rfl | rfl <;> simp [Held.frames, hpage]
  have hmem : u.mem = w.mem := kpfree_mem hfree
  rw [Pte.addr_eq_ofFrame, ← pageFrame_of_leads ⟨hp, hf⟩] at hfree
  have htook : Took v (u.setEntry t j 0) ((loose ++ h.frames).erase (w.pageFrame h.pd s j)) :=
    (hh.took.kpfree hheld hfree).setMem _
  have hentry : ∀ g i, i < 512 → (u.setEntry t j 0).mem.entry g i =
      if g = t ∧ i = j then 0 else w.mem.entry g i := by
    intro g i hi
    rw [setEntry_entry _ _ hj hi, hmem]
  generalize u.setEntry t j 0 = u' at hentry htook ⊢
  have hother : ∀ g, g ≠ t → ∀ i < 512, u'.mem.entry g i = w.mem.entry g i := by
    intro g hg i hi
    rw [hentry g i hi, if_neg fun hc => hg hc.1]
  have hcode : u'.codePageCount = w.codePageCount :=
    htook.codePageCount.trans hh.codePageCount.symm
  refine hh.setSlot hs ?_ ?_ (fun i hi _ => hother _ hd2.symm i hi) ?_ ?_
  · refine htook.perm (List.perm_iff_count.mpr fun a => ?_)
    have hcount := h.count_setSlot hs (some t) ((h.made s).erase (w.pageFrame h.pd s j)) a
    have hpos := List.count_pos_iff.mpr hpage
    have hle : (h.made s).count (w.pageFrame h.pd s j) ≤
        h.frames.count (w.pageFrame h.pd s j) := by
      rcases hs with rfl | rfl <;> simp only [Held.frames, List.count_append] <;> omega
    simp only [htake, List.count_append, List.count_erase] at hcount ⊢
    by_cases ha : w.pageFrame h.pd s j = a
    · simp only [ha, beq_self_eq_true, if_true] at hcount hpos hle ⊢
      omega
    · simp only [beq_eq_false_iff_ne.mpr ha, Bool.false_eq_true, if_false] at hcount ⊢
      omega
  · intro g hg
    simp only [List.mem_cons, List.not_mem_nil, or_false] at hg
    rcases hg with rfl | rfl
    · exact hother _ hd3.symm
    · exact hother _ hd4.symm
  · intro s' hs' hne t' ht'
    exact hother t' (hh.tables_ne hs' hs hne ht' ht)
  · have hlead : Leads (u'.mem.entry h.pd s) t := by
      rw [hother _ hd2.symm s (by omega)]
      exact ⟨hp, hf⟩
    refine ⟨by simpa using hlead, by simp, ?_⟩
    refine hslot.pages.erase hj hpriv (fun i hi => ?_) (fun i hi hij => ?_)
    · rw [isPrivateIn_of_leads hlead, isPrivateIn_of_leads ⟨hp, hf⟩, privateAt, privateAt,
        hentry t i hi]
      by_cases hij : i = j
      · subst hij
        simp [isPrivate, show Pte.present 0#64 = false from by decide]
      · simp only [isPrivate, isSharedUserPage, hcode, hij, and_false, if_false, ne_eq,
          not_false_eq_true, decide_true, Bool.and_true]
    · rw [pageFrame_of_leads hlead, pageFrame_of_leads ⟨hp, hf⟩, hentry t i hi,
        if_neg fun hc => hij hc.2]

end holds

/-! ## From the creation to the end -/

/-- The last-level entry of `virt` is present and open to users. -/
def userMapped (w : Vmm) (cr3 virt : Word) : Bool :=
  match w.kgetPteAddrAt cr3 virt with
  | none => false
  | some (pt, i) => Pte.present (w.mem.entry pt i) && Pte.user (w.mem.entry pt i)

/-- A new frame is mapped at a page of the window that is not shared and not mapped for
users, or such a mapping is undone. -/
inductive PageStep (r : Word) : Vmm → Vmm → Prop
  | map {w u : Vmm} {i : ℕ} (lt : i < 1024)
      (unshared : w.isSharedUserPage (windowPage i).toNat = false)
      (unmapped : w.userMapped r (windowPage i) = false) (page : w.kpalloc.1 ≠ 0)
      (mapped : w.kpalloc.2.kvmmapAt r (windowPage i) w.kpalloc.1 0x07 = some u) : PageStep r w u
  | undo {w u : Vmm} {i : ℕ} {b : Bool} (lt : i < 1024)
      (unshared : w.isSharedUserPage (windowPage i).toNat = false)
      (mapped : w.userMapped r (windowPage i) = true)
      (undone : w.kvmunmapAndFreeAt r (windowPage i) = some (b, u)) : PageStep r w u

section steps

variable {v w u : Vmm} {h : Held} {i : ℕ}

theorem slotBase_window (i : ℕ) :
    slotBase (2 + i / 512) + i % 512 * 4096 = userCodeVirt + i * 4096 := by
  rw [slotBase, userCodeVirt]
  omega

theorem window_indices (hi : i < 1024) : Pte.pml4Index (windowPage i) = 0 ∧
    Pte.pdptIndex (windowPage i) = 0 ∧ Pte.pdIndex (windowPage i) = 2 + i / 512 ∧
      Pte.ptIndex (windowPage i) = i % 512 := by
  simpa [PageTree.path] using path_windowPage hi

theorem Holds.frame_root (hh : Holds v w h loose) : Pte.frame (Pte.ofFrame h.pml4) = h.pml4 :=
  Pte.frame_ofFrame (hh.took.lt (by simp [Held.frames]))

theorem Holds.kgetPteAddrAt (hh : Holds v w h []) (hi : i < 1024) :
    w.kgetPteAddrAt (Pte.ofFrame h.pml4) (windowPage i) =
      (h.table (2 + i / 512)).map fun t => (t, i % 512) := by
  obtain ⟨h4, h3, h2, h1⟩ := window_indices hi
  have hslot := hh.slot (2 + i / 512) (by omega)
  rw [Vmm.kgetPteAddrAt, h4, h3, h2, h1, hh.frame_root]
  simp only [hh.pml4e.1, hh.pml4e.2, hh.pdpte.1, hh.pdpte.2, Bool.not_true, Bool.false_eq_true,
    if_false]
  cases ht : h.table (2 + i / 512) with
  | none => simp [hslot.empty ht]
  | some t => simp [(hslot.link t ht).1, (hslot.link t ht).2]

theorem Holds.userMapped_eq (hh : Holds v w h []) (hi : i < 1024)
    (hshared : w.isSharedUserPage (windowPage i).toNat = false) :
    w.userMapped (Pte.ofFrame h.pml4) (windowPage i) =
      w.isPrivateIn h.pd (2 + i / 512) (slotBase (2 + i / 512)) (i % 512) := by
  have hslot := hh.slot (2 + i / 512) (by omega)
  rw [windowPage_toNat hi] at hshared
  rw [userMapped, hh.kgetPteAddrAt hi]
  cases ht : h.table (2 + i / 512) with
  | none => simp [isPrivateIn, hslot.empty ht]
  | some t =>
    rw [isPrivateIn_of_leads (hslot.link t ht), privateAt, slotBase_window, isPrivate, hshared]
    simp

/-- The entry for page `i` of the window, `0` where there is no table. -/
def leafEntry (w : Vmm) (h : Held) (i : ℕ) : Word :=
  (h.table (2 + i / 512)).elim 0 fun t => w.mem.entry t (i % 512)

/-- From `w` to `u` the entry for page `i` of the window becomes `e`, and no byte outside the
tables changes. -/
structure SetsLeaf (w u : Vmm) (h h' : Held) (i : ℕ) (e : Word) : Prop where
  pml4 : h'.pml4 = h.pml4
  leaf : ∀ j < 1024, u.leafEntry h' j = if j = i then e else w.leafEntry h j
  bytes : ∀ a, a / 4096 ∉ h'.tables → u.mem a = w.mem a

/-- The entries above the last level, on the way to the table `s` of the window, are open to
users. -/
def OpenTo (w : Vmm) (h : Held) (s : ℕ) : Prop :=
  Pte.user (w.mem.entry h.pml4 0) = true ∧ Pte.user (w.mem.entry h.pdpt 0) = true ∧
    Pte.user (w.mem.entry h.pd s) = true

theorem user_entry_orEntry (w : Vmm) {f i : ℕ} (hi : i < 512) {g j : ℕ} (hj : j < 512)
    (hu : (g = f ∧ j = i) ∨ Pte.user (w.mem.entry g j) = true) :
    Pte.user ((w.orEntry f i 0x04).mem.entry g j) = true := by
  rw [orEntry, setEntry_entry _ _ hi hj]
  split_ifs with hc
  · rw [Pte.user_or, show Pte.user 0x04 = true from by decide, Bool.or_true]
  · exact hu.resolve_left hc

theorem orEntry_apply_of_ne (w : Vmm) {f i a : ℕ} (hi : i < 512) (ha : a / 4096 ≠ f) :
    (w.orEntry f i 0x04).mem a = w.mem a :=
  Memory.setEntry_apply_of_ne _ _ hi ha

theorem entry_eq_of_bytes {f : ℕ} (hbytes : ∀ a, a / 4096 = f → u.mem a = w.mem a) {j : ℕ}
    (hj : j < 512) : u.mem.entry f j = w.mem.entry f j :=
  Memory.entry_congr (fun k hk => hbytes _ (by omega)) hj

/-- A leaf is stored in the table `t`. -/
theorem setsLeaf_of_setEntry {h' : Held} (hi : i < 1024) {t : ℕ} (ht : t ∈ h'.table (2 + i / 512))
    (hne : ∀ s, s = 2 ∨ s = 3 → s ≠ 2 + i / 512 → ∀ t' ∈ h'.table s, t' ≠ t)
    (hpml4 : h'.pml4 = h.pml4) (e : Word) (hleaf : ∀ j < 1024, u.leafEntry h' j = w.leafEntry h j)
    (hbytes : ∀ a, a / 4096 ∉ h'.tables → u.mem a = w.mem a) :
    SetsLeaf w (u.setEntry t (i % 512) e) h h' i e := by
  have hmod : i % 512 < 512 := Nat.mod_lt _ (by decide)
  refine ⟨hpml4, fun j hj => ?_, fun a ha => ?_⟩
  · rw [← hleaf j hj, leafEntry, leafEntry]
    cases htj : h'.table (2 + j / 512) with
    | none =>
      rw [if_neg]
      · rfl
      · rintro rfl
        simp [htj] at ht
    | some t' =>
      simp only [Option.elim_some]
      rw [setEntry_entry _ _ hmod (Nat.mod_lt _ (by decide))]
      by_cases hs : 2 + j / 512 = 2 + i / 512
      · have heq : t' = t := by
          rw [hs] at htj
          simpa [htj] using ht
        by_cases hji : j = i
        · rw [if_pos ⟨heq, by rw [hji]⟩, if_pos hji]
        · rw [if_neg fun hc => hji (by omega), if_neg hji]
      · have hji : j ≠ i := by
          rintro rfl
          exact hs rfl
        rw [if_neg fun hc => hne _ (by omega) hs t' htj hc.1, if_neg hji]
  · rw [← hbytes a ha]
    refine Memory.setEntry_apply_of_ne _ _ hmod ?_
    rintro rfl
    apply ha
    obtain hs | hs : 2 + i / 512 = 2 ∨ 2 + i / 512 = 3 := by omega
    · rw [hs] at ht
      simp [Held.tables, Option.mem_def.mp ht]
    · rw [hs] at ht
      simp [Held.tables, Option.mem_def.mp ht]

theorem Held.table_setSlot {s t : ℕ} (ht : t ∈ h.table s) (made : List ℕ) :
    (h.setSlot s (some t) made).table = h.table := by
  rw [Held.setSlot, Function.update_eq_self_iff, Option.mem_def.mp ht]

/-- `kvmmap_at` of a frame that was taken, in the window. -/
theorem Holds.kvmmapAt {f : ℕ} (hh : Holds v w h (f :: loose)) (hi : i < 1024)
    (hshared : w.isSharedUserPage (windowPage i).toNat = false)
    (hpriv : w.isPrivateIn h.pd (2 + i / 512) (slotBase (2 + i / 512)) (i % 512) = false)
    (hmap : w.kvmmapAt (Pte.ofFrame h.pml4) (windowPage i) (Pte.ofFrame f) 0x07 = some u) :
    ∃ h', Holds v u h' loose ∧ SetsLeaf w u h h' i (Pte.ofFrame f ||| 0x07) ∧
      u.OpenTo h' (2 + i / 512) := by
  obtain ⟨h4, h3, h2, h1⟩ := window_indices hi
  have hs : 2 + i / 512 = 2 ∨ 2 + i / 512 = 3 := by omega
  have hs512 : 2 + i / 512 < 512 := by omega
  have hj : i % 512 < 512 := Nat.mod_lt _ (by decide)
  rw [windowPage_toNat hi, ← slotBase_window] at hshared
  rw [Vmm.kvmmapAt, h4, h3, h2, h1, hh.frame_root] at hmap
  simp only [if_pos (show Pte.user 0x07 = true from by decide), ensureTable_present hh.pml4e.1, hh.pml4e.2, Option.bind_some,
    ensureTable_present hh.pdpte.1, hh.pdpte.2, Pte.addr_ofFrame] at hmap
  obtain ⟨⟨t, w2⟩, htable, hu⟩ := Option.bind_eq_some_iff.mp hmap
  obtain ⟨h', hh', hens⟩ := hh.ensureTable hs htable
  have ht := hens.mem
  rw [← hens.pml4, ← hens.pdpt, ← hens.pd] at hu
  rw [← hens.pages _ hj, ← hens.pd] at hpriv
  -- the three entries above are opened
  obtain ⟨ho4, hsame4⟩ := hh'.orEntry (f := h'.pml4) (i := 0) (by simp) (by decide)
  obtain ⟨ho3, hsame3⟩ := ho4.orEntry (f := h'.pdpt) (i := 0) (by simp) (by decide)
  obtain ⟨ho2, hsame2⟩ := ho3.orEntry (f := h'.pd) (i := 2 + i / 512) (by simp) (by omega)
  rw [← hsame4 _ hs _ hj, ← hsame3 _ hs _ hj, ← hsame2 _ hs _ hj] at hpriv
  obtain rfl := Option.some.inj hu
  obtain ⟨w3, hw3⟩ : ∃ w3, w3 = ((w2.orEntry h'.pml4 0 0x04).orEntry h'.pdpt 0 0x04).orEntry h'.pd
    (2 + i / 512) 0x04 := ⟨_, rfl⟩
  have hopen : w3.OpenTo h' (2 + i / 512) := by
    rw [hw3]
    exact ⟨user_entry_orEntry _ hs512 (by decide) (.inr (user_entry_orEntry _ (by decide) (by decide)
      (.inr (user_entry_orEntry _ (by decide) (by decide) (.inl ⟨rfl, rfl⟩))))),
      user_entry_orEntry _ hs512 (by decide) (.inr (user_entry_orEntry _ (by decide) (by decide)
        (.inl ⟨rfl, rfl⟩))), user_entry_orEntry _ hs512 hs512 (.inl ⟨rfl, rfl⟩)⟩
  have hbytes : ∀ a, a / 4096 ≠ h'.pd → a / 4096 ≠ h'.pdpt → a / 4096 ≠ h'.pml4 →
      w3.mem a = w2.mem a := by
    intro a hd2 hd3 hd4
    rw [hw3, orEntry_apply_of_ne _ hs512 hd2, orEntry_apply_of_ne _ (by decide) hd3,
      orEntry_apply_of_ne _ (by decide) hd4]
  rw [← hw3] at ho2 hpriv ⊢
  have hleaf : ∀ j < 1024, w3.leafEntry h' j = w.leafEntry h j := by
    intro j hj
    have hjmod : j % 512 < 512 := Nat.mod_lt _ (by decide)
    have hentry : ∀ t' ∈ h'.table (2 + j / 512),
        w3.mem.entry t' (j % 512) = w2.mem.entry t' (j % 512) := by
      intro t' ht'
      obtain ⟨hd2, hd3, hd4⟩ := hh'.table_ne (by omega) ht'
      exact entry_eq_of_bytes (fun a ha => hbytes a (ha ▸ hd2) (ha ▸ hd3) (ha ▸ hd4)) hjmod
    rw [leafEntry, leafEntry]
    by_cases hsj : 2 + j / 512 = 2 + i / 512
    · rw [hsj] at hentry ⊢
      rw [Option.mem_def.mp ht, Option.elim_some, hentry t ht, hens.entry _ hjmod]
    · rw [← hens.other _ hsj]
      cases htj : h'.table (2 + j / 512) with
      | none => rfl
      | some t' =>
        rw [Option.elim_some, Option.elim_some, hentry t' htj]
        have hd2 := (hh'.table_ne (by omega) htj).1
        have hne := hh'.tables_ne (by omega) hs hsj htj ht
        exact entry_eq_of_bytes (fun a ha => hens.bytes a (ha ▸ hne) (by rw [ha, ← hens.pd]; exact hd2))
          hjmod
  have hslot := Held.table_setSlot ht (f :: h'.made (2 + i / 512))
  have ht' := ht
  rw [← hslot] at ht'
  refine ⟨_, ho2.setLeaf hs ht hj ?_ hpriv, ?_, ?_⟩
  · rw [ho2.took.isSharedUserPage, ← hh.took.isSharedUserPage]
    exact hshared
  · refine setsLeaf_of_setEntry hi ht' ?_ hens.pml4 _ ?_ ?_
    · intro s hs' hne t₁ ht₁
      rw [hslot] at ht₁
      exact hh'.tables_ne hs' hs hne ht₁ ht
    · intro j hj
      rw [← hleaf j hj, leafEntry, leafEntry, hslot]
    · intro a ha
      have hout : a / 4096 ≠ t ∧ a / 4096 ≠ h'.pd ∧ a / 4096 ≠ h'.pdpt ∧ a / 4096 ≠ h'.pml4 := by
        rw [Held.tables, hslot] at ha
        simp only [Held.setSlot, List.mem_append, List.mem_cons, List.not_mem_nil, or_false,
          Option.mem_toList, not_or] at ha
        refine ⟨?_, ha.2.2⟩
        rintro rfl
        rcases hs with hs | hs
        · exact ha.2.1 (hs ▸ ht)
        · exact ha.1 (hs ▸ ht)
      rw [hbytes a hout.2.1 hout.2.2.1 hout.2.2.2, hens.bytes a hout.1 (hens.pd ▸ hout.2.1)]
  · have hkeep : ∀ g, g ≠ t → ∀ k < 512, (w3.setEntry t (i % 512)
        (Pte.ofFrame f ||| 0x07)).mem.entry g k = w3.mem.entry g k := fun g hg k hk => by
      rw [setEntry_entry _ _ hj hk, if_neg fun hc => hg hc.1]
    obtain ⟨hd2, hd3, hd4⟩ := hh'.table_ne hs ht
    obtain ⟨hu4, hu3, hu2⟩ := hopen
    exact ⟨(congrArg Pte.user (hkeep _ hd4.symm 0 (by decide))).trans hu4,
      (congrArg Pte.user (hkeep _ hd3.symm 0 (by decide))).trans hu3,
      (congrArg Pte.user (hkeep _ hd2.symm _ hs512)).trans hu2⟩

theorem Holds.step (hh : Holds v w h []) (hstep : PageStep (Pte.ofFrame h.pml4) w u) :
    ∃ h', Holds v u h' [] ∧ h'.pml4 = h.pml4 := by
  cases hstep with
  | @map i hi hshared hunmapped hpage hmap =>
    rw [hh.userMapped_eq hi hshared] at hunmapped
    obtain ⟨f, hf, -, hh1⟩ := hh.kpalloc hpage
    rw [hf] at hmap
    obtain ⟨h', hh', hset, -⟩ := hh1.kvmmapAt hi hshared hunmapped hmap
    exact ⟨h', hh', hset.pml4⟩
  | @undo i b hi hshared hmapped hundo =>
    rw [hh.userMapped_eq hi hshared] at hmapped
    have hs : 2 + i / 512 = 2 ∨ 2 + i / 512 = 3 := by omega
    rw [kvmunmapAndFreeAt, hh.kgetPteAddrAt hi] at hundo
    cases ht : h.table (2 + i / 512) with
    | none => simp [isPrivateIn, (hh.slot _ hs).empty ht] at hmapped
    | some t =>
      simp only [ht, Option.map_some, Option.map_eq_some_iff, Prod.mk.injEq] at hundo
      obtain ⟨u', hfree, -, rfl⟩ := hundo
      exact ⟨_, hh.clearLeaf hs ht (Nat.mod_lt _ (by decide)) hmapped hfree, rfl⟩

theorem Holds.run {w u : Vmm} (hh : Holds v w h [])
    (hrun : Relation.ReflTransGen (PageStep (Pte.ofFrame h.pml4)) w u) :
    ∃ h', Holds v u h' [] ∧ h'.pml4 = h.pml4 := by
  induction hrun with
  | refl => exact ⟨h, hh, rfl⟩
  | tail _ hstep ih =>
    obtain ⟨h', hh', hroot⟩ := ih
    rw [← hroot] at hstep ⊢
    exact hh'.step hstep

end steps

end Nyvela.Vmm
