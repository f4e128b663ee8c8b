import Nyvela.Lib.PageTree
import Nyvela.VmmBuild

/-!
# What a new address space maps

`kvmm_create_user_pml4` for any page tables that are not themselves in free frames:
the new address space maps copies of the private pages of `[0x400000, 0x800000)` and
everything else as the current one does.
-/

namespace Nyvela.Vmm

open PageTree

/-- The last-level entry that the processor finds for `virt`, if it and the entries above it
are present, and whether user code may go through all of them. -/
def mapping (v : Vmm) (cr3 virt : Word) : Option (Word × Bool) :=
  walk v.mem (Pte.frame cr3) (path virt)

/-- The page tables in `cr3` and the user pages that they map are not in frames that can be
handed out. -/
structure InUse (v : Vmm) (cr3 : Word) : Prop where
  tables : ∀ p f, (∀ i ∈ p, i < 512) → p.length ≤ 3 → descend v.mem (Pte.frame cr3) p = some f →
    f ∉ v.pmm.allocatable
  pages : ∀ virt e b, v.mapping cr3 virt = some (e, b) → Pte.user e = true →
    Pte.frame e ∉ v.pmm.allocatable

/-- Page `i` of `[0x400000, 0x800000)`. -/
def windowPage (i : ℕ) : Word := BitVec.ofNat 64 (userCodeVirt + i * 4096)

/-- The frame of the copy of page `i` of the window, if it has one. -/
def NewSpace.page (new : NewSpace) (i : ℕ) : ℕ :=
  if i < 512 then new.page2 i else new.page3 (i - 512)

section copy

variable {v w : Vmm} {cr3 : Word} {new : NewSpace}

theorem InUse.intact (h : InUse v cr3) (h4 : Pte.present (v.mem.entry (Pte.frame cr3) 0) = true)
    (h3 : Pte.present (v.mem.entry (Pte.frame (v.mem.entry (Pte.frame cr3) 0)) 0) = true) :
    Intact v (v.source cr3) where
  pml4 := h.tables [] _ (by simp) (by simp) rfl
  pdpt := h.tables [0] _ (by simp) (by simp) (by simp [descend, h4, source])
  pd := h.tables [0, 0] _ (by simp) (by simp) (by simp [descend, h4, h3, source])
  pt2 hp := by
    apply h.tables [0, 0, 2] _ (by simp) (by simp)
    simp only [source] at hp ⊢
    simp [descend, h4, h3, hp]
  pt3 hp := by
    apply h.tables [0, 0, 3] _ (by simp) (by simp)
    simp only [source] at hp ⊢
    simp [descend, h4, h3, hp]

theorem windowPage_toNat {i : ℕ} (hi : i < 1024) :
    (windowPage i).toNat = userCodeVirt + i * 4096 := by
  rw [windowPage, BitVec.toNat_ofNat, userCodeVirt]
  omega

theorem path_windowPage {i : ℕ} (hi : i < 1024) :
    path (windowPage i) = [0, 0, 2 + i / 512, i % 512] := by
  have hnat := windowPage_toNat hi
  rw [userCodeVirt] at hnat
  simp only [path, Pte.pml4Index_eq, Pte.pdptIndex_eq, Pte.pdIndex_eq, Pte.ptIndex_eq, hnat]
  congr 1
  · omega
  congr 1
  · omega
  congr 1
  · omega
  congr 1
  omega

/-- Below a table of the current address space nothing changes. -/
theorem InUse.walk_eq {taken : List ℕ} (h : InUse v cr3) (hext : Ext v w taken) {q p : List ℕ}
    {t : ℕ} (hq : ∀ i ∈ q, i < 512) (ht : descend v.mem (Pte.frame cr3) q = some t)
    (hp : ∀ i ∈ p, i < 512) (hlen : q.length + p.length ≤ 4) (hqlen : q.length ≤ 3) :
    walk w.mem t p = walk v.mem t p := by
  refine walk_congr (n := 3 - q.length) ?_ hp (by omega)
  intro q' f hq' hlen' hf i hi
  apply hext.entry (hext.notMem_of_notAllocatable _) hi
  refine h.tables (q ++ q') f ?_ ?_ ?_
  · exact fun i hi => (List.mem_append.mp hi).elim (hq i) (hq' i)
  · rw [List.length_append]
    omega
  · rw [descend_append, ht, Option.bind_some, hf]

/-- An entry that is copied leads where it led. -/
theorem InUse.walk_cons {taken : List ℕ} (h : InUse v cr3) (hext : Ext v w taken) {q p : List ℕ}
    {t t' i : ℕ} (hq : ∀ i ∈ q, i < 512) (ht : descend v.mem (Pte.frame cr3) q = some t)
    (hp : ∀ j ∈ i :: p, j < 512) (hlen : q.length + p.length ≤ 3)
    (hentry : w.mem.entry t' i = v.mem.entry t i) :
    walk w.mem t' (i :: p) = walk v.mem t (i :: p) := by
  cases p with
  | nil => simp only [walk, hentry]
  | cons j p =>
    simp only [walk, hentry]
    split_ifs with hpres
    · rw [List.length_cons] at hlen
      rw [h.walk_eq hext (q := q ++ [i]) ?_ ?_ (fun k hk => hp k (List.mem_cons_of_mem _ hk)) ?_ ?_]
      · intro k hk
        rcases List.mem_append.mp hk with hk | hk
        · exact hq k hk
        · rw [List.mem_singleton.mp hk]
          exact hp i List.mem_cons_self
      · rw [descend_append, ht, Option.bind_some]
        simp only [descend, hpres, if_true]
      · simp only [List.length_append, List.length_cons, List.length_nil]
        omega
      · simp only [List.length_append, List.length_cons, List.length_nil]
        omega
    · rfl

/-- Through the first entries of the two tables above the directory. -/
theorem Built.walk_pd (h : Built v w (v.source cr3) new)
    (h4 : Pte.present (v.mem.entry (Pte.frame cr3) 0) = true)
    (h3 : Pte.present (v.mem.entry (v.source cr3).pdpt 0) = true) (F : Word → Word) {i j : ℕ}
    (hwalk : walk w.mem new.pd [i, j] =
      (walk v.mem (v.source cr3).pd [i, j]).map fun x => (F x.1, x.2)) :
    walk w.mem new.pml4 [0, 0, i, j] =
      (walk v.mem (Pte.frame cr3) [0, 0, i, j]).map fun x => (F x.1, x.2) := by
  have hlt3 : new.pdpt < 2 ^ 52 := h.ext.lt (by simp [NewSpace.frames])
  have hlt2 : new.pd < 2 ^ 52 := h.ext.lt (by simp [NewSpace.frames])
  obtain ⟨hp4, hf4⟩ := leads_linkTo hlt3 (v.mem.entry (v.source cr3).pml4 0)
  obtain ⟨hp3, hf3⟩ := leads_linkTo hlt2 (v.mem.entry (v.source cr3).pdpt 0)
  rw [← h.pml4e] at hp4 hf4
  rw [← h.pdpte] at hp3 hf3
  -- the user bits are those of the current tables
  have hu4 : Pte.user (w.mem.entry new.pml4 0) = Pte.user (v.mem.entry (Pte.frame cr3) 0) := by
    rw [h.pml4e, user_linkTo]
    rfl
  have hu3 : Pte.user (w.mem.entry new.pdpt 0) = Pte.user (v.mem.entry (v.source cr3).pdpt 0) := by
    rw [h.pdpte, user_linkTo]
  rw [walk_of_present hp4, hf4, walk_of_present hp3, hf3, hwalk, hu4, hu3, walk_of_present h4,
    show Pte.frame (v.mem.entry (Pte.frame cr3) 0) = (v.source cr3).pdpt from rfl,
    walk_of_present h3,
    show Pte.frame (v.mem.entry (v.source cr3).pdpt 0) = (v.source cr3).pd from rfl]
  cases walk v.mem (v.source cr3).pd [i, j] <;> rfl

/-- Through the copy of a table. -/
theorem SlotCopy.walk_eq {oldPd newPd slot base : ℕ} {t : Option ℕ} {num : ℕ → ℕ}
    {made : List ℕ} (h : SlotCopy v w oldPd newPd slot base t num made)
    (hlt : ∀ t' ∈ t, t' < 2 ^ 52) {j : ℕ} (hj : j < 512) :
    walk w.mem newPd [slot, j] = (walk v.mem oldPd [slot, j]).map fun x =>
      (v.copyOf (base + j * 4096) x.1 (num j), x.2) := by
  cases t with
  | none =>
    have hp : Pte.present (v.mem.entry oldPd slot) = false := by simpa using h.present.symm
    simp only [walk, h.empty rfl, hp, show Pte.present 0 = false from by decide, Bool.false_eq_true,
      if_false, Option.map_none]
  | some t =>
    have hp : Pte.present (v.mem.entry oldPd slot) = true := by simpa using h.present.symm
    obtain ⟨hp', hf'⟩ := leads_linkTo (hlt t rfl) (v.mem.entry oldPd slot)
    have huser := user_linkTo t (v.mem.entry oldPd slot)
    rw [← h.link t rfl] at hp' hf' huser
    have hentry := h.entry t rfl j hj
    rw [walk_of_present hp', walk_of_present hp, hf', huser]
    simp only [walk, hentry, present_copyOf]
    split_ifs with hpe
    · simp only [Option.map_some, user_copyOf hpe]
    · rfl

/-- The window of the new address space. -/
theorem Built.mapping_window (h : Built v w (v.source cr3) new)
    (h4 : Pte.present (v.mem.entry (Pte.frame cr3) 0) = true)
    (h3 : Pte.present (v.mem.entry (v.source cr3).pdpt 0) = true) {i : ℕ} (hi : i < 1024) :
    w.mapping (Pte.ofFrame new.pml4) (windowPage i) = (v.mapping cr3 (windowPage i)).map fun x =>
      (v.copyOf (windowPage i).toNat x.1 (new.page i), x.2) := by
  have hnat := windowPage_toNat hi
  have hroot : Pte.frame (Pte.ofFrame new.pml4) = new.pml4 :=
    Pte.frame_ofFrame (h.ext.lt (by simp [NewSpace.frames]))
  have hlt : ∀ {t}, t ∈ new.frames → t < 2 ^ 52 := fun ht => h.ext.lt ht
  rw [mapping, mapping, path_windowPage hi, hroot, hnat]
  by_cases hlow : i < 512
  · rw [NewSpace.page, if_pos hlow, show 2 + i / 512 = 2 by omega, show i % 512 = i by omega]
    have hslot := h.slot2.walk_eq (fun t ht => hlt (by
      simp [NewSpace.frames, Option.mem_toList.mpr ht])) hlow
    exact h.walk_pd h4 h3 (fun e => v.copyOf (userCodeVirt + i * 4096) e (new.page2 i)) hslot
  · rw [NewSpace.page, if_neg hlow, show 2 + i / 512 = 3 by omega, show i % 512 = i - 512 by omega]
    have hslot := h.slot3.walk_eq (fun t ht => hlt (by
      simp [NewSpace.frames, Option.mem_toList.mpr ht])) (show i - 512 < 512 by omega)
    rw [show progStackTop + (i - 512) * 4096 = userCodeVirt + i * 4096 by
      simp only [progStackTop, userCodeVirt]; omega] at hslot
    exact h.walk_pd h4 h3
      (fun e => v.copyOf (userCodeVirt + i * 4096) e (new.page3 (i - 512))) hslot

/-- What goes through neither of the two copied tables is mapped as before. -/
theorem Built.mapping_beside (h : Built v w (v.source cr3) new) (hu : InUse v cr3)
    (h4 : Pte.present (v.mem.entry (Pte.frame cr3) 0) = true)
    (h3 : Pte.present (v.mem.entry (v.source cr3).pdpt 0) = true) {virt : Word}
    (hout : Pte.pml4Index virt = 0 → Pte.pdptIndex virt = 0 →
      Pte.pdIndex virt ≠ 2 ∧ Pte.pdIndex virt ≠ 3) :
    w.mapping (Pte.ofFrame new.pml4) virt = v.mapping cr3 virt := by
  have hroot : Pte.frame (Pte.ofFrame new.pml4) = new.pml4 :=
    Pte.frame_ofFrame (h.ext.lt (by simp [NewSpace.frames]))
  have hlt3 : new.pdpt < 2 ^ 52 := h.ext.lt (by simp [NewSpace.frames])
  rw [mapping, mapping, hroot]
  have hi4 := Pte.pml4Index_lt virt
  have hi3 := Pte.pdptIndex_lt virt
  have hi2 := Pte.pdIndex_lt virt
  have hi1 := Pte.ptIndex_lt virt
  by_cases hz4 : Pte.pml4Index virt = 0
  swap
  · exact hu.walk_cons h.ext (q := []) (by simp) rfl (fun _ => path_lt) (by simp)
      (h.pml4 _ hi4 hz4)
  by_cases hz3 : Pte.pdptIndex virt = 0
  swap
  · obtain ⟨hp4, hf4⟩ := leads_linkTo hlt3 (v.mem.entry (v.source cr3).pml4 0)
    have huser := user_linkTo new.pdpt (v.mem.entry (v.source cr3).pml4 0)
    rw [← h.pml4e] at hp4 hf4 huser
    have htail : walk w.mem new.pdpt [Pte.pdptIndex virt, Pte.pdIndex virt, Pte.ptIndex virt] =
        walk v.mem (v.source cr3).pdpt [Pte.pdptIndex virt, Pte.pdIndex virt, Pte.ptIndex virt] :=
      hu.walk_cons h.ext (q := [0]) (by simp) (by simp [descend, h4, source]) (by simp [*]) (by simp)
        (h.pdpt _ hi3 hz3)
    rw [path, hz4, walk_of_present hp4, hf4, huser, htail, walk_of_present h4]
    rfl
  have hne := hout hz4 hz3
  have htail : walk w.mem new.pd [Pte.pdIndex virt, Pte.ptIndex virt] =
      walk v.mem (v.source cr3).pd [Pte.pdIndex virt, Pte.ptIndex virt] :=
    hu.walk_cons h.ext (q := [0, 0]) (by simp) (by
      simp only [source] at h3 ⊢
      simp [descend, h4, h3]) (by simp [*]) (by simp) (h.pd _ hi2 hne.1 hne.2)
  have hwalk := h.walk_pd h4 h3 id (by rw [htail]; cases walk v.mem _ _ <;> rfl)
  rw [path, hz4, hz3, hwalk]
  cases walk v.mem _ _ <;> rfl

/-- A page of the window that gets a frame of its own. -/
structure Copies (v : Vmm) (cr3 : Word) (i : ℕ) (e : Word) : Prop where
  lt : i < 1024
  low : i < 512 → v.isPrivateIn (v.source cr3).pd 2 userCodeVirt i = true ∧
    v.mem.entry (v.source cr3).pt2 i = e
  high : 512 ≤ i → v.isPrivateIn (v.source cr3).pd 3 progStackTop (i - 512) = true ∧
    v.mem.entry (v.source cr3).pt3 (i - 512) = e

theorem Built.page_mem (h : Built v w (v.source cr3) new) {i : ℕ} {e : Word}
    (hc : Copies v cr3 i e) : new.page i ∈ if i < 512 then new.made2 else new.made3 := by
  rw [NewSpace.page]
  split_ifs with hlow
  · exact h.slot2.pages.mem i hlow (hc.low hlow).1
  · exact h.slot3.pages.mem _ (by have := hc.lt; omega) (hc.high (by omega)).1

theorem Built.page_fresh (h : Built v w (v.source cr3) new) {i : ℕ} {e : Word}
    (hc : Copies v cr3 i e) : new.page i ∈ v.pmm.allocatable := by
  apply h.ext.fresh
  have hmem := h.page_mem hc
  split_ifs at hmem <;> simp [NewSpace.frames, hmem]

theorem Built.page_inj (h : Built v w (v.source cr3) new) {i j : ℕ} {e e' : Word}
    (hi : Copies v cr3 i e) (hj : Copies v cr3 j e') (heq : new.page i = new.page j) : i = j := by
  have hmemi := h.page_mem hi
  have hmemj := h.page_mem hj
  -- the frames for the two tables are different
  have hdisj : ∀ f ∈ new.made3, f ∉ new.made2 := by
    intro f h3 h2
    refine List.disjoint_of_nodup_append h.ext.nodup h3 ?_
    simp [h2]
  by_cases hlow : i < 512 <;> by_cases hlow' : j < 512
  · simp only [NewSpace.page, hlow, hlow', if_true] at heq
    exact h.slot2.pages.inj i hlow j hlow' (hi.low hlow).1 (hj.low hlow').1 heq
  · rw [if_pos hlow, heq] at hmemi
    rw [if_neg hlow'] at hmemj
    exact absurd hmemi (hdisj _ hmemj)
  · rw [if_neg hlow, heq] at hmemi
    rw [if_pos hlow'] at hmemj
    exact absurd hmemj (hdisj _ hmemi)
  · simp only [NewSpace.page, hlow, hlow', if_false] at heq
    have := h.slot3.pages.inj _ (by have := hi.lt; omega) _ (by have := hj.lt; omega)
      (hi.high (by omega)).1 (hj.high (by omega)).1 heq
    omega

end copy

end Nyvela.Vmm
