import Mathlib.Tactic.Set
import Nyvela.UserMemory

/-!
# How page tables are laid out

Every address space has five tables of its own and shares the other tables of
the identity map. `own` says what each frame is for; a frame that is for
something is used in the bitmap.
-/

namespace Nyvela

/-- What a frame is for. A table has a level: 0 for the PML4, 1 for the page-directory
pointers, 2 for the page directory, 3 and 4 for the tables of `0x400000` and `0x600000`. -/
inductive Owner
  | table (root level : ℕ)
  | identity (i : ℕ)
  | heap
  | stack (thread : ℕ)
  | user
  deriving DecidableEq

/-- Frames whose entries the layout is about: all tables but the one of `0x400000`. -/
def Owner.Structural : Owner → Prop
  | .table _ level => level ≠ 3
  | .identity _ => True
  | _ => False

/-- The tables that an address space has for itself, by their frames. -/
structure Space where
  pml4 : ℕ
  pdpt : ℕ
  pd : ℕ
  pt2 : ℕ
  pt3 : ℕ

/-- The table for the addresses from `i * 0x200000` on. -/
def Space.pt (sp : Space) (shared : ℕ → ℕ) (i : ℕ) : ℕ :=
  if i = 2 then sp.pt2 else if i = 3 then sp.pt3 else shared i

/-- A present entry that leads to frame `f`. -/
def Leads (e : Word) (f : ℕ) : Prop := Pte.present e = true ∧ Pte.frame e = f

namespace Vmm

theorem userPageOk_bounds {v : Vmm} {virt : Word} (h : v.userPageOk virt = true) :
    0x400000 ≤ virt.toNat ∧ virt.toNat < 0x700000 := by
  rw [Vmm.userPageOk, Bool.and_eq_true] at h
  have hr := h.1
  unfold userRangeOk userAreaBase userAreaEnd at hr
  split_ifs at hr with h1 h2 h3
  · exact ⟨by omega, of_decide_eq_true hr⟩
  all_goals exact absurd rfl h3

theorem userFindFreePage_bounds {v : Vmm} {cr3 : Word} (h : v.userFindFreePage cr3 ≠ 0) :
    0x410000 ≤ (v.userFindFreePage cr3).toNat ∧ (v.userFindFreePage cr3).toNat < 0x700000 := by
  unfold Vmm.userFindFreePage at h ⊢
  simp only at h ⊢
  generalize hfind : List.find? _ _ = r at h ⊢
  cases r with
  | none => exact absurd rfl h
  | some virt =>
    obtain ⟨i, hi, rfl⟩ := List.mem_map.mp (List.mem_of_find?_eq_some hfind)
    rw [List.mem_range] at hi
    simp only [userAreaEnd, userHeapBase] at hi
    simp only [Option.getD_some, BitVec.toNat_ofNat, userHeapBase]
    omega

structure Layout (v : Vmm) (own : ℕ → Option Owner) (shared : ℕ → ℕ) (spaces : List Space) :
    Prop where
  used : ∀ f, own f ≠ none → v.pmm.bitmap.test f = false
  ownPml4 : ∀ sp ∈ spaces, own sp.pml4 = some (.table sp.pml4 0)
  ownPdpt : ∀ sp ∈ spaces, own sp.pdpt = some (.table sp.pml4 1)
  ownPd : ∀ sp ∈ spaces, own sp.pd = some (.table sp.pml4 2)
  ownPt2 : ∀ sp ∈ spaces, own sp.pt2 = some (.table sp.pml4 3)
  ownPt3 : ∀ sp ∈ spaces, own sp.pt3 = some (.table sp.pml4 4)
  ownShared : ∀ i < 512, i ≠ 2 → i ≠ 3 → own (shared i) = some (.identity i)
  pml4e : ∀ sp ∈ spaces, Leads (v.mem.entry sp.pml4 0) sp.pdpt
  pdpte : ∀ sp ∈ spaces, Leads (v.mem.entry sp.pdpt 0) sp.pd
  pde : ∀ sp ∈ spaces, ∀ i < 512, Leads (v.mem.entry sp.pd i) (sp.pt shared i)
  pte : ∀ sp ∈ spaces, ∀ i < 512, i ≠ 2 → ∀ j < 512,
    Leads (v.mem.entry (sp.pt shared i) j) (i * 512 + j)
  kernelOnly : ∀ sp ∈ spaces, ∀ j < 512, Pte.user (v.mem.entry sp.pt3 j) = false

section layout

variable {v v' : Vmm} {own : ℕ → Option Owner} {shared : ℕ → ℕ} {spaces : List Space}
  {sp sp' : Space}

theorem Layout.pt3e (h : v.Layout own shared spaces) (hsp : sp ∈ spaces) {j : ℕ} (hj : j < 512) :
    Leads (v.mem.entry sp.pt3 j) (3 * 512 + j) := h.pte sp hsp 3 (by decide) (by decide) j hj

theorem Layout.own_pt (h : v.Layout own shared spaces) (hsp : sp ∈ spaces) {i : ℕ} (hi : i < 512) :
    ∃ o, own (sp.pt shared i) = some o := by
  unfold Space.pt
  split_ifs with h2 h3
  · exact ⟨_, h.ownPt2 sp hsp⟩
  · exact ⟨_, h.ownPt3 sp hsp⟩
  · exact ⟨_, h.ownShared i hi h2 h3⟩

/-- The walk to the last-level entry of an address below 1 GiB. -/
theorem Layout.kgetPteAddrAt (h : v.Layout own shared spaces) (hsp : sp ∈ spaces) {cr3 virt : Word}
    (hcr3 : Pte.frame cr3 = sp.pml4) (hvirt : virt.toNat < 2 ^ 30) :
    v.kgetPteAddrAt cr3 virt = some (sp.pt shared (virt.toNat / 2 ^ 21), Pte.ptIndex virt) := by
  have h4 : Pte.pml4Index virt = 0 := by rw [Pte.pml4Index_eq]; omega
  have h3 : Pte.pdptIndex virt = 0 := by rw [Pte.pdptIndex_eq]; omega
  have h2 : Pte.pdIndex virt = virt.toNat / 2 ^ 21 := by rw [Pte.pdIndex_eq]; omega
  obtain ⟨hp4, hf4⟩ := h.pml4e sp hsp
  obtain ⟨hp3, hf3⟩ := h.pdpte sp hsp
  obtain ⟨hp2, hf2⟩ := h.pde sp hsp (virt.toNat / 2 ^ 21) (by omega)
  simp only [Vmm.kgetPteAddrAt, h4, h3, h2, hcr3, hp4, hf4, hp3, hf3, hp2, hf2, Bool.not_true,
    Bool.false_eq_true, if_false]

/-- The walk to an entry of the window. -/
theorem Layout.kgetPteAddrAt_window (h : v.Layout own shared spaces) (hsp : sp ∈ spaces)
    {cr3 virt : Word} (hcr3 : Pte.frame cr3 = sp.pml4) (hvirt : virt.toNat / 2 ^ 21 = 2) :
    v.kgetPteAddrAt cr3 virt = some (sp.pt2, Pte.ptIndex virt) := by
  rw [h.kgetPteAddrAt hsp hcr3 (by omega), hvirt]
  rfl

/-- The address of page `i` of the window. -/
theorem ofFrame_window {i : ℕ} (hi : i < 512) :
    (Pte.ofFrame (1024 + i)).toNat = 0x400000 + i * 4096 ∧
      (Pte.ofFrame (1024 + i)).toNat / 2 ^ 21 = 2 ∧ Pte.ptIndex (Pte.ofFrame (1024 + i)) = i := by
  have hnat := Pte.ofFrame_toNat (show 1024 + i < 2 ^ 52 by omega)
  rw [Pte.ptIndex_eq, hnat]
  omega

theorem Layout.translate_window (h : v.Layout own shared spaces) (hsp : sp ∈ spaces) {cr3 : Word}
    (hcr3 : Pte.frame cr3 = sp.pml4) {i : ℕ} (hi : i < 512)
    (hp : Pte.present (v.mem.entry sp.pt2 i) = true) :
    v.translate cr3 (Pte.ofFrame (1024 + i)) = some (Pte.frame (v.mem.entry sp.pt2 i) * 4096) := by
  obtain ⟨hnat, hwin, hidx⟩ := ofFrame_window hi
  simp only [Vmm.translate, h.kgetPteAddrAt_window hsp hcr3 hwin, hidx, hp, if_true,
    Option.some.injEq]
  omega

/-- Addresses outside `[0x400000, 0x600000)` are mapped to themselves. -/
theorem Layout.translate (h : v.Layout own shared spaces) (hsp : sp ∈ spaces) {cr3 virt : Word}
    (hcr3 : Pte.frame cr3 = sp.pml4) (hvirt : virt.toNat < 2 ^ 30)
    (hout : virt.toNat / 2 ^ 21 ≠ 2) : v.translate cr3 virt = some virt.toNat := by
  obtain ⟨hp, hf⟩ := h.pte sp hsp _ (by omega) hout (Pte.ptIndex virt) (Pte.ptIndex_lt virt)
  simp only [Vmm.translate, h.kgetPteAddrAt hsp hcr3 hvirt, hp, hf, if_true, Option.some.injEq]
  rw [Pte.ptIndex_eq]
  omega

/-- The layout only looks at structural frames, and in most of them only at where the
entries lead. -/
theorem Layout.congr (h : v.Layout own shared spaces)
    (hused : ∀ f, own f ≠ none → v'.pmm.bitmap.test f = false)
    (hleads : ∀ f o, own f = some o → o.Structural → ∀ j < 512,
      Pte.present (v'.mem.entry f j) = Pte.present (v.mem.entry f j) ∧
        Pte.frame (v'.mem.entry f j) = Pte.frame (v.mem.entry f j))
    (hpt3 : ∀ sp ∈ spaces, ∀ j < 512, v'.mem.entry sp.pt3 j = v.mem.entry sp.pt3 j) :
    v'.Layout own shared spaces := by
  have hsame : ∀ {f o}, own f = some o → o.Structural → ∀ {j}, j < 512 → ∀ {t},
      Leads (v.mem.entry f j) t → Leads (v'.mem.entry f j) t := by
    intro f o hf ho j hj t ht
    obtain ⟨hp, hfr⟩ := hleads f o hf ho j hj
    exact ⟨hp.trans ht.1, hfr.trans ht.2⟩
  constructor
  case used => exact hused
  case ownPml4 => exact h.ownPml4
  case ownPdpt => exact h.ownPdpt
  case ownPd => exact h.ownPd
  case ownPt2 => exact h.ownPt2
  case ownPt3 => exact h.ownPt3
  case ownShared => exact h.ownShared
  case pml4e =>
    intro sp hsp
    exact hsame (h.ownPml4 sp hsp) (by simp [Owner.Structural]) (by decide) (h.pml4e sp hsp)
  case pdpte =>
    intro sp hsp
    exact hsame (h.ownPdpt sp hsp) (by simp [Owner.Structural]) (by decide) (h.pdpte sp hsp)
  case pde =>
    intro sp hsp i hi
    exact hsame (h.ownPd sp hsp) (by simp [Owner.Structural]) hi (h.pde sp hsp i hi)
  case pte =>
    intro sp hsp i hi h2 j hj
    have hpt := h.pte sp hsp i hi h2 j hj
    by_cases h3 : i = 3
    · subst h3
      exact hsame (h.ownPt3 sp hsp) (by simp [Owner.Structural]) hj hpt
    · have hshared : sp.pt shared i = shared i := by simp [Space.pt, h2, h3]
      rw [hshared] at hpt ⊢
      exact hsame (h.ownShared i hi h2 h3) trivial hj hpt
  case kernelOnly =>
    intro sp hsp j hj
    rw [hpt3 sp hsp j hj]
    exact h.kernelOnly sp hsp j hj

/-! ## Edits of one address space -/

@[simp] theorem setMem_mem (v : Vmm) (m : Memory) : (v.setMem m).mem = m := rfl

@[simp] theorem setMem_pmm (v : Vmm) (m : Memory) : (v.setMem m).pmm = v.pmm := rfl

@[simp] theorem setMem_codePageCount (v : Vmm) (m : Memory) :
    (v.setMem m).codePageCount = v.codePageCount := rfl

@[simp] theorem setMem_mmapEntries (v : Vmm) (m : Memory) :
    (v.setMem m).mmapEntries = v.mmapEntries := rfl

theorem setMem_setEntry (v : Vmm) (m : Memory) (t i : ℕ) (e : Word) :
    (v.setMem m).setEntry t i e = v.setMem (m.setEntry t i e) := rfl

theorem setEntry_entry (v : Vmm) {t i g j : ℕ} (e : Word) (hi : i < 512) (hj : j < 512) :
    (v.setEntry t i e).mem.entry g j = if g = t ∧ j = i then e else v.mem.entry g j :=
  Memory.entry_setEntry v.mem e hi hj

theorem Layout.pt2_ne (h : v.Layout own shared spaces) (hsp : sp ∈ spaces) {f : ℕ} {o : Owner}
    (hf : own f = some o) (ho : o.Structural) : f ≠ sp.pt2 := by
  rintro rfl
  obtain rfl := Option.some.inj (hf.symm.trans (h.ownPt2 sp hsp))
  exact ho rfl

theorem Layout.setEntry_pt2 (h : v.Layout own shared spaces) (hsp : sp ∈ spaces) {i : ℕ}
    (hi : i < 512) (e : Word) : (v.setEntry sp.pt2 i e).Layout own shared spaces := by
  refine h.congr ?_ ?_ ?_
  · exact h.used
  · intro f o hf ho j hj
    rw [setEntry_entry v e hi hj, if_neg fun hc => h.pt2_ne hsp hf ho hc.1]
    exact ⟨rfl, rfl⟩
  · intro sp' hsp' j hj
    have hne := h.pt2_ne hsp (h.ownPt3 sp' hsp') (by simp [Owner.Structural])
    rw [setEntry_entry v e hi hj, if_neg fun hc => hne hc.1]

/-- The walk does not depend on the entries of last-level tables. -/
theorem Layout.kgetPteAddrAt_setEntry (h : v.Layout own shared spaces) (hsp : sp ∈ spaces)
    {cr3 virt : Word} (hcr3 : Pte.frame cr3 = sp.pml4) (hvirt : virt.toNat < 2 ^ 30) {t i : ℕ}
    (hi : i < 512) (ht : sp.pml4 ≠ t ∧ sp.pdpt ≠ t ∧ sp.pd ≠ t) (e : Word) :
    (v.setEntry t i e).kgetPteAddrAt cr3 virt =
      some (sp.pt shared (virt.toNat / 2 ^ 21), Pte.ptIndex virt) := by
  have h4 : Pte.pml4Index virt = 0 := by rw [Pte.pml4Index_eq]; omega
  have h3 : Pte.pdptIndex virt = 0 := by rw [Pte.pdptIndex_eq]; omega
  have h2 : Pte.pdIndex virt = virt.toNat / 2 ^ 21 := by rw [Pte.pdIndex_eq]; omega
  have hlt : virt.toNat / 2 ^ 21 < 512 := by omega
  obtain ⟨hp4, hf4⟩ := h.pml4e sp hsp
  obtain ⟨hp3, hf3⟩ := h.pdpte sp hsp
  obtain ⟨hp2, hf2⟩ := h.pde sp hsp _ hlt
  have he4 : (v.setEntry t i e).mem.entry sp.pml4 0 = v.mem.entry sp.pml4 0 := by
    rw [setEntry_entry v e hi (by decide), if_neg fun hc => ht.1 hc.1]
  have he3 : (v.setEntry t i e).mem.entry sp.pdpt 0 = v.mem.entry sp.pdpt 0 := by
    rw [setEntry_entry v e hi (by decide), if_neg fun hc => ht.2.1 hc.1]
  have he2 : (v.setEntry t i e).mem.entry sp.pd (virt.toNat / 2 ^ 21) =
      v.mem.entry sp.pd (virt.toNat / 2 ^ 21) := by
    rw [setEntry_entry v e hi hlt, if_neg fun hc => ht.2.2 hc.1]
  simp only [Vmm.kgetPteAddrAt, h4, h3, h2, hcr3, he4, he3, he2, hp4, hf4, hp3, hf3, hp2, hf2,
    Bool.not_true, Bool.false_eq_true, if_false]

theorem Layout.orEntry (h : v.Layout own shared spaces) {t i : ℕ} (hi : i < 512)
    (ht : ∀ sp ∈ spaces, sp.pt3 ≠ t) : (v.orEntry t i 0x04).Layout own shared spaces := by
  refine h.congr ?_ ?_ ?_
  · exact h.used
  · intro f o hf ho j hj
    rw [Vmm.orEntry, setEntry_entry v _ hi hj]
    split_ifs with hc
    · rw [hc.1, hc.2, Pte.present_or, Pte.frame_or _ (by decide),
        show Pte.present 0x04 = false from by decide, Bool.or_false]
      exact ⟨rfl, rfl⟩
    · exact ⟨rfl, rfl⟩
  · intro sp hsp j hj
    rw [Vmm.orEntry, setEntry_entry v _ hi hj, if_neg fun hc => ht sp hsp hc.1]

theorem Layout.ne_pt3 (h : v.Layout own shared spaces) {t root level : ℕ}
    (ht : own t = some (.table root level)) (hlevel : level ≠ 4) :
    ∀ sp ∈ spaces, sp.pt3 ≠ t := by
  rintro sp hsp rfl
  have := Option.some.inj (ht.symm.trans (h.ownPt3 sp hsp))
  simp only [Owner.table.injEq] at this
  exact hlevel this.2

theorem Layout.upper_ne_pt3 (h : v.Layout own shared spaces) (hsp : sp ∈ spaces) :
    sp.pml4 ≠ sp.pt3 ∧ sp.pdpt ≠ sp.pt3 ∧ sp.pd ≠ sp.pt3 :=
  ⟨(h.ne_pt3 (h.ownPml4 sp hsp) (by decide) sp hsp).symm,
    (h.ne_pt3 (h.ownPdpt sp hsp) (by decide) sp hsp).symm,
    (h.ne_pt3 (h.ownPd sp hsp) (by decide) sp hsp).symm⟩

theorem ensureTable_present {t i : ℕ} (h : Pte.present (v.mem.entry t i) = true) (flags : Word) :
    v.ensureTable t i flags = some (Pte.frame (v.mem.entry t i), v) := by
  simp only [ensureTable, h, if_true]

/-- Mapping a page of `[0x400000, 0x600000)` sets one entry of the space's own table, and at
most opens the entries above it to user code. -/
theorem Layout.kvmmapAt (h : v.Layout own shared spaces) (hsp : sp ∈ spaces) {cr3 virt : Word}
    (hcr3 : Pte.frame cr3 = sp.pml4) (hvirt : virt.toNat / 2 ^ 21 = 2) (phys flags : Word) :
    ∃ v', v.kvmmapAt cr3 virt phys flags = some v' ∧ v'.Layout own shared spaces ∧
      v'.pmm = v.pmm ∧ v'.codePageCount = v.codePageCount ∧
      v'.mem.entry sp.pt2 (Pte.ptIndex virt) = Pte.addr phys ||| flags ∧
      ∀ g j, j < 512 → ¬(g = sp.pt2 ∧ j = Pte.ptIndex virt) →
        (∀ l < 3, own g ≠ some (.table sp.pml4 l)) → v'.mem.entry g j = v.mem.entry g j := by
  have h4 : Pte.pml4Index virt = 0 := by rw [Pte.pml4Index_eq]; omega
  have h3 : Pte.pdptIndex virt = 0 := by rw [Pte.pdptIndex_eq]; omega
  have h2 : Pte.pdIndex virt = 2 := by rw [Pte.pdIndex_eq]; omega
  obtain ⟨hp4, hf4⟩ := h.pml4e sp hsp
  obtain ⟨hp3, hf3⟩ := h.pdpte sp hsp
  obtain ⟨hp2, hf2⟩ := h.pde sp hsp 2 (by decide)
  set w := if Pte.user flags then
    ((v.orEntry sp.pml4 0 0x04).orEntry sp.pdpt 0 0x04).orEntry sp.pd 2 0x04 else v with hw
  have hcall : v.kvmmapAt cr3 virt phys flags =
      some (w.setEntry sp.pt2 (Pte.ptIndex virt) (Pte.addr phys ||| flags)) := by
    simp only [Vmm.kvmmapAt, hcr3, h4, h3, h2, ensureTable_present hp4, hf4,
      ensureTable_present hp3, hf3, ensureTable_present hp2, hf2, Option.bind_some]
    rfl
  have hlayout : w.Layout own shared spaces := by
    rw [hw]
    split_ifs
    · exact ((h.orEntry (by decide) (h.ne_pt3 (h.ownPml4 sp hsp) (by decide))).orEntry (by decide)
        (h.ne_pt3 (h.ownPdpt sp hsp) (by decide))).orEntry (by decide)
        (h.ne_pt3 (h.ownPd sp hsp) (by decide))
    · exact h
  have hconst : w.pmm = v.pmm ∧ w.codePageCount = v.codePageCount := by
    rw [hw]
    split_ifs <;> exact ⟨rfl, rfl⟩
  refine ⟨_, hcall, hlayout.setEntry_pt2 hsp (Pte.ptIndex_lt virt) _, hconst.1, hconst.2, ?_, ?_⟩
  · rw [setEntry_entry w _ (Pte.ptIndex_lt virt) (Pte.ptIndex_lt virt), if_pos ⟨rfl, rfl⟩]
  · intro g j hj hne hown
    rw [setEntry_entry w _ (Pte.ptIndex_lt virt) hj, if_neg hne, hw]
    have hg4 : g ≠ sp.pml4 := fun hc => hown 0 (by decide) (hc ▸ h.ownPml4 sp hsp)
    have hg3 : g ≠ sp.pdpt := fun hc => hown 1 (by decide) (hc ▸ h.ownPdpt sp hsp)
    have hg2 : g ≠ sp.pd := fun hc => hown 2 (by decide) (hc ▸ h.ownPd sp hsp)
    split_ifs
    · rw [Vmm.orEntry, setEntry_entry _ _ (by decide) hj, if_neg fun hc => hg2 hc.1, Vmm.orEntry,
        setEntry_entry _ _ (by decide) hj, if_neg fun hc => hg3 hc.1, Vmm.orEntry,
        setEntry_entry _ _ (by decide) hj, if_neg fun hc => hg4 hc.1]
    · rfl

/-- Taking a frame keeps the layout. -/
theorem Layout.kpalloc (h : v.Layout own shared spaces) : v.kpalloc.2.Layout own shared spaces := by
  refine h.congr ?_ (fun _ _ _ _ _ _ => ⟨rfl, rfl⟩) (fun _ _ _ _ => rfl)
  intro f hf
  by_cases h0 : v.pmm.kpalloc.1 = 0
  · have hsame := v.pmm.kpalloc_takes.unchanged h0
    simpa only [Vmm.kpalloc, hsame] using h.used f hf
  · obtain ⟨g, -, heq⟩ := Pmm.kpalloc_eq_some h0
    simp only [Vmm.kpalloc, heq, Bitmap.test_clear, h.used f hf, Bool.false_and]

/-! ## Freeing frames -/

/-- What `kpfree` does when it does not halt. -/
theorem kpfree_cases {page : Word} (h : v.kpfree page = some v') :
    (page = 0 ∧ v' = v) ∨
      (page ≠ 0 ∧ Pte.addr page = page ∧ Pte.frame page < v.pmm.frameCount ∧
        v.pmm.bitmap.test (Pte.frame page) = false ∧
        v' = { v with pmm := { v.pmm with bitmap := v.pmm.bitmap.set (Pte.frame page) } }) := by
  obtain ⟨p, hp, rfl⟩ := Option.map_eq_some_iff.mp h
  unfold Pmm.kpfree at hp
  by_cases h0 : page = 0
  · rw [if_pos h0, Option.some.injEq] at hp
    subst hp
    exact .inl ⟨h0, rfl⟩
  · rw [if_neg h0] at hp
    right
    by_cases hmod : page % 0x1000 = 0
    · have hframe : (page / 0x1000).toNat = Pte.frame page := by
        rw [BitVec.toNat_udiv, Pte.frame_eq]
        rfl
      have haddr : Pte.addr page = page := by
        apply BitVec.eq_of_toNat_eq
        have hnat : page.toNat % 4096 = 0 := by
          rw [show 4096 = (0x1000 : Word).toNat from rfl, ← BitVec.toNat_umod, hmod]
          rfl
        rw [Pte.addr_toNat]
        omega
      rw [if_neg (not_not.mpr hmod)] at hp
      simp only [hframe] at hp
      split_ifs at hp with hlt htest
      rw [Option.some.injEq] at hp
      subst hp
      exact ⟨h0, haddr, by omega, Bool.eq_false_iff.mpr htest, rfl⟩
    · rw [if_pos hmod] at hp
      exact absurd hp (by simp)

theorem kpfree_mem {page : Word} (h : v.kpfree page = some v') : v'.mem = v.mem := by
  obtain ⟨-, rfl⟩ | ⟨-, -, -, -, rfl⟩ := kpfree_cases h <;> rfl

/-- A layout survives the loss of a frame that is for nothing. -/
theorem Layout.kpfree (h : v.Layout own shared spaces) {page : Word} (hv : v.kpfree page = some v')
    (hown : page ≠ 0 → own (Pte.frame page) = none) : v'.Layout own shared spaces := by
  obtain ⟨-, rfl⟩ | ⟨h0, -, -, -, rfl⟩ := kpfree_cases hv
  · exact h
  · refine h.congr ?_ (fun _ _ _ _ _ _ => ⟨rfl, rfl⟩) (fun _ _ _ _ => rfl)
    intro f hf
    have hne : f ≠ Pte.frame page := by
      rintro rfl
      exact hf (hown h0)
    rw [Bitmap.test_set, h.used f hf]
    simp [hne]

theorem Layout.kvmunmapAt (h : v.Layout own shared spaces) (hsp : sp ∈ spaces) {cr3 virt : Word}
    (hcr3 : Pte.frame cr3 = sp.pml4) (hvirt : virt.toNat / 2 ^ 21 = 2) :
    (v.kvmunmapAt cr3 virt).2.Layout own shared spaces := by
  simp only [Vmm.kvmunmapAt, h.kgetPteAddrAt_window hsp hcr3 hvirt]
  split_ifs
  · exact h
  · exact h.setEntry_pt2 hsp (Pte.ptIndex_lt virt) 0

/-- The frame is freed before the entry is cleared. -/
theorem Layout.kvmunmapAndFreeAt_eq (h : v.Layout own shared spaces) (hsp : sp ∈ spaces)
    {cr3 virt : Word} (hcr3 : Pte.frame cr3 = sp.pml4) (hvirt : virt.toNat / 2 ^ 21 = 2) :
    v.kvmunmapAndFreeAt cr3 virt =
      (v.kpfree (Pte.addr (v.mem.entry sp.pt2 (Pte.ptIndex virt)))).map fun w =>
        (true, w.setEntry sp.pt2 (Pte.ptIndex virt) 0) := by
  simp only [Vmm.kvmunmapAndFreeAt, h.kgetPteAddrAt_window hsp hcr3 hvirt]

theorem Layout.kvmunmapAndFreeAt (h : v.Layout own shared spaces) (hsp : sp ∈ spaces)
    {cr3 virt : Word} (hcr3 : Pte.frame cr3 = sp.pml4) (hvirt : virt.toNat / 2 ^ 21 = 2) {b : Bool}
    (hv : v.kvmunmapAndFreeAt cr3 virt = some (b, v'))
    (hown : Pte.addr (v.mem.entry sp.pt2 (Pte.ptIndex virt)) ≠ 0 →
      own (Pte.frame (v.mem.entry sp.pt2 (Pte.ptIndex virt))) = none) :
    v'.Layout own shared spaces := by
  rw [h.kvmunmapAndFreeAt_eq hsp hcr3 hvirt] at hv
  obtain ⟨w, hw, heq⟩ := Option.map_eq_some_iff.mp hv
  obtain ⟨-, rfl⟩ := Prod.mk.inj heq
  have hlayout : w.Layout own shared spaces := h.kpfree hw (by simpa only [Pte.frame_addr] using hown)
  exact hlayout.setEntry_pt2 hsp (Pte.ptIndex_lt virt) 0

end layout

end Vmm

end Nyvela
