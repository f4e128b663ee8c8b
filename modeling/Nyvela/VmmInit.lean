import Mathlib.Data.List.Perm.Subperm
import Nyvela.VmmLayout

/-!
# The identity map after `kvmm_init`

The first gigabyte gets 512 tables, each from `kpalloc`.
-/

namespace Nyvela.Vmm

/-- `w` comes from `v` by the first `n` rounds of `kvmm_init`, with table `i` in frame `pts i`. -/
structure Filled (v w : Vmm) (pd n : ℕ) (pts : ℕ → ℕ) : Prop where
  frameCount : w.pmm.frameCount = v.pmm.frameCount
  kernelEnd : w.pmm.kernelEnd = v.pmm.kernelEnd
  codePageCount : w.codePageCount = v.codePageCount
  mmapEntries : w.mmapEntries = v.mmapEntries
  least : ∀ i < n, IsLeast {f | f ∈ v.pmm.allocatable ∧ ∀ k < i, f ≠ pts k} (pts i)
  test : ∀ f, w.pmm.bitmap.test f = true ↔ v.pmm.bitmap.test f = true ∧ ∀ i < n, f ≠ pts i
  pde : ∀ i < n, w.mem.entry pd i = Pte.ofFrame (pts i) ||| 0x03
  pte : ∀ i < n, ∀ j < 512, w.mem.entry (pts i) j = identityEntry i j
  others : ∀ g, g ≠ pd → (∀ i < n, g ≠ pts i) → ∀ j < 512,
    w.mem.entry g j = v.mem.entry g j

theorem leads_identityEntry {i j : ℕ} (hi : i < 512) (hj : j < 512) :
    Leads (identityEntry i j) (i * 512 + j) := by
  have heq : identityEntry i j = Pte.ofFrame (i * 512 + j) ||| 0x03 := by
    rw [identityEntry, Pte.ofFrame, show i * 0x200000 + j * 0x1000 = (i * 512 + j) * 4096 by omega]
  rw [heq]
  constructor
  · rw [Pte.present_or, show Pte.present 0x03 = true from by decide, Bool.or_true]
  · rw [Pte.frame_or _ (by decide), Pte.frame_ofFrame (by omega)]

theorem user_identityEntry (i j : ℕ) : Pte.user (identityEntry i j) = false := by
  have heq : identityEntry i j = Pte.ofFrame (i * 512 + j) ||| 0x03 := by
    rw [identityEntry, Pte.ofFrame, show i * 0x200000 + j * 0x1000 = (i * 512 + j) * 4096 by omega]
  rw [heq, Pte.user_or, Pte.user_ofFrame]
  decide

theorem entry_fillTable (pt i : ℕ) (m : Memory) {n : ℕ} (hn : n ≤ 512) (g : ℕ) {j : ℕ}
    (hj : j < 512) :
    (fillTable pt i n m).entry g j =
      if g = pt ∧ j < n then identityEntry i j else m.entry g j := by
  induction n with
  | zero => simp [fillTable]
  | succ n ih =>
    rw [fillTable, Memory.entry_setEntry _ _ (by omega) hj, ih (by omega)]
    by_cases hg : g = pt
    · by_cases hjn : j = n
      · simp [hg, hjn]
      · have hlt : j < n + 1 ↔ j < n := by omega
        simp [hg, hjn, hlt]
    · simp [hg]

section filled

variable {v w : Vmm} {pd n : ℕ} {pts : ℕ → ℕ}

theorem Filled.zero (v : Vmm) (pd : ℕ) (pts : ℕ → ℕ) : Filled v v pd 0 pts := by
  constructor <;> simp

theorem Filled.ne_of_used (h : Filled v w pd n pts) {f : ℕ} (hf : v.pmm.bitmap.test f = false)
    {i : ℕ} (hi : i < n) : f ≠ pts i := by
  rintro rfl
  have hfree : v.pmm.bitmap.test (pts i) = true := (h.least i hi).1.1.1
  simp [hf] at hfree

theorem Filled.inj (h : Filled v w pd n pts) {i j : ℕ} (hi : i < n) (hj : j < n)
    (heq : pts i = pts j) : i = j := by
  rcases Nat.lt_trichotomy i j with hlt | hij | hlt
  · exact absurd heq.symm ((h.least j hj).1.2 i hlt)
  · exact hij
  · exact absurd heq ((h.least i hi).1.2 j hlt)

theorem Filled.lt (h : Filled v w pd n pts) {i : ℕ} (hi : i < n) : pts i < 2 ^ 52 :=
  (h.least i hi).1.1.2.2.1.trans v.pmm.frameCount_lt

/-- What `kpalloc` may return after `n` rounds. -/
theorem Filled.allocatable (h : Filled v w pd n pts) :
    w.pmm.allocatable = {f | f ∈ v.pmm.allocatable ∧ ∀ k < n, f ≠ pts k} := by
  ext f
  have htest : f ∈ w.pmm.free ↔ f ∈ v.pmm.free ∧ ∀ k < n, f ≠ pts k := h.test f
  have hfirst : w.pmm.firstPage = v.pmm.firstPage := by simp only [Pmm.firstPage, h.kernelEnd]
  simp only [Pmm.allocatable, Set.mem_ofPred_eq, htest, hfirst, h.frameCount]
  constructor
  · rintro ⟨⟨hf, hne⟩, hrest⟩
    exact ⟨⟨hf, hrest⟩, hne⟩
  · rintro ⟨⟨hf, hrest⟩, hne⟩
    exact ⟨⟨hf, hne⟩, hrest⟩

/-- One round: a table, its entries, and the link to it. -/
theorem Filled.round (h : Filled v w pd n pts) (hn : n < 512) (hpd : v.pmm.bitmap.test pd = false)
    {f : ℕ} (hf : IsLeast w.pmm.allocatable f) {w' : Vmm}
    (hw' : w' = { w with pmm := { w.pmm with bitmap := w.pmm.bitmap.clear f } }) :
    Filled v ((w'.setMem (fillTable f n 512 w'.mem)).setEntry pd n (Pte.ofFrame f ||| 0x03)) pd
      (n + 1) (Function.update pts n f) := by
  have hold : ∀ {i}, i < n → Function.update pts n f i = pts i :=
    fun hi => Function.update_of_ne (by omega) _ _
  have hnew : Function.update pts n f n = f := Function.update_self _ _ _
  rw [h.allocatable] at hf
  have hfpd : f ≠ pd := by
    rintro rfl
    have hfree : v.pmm.bitmap.test f = true := hf.1.1.1
    simp [hpd] at hfree
  have hmem : ∀ g j, j < 512 →
      ((w'.setMem (fillTable f n 512 w'.mem)).setEntry pd n (Pte.ofFrame f ||| 0x03)).mem.entry g j =
        if g = pd ∧ j = n then Pte.ofFrame f ||| 0x03
        else if g = f then identityEntry n j else w.mem.entry g j := by
    intro g j hj
    rw [setEntry_entry _ _ hn hj, setMem_mem, entry_fillTable _ _ _ le_rfl _ hj, hw']
    simp only [hj, and_true]
  have hcases : ∀ {p : ℕ → Prop}, p n → (∀ i < n, p i) → ∀ i < n + 1, p i := by
    intro p hpn hp i hi
    rcases Nat.lt_succ_iff_lt_or_eq.mp hi with hi | rfl
    · exact hp i hi
    · exact hpn
  constructor
  case frameCount => rw [hw']; exact h.frameCount
  case kernelEnd => rw [hw']; exact h.kernelEnd
  case codePageCount => rw [hw']; exact h.codePageCount
  case mmapEntries => rw [hw']; exact h.mmapEntries
  case least =>
    have hset : ∀ i ≤ n, {g | g ∈ v.pmm.allocatable ∧ ∀ k < i, g ≠ Function.update pts n f k} =
        {g | g ∈ v.pmm.allocatable ∧ ∀ k < i, g ≠ pts k} := by
      intro i hi
      ext g
      refine and_congr Iff.rfl (forall₂_congr fun k hk => ?_)
      rw [hold (by omega)]
    apply hcases
    · rw [hset n le_rfl, hnew]
      exact hf
    · intro i hi
      rw [hset i hi.le, hold hi]
      exact h.least i hi
  case test =>
    intro g
    have htest : w'.pmm.bitmap.test g = (w.pmm.bitmap.test g && decide (g ≠ f)) := by
      rw [hw', Bitmap.test_clear]
    change w'.pmm.bitmap.test g = true ↔ _
    rw [htest, Bool.and_eq_true, h.test g, decide_eq_true_eq]
    constructor
    · rintro ⟨⟨hg, hne⟩, hgf⟩
      refine ⟨hg, hcases (by rwa [hnew]) fun i hi => ?_⟩
      rw [hold hi]
      exact hne i hi
    · rintro ⟨hg, hne⟩
      refine ⟨⟨hg, fun i hi => ?_⟩, ?_⟩
      · rw [← hold hi]
        exact hne i (by omega)
      · rw [← hnew]
        exact hne n (by omega)
  case pde =>
    apply hcases
    · rw [hmem _ _ hn, if_pos ⟨rfl, rfl⟩, hnew]
    · intro i hi
      rw [hmem _ _ (by omega), if_neg (by omega), if_neg hfpd.symm, hold hi]
      exact h.pde i hi
  case pte =>
    apply hcases
    · intro j hj
      rw [hnew, hmem _ _ hj, if_neg fun hc => hfpd hc.1, if_pos rfl]
    · intro i hi j hj
      have hne : pts i ≠ pd := (h.ne_of_used hpd hi).symm
      rw [hold hi, hmem _ _ hj, if_neg fun hc => hne hc.1, if_neg (hf.1.2 i hi).symm]
      exact h.pte i hi j hj
  case others =>
    intro g hg hne j hj
    have hgf : g ≠ f := by
      rw [← hnew]
      exact hne n (by omega)
    rw [hmem _ _ hj, if_neg fun hc => hg hc.1, if_neg hgf]
    apply h.others g hg _ j hj
    intro i hi
    rw [← hold hi]
    exact hne i (by omega)

/-- The loop of `kvmm_init`, when it returns `true`. -/
theorem filled_of_initTables (hn : n ≤ 512) (hpd : v.pmm.bitmap.test pd = false)
    (h : initTables pd n v = (true, w)) : ∃ pts, Filled v w pd n pts := by
  induction n generalizing w with
  | zero =>
    obtain ⟨-, rfl⟩ := Prod.mk.inj h
    exact ⟨id, .zero v pd id⟩
  | succ n ih =>
    rw [initTables] at h
    cases hprev : initTables pd n v with
    | mk b u =>
      rw [hprev] at h
      cases b with
      | false => simp at h
      | true =>
        obtain ⟨pts, hpts⟩ := ih (by omega) hprev
        simp only at h
        split_ifs at h with h0
        · simp at h
        · obtain ⟨f, hleast, heq⟩ := Pmm.kpalloc_eq_some h0
          have hlt : f < 2 ^ 52 := hleast.1.2.2.1.trans u.pmm.frameCount_lt
          have hpage : u.kpalloc.1 = Pte.ofFrame f := congrArg Prod.fst heq
          obtain ⟨-, rfl⟩ := Prod.mk.inj h
          rw [hpage, Pte.frame_ofFrame hlt]
          exact ⟨_, hpts.round (by omega) hpd hleast (by simp only [Vmm.kpalloc, heq])⟩

end filled

/-- With frames enough the loop does not fail. -/
theorem initTables_of_plenty {v : Vmm} {pd : ℕ} (hpd : v.pmm.bitmap.test pd = false)
    (h : v.pmm.Plenty 512) {n : ℕ} (hn : n ≤ 512) : ∃ w, initTables pd n v = (true, w) := by
  induction n with
  | zero => exact ⟨v, rfl⟩
  | succ n ih =>
    obtain ⟨u, hu⟩ := ih (by omega)
    obtain ⟨pts, hpts⟩ := filled_of_initTables (by omega) hpd hu
    have hne : u.kpalloc.1 ≠ 0 := by
      intro h0
      obtain ⟨l, hnodup, hlen, hl⟩ := h
      -- otherwise every frame is one of the tables made so far
      have hsub : l ⊆ (List.range n).map pts := by
        intro f hf
        by_contra hnot
        apply Pmm.kpalloc_eq_null h0 f
        rw [hpts.allocatable]
        refine ⟨hl f hf, fun k hk heq => hnot ?_⟩
        exact List.mem_map.mpr ⟨k, List.mem_range.mpr hk, heq.symm⟩
      have := (List.subperm_of_subset hnodup hsub).length_le
      rw [List.length_map, List.length_range] at this
      omega
    rw [initTables, hu]
    simp only [if_neg hne]
    exact ⟨_, rfl⟩

/-! ## The first layout -/

/-- The tables of the kernel's own address space after `kvmm_init`. -/
def bootSpace (v : Vmm) (cr3 : Word) (pts : ℕ → ℕ) : Space where
  pml4 := Pte.frame cr3
  pdpt := Pte.frame (v.mem.entry (Pte.frame cr3) 0)
  pd := Pte.frame (v.mem.entry (Pte.frame (v.mem.entry (Pte.frame cr3) 0)) 0)
  pt2 := pts 2
  pt3 := pts 3

def bootOwner (sp : Space) (pts : ℕ → ℕ) (f : ℕ) : Option Owner :=
  if f = sp.pml4 then some (.table sp.pml4 0)
  else if f = sp.pdpt then some (.table sp.pml4 1)
  else if f = sp.pd then some (.table sp.pml4 2)
  else ((List.range 512).find? fun i => pts i = f).map fun i =>
    if i = 2 then .table sp.pml4 3 else if i = 3 then .table sp.pml4 4 else .identity i

theorem bootOwner_ne_none {sp : Space} {pts : ℕ → ℕ} {f : ℕ} (h : bootOwner sp pts f ≠ none) :
    f = sp.pml4 ∨ f = sp.pdpt ∨ f = sp.pd ∨ ∃ i < 512, f = pts i := by
  unfold bootOwner at h
  split_ifs at h with h4 h3 h2
  · exact .inl h4
  · exact .inr (.inl h3)
  · exact .inr (.inr (.inl h2))
  · right; right; right
    cases hfind : (List.range 512).find? fun i => pts i = f with
    | none => simp [hfind] at h
    | some i =>
      have hmem := List.mem_of_find?_eq_some hfind
      have heq := List.find?_some hfind
      rw [List.mem_range] at hmem
      rw [decide_eq_true_eq] at heq
      exact ⟨i, hmem, heq.symm⟩

section boot

variable {v w : Vmm} {cr3 : Word} {pts : ℕ → ℕ}

theorem bootSpace_pt (v : Vmm) (cr3 : Word) (pts : ℕ → ℕ) (i : ℕ) :
    (v.bootSpace cr3 pts).pt pts i = pts i := by
  unfold Space.pt
  split_ifs with h2 h3
  · rw [h2]; rfl
  · rw [h3]; rfl
  · rfl

theorem Booted.used (h : v.Booted cr3) (pts : ℕ → ℕ) {f : ℕ}
    (hf : f = (v.bootSpace cr3 pts).pml4 ∨ f = (v.bootSpace cr3 pts).pdpt ∨
      f = (v.bootSpace cr3 pts).pd) : v.pmm.bitmap.test f = false := by
  apply h.reserved
  apply h.below
  rcases hf with rfl | rfl | rfl <;> simp [bootSpace]

theorem bootOwner_pts (hb : v.Booted cr3) (h : Filled v w (v.bootSpace cr3 pts).pd 512 pts)
    {i : ℕ} (hi : i < 512) :
    bootOwner (v.bootSpace cr3 pts) pts (pts i) = some
      (if i = 2 then .table (v.bootSpace cr3 pts).pml4 3
      else if i = 3 then .table (v.bootSpace cr3 pts).pml4 4 else .identity i) := by
  have hne : ∀ {f}, v.pmm.bitmap.test f = false → pts i ≠ f := fun hf => (h.ne_of_used hf hi).symm
  have hfind : (List.range 512).find? (fun k => pts k = pts i) = some i := by
    apply List.find?_range_eq_some.mpr
    refine ⟨by simp, by simpa using hi, fun k hk => ?_⟩
    simpa using fun heq => absurd (h.inj (by omega) hi heq) (by omega)
  rw [bootOwner, if_neg (hne (hb.used pts (.inl rfl))), if_neg (hne (hb.used pts (.inr (.inl rfl)))),
    if_neg (hne (hb.used pts (.inr (.inr rfl)))), hfind]
  rfl

theorem Filled.layout (hb : v.Booted cr3) (h : Filled v w (v.bootSpace cr3 pts).pd 512 pts) :
    w.Layout (bootOwner (v.bootSpace cr3 pts) pts) pts [v.bootSpace cr3 pts] := by
  have hnd := hb.distinct
  simp only [List.nodup_cons, List.mem_cons, List.not_mem_nil, or_false, not_or] at hnd
  obtain ⟨⟨h43, h42⟩, h32, -⟩ := hnd
  have hkeep : ∀ f, v.pmm.bitmap.test f = false → f ≠ (v.bootSpace cr3 pts).pd →
      w.mem.entry f 0 = v.mem.entry f 0 :=
    fun f hf hne => h.others f hne (fun i hi => h.ne_of_used hf hi) 0 (by decide)
  constructor
  case used =>
    intro f hf
    rw [Bool.eq_false_iff]
    intro htest
    obtain ⟨hfree, hne⟩ := (h.test f).mp htest
    rcases bootOwner_ne_none hf with h4 | h3 | h2 | ⟨i, hi, heq⟩
    · simp [hb.used pts (.inl h4)] at hfree
    · simp [hb.used pts (.inr (.inl h3))] at hfree
    · simp [hb.used pts (.inr (.inr h2))] at hfree
    · exact hne i hi heq
  case ownPml4 => simp [bootOwner]
  case ownPdpt =>
    have : (v.bootSpace cr3 pts).pdpt ≠ (v.bootSpace cr3 pts).pml4 := fun hc => h43 hc.symm
    simp [bootOwner, this]
  case ownPd =>
    have h1 : (v.bootSpace cr3 pts).pd ≠ (v.bootSpace cr3 pts).pml4 := fun hc => h42 hc.symm
    have h2 : (v.bootSpace cr3 pts).pd ≠ (v.bootSpace cr3 pts).pdpt := fun hc => h32 hc.symm
    simp [bootOwner, h1, h2]
  case ownPt2 => simpa [bootSpace] using bootOwner_pts hb h (show 2 < 512 by decide)
  case ownPt3 => simpa [bootSpace] using bootOwner_pts hb h (show 3 < 512 by decide)
  case ownShared =>
    intro i hi h2 h3
    simpa [h2, h3] using bootOwner_pts hb h hi
  case pml4e =>
    simp only [List.mem_singleton, forall_eq]
    rw [hkeep _ (hb.used pts (.inl rfl)) h42]
    exact ⟨hb.pml4e, rfl⟩
  case pdpte =>
    simp only [List.mem_singleton, forall_eq]
    rw [hkeep _ (hb.used pts (.inr (.inl rfl))) h32]
    exact ⟨hb.pdpte, rfl⟩
  case pde =>
    simp only [List.mem_singleton, forall_eq]
    intro i hi
    rw [h.pde i hi, bootSpace_pt]
    constructor
    · rw [Pte.present_or, show Pte.present 0x03 = true from by decide, Bool.or_true]
    · rw [Pte.frame_or _ (by decide), Pte.frame_ofFrame (h.lt hi)]
  case pte =>
    simp only [List.mem_singleton, forall_eq]
    intro i hi _ j hj
    rw [bootSpace_pt, h.pte i hi j hj]
    exact leads_identityEntry hi hj
  case kernelOnly =>
    simp only [List.mem_singleton, forall_eq]
    intro j hj
    have hpt3 : (v.bootSpace cr3 pts).pt3 = pts 3 := rfl
    rw [hpt3, h.pte 3 (by decide) j hj]
    exact user_identityEntry 3 j

/-- After `kvmm_init` the tables are laid out. -/
theorem layout_of_kvmmInit (hb : v.Booted cr3) (h : v.kvmmInit cr3 = (true, w)) :
    ∃ pts, Filled v w (v.bootSpace cr3 pts).pd 512 pts ∧
      w.Layout (bootOwner (v.bootSpace cr3 pts) pts) pts [v.bootSpace cr3 pts] := by
  have hpd := hb.used id (.inr (.inr rfl))
  simp only [kvmmInit] at h
  simp only [bootSpace] at hpd
  obtain ⟨pts, hpts⟩ := filled_of_initTables le_rfl hpd h
  exact ⟨pts, hpts, hpts.layout hb⟩

end boot

end Nyvela.Vmm
