import Nyvela.PageForest
import Nyvela.PageSystem
import Nyvela.SpaceConservation
import Nyvela.VmmInit

/-!
# The forest after `kvmm_init` and with a new address space

The tables that the boot loader and `kvmm_init` leave are a forest with one root, and
`kvmm_create_user_pml4` adds a root to a forest, with up to five tables of its own.
-/

namespace Nyvela.Vmm

open PageTree

section forest

variable {own : List ℕ → Bool} {v w : Vmm} {kind : ℕ → Option Kind} {roots : List ℕ}

/-- Nothing that a table holds changes. -/
theorem Tables.congr (h : Tables own v kind roots)
    (hsame : ∀ f, kind f ≠ none → ∀ i < 512, w.mem.entry f i = v.mem.entry f i)
    (hused : ∀ f, kind f ≠ none → w.pmm.bitmap.test f = false) : Tables own w kind roots := by
  refine ⟨h.forest.congr fun f K hf _ i hi => ?_, hused⟩
  rw [hsame f (by simp [hf]) i hi]
  exact ⟨rfl, rfl⟩

/-- The tables that `kvmm_create_user_pml4` follows. -/
theorem descend_source {cr3 : Word} (h4 : Pte.present (v.mem.entry (v.source cr3).pml4 0) = true)
    (h3 : Pte.present (v.mem.entry (v.source cr3).pdpt 0) = true) :
    descend v.mem (Pte.frame cr3) [0] = some (v.source cr3).pdpt ∧
      descend v.mem (Pte.frame cr3) [0, 0] = some (v.source cr3).pd ∧
      ∀ s t, Leads (v.mem.entry (v.source cr3).pd s) t →
        descend v.mem (Pte.frame cr3) [0, 0, s] = some t := by
  have hdesc3 : descend v.mem (Pte.frame cr3) [0] = some (v.source cr3).pdpt := if_pos h4
  refine ⟨hdesc3, ?_, fun s t ht => ?_⟩
  · rw [show [0, 0] = [0] ++ [0] from rfl, descend_append, hdesc3, Option.bind_some]
    exact if_pos h3
  · exact descend_of_leads (show Leads _ (v.source cr3).pdpt from ⟨h4, rfl⟩)
      (show Leads _ (v.source cr3).pd from ⟨h3, rfl⟩) ht

/-- `own` picks the tables that `kvmm_create_user_pml4` copies, and no other table of the
first gigabyte. -/
structure Splits (own : List ℕ → Bool) : Prop where
  pdpt : own [0] = true
  pd : own [0, 0] = true
  pt2 : own [0, 0, 2] = true
  pt3 : own [0, 0, 3] = true
  rest : ∀ i, i ≠ 2 → i ≠ 3 → own [0, 0, i] = false

/-! ## After `kvmm_init` -/

/-- The kind of the table in a frame with this owner. -/
def ownerKind : Owner → Option Kind
  | .table r 0 => some (.priv r [])
  | .table r 1 => some (.priv r [0])
  | .table r 2 => some (.priv r [0, 0])
  | .table r 3 => some (.priv r [0, 0, 2])
  | .table r 4 => some (.priv r [0, 0, 3])
  | .identity _ => some (.common 3)
  | _ => none

section boot

variable {cr3 : Word} {pts : ℕ → ℕ}

/-- `kvmm_init` fills the directory and leaves the two tables above it. -/
theorem BootTables.filled (hb : v.BootTables cr3)
    (hfill : Filled v w (v.bootSpace cr3 pts).pd 512 pts) :
    (∀ i < 512, w.mem.entry (v.bootSpace cr3 pts).pml4 i =
      v.mem.entry (v.bootSpace cr3 pts).pml4 i) ∧
    (∀ i < 512, w.mem.entry (v.bootSpace cr3 pts).pdpt i =
      v.mem.entry (v.bootSpace cr3 pts).pdpt i) ∧
    ∀ i < 512, Leads (w.mem.entry (v.bootSpace cr3 pts).pd i) (pts i) := by
  have hnd := hb.distinct
  simp only [List.nodup_cons, List.mem_cons, List.not_mem_nil, or_false, not_or] at hnd
  obtain ⟨⟨-, h42⟩, h32, -⟩ := hnd
  refine ⟨fun i hi => ?_, fun i hi => ?_, fun i hi => ?_⟩
  · exact hfill.others _ h42 (fun j hj => hfill.ne_of_used (hb.used pts (.inl rfl)) hj) i hi
  · exact hfill.others _ h32 (fun j hj => hfill.ne_of_used (hb.used pts (.inr (.inl rfl))) hj) i hi
  · have hlead := (hfill.layout hb.toBooted).pde _ (List.mem_singleton_self _) i hi
    rwa [bootSpace_pt] at hlead

/-- The kind of each table after `kvmm_init`. -/
theorem BootTables.kinds (hb : v.BootTables cr3) (hown : Splits own)
    (hfill : Filled v w (v.bootSpace cr3 pts).pd 512 pts) {sp : Space}
    (hsp : sp = v.bootSpace cr3 pts) :
    (bootOwner sp pts sp.pml4).bind ownerKind = some (.priv sp.pml4 []) ∧
    (bootOwner sp pts sp.pdpt).bind ownerKind = some (.priv sp.pml4 [0]) ∧
    (bootOwner sp pts sp.pd).bind ownerKind = some (.priv sp.pml4 [0, 0]) ∧
    ∀ i < 512, (bootOwner sp pts (pts i)).bind ownerKind =
      some ((Kind.priv sp.pml4 [0, 0]).child own i) := by
  subst hsp
  have hlayout := hfill.layout hb.toBooted
  have hmem := List.mem_singleton_self (v.bootSpace cr3 pts)
  refine ⟨?_, ?_, ?_, fun i hi => ?_⟩
  · rw [hlayout.ownPml4 _ hmem]
    rfl
  · rw [hlayout.ownPdpt _ hmem]
    rfl
  · rw [hlayout.ownPd _ hmem]
    rfl
  · rw [bootOwner_pts hb.toBooted hfill hi]
    by_cases h2 : i = 2
    · subst h2
      rw [Kind.child_priv (p := [0, 0]) hown.pt2]
      rfl
    by_cases h3 : i = 3
    · subst h3
      rw [Kind.child_priv (p := [0, 0]) hown.pt3]
      rfl
    · rw [if_neg h2, if_neg h3, Kind.child, show [0, 0] ++ [i] = [0, 0, i] from rfl,
        hown.rest i h2 h3]
      rfl

theorem BootTables.forest (hb : v.BootTables cr3) (hown : Splits own)
    (hfill : Filled v w (v.bootSpace cr3 pts).pd 512 pts) :
    Forest own w.mem (fun f => (bootOwner (v.bootSpace cr3 pts) pts f).bind ownerKind)
      [Pte.frame cr3] := by
  obtain ⟨hkind4, hkind3, hkind2, hkind1⟩ := hb.kinds hown hfill rfl
  obtain ⟨hkeep4, hkeep3, hpde⟩ := hb.filled hfill
  have hlayout := hfill.layout hb.toBooted
  have hmem := List.mem_singleton_self (v.bootSpace cr3 pts)
  obtain ⟨hp4, hf4⟩ := hlayout.pml4e _ hmem
  obtain ⟨hp3, hf3⟩ := hlayout.pdpte _ hmem
  generalize hsp : v.bootSpace cr3 pts = sp at *
  have hroot : Pte.frame cr3 = sp.pml4 := by rw [← hsp]; rfl
  have hcases : ∀ f, (bootOwner sp pts f).bind ownerKind ≠ none →
      f = sp.pml4 ∨ f = sp.pdpt ∨ f = sp.pd ∨ ∃ i < 512, f = pts i := by
    intro f hf
    apply bootOwner_ne_none
    intro hnone
    simp [hnone] at hf
  have hempty4 : ∀ i < 512, i ≠ 0 → Pte.present (w.mem.entry sp.pml4 i) = false := by
    intro i hi h0
    rw [hkeep4 i hi, ← hsp]
    exact hb.pml4 i hi h0
  have hempty3 : ∀ i < 512, i ≠ 0 → Pte.present (w.mem.entry sp.pdpt i) = false := by
    intro i hi h0
    rw [hkeep3 i hi, ← hsp]
    exact hb.pdpt i hi h0
  rw [hroot]
  constructor
  case root =>
    intro r hr
    rw [List.mem_singleton.mp hr]
    exact hkind4
  case child =>
    intro f K hf hK i hi hp
    rcases hcases f (by simp [hf]) with rfl | rfl | rfl | ⟨j, hj, rfl⟩
    · obtain rfl := Option.some.inj (hkind4.symm.trans hf)
      by_cases h0 : i = 0
      · subst h0
        rw [hf4, Kind.child_priv hown.pdpt]
        exact hkind3
      · rw [hempty4 i hi h0] at hp
        exact absurd hp Bool.false_ne_true
    · obtain rfl := Option.some.inj (hkind3.symm.trans hf)
      by_cases h0 : i = 0
      · subst h0
        rw [hf3, Kind.child_priv (p := [0]) hown.pd]
        exact hkind2
      · rw [hempty3 i hi h0] at hp
        exact absurd hp Bool.false_ne_true
    · obtain rfl := Option.some.inj (hkind2.symm.trans hf)
      rw [(hpde i hi).2]
      exact hkind1 i hi
    · obtain rfl := Option.some.inj ((hkind1 j hj).symm.trans hf)
      simp at hK
  case linked =>
    intro f hf
    refine ⟨sp.pml4, List.mem_singleton_self _, ?_⟩
    rcases hcases f hf with rfl | rfl | rfl | ⟨i, hi, rfl⟩
    · exact ⟨[], by simp, by simp, rfl⟩
    · exact ⟨[0], by simp, by simp, by simp [descend, hp4, hf4]⟩
    · exact ⟨[0, 0], by simp, by simp, by simp [descend, hp4, hf4, hp3, hf3]⟩
    · refine ⟨[0, 0, i], by simpa using hi, by simp, ?_⟩
      simp [descend, hp4, hf4, hp3, hf3, (hpde i hi).1, (hpde i hi).2]

/-- The boot loader's tables with those of `kvmm_init` are a forest, and outside the first
gigabyte nothing is mapped. -/
theorem BootTables.tables (hb : v.BootTables cr3) (hown : Splits own)
    (h : v.kvmmInit cr3 = (true, w)) : (∃ kind, Tables own w kind [Pte.frame cr3]) ∧
      Pte.present (w.mem.entry (w.source cr3).pml4 0) = true ∧
      Pte.present (w.mem.entry (w.source cr3).pdpt 0) = true ∧
      (∀ i < 512, i ≠ 0 → Pte.present (w.mem.entry (w.source cr3).pml4 i) = false) ∧
      ∀ i < 512, i ≠ 0 → Pte.present (w.mem.entry (w.source cr3).pdpt i) = false := by
  obtain ⟨pts, hfill, hlayout⟩ := layout_of_kvmmInit hb.toBooted h
  obtain ⟨hkeep4, hkeep3, -⟩ := hb.filled hfill
  have hpdpt : (w.source cr3).pdpt = (v.bootSpace cr3 pts).pdpt :=
    congrArg Pte.frame (hkeep4 0 (by decide))
  have hpml4 : (w.source cr3).pml4 = (v.bootSpace cr3 pts).pml4 := rfl
  rw [hpdpt, hpml4]
  refine ⟨⟨_, hb.forest hown hfill, fun f hf => hlayout.used f fun hnone => ?_⟩, ?_, ?_, ?_, ?_⟩
  · simp [hnone] at hf
  · exact (hlayout.pml4e _ (List.mem_singleton_self _)).1
  · exact (hlayout.pdpte _ (List.mem_singleton_self _)).1
  · intro i hi h0
    rw [hkeep4 i hi]
    exact hb.pml4 i hi h0
  · intro i hi h0
    rw [hkeep3 i hi]
    exact hb.pdpt i hi h0

/-- The directory that `kvmm_init` fills maps the first gigabyte to itself. -/
theorem BootTables.identity (hb : v.BootTables cr3) (h : v.kvmmInit cr3 = (true, w)) {i : ℕ}
    (hi : i < 512) : ∃ t < 2 ^ 52, w.mem.entry (w.source cr3).pd i = Pte.ofFrame t ||| 0x03 ∧
      ∀ j < 512, w.mem.entry t j = identityEntry i j := by
  obtain ⟨pts, hfill, -⟩ := layout_of_kvmmInit hb.toBooted h
  obtain ⟨hkeep4, hkeep3, -⟩ := hb.filled hfill
  have hpdpt : (w.source cr3).pdpt = (v.bootSpace cr3 pts).pdpt :=
    congrArg Pte.frame (hkeep4 0 (by decide))
  have hpd : (w.source cr3).pd = (v.bootSpace cr3 pts).pd := by
    change Pte.frame (w.mem.entry (w.source cr3).pdpt 0) = _
    rw [hpdpt, hkeep3 0 (by decide)]
    rfl
  rw [hpd]
  exact ⟨pts i, hfill.lt hi, hfill.pde i hi, hfill.pte i hi⟩

end boot

/-! ## A new address space -/

/-- Of the tables that `own` picks `cr3` has none but those that are copied. -/
structure Unshared (own : List ℕ → Bool) (v : Vmm) (cr3 : Word) : Prop where
  pml4 : ∀ i < 512, i ≠ 0 → own [i] = true →
    Pte.present (v.mem.entry (v.source cr3).pml4 i) = false
  pdpt : ∀ i < 512, i ≠ 0 → own [0, i] = true →
    Pte.present (v.mem.entry (v.source cr3).pdpt i) = false

/-- The indices that lead to a table of the new address space. -/
def NewSpace.place (new : NewSpace) (f : ℕ) : Option (List ℕ) :=
  if f = new.pml4 then some []
  else if f = new.pdpt then some [0]
  else if f = new.pd then some [0, 0]
  else if f ∈ new.pt2 then some [0, 0, 2]
  else if f ∈ new.pt3 then some [0, 0, 3]
  else none

/-- The kinds of tables with those of the new address space. -/
def NewSpace.kinds (new : NewSpace) (kind : ℕ → Option Kind) (f : ℕ) : Option Kind :=
  match new.place f with
  | some p => some (.priv new.pml4 p)
  | none => kind f

theorem NewSpace.mem_of_place {new : NewSpace} {f : ℕ} {p : List ℕ} (h : new.place f = some p) :
    f ∈ new.frames := by
  unfold place at h
  split_ifs at h with h4 h3 h2 ht2 ht3
  · simp [NewSpace.frames, h4]
  · simp [NewSpace.frames, h3]
  · simp [NewSpace.frames, h2]
  · simp [NewSpace.frames, Option.mem_def.mp ht2]
  · simp [NewSpace.frames, Option.mem_def.mp ht3]

section create

variable {sp : Space} {new : NewSpace}

/-- The tables of the new address space are where they should be. -/
theorem Built.place (hb : Built v w sp new) : new.place new.pml4 = some [] ∧
    new.place new.pdpt = some [0] ∧ new.place new.pd = some [0, 0] ∧
    (∀ t ∈ new.pt2, new.place t = some [0, 0, 2]) ∧ ∀ t ∈ new.pt3, new.place t = some [0, 0, 3] := by
  have hh := hb.holds
  obtain ⟨h23, h24, h34⟩ := hh.upper_ne
  simp only [NewSpace.held] at h23 h24 h34
  refine ⟨?_, ?_, ?_, fun t ht => ?_, fun t ht => ?_⟩
  · simp [NewSpace.place]
  · simp [NewSpace.place, h34]
  · simp [NewSpace.place, h24, h23]
  · obtain ⟨h2, h3, h4⟩ := hh.table_ne (.inl rfl) (show t ∈ new.held.table 2 from ht)
    simp only [NewSpace.held] at h2 h3 h4
    simp only [NewSpace.place, h2, h3, h4, ht, if_false, if_true]
  · obtain ⟨h2, h3, h4⟩ := hh.table_ne (.inr rfl) (show t ∈ new.held.table 3 from ht)
    simp only [NewSpace.held] at h2 h3 h4
    have hne : t ∉ new.pt2 := fun hc =>
      hh.tables_ne (.inl rfl) (.inr rfl) (by decide) (show t ∈ new.held.table 2 from hc)
        (show t ∈ new.held.table 3 from ht) rfl
    simp only [NewSpace.place, h2, h3, h4, hne, ht, if_false, if_true]

theorem Tables.kinds_of_kind (h : Tables own v kind roots) (hb : Built v w sp new) {f : ℕ}
    {K : Kind} (hf : kind f = some K) : new.kinds kind f = some K := by
  unfold NewSpace.kinds
  split
  · rename_i p hp
    have hfree := (hb.ext.fresh f (NewSpace.mem_of_place hp)).1
    simp [h.kind_of_free hfree] at hf
  · exact hf

theorem Tables.entry_of_kind (h : Tables own v kind roots) (hb : Built v w sp new) {f : ℕ}
    (hf : kind f ≠ none) {i : ℕ} (hi : i < 512) : w.mem.entry f i = v.mem.entry f i :=
  hb.ext.entry (hb.ext.notMem_of_used (h.used f hf)) hi

/-- A copied entry leads to a table that the new address space shares. -/
theorem Tables.child_of_copied (h : Tables own v kind roots) (hb : Built v w sp new) {f : ℕ}
    {r : ℕ} {p : List ℕ} (hf : kind f = some (.priv r p)) (hp : p.length < 3) {i : ℕ}
    (hi : i < 512) {e : Word} (he : e = v.mem.entry f i) (hpres : Pte.present e = true)
    (hown : own (p ++ [i]) = false) :
    new.kinds kind (Pte.frame e) = some (.common (p.length + 1)) := by
  subst he
  have hchild := h.forest.child f _ hf (by simpa using hp) i hi hpres
  rw [Kind.child, hown] at hchild
  exact h.kinds_of_kind hb hchild

/-- The tables that `kvmm_create_user_pml4` copies. -/
structure SourceKinds (kind : ℕ → Option Kind) (v : Vmm) (cr3 : Word) : Prop where
  pml4 : kind (v.source cr3).pml4 = some (.priv (Pte.frame cr3) [])
  pdpt : kind (v.source cr3).pdpt = some (.priv (Pte.frame cr3) [0])
  pd : kind (v.source cr3).pd = some (.priv (Pte.frame cr3) [0, 0])

theorem Tables.sourceKinds {cr3 : Word} (h : Tables own v kind roots) (hown : Splits own)
    (hr : Pte.frame cr3 ∈ roots) (h4 : Pte.present (v.mem.entry (v.source cr3).pml4 0) = true)
    (h3 : Pte.present (v.mem.entry (v.source cr3).pdpt 0) = true) : SourceKinds kind v cr3 := by
  have hsrc4 : kind (v.source cr3).pml4 = some (.priv (Pte.frame cr3) []) :=
    h.forest.root _ hr
  have hsrc3 : kind (v.source cr3).pdpt = some (.priv (Pte.frame cr3) [0]) := by
    have hchild := h.forest.child _ _ hsrc4 (by simp) 0 (by decide) h4
    rwa [Kind.child_priv hown.pdpt] at hchild
  have hsrc2 : kind (v.source cr3).pd = some (.priv (Pte.frame cr3) [0, 0]) := by
    have hchild := h.forest.child _ _ hsrc3 (by simp) 0 (by decide) h3
    rwa [Kind.child_priv (p := [0]) hown.pd] at hchild
  exact ⟨hsrc4, hsrc3, hsrc2⟩

/-- The tables of the new address space lead to tables of the right kind. -/
theorem Tables.child_of_place {cr3 : Word} (h : Tables own v kind roots) (hown : Splits own)
    (hsrc : SourceKinds kind v cr3) (hun : Unshared own v cr3)
    (hb : Built v w (v.source cr3) new) {f : ℕ} {p : List ℕ} (hplace : new.place f = some p)
    (hlen : p.length < 3) {i : ℕ} (hi : i < 512) (hp : Pte.present (w.mem.entry f i) = true) :
    new.kinds kind (Pte.frame (w.mem.entry f i)) = some ((Kind.priv new.pml4 p).child own i) := by
  obtain ⟨-, hpdpt, hpd, hpt2, hpt3⟩ := hb.place
  have hh := hb.holds
  have hpml4e : Leads (w.mem.entry new.pml4 0) new.pdpt := hh.pml4e
  have hpdpte : Leads (w.mem.entry new.pdpt 0) new.pd := hh.pdpte
  have hkind : ∀ {f p}, new.place f = some p → new.kinds kind f = some (.priv new.pml4 p) := by
    intro f p hf
    rw [NewSpace.kinds, hf]
  have hshared : ∀ {q : List ℕ} {b : Bool}, (own q = true → b = false) → b = true →
      own q = false := by
    intro q b himp hb'
    cases hc : own q with
    | false => rfl
    | true => simp [himp hc] at hb'
  -- the two tables of the window
  have hslot : ∀ s, (s = 2 ∨ s = 3) → Pte.present (w.mem.entry new.pd s) = true →
      new.kinds kind (Pte.frame (w.mem.entry new.pd s)) = some (.priv new.pml4 [0, 0, s]) := by
    intro s hs hps
    have hholds : HoldsSlot w new.pd s (new.held.table s) (new.held.made s) := hh.slot s hs
    cases ht : new.held.table s with
    | none =>
      rw [hholds.empty ht] at hps
      exact absurd hps Bool.false_ne_true
    | some t =>
      rw [(hholds.link t ht).2]
      rcases hs with rfl | rfl
      · exact hkind (hpt2 t ht)
      · exact hkind (hpt3 t ht)
  unfold NewSpace.place at hplace
  split_ifs at hplace with hf4 hf3 hf2 ht2 ht3
  · obtain rfl := Option.some.inj hplace
    subst hf4
    by_cases h0 : i = 0
    · subst h0
      rw [hpml4e.2, Kind.child_priv hown.pdpt]
      exact hkind hpdpt
    · have hent := hb.pml4 i hi h0
      rw [hent] at hp ⊢
      have hoff : own [i] = false := hshared (hun.pml4 i hi h0) hp
      rw [Kind.child, List.nil_append, hoff]
      exact h.child_of_copied hb hsrc.pml4 (by simp) hi rfl hp hoff
  · obtain rfl := Option.some.inj hplace
    subst hf3
    by_cases h0 : i = 0
    · subst h0
      rw [hpdpte.2, Kind.child_priv (p := [0]) hown.pd]
      exact hkind hpd
    · have hent := hb.pdpt i hi h0
      rw [hent] at hp ⊢
      have hoff : own [0, i] = false := hshared (hun.pdpt i hi h0) hp
      rw [Kind.child, show [0] ++ [i] = [0, i] from rfl, hoff]
      exact h.child_of_copied hb hsrc.pdpt (by simp) hi rfl hp hoff
  · obtain rfl := Option.some.inj hplace
    subst hf2
    by_cases h2 : i = 2
    · subst h2
      rw [Kind.child_priv (p := [0, 0]) hown.pt2]
      exact hslot 2 (.inl rfl) hp
    by_cases h3 : i = 3
    · subst h3
      rw [Kind.child_priv (p := [0, 0]) hown.pt3]
      exact hslot 3 (.inr rfl) hp
    · have hent := hb.pd i hi h2 h3
      rw [hent] at hp ⊢
      have hoff := hown.rest i h2 h3
      rw [Kind.child, show [0, 0] ++ [i] = [0, 0, i] from rfl, hoff]
      exact h.child_of_copied hb hsrc.pd (by simp) hi rfl hp hoff
  · exact absurd hlen (by rw [← Option.some.inj hplace]; decide)
  · exact absurd hlen (by rw [← Option.some.inj hplace]; decide)

/-- Its tables are on its walks. -/
theorem Built.descend_of_place (hb : Built v w sp new) {f : ℕ} {p : List ℕ}
    (hplace : new.place f = some p) :
    (∀ i ∈ p, i < 512) ∧ p.length ≤ 3 ∧ descend w.mem new.pml4 p = some f := by
  have hh := hb.holds
  obtain ⟨hp4, hf4⟩ := hh.pml4e
  obtain ⟨hp3, hf3⟩ := hh.pdpte
  simp only [NewSpace.held] at hp4 hf4 hp3 hf3
  unfold NewSpace.place at hplace
  split_ifs at hplace with h4 h3 h2 ht2 ht3 <;> obtain rfl := Option.some.inj hplace
  · simp [descend, h4]
  · simp [descend, hp4, hf4, h3]
  · simp [descend, hp4, hf4, hp3, hf3, h2]
  · obtain ⟨hp2, hf2⟩ := (hh.slot 2 (.inl rfl)).link f ht2
    simp only [NewSpace.held] at hp2 hf2
    simp [descend, hp4, hf4, hp3, hf3, hp2, hf2]
  · obtain ⟨hp2, hf2⟩ := (hh.slot 3 (.inr rfl)).link f ht3
    simp only [NewSpace.held] at hp2 hf2
    simp [descend, hp4, hf4, hp3, hf3, hp2, hf2]

/-- A new address space joins the forest. -/
theorem Tables.create {cr3 : Word} (h : Tables own v kind roots) (hown : Splits own)
    (hsrc : SourceKinds kind v cr3) (hun : Unshared own v cr3)
    (hb : Built v w (v.source cr3) new) :
    Tables own w (new.kinds kind) (new.pml4 :: roots) := by
  have hroot : new.kinds kind new.pml4 = some (.priv new.pml4 []) := by
    rw [NewSpace.kinds, hb.place.1]
  refine ⟨⟨?_, ?_, ?_⟩, ?_⟩
  · intro r hr
    rcases List.mem_cons.mp hr with rfl | hr
    · exact hroot
    · exact h.kinds_of_kind hb (h.forest.root r hr)
  · intro f K hf hK i hi hp
    unfold NewSpace.kinds at hf
    split at hf
    · rename_i p hplace
      obtain rfl := Option.some.inj hf
      exact h.child_of_place hown hsrc hun hb hplace hK hi hp
    · have hne : kind f ≠ none := by simp [hf]
      rw [h.entry_of_kind hb hne hi] at hp ⊢
      exact h.kinds_of_kind hb (h.forest.child f K hf hK i hi hp)
  · intro f hf
    unfold NewSpace.kinds at hf
    split at hf
    · rename_i p hplace
      exact ⟨new.pml4, List.mem_cons_self, p, hb.descend_of_place hplace⟩
    · obtain ⟨r, hr, p, hlt, hlen, hp⟩ := h.forest.linked_mono (fun f K hf _ i hi hp => by
        rw [h.entry_of_kind hb (by simp [hf]) hi]
        exact ⟨hp, rfl⟩) hf
      exact ⟨r, List.mem_cons_of_mem _ hr, p, hlt, hlen, hp⟩
  · intro f hf
    rw [hb.ext.test]
    unfold NewSpace.kinds at hf
    split at hf
    · rename_i p hplace
      simp [NewSpace.mem_of_place hplace]
    · rw [h.used f hf, Bool.false_and]

end create

end forest

end Nyvela.Vmm
