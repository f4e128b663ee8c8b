import Nyvela.Lib.PageTree
import Nyvela.VmmCreate

/-!
# The page tables of all address spaces

The tables of the kernel and of all address spaces, whatever they map. `kvmmap_at`
adds empty tables, opens entries and sets one entry of a last-level table; what
that does to the whole forest is said once here, for any address.
-/

namespace Nyvela.Vmm

open PageTree

/-- The forest of tables with these roots; its frames are marked used. -/
structure Tables (own : List ℕ → Bool) (v : Vmm) (kind : ℕ → Option Kind) (roots : List ℕ) :
    Prop where
  forest : Forest own v.mem kind roots
  used : ∀ f, kind f ≠ none → v.pmm.bitmap.test f = false

/-- The same, if only `kpalloc` does not hand out its frames. -/
structure Stands (own : List ℕ → Bool) (v : Vmm) (kind : ℕ → Option Kind) (roots : List ℕ) :
    Prop where
  forest : Forest own v.mem kind roots
  kept : ∀ f, kind f ≠ none → f ∉ v.pmm.allocatable

/-- From `v` to `w` tables are added, and of the others only entries in `on` are changed.
An entry that leads to a table can only be opened to users. -/
structure Extends (v : Vmm) (kind : ℕ → Option Kind) (w : Vmm) (kind' : ℕ → Option Kind)
    (on : Kind → ℕ → Prop) : Prop where
  frameCount : w.pmm.frameCount = v.pmm.frameCount
  kernelEnd : w.pmm.kernelEnd = v.pmm.kernelEnd
  codePageCount : w.codePageCount = v.codePageCount
  mmapEntries : w.mmapEntries = v.mmapEntries
  kinds : ∀ f K, kind f = some K → kind' f = some K
  fresh : ∀ f K, kind' f = some K → kind f = none → f ∈ v.pmm.allocatable ∧
    ∀ j < 512, ¬on K j → w.mem.entry f j = 0
  entries : ∀ f K, kind f = some K → ∀ j < 512, ¬on K j → w.mem.entry f j = v.mem.entry f j
  opened : ∀ f K, kind f = some K → K.depth < 3 → ∀ j < 512,
    Pte.present (v.mem.entry f j) = true → Pte.Opened (v.mem.entry f j) (w.mem.entry f j)
  used : ∀ f, v.pmm.bitmap.test f = false → w.pmm.bitmap.test f = false

section forest

variable {own : List ℕ → Bool} {v w u : Vmm} {kind kind' kind'' : ℕ → Option Kind}
  {roots : List ℕ} {on on' : Kind → ℕ → Prop}

theorem Extends.refl (v : Vmm) (kind : ℕ → Option Kind) (on : Kind → ℕ → Prop) :
    Extends v kind v kind on where
  frameCount := rfl
  kernelEnd := rfl
  codePageCount := rfl
  mmapEntries := rfl
  kinds _ _ h := h
  fresh f K h hnone := by simp [hnone] at h
  entries _ _ _ _ _ _ := rfl
  opened _ _ _ _ _ _ _ := .refl _
  used _ h := h

/-- A frame that is free was free. -/
theorem Extends.allocatable (h : Extends v kind w kind' on) {f : ℕ} (hf : f ∈ w.pmm.allocatable) :
    f ∈ v.pmm.allocatable := by
  obtain ⟨hfree, hfirst, hcount, hwindow⟩ := hf
  refine ⟨?_, ?_, h.frameCount ▸ hcount, hwindow⟩
  · change v.pmm.bitmap.test f = true
    by_contra hused
    exact Bool.false_ne_true ((h.used f (Bool.not_eq_true _ ▸ hused)).symm.trans hfree)
  · rwa [Pmm.firstPage, h.kernelEnd] at hfirst

theorem Extends.upper (h : Extends v kind w kind' on) (f : ℕ) (K : Kind) (hf : kind f = some K)
    (hK : K.depth < 3) (j : ℕ) (hj : j < 512) (hp : Pte.present (v.mem.entry f j) = true) :
    Pte.present (w.mem.entry f j) = true ∧
      Pte.frame (w.mem.entry f j) = Pte.frame (v.mem.entry f j) :=
  have hopen := h.opened f K hf hK j hj hp
  ⟨hopen.present.trans hp, hopen.frame⟩

theorem Extends.trans (h : Extends v kind w kind' on) (h' : Extends w kind' u kind'' on) :
    Extends v kind u kind'' on where
  frameCount := h'.frameCount.trans h.frameCount
  kernelEnd := h'.kernelEnd.trans h.kernelEnd
  codePageCount := h'.codePageCount.trans h.codePageCount
  mmapEntries := h'.mmapEntries.trans h.mmapEntries
  kinds f K hf := h'.kinds f K (h.kinds f K hf)
  fresh f K hf hnone := by
    cases hmid : kind' f with
    | none =>
      obtain ⟨hfree, hzero⟩ := h'.fresh f K hf hmid
      exact ⟨h.allocatable hfree, hzero⟩
    | some K' =>
      obtain rfl := Option.some.inj ((h'.kinds f K' hmid).symm.trans hf)
      obtain ⟨hfree, hzero⟩ := h.fresh f K' hmid hnone
      refine ⟨hfree, fun j hj hon => ?_⟩
      rw [h'.entries f K' hmid j hj hon, hzero j hj hon]
  entries f K hf j hj hon := by
    rw [h'.entries f K (h.kinds f K hf) j hj hon, h.entries f K hf j hj hon]
  opened f K hf hK j hj hp :=
    (h.opened f K hf hK j hj hp).trans
      (h'.opened f K (h.kinds f K hf) hK j hj (h.upper f K hf hK j hj hp).1)
  used f hf := h'.used f (h.used f hf)

theorem Extends.mono (h : Extends v kind w kind' on) (hon : ∀ K j, on K j → on' K j) :
    Extends v kind w kind' on' :=
  { h with
    fresh := fun f K hf hnone =>
      ⟨(h.fresh f K hf hnone).1, fun j hj hj' =>
        (h.fresh f K hf hnone).2 j hj fun hc => hj' (hon K j hc)⟩
    entries := fun f K hf j hj hj' => h.entries f K hf j hj fun hc => hj' (hon K j hc) }

/-- A free frame is no table. -/
theorem Tables.kind_of_free (h : Tables own v kind roots) {f : ℕ}
    (hf : v.pmm.bitmap.test f = true) : kind f = none := by
  by_contra hne
  rw [h.used f hne] at hf
  exact Bool.false_ne_true hf

theorem Tables.stands (h : Tables own v kind roots) : Stands own v kind roots :=
  ⟨h.forest, fun f hf hfree => absurd ((h.used f hf).symm.trans hfree.1) Bool.false_ne_true⟩

/-- What is added to tables that are marked used is marked used. -/
theorem Stands.tables (h : Stands own w kind' roots) (hv : Tables own v kind roots)
    (hext : Extends v kind w kind' on) : Tables own w kind' roots := by
  refine ⟨h.forest, fun f hf => ?_⟩
  by_cases hold : kind f = none
  · obtain ⟨K, hK⟩ := Option.ne_none_iff_exists'.mp hf
    obtain ⟨-, hfirst, hcount, hwindow⟩ := (hext.fresh f K hK hold).1
    by_contra hused
    have hfree : w.pmm.bitmap.test f = true := Bool.not_eq_false _ ▸ hused
    refine h.kept f hf ⟨hfree, ?_, hext.frameCount ▸ hcount, hwindow⟩
    rwa [Pmm.firstPage, hext.kernelEnd]
  · exact hext.used f (hv.used f hold)

/-- The entries with `P` in the tables of `w` are all entries of `v`. -/
def Keeps (P : Kind → Word → Prop) (v : Vmm) (kind : ℕ → Option Kind) (w : Vmm)
    (kind' : ℕ → Option Kind) : Prop :=
  ∀ f K, kind' f = some K → ∀ j < 512, P K (w.mem.entry f j) →
    kind f = some K ∧ w.mem.entry f j = v.mem.entry f j

section keeps

variable {P : Kind → Word → Prop}

theorem Keeps.trans (h : Keeps P v kind w kind') (h' : Keeps P w kind' u kind'') :
    Keeps P v kind u kind'' := by
  intro f K hf j hj hP
  obtain ⟨hf', heq⟩ := h' f K hf j hj hP
  rw [heq] at hP ⊢
  exact h f K hf' j hj hP

theorem keeps_setEntry (v : Vmm) {t i : ℕ} {K : Kind} (ht : kind t = some K) (hi : i < 512) {e : Word}
    (he : ¬P K e) : Keeps P v kind (v.setEntry t i e) kind := by
  intro f K' hf j hj hP
  rw [setEntry_entry v e hi hj] at hP ⊢
  split_ifs at hP ⊢ with hc
  · obtain ⟨rfl, -⟩ := hc
    obtain rfl := Option.some.inj (ht.symm.trans hf)
    exact absurd hP he
  · exact ⟨hf, rfl⟩

end keeps

/-- An entry that is open to users. -/
def IsOpen (_ : Kind) (e : Word) : Prop := Pte.present e = true ∧ Pte.user e = true

/-- An entry that maps a page. -/
def IsLeaf (K : Kind) (e : Word) : Prop := K.depth = 3 ∧ Pte.present e = true

/-- An entry of a table is set so that it leads where it led. -/
theorem Stands.setEntry (h : Stands own v kind roots) {t i : ℕ} {K : Kind}
    (ht : kind t = some K) (hi : i < 512) {e : Word}
    (he : K.depth < 3 → Pte.Opened (v.mem.entry t i) e) :
    Stands own (v.setEntry t i e) kind roots ∧
      Extends v kind (v.setEntry t i e) kind fun K' j => K' = K ∧ j = i := by
  have hopen : ∀ f K', kind f = some K' → K'.depth < 3 → ∀ j < 512,
      Pte.Opened (v.mem.entry f j) ((v.setEntry t i e).mem.entry f j) := by
    intro f K' hf hK' j hj
    rw [setEntry_entry v e hi hj]
    split_ifs with hc
    · obtain ⟨rfl, rfl⟩ := hc
      obtain rfl := Option.some.inj (ht.symm.trans hf)
      exact he hK'
    · exact .refl _
  refine ⟨⟨h.forest.congr fun f K' hf hK' j hj => ?_, h.kept⟩, ?_⟩
  · have hj' := hopen f K' hf hK' j hj
    exact ⟨hj'.present, hj'.frame⟩
  constructor
  case frameCount => rfl
  case kernelEnd => rfl
  case codePageCount => rfl
  case mmapEntries => rfl
  case kinds => exact fun _ _ hf => hf
  case fresh =>
    intro f K' hf hnone
    simp [hnone] at hf
  case entries =>
    intro f K' hf j hj hon
    rw [setEntry_entry v e hi hj, if_neg]
    rintro ⟨rfl, rfl⟩
    exact hon ⟨Option.some.inj (hf.symm.trans ht), rfl⟩
  case opened => exact fun f K' hf hK' j hj _ => hopen f K' hf hK' j hj
  case used => exact fun _ hf => hf

theorem Tables.setEntry (h : Tables own v kind roots) {t i : ℕ} {K : Kind}
    (ht : kind t = some K) (hi : i < 512) {e : Word}
    (he : K.depth < 3 → Pte.Opened (v.mem.entry t i) e) :
    Tables own (v.setEntry t i e) kind roots ∧
      Extends v kind (v.setEntry t i e) kind fun K' j => K' = K ∧ j = i := by
  obtain ⟨hw, hext⟩ := h.stands.setEntry ht hi he
  exact ⟨hw.tables h hext, hext⟩

theorem Stands.orEntry (h : Stands own v kind roots) {t i : ℕ} {K : Kind}
    (ht : kind t = some K) (hi : i < 512) :
    Stands own (v.orEntry t i 0x04) kind roots ∧
      (Extends v kind (v.orEntry t i 0x04) kind fun K' j => K' = K ∧ j = i) ∧
      ∀ f, ∀ j < 512, Pte.Opened (v.mem.entry f j) ((v.orEntry t i 0x04).mem.entry f j) := by
  obtain ⟨hw, hext⟩ := h.setEntry ht hi (e := v.mem.entry t i ||| 0x04) fun _ => .inr rfl
  refine ⟨hw, hext, fun f j hj => ?_⟩
  rw [Vmm.orEntry, setEntry_entry v _ hi hj]
  split_ifs with hc
  · rw [hc.1, hc.2]
    exact .inr rfl
  · exact .refl _

/-- One level of `kvmmap_at`. -/
theorem Stands.ensureTable (h : Stands own v kind roots) {t i : ℕ} {K : Kind}
    (ht : kind t = some K) (hK : K.depth < 3) (hi : i < 512) {flags : Word}
    (hflags : flags.toNat < 4096) (hpres : Pte.present flags = true) {t' : ℕ}
    (hcall : v.ensureTable t i flags = some (t', w)) :
    ∃ kind', Stands own w kind' roots ∧ kind' t' = some (K.child own i) ∧
      Leads (w.mem.entry t i) t' ∧ (Extends v kind w kind' fun K' j => K' = K ∧ j = i) ∧
      ∀ P : Kind → Word → Prop, (∀ K', ¬P K' 0) → (∀ g, ¬P K (Pte.ofFrame g ||| flags)) →
        Keeps P v kind w kind' := by
  by_cases hp : Pte.present (v.mem.entry t i) = true
  · rw [ensureTable_present hp] at hcall
    obtain ⟨rfl, rfl⟩ := Prod.mk.inj (Option.some.inj hcall)
    exact ⟨kind, h, h.forest.child t K ht hK i hi hp, ⟨hp, rfl⟩, .refl v kind _,
      fun _ _ _ f K' hf j _ _ => ⟨hf, rfl⟩⟩
  · simp only [Vmm.ensureTable, hp, Bool.false_eq_true, if_false] at hcall
    split_ifs at hcall with h0
    obtain ⟨rfl, rfl⟩ := Prod.mk.inj (Option.some.inj hcall)
    obtain ⟨g, hleast, hpage, -, hext⟩ := (Ext.refl v).kpalloc h0
    have hlt : g < 2 ^ 52 := hext.lt List.mem_cons_self
    have hg : kind g = none := by
      by_contra hne
      exact h.kept g hne hleast.1
    have htg : t ≠ g := by
      rintro rfl
      simp [hg] at ht
    rw [hpage, Pte.frame_ofFrame hlt]
    generalize hv1 : v.kpalloc.2 = v1 at hext
    have hmem : v1.mem = v.mem := by rw [← hv1]; rfl
    have hentry : ∀ f j, j < 512 → ((v1.setMem (v1.mem.zeroFrame g)).setEntry t i
        (Pte.ofFrame g ||| flags)).mem.entry f j =
        if f = t ∧ j = i then Pte.ofFrame g ||| flags
        else if f = g then 0 else v.mem.entry f j := by
      intro f j hj
      rw [setEntry_entry _ _ hi hj, setMem_mem, Memory.entry_zeroFrame _ _ _ hj, hmem]
    generalize hw : (v1.setMem (v1.mem.zeroFrame g)).setEntry t i (Pte.ofFrame g ||| flags) = w
      at hentry
    have htest : ∀ f, w.pmm.bitmap.test f = (v.pmm.bitmap.test f && decide (f ∉ [g])) := by
      rw [← hw, Vmm.setEntry, setMem_pmm, setMem_pmm]
      exact hext.test
    have hti : w.mem.entry t i = Pte.ofFrame g ||| flags := by rw [hentry t i hi, if_pos ⟨rfl, rfl⟩]
    have hgj : ∀ j < 512, w.mem.entry g j = 0 := by
      intro j hj
      rw [hentry g j hj, if_neg fun hc => htg hc.1.symm, if_pos rfl]
    have hothers : ∀ f, f ≠ g → ∀ j < 512, ¬(f = t ∧ j = i) →
        w.mem.entry f j = v.mem.entry f j := by
      intro f hf j hj hne
      rw [hentry f j hj, if_neg hne, if_neg hf]
    have hleads : Leads (w.mem.entry t i) g := by
      rw [hti]
      constructor
      · rw [Pte.present_or, hpres, Bool.or_true]
      · rw [Pte.frame_or _ hflags, Pte.frame_ofFrame hlt]
    have hforest : Forest own w.mem (Function.update kind g (some (K.child own i))) roots := by
      apply h.forest.link ht hK hi (Bool.not_eq_true _ ▸ hp) hg _ _ _ hothers
      · intro j hj
        rw [hgj j hj]
        decide
      · exact hleads.1
      · exact hleads.2
    have hkinds : ∀ f K', kind f = some K' →
        Function.update kind g (some (K.child own i)) f = some K' := by
      intro f K' hf
      rw [Function.update_of_ne, hf]
      rintro rfl
      simp [hg] at hf
    have hextends : Extends v kind w (Function.update kind g (some (K.child own i)))
        fun K' j => K' = K ∧ j = i := by
      constructor
      case frameCount => rw [← hw, Vmm.setEntry, setMem_pmm, setMem_pmm, hext.frameCount]
      case kernelEnd => rw [← hw, Vmm.setEntry, setMem_pmm, setMem_pmm, hext.kernelEnd]
      case codePageCount =>
        rw [← hw, Vmm.setEntry, setMem_codePageCount, setMem_codePageCount, hext.codePageCount]
      case mmapEntries =>
        rw [← hw, Vmm.setEntry, setMem_mmapEntries, setMem_mmapEntries, hext.mmapEntries]
      case kinds => exact hkinds
      case fresh =>
        intro f K' hf hnone
        have hfg : f = g := by
          by_contra hne
          rw [Function.update_of_ne hne, hnone] at hf
          exact absurd hf (by simp)
        rw [hfg]
        exact ⟨hleast.1, fun j hj _ => hgj j hj⟩
      case entries =>
        intro f K' hf j hj hon
        apply hothers f _ j hj
        · rintro ⟨rfl, rfl⟩
          exact hon ⟨Option.some.inj (hf.symm.trans ht), rfl⟩
        · rintro rfl
          simp [hg] at hf
      case opened =>
        intro f K' hf _ j hj hpj
        have hne : ¬(f = t ∧ j = i) := by
          rintro ⟨rfl, rfl⟩
          exact hp hpj
        exact .inl (hothers f (by rintro rfl; simp [hg] at hf) j hj hne)
      case used =>
        intro f hf
        rw [htest f, hf, Bool.false_and]
    refine ⟨_, ⟨hforest, fun f hf hfree => ?_⟩, Function.update_self .., hleads, hextends,
      fun P h0 hlink f K' hf j hj hP => ?_⟩
    · by_cases hfg : f = g
      · have htaken : w.pmm.bitmap.test g = false := by simp [htest g]
        exact absurd (htaken.symm.trans (hfg ▸ hfree.1)) Bool.false_ne_true
      · rw [Function.update_of_ne hfg] at hf
        exact h.kept f hf (hextends.allocatable hfree)
    · have hfg : f ≠ g := by
        rintro rfl
        rw [hgj j hj] at hP
        exact h0 K' hP
      rw [Function.update_of_ne hfg] at hf
      have hne : ¬(f = t ∧ j = i) := by
        rintro ⟨rfl, rfl⟩
        rw [hti, Option.some.inj (hf.symm.trans ht)] at hP
        exact hlink g hP
      exact ⟨hf, hothers f hfg j hj hne⟩

/-- The entries on the walk of the indices `p` from root `r`. -/
def OnPath (own : List ℕ → Bool) (r : ℕ) (p : List ℕ) (K : Kind) (j : ℕ) : Prop :=
  ∃ l, p[l]? = some j ∧ K = (Kind.priv r []).follow own (p.take l)

theorem Extends.leads (h : Extends v kind w kind' on) {f : ℕ} {K : Kind} (hf : kind f = some K)
    (hK : K.depth < 3) {j : ℕ} (hj : j < 512) {t : ℕ} (ht : Leads (v.mem.entry f j) t) :
    Leads (w.mem.entry f j) t := by
  obtain ⟨hp, hframe⟩ := h.upper f K hf hK j hj ht.1
  exact ⟨hp, hframe.trans ht.2⟩

/-- The tables on the way to the last level. -/
theorem Stands.ensureTables (h : Stands own v kind roots) {r i4 i3 i2 : ℕ} (i1 : ℕ) (hr : r ∈ roots)
    (h4 : i4 < 512) (h3 : i3 < 512) (h2 : i2 < 512) {flags : Word} (hflags : flags.toNat < 4096)
    (hpres : Pte.present flags = true) {t3 t2 t1 : ℕ} {v1 v2 v3 : Vmm}
    (hv1 : v.ensureTable r i4 flags = some (t3, v1))
    (hv2 : v1.ensureTable t3 i3 flags = some (t2, v2))
    (hv3 : v2.ensureTable t2 i2 flags = some (t1, v3)) :
    ∃ kind', Stands own v3 kind' roots ∧ kind' r = some (.priv r []) ∧
      kind' t3 = some ((Kind.priv r []).follow own [i4]) ∧
      kind' t2 = some ((Kind.priv r []).follow own [i4, i3]) ∧
      kind' t1 = some ((Kind.priv r []).follow own [i4, i3, i2]) ∧
      Leads (v3.mem.entry r i4) t3 ∧ Leads (v3.mem.entry t3 i3) t2 ∧
      Leads (v3.mem.entry t2 i2) t1 ∧
      Extends v kind v3 kind' (OnPath own r [i4, i3, i2, i1]) ∧
      ∀ P : Kind → Word → Prop, (∀ K, ¬P K 0) →
        (∀ K g, K.depth < 3 → ¬P K (Pte.ofFrame g ||| flags)) → Keeps P v kind v3 kind' := by
  have hroot := h.forest.root r hr
  obtain ⟨k1, hk1, hkind3, hl4, hext1, hkeep1⟩ :=
    h.ensureTable hroot (by simp) h4 hflags hpres hv1
  obtain ⟨k2, hk2, hkind2, hl3, hext2, hkeep2⟩ :=
    hk1.ensureTable hkind3 (by simp) h3 hflags hpres hv2
  obtain ⟨k3, hk3, hkind1, hl2, hext3, hkeep3⟩ :=
    hk2.ensureTable hkind2 (by simp) h2 hflags hpres hv3
  have hroot1 := hext1.kinds r _ hroot
  have hroot2 := hext2.kinds r _ hroot1
  refine ⟨k3, hk3, hext3.kinds r _ hroot2, hext3.kinds t3 _ (hext2.kinds t3 _ hkind3),
    hext3.kinds t2 _ hkind2, hkind1, ?_, ?_, hl2, ?_, fun P h0 hlink => ?_⟩
  · exact hext3.leads hroot2 (by simp) h4
      (hext2.leads hroot1 (by simp) h4 hl4)
  · exact hext3.leads (hext2.kinds t3 _ hkind3) (by simp) h3 hl3
  · refine ((hext1.mono ?_).trans (hext2.mono ?_)).trans (hext3.mono ?_)
    · rintro K j ⟨rfl, rfl⟩
      exact ⟨0, rfl, rfl⟩
    · rintro K j ⟨rfl, rfl⟩
      exact ⟨1, rfl, rfl⟩
    · rintro K j ⟨rfl, rfl⟩
      exact ⟨2, rfl, rfl⟩
  · exact ((hkeep1 P h0 fun g => hlink _ g (by simp)).trans
      (hkeep2 P h0 fun g => hlink _ g (by simp))).trans (hkeep3 P h0 fun g => hlink _ g (by simp))

/-- Entries of tables at other depths are not touched by an edit at one depth. -/
theorem Extends.entry_of_depth {K : Kind} {i : ℕ}
    (h : Extends v kind w kind' fun K' j => K' = K ∧ j = i) {f : ℕ} {K' : Kind}
    (hf : kind f = some K') (hK : K'.depth ≠ K.depth) {j : ℕ} (hj : j < 512) :
    w.mem.entry f j = v.mem.entry f j :=
  h.entries f K' hf j hj fun hc => Kind.ne_of_depth_ne hK hc.1

theorem user_orEntry (v : Vmm) (t : ℕ) {i : ℕ} (hi : i < 512) :
    Pte.user ((v.orEntry t i 0x04).mem.entry t i) = true := by
  rw [Vmm.orEntry, setEntry_entry _ _ hi hi, if_pos ⟨rfl, rfl⟩, Pte.user_or,
    show Pte.user 0x04 = true from by decide, Bool.or_true]

/-- The entries above the last level are opened to users. -/
theorem Stands.openPath (h : Stands own v kind roots) {r i4 i3 i2 t3 t2 : ℕ} (i1 : ℕ)
    (h4 : i4 < 512) (h3 : i3 < 512) (h2 : i2 < 512) (hroot : kind r = some (.priv r []))
    (hkind3 : kind t3 = some ((Kind.priv r []).follow own [i4]))
    (hkind2 : kind t2 = some ((Kind.priv r []).follow own [i4, i3]))
    (hw : w = ((v.orEntry r i4 0x04).orEntry t3 i3 0x04).orEntry t2 i2 0x04) :
    Stands own w kind roots ∧ Extends v kind w kind (OnPath own r [i4, i3, i2, i1]) ∧
      Pte.user (w.mem.entry r i4) = true ∧ Pte.user (w.mem.entry t3 i3) = true ∧
      Pte.user (w.mem.entry t2 i2) = true ∧ Keeps IsLeaf v kind w kind ∧
      ∀ f, ∀ j < 512, Pte.Opened (v.mem.entry f j) (w.mem.entry f j) := by
  obtain ⟨hv1, hext1, hopen1⟩ := h.orEntry hroot h4
  obtain ⟨hv2, hext2, hopen2⟩ := hv1.orEntry hkind3 h3
  obtain ⟨hv3, hext3, hopen3⟩ := hv2.orEntry hkind2 h2
  rw [hw]
  refine ⟨hv3, ?_, ?_, ?_, user_orEntry _ _ h2, ?_,
    fun f j hj => ((hopen1 f j hj).trans (hopen2 f j hj)).trans (hopen3 f j hj)⟩
  · refine ((hext1.mono ?_).trans (hext2.mono ?_)).trans (hext3.mono ?_)
    · rintro K j ⟨rfl, rfl⟩
      exact ⟨0, rfl, rfl⟩
    · rintro K j ⟨rfl, rfl⟩
      exact ⟨1, rfl, rfl⟩
    · rintro K j ⟨rfl, rfl⟩
      exact ⟨2, rfl, rfl⟩
  · rw [hext3.entry_of_depth hroot (by simp [Kind.depth_follow]) h4,
      hext2.entry_of_depth hroot (by simp [Kind.depth_follow]) h4]
    exact user_orEntry _ _ h4
  · rw [hext3.entry_of_depth hkind3 (by simp [Kind.depth_follow]) h3]
    exact user_orEntry _ _ h3
  · have hupper : ∀ {K : Kind} {e : Word}, K.depth < 3 → ¬IsLeaf K e := fun hK hc => by
      rw [hc.1] at hK
      exact lt_irrefl 3 hK
    refine ((keeps_setEntry _ hroot h4 (hupper ?_)).trans
      (keeps_setEntry _ hkind3 h3 (hupper ?_))).trans (keeps_setEntry _ hkind2 h2 (hupper ?_))
    all_goals simp [Kind.depth_follow]

/-- The last step of `kvmmap_at`. -/
theorem Stands.setLeaf (h : Stands own v kind roots) {r i4 i3 i2 i1 t1 : ℕ} (h1 : i1 < 512)
    (hkind1 : kind t1 = some ((Kind.priv r []).follow own [i4, i3, i2])) (e : Word) :
    Stands own (v.setEntry t1 i1 e) kind roots ∧
      Extends v kind (v.setEntry t1 i1 e) kind (OnPath own r [i4, i3, i2, i1]) ∧
      ∀ f K, kind f = some K → K.depth < 3 → ∀ j < 512,
        (v.setEntry t1 i1 e).mem.entry f j = v.mem.entry f j := by
  have hdepth : ((Kind.priv r []).follow own [i4, i3, i2]).depth = 3 := by simp [Kind.depth_follow]
  obtain ⟨hw, hext⟩ := h.setEntry hkind1 h1 (e := e) fun hlt => absurd hlt (by omega)
  refine ⟨hw, hext.mono ?_, fun f K hf hK j hj => hext.entry_of_depth hf (by omega) hj⟩
  rintro K j ⟨rfl, rfl⟩
  exact ⟨3, rfl, rfl⟩

theorem descend_of_leads {m : Memory} {r i4 i3 i2 t3 t2 t1 : ℕ} (hl4 : Leads (m.entry r i4) t3)
    (hl3 : Leads (m.entry t3 i3) t2) (hl2 : Leads (m.entry t2 i2) t1) :
    descend m r [i4, i3, i2] = some t1 := by
  simp only [descend, hl4.1, hl4.2, hl3.1, hl3.2, hl2.1, hl2.2, if_true]

theorem access_of_leads {m : Memory} {r i4 i3 i2 t3 t2 t1 : ℕ} (hl4 : Leads (m.entry r i4) t3)
    (hl3 : Leads (m.entry t3 i3) t2) (hl2 : Leads (m.entry t2 i2) t1)
    (hu : Pte.user (m.entry r i4) = true ∧ Pte.user (m.entry t3 i3) = true ∧
      Pte.user (m.entry t2 i2) = true) : ∃ b, access m r [i4, i3, i2] = some (t1, true, b) := by
  simp only [access, hl4.1, hl4.2, hl3.1, hl3.2, hl2.1, hl2.2, hu.1, hu.2.1, hu.2.2, if_true,
    Option.map_some, Bool.and_true]
  exact ⟨_, rfl⟩

/-- What `kvmmap_at` does for any address: `t` is the table of the last level. -/
structure MapsAt (own : List ℕ → Bool) (v : Vmm) (kind : ℕ → Option Kind) (w : Vmm)
    (kind' : ℕ → Option Kind) (cr3 virt phys flags : Word) (t : ℕ) : Prop where
  ext : Extends v kind w kind' (OnPath own (Pte.frame cr3) (path virt))
  kind_eq : kind' t = some ((Kind.priv (Pte.frame cr3) []).follow own ((path virt).take 3))
  descend_eq : descend w.mem (Pte.frame cr3) ((path virt).take 3) = some t
  entry : w.mem.entry t (Pte.ptIndex virt) = Pte.addr phys ||| flags
  user : Pte.user flags = true → ∃ b,
    access w.mem (Pte.frame cr3) ((path virt).take 3) = some (t, true, b)
  closed : Pte.user flags = false → Keeps IsOpen v kind w kind'
  leaf : ∀ f K, kind' f = some K → ∀ j < 512, IsLeaf K (w.mem.entry f j) →
    (kind f = some K ∧ w.mem.entry f j = v.mem.entry f j) ∨ (f = t ∧ j = Pte.ptIndex virt)

/-- Above the last level, what is present in `w` was present, or is a link to a new table. -/
def Links (v : Vmm) (kind : ℕ → Option Kind) (w : Vmm) (kind' : ℕ → Option Kind) (flags : Word) :
    Prop :=
  ∀ f K, kind' f = some K → K.depth < 3 → ∀ j < 512, Pte.present (w.mem.entry f j) = true →
    (kind f = some K ∧ Pte.present (v.mem.entry f j) = true) ∨
      ∃ g, Pte.Opened (Pte.ofFrame g ||| flags) (w.mem.entry f j)

theorem Stands.kvmmapAt (h : Stands own v kind roots) {cr3 virt phys flags : Word}
    (hr : Pte.frame cr3 ∈ roots) (hcall : v.kvmmapAt cr3 virt phys flags = some w) :
    ∃ kind' t, Stands own w kind' roots ∧ MapsAt own v kind w kind' cr3 virt phys flags t ∧
      Links v kind w kind' (if Pte.user flags then 0x07 else 0x03) := by
  have h4 := Pte.pml4Index_lt virt
  have h3 := Pte.pdptIndex_lt virt
  have h2 := Pte.pdIndex_lt virt
  have h1 := Pte.ptIndex_lt virt
  simp only [Vmm.kvmmapAt] at hcall
  obtain ⟨⟨t3, v1⟩, hv1, hcall⟩ := Option.bind_eq_some_iff.mp hcall
  obtain ⟨⟨t2, v2⟩, hv2, hcall⟩ := Option.bind_eq_some_iff.mp hcall
  obtain ⟨⟨t1, v3⟩, hv3, hcall⟩ := Option.bind_eq_some_iff.mp hcall
  obtain ⟨k, hk, hroot, hkind3, hkind2, hkind1, hl4, hl3, hl2, hext, hkeep⟩ :=
    h.ensureTables (Pte.ptIndex virt) hr h4 h3 h2
      (by split_ifs <;> decide) (by split_ifs <;> decide) hv1 hv2 hv3
  have hleaf3 : Keeps IsLeaf v kind v3 k :=
    hkeep IsLeaf (fun K hc => absurd hc.2 (by decide)) fun K g hK hc => by
      rw [hc.1] at hK
      exact lt_irrefl 3 hK
  -- the entries on the way are opened for a user mapping only
  obtain ⟨v4, rfl, hk4, hext4, huser, hleaf4, hsame, hopened⟩ : ∃ v4,
      v4.setEntry t1 (Pte.ptIndex virt) (Pte.addr phys ||| flags) = w ∧ Stands own v4 k roots ∧
      Extends v3 k v4 k (OnPath own (Pte.frame cr3) (path virt)) ∧
      (Pte.user flags = true → Pte.user (v4.mem.entry (Pte.frame cr3) (Pte.pml4Index virt)) = true ∧
        Pte.user (v4.mem.entry t3 (Pte.pdptIndex virt)) = true ∧
        Pte.user (v4.mem.entry t2 (Pte.pdIndex virt)) = true) ∧
      Keeps IsLeaf v kind v4 k ∧ (Pte.user flags = false → v4 = v3) ∧
      ∀ f, ∀ j < 512, Pte.Opened (v3.mem.entry f j) (v4.mem.entry f j) := by
    refine ⟨_, Option.some.inj hcall, ?_⟩
    split_ifs with hu
    · obtain ⟨hopen, hextends, hu4, hu3, hu2, hleaf, hopened⟩ := hk.openPath (Pte.ptIndex virt) h4 h3
        h2 hroot hkind3 hkind2 rfl
      exact ⟨hopen, hextends, fun _ => ⟨hu4, hu3, hu2⟩, hleaf3.trans hleaf,
        fun hc => absurd (hc.symm.trans hu) Bool.false_ne_true, hopened⟩
    · exact ⟨hk, Extends.refl _ _ _, fun hc => absurd hc hu, hleaf3, fun _ => rfl,
        fun _ _ _ => .refl _⟩
  obtain ⟨hk5, hext5, hupper⟩ := hk4.setLeaf h1 hkind1 (Pte.addr phys ||| flags)
  have hd3 : ((Kind.priv (Pte.frame cr3) []).follow own [Pte.pml4Index virt]).depth < 3 := by
    simp [Kind.depth_follow]
  have hd2 : ((Kind.priv (Pte.frame cr3) []).follow own
      [Pte.pml4Index virt, Pte.pdptIndex virt]).depth < 3 := by simp [Kind.depth_follow]
  have hl4' := hext5.leads hroot (by simp) h4 (hext4.leads hroot (by simp) h4 hl4)
  have hl3' := hext5.leads hkind3 hd3 h3 (hext4.leads hkind3 hd3 h3 hl3)
  have hl2' := hext5.leads hkind2 hd2 h2 (hext4.leads hkind2 hd2 h2 hl2)
  refine ⟨k, t1, hk5, ?_, fun f K hf hK j hj hp => ?_⟩
  · constructor
    case ext => exact (hext.trans hext4).trans hext5
    case kind_eq => exact hkind1
    case descend_eq => exact descend_of_leads hl4' hl3' hl2'
    case entry => rw [setEntry_entry _ _ h1 h1, if_pos ⟨rfl, rfl⟩]
    case user =>
      intro hu
      apply access_of_leads hl4' hl3' hl2'
      rw [hupper _ _ hroot (by simp) _ h4, hupper _ _ hkind3 hd3 _ h3, hupper _ _ hkind2 hd2 _ h2]
      exact huser hu
    case closed =>
      intro hu
      obtain rfl := hsame hu
      refine (hkeep IsOpen (fun K hc => absurd hc.1 (by decide)) fun K g _ hc => ?_).trans
        (keeps_setEntry _ hkind1 h1 fun hc => ?_)
      · have := hc.2
        rw [hu, Pte.user_or, Pte.user_ofFrame] at this
        exact absurd this (by decide)
      · have := hc.2
        rw [Pte.user_or, Pte.user_addr, hu] at this
        exact absurd this (by decide)
    case leaf =>
      intro f K hf j hj hleaf
      by_cases hc : f = t1 ∧ j = Pte.ptIndex virt
      · exact .inr hc
      · rw [setEntry_entry _ _ h1 hj, if_neg hc] at hleaf ⊢
        exact .inl (hleaf4 f K hf j hj hleaf)
  · -- opening changes no presence, so the tables were made present by the first three steps
    rw [hupper f K hf hK j hj] at hp ⊢
    have hopen := hopened f j hj
    by_cases hnew : ∃ g, v3.mem.entry f j = Pte.ofFrame g ||| if Pte.user flags then 0x07 else 0x03
    · obtain ⟨g, hg⟩ := hnew
      exact .inr ⟨g, hg ▸ hopen⟩
    · obtain ⟨hf', heq⟩ := hkeep
        (fun K e => K.depth < 3 ∧ Pte.present e = true ∧
          ¬∃ g, e = Pte.ofFrame g ||| if Pte.user flags then 0x07 else 0x03)
        (fun K hc => absurd hc.2.1 (by decide)) (fun K g _ hc => hc.2.2 ⟨g, rfl⟩) f K hf j hj
        ⟨hK, hopen.present.symm.trans hp, hnew⟩
      rw [heq] at hopen
      exact .inl ⟨hf', hopen.present.symm.trans hp⟩

theorem Tables.kvmmapAt (h : Tables own v kind roots) {cr3 virt phys flags : Word}
    (hr : Pte.frame cr3 ∈ roots) (hcall : v.kvmmapAt cr3 virt phys flags = some w) :
    ∃ kind' t, Tables own w kind' roots ∧ MapsAt own v kind w kind' cr3 virt phys flags t := by
  obtain ⟨kind', t, hw, hat, -⟩ := h.stands.kvmmapAt hr hcall
  exact ⟨kind', t, hw.tables h hat.ext, hat⟩

end forest

end Nyvela.Vmm
