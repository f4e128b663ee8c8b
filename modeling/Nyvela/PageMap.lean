import Nyvela.PageProgress

/-!
# What a page map means

`kvmmap_at` and `kvmunmap_at` on one tree of tables, whatever it maps: the page of the
address is set or cleared, and a walk for any other address ends where it ended.
-/

namespace Nyvela.Vmm

open PageTree

/-! ## One tree -/

/-- The indices that lead to a table. -/
def Place (p : List ℕ) : Prop := p.length ≤ 3 ∧ ∀ i ∈ p, i < 512

/-- The tables below `r` are distinct frames, and no entry above the last level is of a
large page. -/
structure TreeOk (m : Memory) (r : ℕ) : Prop where
  distinct : ∀ p q f, Place p → Place q → descend m r p = some f → descend m r q = some f → p = q
  small : ∀ p t i, Place p → p.length < 3 → descend m r p = some t → i < 512 →
    Pte.present (m.entry t i) = true → (m.entry t i).getLsbD 7 = false

/-- No table below `r` is a frame that `kpalloc` hands out. -/
def Outside (v : Vmm) (r : ℕ) : Prop :=
  ∀ p f, Place p → descend v.mem r p = some f → f ∉ v.pmm.allocatable

/-- The entry of the page at `virt`, if there is one. -/
def leaf (m : Memory) (r : ℕ) (virt : Word) : Option Word := (walk m r (path virt)).map Prod.fst

/-- A page that is open to users is so on its whole path. -/
def OpenPath (m : Memory) (r : ℕ) : Prop :=
  ∀ a e b, walk m r (path a) = some (e, b) → Pte.user e = true → b = true

section tree

variable {own : List ℕ → Bool} {m : Memory} {v w : Vmm} {kind kind' : ℕ → Option Kind}
  {roots : List ℕ} {r : ℕ} {p : List ℕ} {cr3 virt a phys flags : Word}

theorem place_nil : Place [] := ⟨by simp, by simp⟩

theorem Place.snoc {i : ℕ} (h : Place p) (hlen : p.length < 3) (hi : i < 512) :
    Place (p ++ [i]) :=
  ⟨by rw [List.length_append, List.length_singleton]; omega,
    List.forall_mem_append.mpr ⟨h.2, by simpa using hi⟩⟩

theorem place_take (virt : Word) : Place ((path virt).take 3) :=
  ⟨by simp [path], fun _ hi => path_lt (List.mem_of_mem_take hi)⟩

/-- All tables of the tree are its own. -/
def allOwn (_ : List ℕ) : Bool := true

theorem follow_allOwn (r : ℕ) (p : List ℕ) : (Kind.priv r []).follow allOwn p = .priv r p :=
  Kind.follow_of_own fun _ _ => rfl

theorem ownPath_allOwn (p : List ℕ) : OwnPath allOwn p := fun _ _ => rfl

open Classical in
/-- The place of a table in the tree. -/
noncomputable def kindOf (m : Memory) (r f : ℕ) : Option Kind :=
  if h : ∃ p, Place p ∧ descend m r p = some f then some (.priv r h.choose) else none

theorem TreeOk.kindOf (h : TreeOk m r) {f : ℕ} (hp : Place p) (hf : descend m r p = some f) :
    kindOf m r f = some (.priv r p) := by
  have hex : ∃ p, Place p ∧ descend m r p = some f := ⟨p, hp, hf⟩
  rw [Vmm.kindOf, dif_pos hex, h.distinct _ p f hex.choose_spec.1 hp hex.choose_spec.2 hf]

theorem exists_of_kindOf {f : ℕ} {K : Kind} (h : kindOf m r f = some K) :
    ∃ p, K = .priv r p ∧ Place p ∧ descend m r p = some f := by
  rw [kindOf] at h
  split_ifs at h with hex
  exact ⟨_, (Option.some.inj h).symm, hex.choose_spec⟩

/-- A tree is a forest of one root. -/
theorem TreeOk.stands (h : TreeOk v.mem r) (hout : Outside v r) :
    Stands allOwn v (Vmm.kindOf v.mem r) [r] where
  forest :=
    { root := by
        intro r' hr'
        rw [List.mem_singleton.mp hr', h.kindOf place_nil rfl]
      child := by
        intro f K hf hK i hi hpres
        obtain ⟨p, rfl, hp, hdesc⟩ := exists_of_kindOf hf
        rw [Kind.depth_priv] at hK
        rw [Kind.child_priv rfl]
        refine h.kindOf (hp.snoc hK hi) ?_
        rw [descend_append, hdesc, Option.bind_some, descend, if_pos hpres, descend]
      linked := by
        intro f hf
        obtain ⟨K, hK⟩ := Option.ne_none_iff_exists'.mp hf
        obtain ⟨p, -, hp, hdesc⟩ := exists_of_kindOf hK
        exact ⟨r, List.mem_singleton_self r, p, hp.2, hp.1, hdesc⟩ }
  kept f hf := by
    obtain ⟨K, hK⟩ := Option.ne_none_iff_exists'.mp hf
    obtain ⟨p, -, hp, hdesc⟩ := exists_of_kindOf hK
    exact hout p f hp hdesc

/-- The tree is where its tables are. -/
theorem descend_of_same {m' : Memory} (h : ∀ p f, Place p → descend m r p = some f →
    ∀ i < 512, m'.entry f i = m.entry f i) (hp : Place p) : descend m' r p = descend m r p :=
  descend_congr (n := 3) (fun q f hq hlen hf => h q f ⟨hlen, hq⟩ hf) hp.2 (Nat.le_succ_of_le hp.1)

theorem TreeOk.congr {m' : Memory} (h : TreeOk m r) (hsame : ∀ p f, Place p →
    descend m r p = some f → ∀ i < 512, m'.entry f i = m.entry f i) : TreeOk m' r where
  distinct p q f hp hq hf hf' := by
    rw [descend_of_same hsame hp] at hf
    rw [descend_of_same hsame hq] at hf'
    exact h.distinct p q f hp hq hf hf'
  small p t i hp hlen hdesc hi hpres := by
    rw [descend_of_same hsame hp] at hdesc
    rw [hsame p t hp hdesc i hi] at hpres ⊢
    exact h.small p t i hp hlen hdesc hi hpres

theorem Outside.congr (h : Outside v r) (hpmm : w.pmm = v.pmm) (hsame : ∀ p f, Place p →
    descend v.mem r p = some f → ∀ i < 512, w.mem.entry f i = v.mem.entry f i) : Outside w r := by
  intro p f hp hf
  rw [descend_of_same hsame hp] at hf
  rw [hpmm]
  exact h p f hp hf

theorem Stands.kind_of_place (h : Stands allOwn v kind [r]) {f : ℕ} (hp : Place p)
    (hf : descend v.mem r p = some f) : kind f = some (.priv r p) := by
  rw [← follow_allOwn]
  exact h.forest.kind_descend (h.forest.root r (List.mem_singleton_self r)) hp.2 (by simpa using hp.1) hf

theorem Stands.outside (h : Stands allOwn v kind [r]) : Outside v r := fun _ f hp hf =>
  h.kept f (by simp [h.kind_of_place hp hf])

/-! ## Other pages -/

theorem path_eq_iff : path a = path virt ↔ (a >>> 12).setWidth 36 = (virt >>> 12).setWidth 36 := by
  rw [← BitVec.toNat_inj]
  simp only [path, List.cons.injEq, and_true, Pte.pml4Index_eq, Pte.pdptIndex_eq, Pte.pdIndex_eq,
    Pte.ptIndex_eq, BitVec.toNat_setWidth, BitVec.toNat_ushiftRight, Nat.shiftRight_eq_div_pow]
  omega

/-- Two addresses are of one page if they agree in the bits 12 to 47. -/
def SamePage (a b : Word) : Prop := (a >>> 12).setWidth 36 = (b >>> 12).setWidth 36

/-- Below `2 ^ 48` an address is given by its page and the offset. -/
theorem samePage_iff {a b : Word} (ha : a.toNat < 2 ^ 48) (hb : b.toNat < 2 ^ 48) :
    SamePage a b ↔ a.toNat / 4096 = b.toNat / 4096 := by
  rw [SamePage, ← BitVec.toNat_inj]
  simp only [BitVec.toNat_setWidth, BitVec.toNat_ushiftRight, Nat.shiftRight_eq_div_pow]
  omega

theorem leaf_eq (m : Memory) (r : ℕ) (virt : Word) : leaf m r virt =
    (descend m r ((path virt).take 3)).bind fun t =>
      if Pte.present (m.entry t (Pte.ptIndex virt)) then some (m.entry t (Pte.ptIndex virt))
      else none := by
  have hpath : path virt = (path virt).take 3 ++ Pte.ptIndex virt :: [] := rfl
  rw [leaf, hpath, walk_append_fst]
  congr 1
  funext t
  rw [walk]
  split_ifs <;> rfl

/-- A walk that parts from that of `virt` at a table ends where it ended. -/
theorem Edits.walk_parted (he : Edits v kind w kind' (OnPath own r (path virt)))
    (h : Forest own v.mem kind roots) (hown : OwnPath own (path virt)) {q s s' : List ℕ}
    {i j t : ℕ} (hP : path virt = q ++ j :: s') (hij : i ≠ j) (ht : kind t = some (.priv r q))
    (hi : i < 512) (hs : ∀ k ∈ s, k < 512) (hlen : q.length + s.length = 3) :
    walk w.mem t (i :: s) = walk v.mem t (i :: s) := by
  have hentry := he.entries t _ ht i hi (not_onPath_of_split hown hP hij)
  cases s with
  | nil => simp only [walk, hentry]
  | cons k s =>
    rw [List.length_cons] at hlen
    by_cases hpres : Pte.present (v.mem.entry t i) = true
    · have hchild := h.child t _ ht (by simp; omega) i hi hpres
      rw [walk_of_present hpres, walk_of_present (hentry.symm ▸ hpres), hentry]
      congr 1
      -- below the entry where they part, no table is on the way of `virt`
      refine walk_congr (n := s.length) (fun p f hp hplen hf n hn => ?_) hs (by simp)
      have hkind := h.kind_descend hchild hp (by simp; omega) hf
      have hbeside : Beside r (path virt) (((Kind.priv r q).child own i).follow own p) :=
        (beside_of_split hP hij).follow p
      exact he.entries f _ hkind n hn (hbeside.not_onPath hown n)
    · simp [walk, hentry, hpres]

/-- The page of another address is what it was. -/
theorem Edits.leaf_eq (he : Edits v kind w kind' (OnPath own r (path virt)))
    (h : Forest own v.mem kind roots) (hw : Forest own w.mem kind' roots) (hr : r ∈ roots)
    (hown : OwnPath own (path virt)) (hne : path a ≠ path virt) :
    leaf w.mem r a = leaf v.mem r a := by
  obtain ⟨q, i, j, s, s', ha, hP, hij⟩ := exists_split
    (show (path a).length = (path virt).length from rfl) hne
  have hlt : ∀ k ∈ q ++ i :: s, k < 512 := fun k hk => path_lt (ha ▸ hk)
  rw [List.forall_mem_append, List.forall_mem_cons] at hlt
  obtain ⟨hq, hi, hs⟩ := hlt
  have hlen : q.length + s.length = 3 := by
    have := congrArg List.length ha
    rw [path_length, List.length_append, List.length_cons] at this
    omega
  -- up to where they part, both ways are private
  have hfollow : (Kind.priv r []).follow own q = .priv r q := by
    refine Kind.follow_of_own fun l hl => ?_
    have := hown l (by omega)
    rwa [hP, List.take_append_of_le_length (by omega)] at this
  rw [leaf, leaf, ha, walk_append_fst, walk_append_fst]
  have hroot := h.root r hr
  cases hv : descend v.mem r q with
  | some t =>
    have hkind := h.kind_descend hroot hq (by simp; omega) hv
    rw [hfollow] at hkind
    rw [h.descend_mono he.upper hroot hq (by simp; omega) hv, Option.bind_some, Option.bind_some,
      he.walk_parted h hown hP hij hkind hi hs hlen]
  | none =>
    cases hdesc : descend w.mem r q with
    | none => rfl
    | some t =>
      -- a new table on the way of `virt` is empty but for that way
      have hkind := hw.kind_descend (hw.root r hr) hq (by simp; omega) hdesc
      rw [hfollow] at hkind
      have hnew : kind t = none := by
        by_contra hne
        obtain ⟨K, hK⟩ := Option.ne_none_iff_exists'.mp hne
        obtain rfl : K = .priv r q := Option.some.inj ((he.kinds t K hK).symm.trans hkind)
        rw [(h.descend_of_priv hK).2] at hv
        exact absurd hv (by simp)
      have hzero := he.fresh t _ hkind hnew i hi (not_onPath_of_split hown hP hij)
      have habsent : Pte.present (w.mem.entry t i) = false := by
        rw [hzero]
        decide
      rw [Option.bind_some, Option.bind_none]
      cases s <;> simp [walk, habsent]

/-! ## The two calls -/

theorem addr_or_flags (phys : Word) (h : flags.toNat < 0x1000) :
    Pte.addr (Pte.addr phys ||| flags) = Pte.addr phys := by
  rw [Pte.addr_eq_ofFrame, Pte.frame_or _ h, ← Pte.addr_eq_ofFrame, Pte.addr_addr]

theorem and_or_flags (phys : Word) (h : flags.toNat < 0x1000) :
    (Pte.addr phys ||| flags) &&& 0xFFF = flags := by
  apply BitVec.eq_of_toNat_eq
  have hmask : BitVec.toNat (0xFFF : Word) = 2 ^ 12 - 1 := by decide
  have hzero : (Pte.addr phys).toNat % 2 ^ 12 = 0 := by
    rw [Pte.addr_toNat_eq_frame]
    omega
  rw [BitVec.toNat_and, hmask, Nat.and_two_pow_sub_one_eq_mod, BitVec.toNat_or, Nat.or_mod_two_pow,
    hzero, Nat.zero_or, Nat.mod_eq_of_lt h]

theorem opened_small {e e' : Word} (h : Pte.Opened e e') : e'.getLsbD 7 = e.getLsbD 7 := by
  rcases h with rfl | rfl
  · rfl
  · rw [BitVec.getLsbD_or, show (0x04 : Word).getLsbD 7 = false by decide, Bool.or_false]

theorem ofFrame_small (g : ℕ) : (Pte.ofFrame g).getLsbD 7 = false := by
  rw [← Pte.addr_ofFrame, Pte.addr_eq_shift, BitVec.getLsbD_shiftLeft]
  simp

/-- New links are of tables, so no entry becomes that of a large page. -/
theorem TreeOk.of_links (h : TreeOk v.mem r) (hv : Stands allOwn v kind [r])
    (hw : Stands allOwn w kind' [r]) {on : Kind → ℕ → Prop} (he : Extends v kind w kind' on)
    (hlinks : Links v kind w kind' (if Pte.user flags then 0x07 else 0x03)) : TreeOk w.mem r where
  distinct p q f hp hq hf hf' := by
    have hkind := (hw.kind_of_place hp hf).symm.trans (hw.kind_of_place hq hf')
    exact (Kind.priv.inj (Option.some.inj hkind)).2
  small p t i hp hlen hdesc hi hpres := by
    rcases hlinks t _ (hw.kind_of_place hp hdesc) (by simpa using hlen) i hi hpres with
      ⟨hold, hpres⟩ | ⟨g, hg⟩
    · rw [opened_small (he.opened t _ hold (by simpa using hlen) i hi hpres)]
      exact h.small p t i hp hlen (hv.forest.descend_of_priv hold).2 hi hpres
    · rw [opened_small hg, BitVec.getLsbD_or, ofFrame_small, Bool.false_or]
      split_ifs <;> decide

/-- What `kvmmap_at` does to the tree of `r`. Two addresses are of one page if they agree in
the bits 12 to 47. -/
structure MapsPage (v w : Vmm) (r : ℕ) (virt phys flags : Word) : Prop where
  entry : ∃ e, leaf w.mem r virt = some e ∧ Pte.addr e = Pte.addr phys ∧ e &&& 0xFFF = flags
  opened : Pte.user flags = true → ∀ l < 3, ∃ t i, descend w.mem r ((path virt).take l) = some t ∧
    (path virt)[l]? = some i ∧ Pte.user (w.mem.entry t i) = true
  other : ∀ a : Word, (a >>> 12).setWidth 36 ≠ (virt >>> 12).setWidth 36 → leaf w.mem r a = leaf v.mem r a
  tree : TreeOk w.mem r
  outside : Outside w r
  openPath : OpenPath v.mem r → OpenPath w.mem r

/-- What `kvmunmap_at` does to it. -/
structure UnmapsPage (v w : Vmm) (r : ℕ) (virt : Word) : Prop where
  absent : leaf w.mem r virt = none
  other : ∀ a : Word, (a >>> 12).setWidth 36 ≠ (virt >>> 12).setWidth 36 → leaf w.mem r a = leaf v.mem r a

theorem MapsAt.opened {t : ℕ} (h : MapsAt allOwn v kind w kind' cr3 virt phys flags t)
    (hu : Pte.user flags = true) {l : ℕ} (hl : l < 3) :
    ∃ t i, descend w.mem (Pte.frame cr3) ((path virt).take l) = some t ∧
      (path virt)[l]? = some i ∧ Pte.user (w.mem.entry t i) = true := by
  obtain ⟨b, hb⟩ := h.user hu
  have hlt : l < (path virt).length := by
    rw [path_length]
    omega
  obtain ⟨f, b', hf⟩ := access_take hb (l + 1)
  rw [List.take_take, min_eq_left (by omega), List.take_succ_eq_append_getElem hlt] at hf
  obtain ⟨t', b'', ht'⟩ := access_take hb l
  rw [List.take_take, min_eq_left (by omega)] at ht'
  have hdesc : descend w.mem (Pte.frame cr3) ((path virt).take l) = some t' := by
    rw [← access_map_fst, ht']
    rfl
  exact ⟨t', (path virt)[l], hdesc, List.getElem?_eq_getElem hlt, user_of_access hdesc hf⟩

/-- The entry that a walk finds, and the way to its table. -/
theorem access_of_walk {e : Word} {b : Bool} (h : walk m r (path a) = some (e, b)) :
    ∃ t u b', access m r ((path a).take 3) = some (t, u, b') ∧ m.entry t (Pte.ptIndex a) = e ∧
      b = (u && Pte.user e) := by
  rw [show path a = (path a).take 3 ++ [Pte.ptIndex a] from rfl, walk_snoc] at h
  obtain ⟨⟨t, u, b'⟩, haccess, hleaf⟩ := Option.bind_eq_some_iff.mp h
  dsimp only at hleaf
  split_ifs at hleaf
  obtain ⟨rfl, rfl⟩ := Prod.mk.inj (Option.some.inj hleaf)
  exact ⟨t, u, b', haccess, rfl, rfl⟩

/-- The way to the page of an open mapping is open. Other ways are only opened. -/
theorem MapsAt.openPath {t : ℕ} (h : MapsAt allOwn v kind w kind' cr3 virt phys flags t)
    (hv : Stands allOwn v kind [Pte.frame cr3]) (hw : Stands allOwn w kind' [Pte.frame cr3])
    (hopen : OpenPath v.mem (Pte.frame cr3)) : OpenPath w.mem (Pte.frame cr3) := by
  intro a e b hwalk hu
  obtain ⟨t', u, b', haccess, hentry, rfl⟩ := access_of_walk hwalk
  rw [hu, Bool.and_true]
  by_cases hpath : path a = path virt
  · have hpt : Pte.ptIndex a = Pte.ptIndex virt := by
      simp only [path, List.cons.injEq] at hpath
      exact hpath.2.2.2.1
    have hdesc := access_map_fst w.mem (Pte.frame cr3) ((path virt).take 3)
    rw [← hpath, haccess, hpath, h.descend_eq] at hdesc
    obtain rfl : t' = t := Option.some.inj hdesc
    rw [← hentry, hpt, h.entry, Pte.user_or, Pte.user_addr, Bool.false_or] at hu
    obtain ⟨b₁, hb₁⟩ := h.user hu
    rw [hpath, hb₁] at haccess
    exact (congrArg (fun x => x.2.1) (Option.some.inj haccess)).symm
  · -- the page was there before, so the way to it was open
    have hsame := h.ext.edits.leaf_eq hv.forest hw.forest (List.mem_singleton_self _)
      (ownPath_allOwn _) hpath
    rw [Vmm.leaf, hwalk] at hsame
    obtain ⟨⟨e', b₀⟩, hwalk₀, rfl⟩ := Option.map_eq_some_iff.mp hsame.symm
    obtain ⟨t₀, u₀, b₁, haccess₀, -, hb₀⟩ := access_of_walk hwalk₀
    rw [hopen a e' b₀ hwalk₀ hu, eq_comm, Bool.and_eq_true] at hb₀
    obtain ⟨u', hacc', hmono⟩ := hv.forest.access_opened h.ext.opened
      (hv.forest.root _ (List.mem_singleton_self _)) (place_take a).2 (by simp [path]) haccess₀
    rw [haccess] at hacc'
    have huu : u = u' := congrArg (fun x => x.2.1) (Option.some.inj hacc')
    exact huu.trans (hmono hb₀.1)

/-- A last-level entry is written, and no other page changes. -/
theorem Stands.leaf_setEntry (h : Stands own v kind roots) (hr : Pte.frame cr3 ∈ roots)
    (hown : OwnPath own (path virt)) {t i : ℕ} (hwalk : v.kgetPteAddrAt cr3 virt = some (t, i))
    (e : Word) (ha : ¬SamePage a virt) :
    leaf (v.mem.setEntry t i e) (Pte.frame cr3) a = leaf v.mem (Pte.frame cr3) a := by
  obtain ⟨hkind, rfl, -⟩ := kind_of_walk h.forest hr hwalk
  obtain ⟨hw, hext, -⟩ := h.setLeaf (Pte.ptIndex_lt virt) hkind e
  exact hext.edits.leaf_eq h.forest hw.forest hr hown (mt path_eq_iff.mp ha)

/-- A last-level entry is cleared. -/
theorem Stands.leaf_cleared (h : Stands own v kind roots) (hr : Pte.frame cr3 ∈ roots) {t i : ℕ}
    (hwalk : v.kgetPteAddrAt cr3 virt = some (t, i)) :
    leaf (v.mem.setEntry t i 0) (Pte.frame cr3) virt = none := by
  have hpt := Pte.ptIndex_lt virt
  obtain ⟨hkind, rfl, hdesc⟩ := kind_of_walk h.forest hr hwalk
  obtain ⟨-, hext, -⟩ := h.setLeaf hpt hkind 0
  have hdesc' : descend (v.mem.setEntry t (Pte.ptIndex virt) 0) (Pte.frame cr3)
      ((path virt).take 3) = some t :=
    h.forest.descend_mono hext.upper (h.forest.root _ hr) (place_take virt).2 (by simp [path]) hdesc
  have hzero : (v.mem.setEntry t (Pte.ptIndex virt) 0).entry t (Pte.ptIndex virt) = 0 :=
    (setEntry_entry v 0 hpt hpt).trans (if_pos ⟨rfl, rfl⟩)
  rw [leaf_eq, hdesc', Option.bind_some, hzero]
  decide

/-- The entry is cleared, and nothing else changes. -/
theorem MapsAt.kvmunmapAt {t : ℕ} (h : MapsAt allOwn v kind w kind' cr3 virt phys flags t)
    (hw : Stands allOwn w kind' [Pte.frame cr3]) (hp : Pte.present flags = true) :
    ∃ u, w.kvmunmapAt cr3 virt = (true, u) ∧ UnmapsPage w u (Pte.frame cr3) virt := by
  have hpres : Pte.present (w.mem.entry t (Pte.ptIndex virt)) = true := by
    rw [h.entry, Pte.present_or, hp, Bool.or_true]
  have hwalk : w.kgetPteAddrAt cr3 virt = some (t, Pte.ptIndex virt) := by
    rw [kgetPteAddrAt_eq, h.descend_eq]
    rfl
  have hr := List.mem_singleton_self (Pte.frame cr3)
  refine ⟨w.setEntry t (Pte.ptIndex virt) 0, ?_, hw.leaf_cleared hr hwalk, fun a ha => ?_⟩
  · rw [Vmm.kvmunmapAt, hwalk]
    simp [hpres]
  · exact hw.leaf_setEntry hr (ownPath_allOwn _) hwalk 0 ha

theorem MapsAt.mapsPage {t : ℕ} (h : MapsAt allOwn v kind w kind' cr3 virt phys flags t)
    (hok : TreeOk v.mem (Pte.frame cr3)) (hv : Stands allOwn v kind [Pte.frame cr3])
    (hw : Stands allOwn w kind' [Pte.frame cr3])
    (hlinks : Links v kind w kind' (if Pte.user flags then 0x07 else 0x03))
    (hp : Pte.present flags = true) (hlt : flags.toNat < 0x1000) :
    MapsPage v w (Pte.frame cr3) virt phys flags := by
  constructor
  case entry =>
    refine ⟨_, ?_, addr_or_flags phys hlt, and_or_flags phys hlt⟩
    rw [leaf_eq, h.descend_eq, Option.bind_some, h.entry, Pte.present_or, hp, Bool.or_true,
      if_pos rfl]
  case opened => exact fun hu l hl => h.opened hu hl
  case other =>
    intro a ha
    exact h.ext.edits.leaf_eq hv.forest hw.forest (List.mem_singleton_self _) (ownPath_allOwn _)
      (mt path_eq_iff.mp ha)
  case tree => exact hok.of_links hv hw h.ext hlinks
  case outside => exact hw.outside
  case openPath => exact h.openPath hv hw

/-- `kvmmap_at` sets the page of `virt` and no other one, and keeps the tree well formed;
`kvmunmap_at` then clears it. Three free frames are enough for it to return. -/
theorem kvmmapAt_maps_page (v : Vmm) (cr3 virt phys flags : Word)
    (hok : TreeOk v.mem (Pte.frame cr3)) (hout : Outside v (Pte.frame cr3))
    (hp : Pte.present flags = true) (hlt : flags.toNat < 0x1000) :
    (v.pmm.Plenty 3 → ∃ w, v.kvmmapAt cr3 virt phys flags = some w) ∧
      ∀ w, v.kvmmapAt cr3 virt phys flags = some w →
        MapsPage v w (Pte.frame cr3) virt phys flags ∧
          ∃ u, w.kvmunmapAt cr3 virt = (true, u) ∧ UnmapsPage w u (Pte.frame cr3) virt := by
  refine ⟨fun h => exists_kvmmapAt h cr3 virt phys flags, fun w hcall => ?_⟩
  have hv := hok.stands hout
  obtain ⟨kind', t, hw, hat, hlinks⟩ := hv.kvmmapAt (List.mem_singleton_self _) hcall
  exact ⟨hat.mapsPage hok hv hw hlinks hp hlt, hat.kvmunmapAt hw hp⟩

end tree

/-! ## Empty memory -/

section empty

variable {v : Vmm} {r : ℕ}

theorem descend_of_absent {m : Memory} (h : ∀ f i, Pte.present (m.entry f i) = false) {p : List ℕ}
    {f : ℕ} (hp : descend m r p = some f) : p = [] ∧ f = r := by
  cases p with
  | nil => exact ⟨rfl, (Option.some.inj hp).symm⟩
  | cons i p => simp [descend, h] at hp

/-- A root alone is a tree. -/
theorem treeOk_of_absent {m : Memory} (h : ∀ f i, Pte.present (m.entry f i) = false) (r : ℕ) :
    TreeOk m r where
  distinct p q f _ _ hp hq := by rw [(descend_of_absent h hp).1, (descend_of_absent h hq).1]
  small _ t i _ _ _ _ hpres := by simp [h] at hpres

theorem outside_of_absent (h : ∀ f i, Pte.present (v.mem.entry f i) = false)
    (hr : r ∉ v.pmm.allocatable) : Outside v r := by
  intro p f _ hp
  rwa [(descend_of_absent h hp).2]

/-- Sixteen megabytes of memory, with nothing in it. -/
def emptyMachine : Vmm := ⟨Pmm.sixteenMiB, fun _ => 0, 0, []⟩

theorem emptyMachine_absent (f i : ℕ) : Pte.present (emptyMachine.mem.entry f i) = false := by
  rw [show emptyMachine.mem = fun _ => 0 from rfl, Memory.entry_zero]
  decide

theorem emptyMachine_treeOk (r : ℕ) : TreeOk emptyMachine.mem r := treeOk_of_absent emptyMachine_absent r

theorem emptyMachine_outside : Outside emptyMachine 0x100 := by
  apply outside_of_absent emptyMachine_absent
  rw [show emptyMachine.pmm = Pmm.sixteenMiB from rfl, Pmm.sixteenMiB_allocatable]
  decide

theorem emptyMachine_plenty : emptyMachine.pmm.Plenty 8 := by
  refine ⟨(List.range 8).map (0x200 + ·), by decide, by decide, fun f hf => ?_⟩
  rw [show emptyMachine.pmm = Pmm.sixteenMiB from rfl, Pmm.sixteenMiB_allocatable]
  obtain ⟨i, hi, rfl⟩ := List.mem_map.mp hf
  rw [List.mem_range] at hi
  exact .inl (by omega)

end empty

/-- A page of an empty tree. -/
theorem kvmmapAt_maps_page_empty :
    ∃ v w : Vmm, v.kvmmapAt 0x100000 0x410123 0x700456 0x07 = some w ∧
      MapsPage v w 0x100 0x410123 0x700456 0x07 := by
  obtain ⟨hret, hmaps⟩ := kvmmapAt_maps_page emptyMachine 0x100000 0x410123 0x700456 0x07
    (emptyMachine_treeOk _) emptyMachine_outside (by decide) (by decide)
  obtain ⟨w, hw⟩ := hret (Plenty.mono emptyMachine_plenty (by decide))
  exact ⟨emptyMachine, w, hw, (hmaps w hw).1⟩

end Nyvela.Vmm
