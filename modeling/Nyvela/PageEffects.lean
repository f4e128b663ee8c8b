import Nyvela.PageSpaces

/-!
# What calls do to the tables

The calls of `kvmmap_at`, `kvmunmap_at` and `kvmunmap_and_free_at`, alone or in a loop, keep
the tables of all address spaces one forest. An effect says which pages are mapped and
cleared, and where every page that is mapped afterwards comes from.
-/

namespace Nyvela.Vmm

open PageTree

/-- From `v` to `w` tables are added, and of the others only entries in `on` are changed; an
entry that leads to a table can only be opened to users. Frames may have been freed. -/
structure Edits (v : Vmm) (kind : ℕ → Option Kind) (w : Vmm) (kind' : ℕ → Option Kind)
    (on : Kind → ℕ → Prop) : Prop where
  codePageCount : w.codePageCount = v.codePageCount
  kinds : ∀ f K, kind f = some K → kind' f = some K
  fresh : ∀ f K, kind' f = some K → kind f = none → ∀ j < 512, ¬on K j → w.mem.entry f j = 0
  entries : ∀ f K, kind f = some K → ∀ j < 512, ¬on K j → w.mem.entry f j = v.mem.entry f j
  opened : ∀ f K, kind f = some K → K.depth < 3 → ∀ j < 512,
    Pte.present (v.mem.entry f j) = true → Pte.Opened (v.mem.entry f j) (w.mem.entry f j)

/-- What a step may do: map `phys` with `flags` at `virt` in `cr3`, clear the last-level entry
of `virt` in `cr3`, take a frame for a page, and free a frame. -/
structure Effect where
  maps : Word → Word → Word → Word → Prop
  clears : Word → Word → Prop
  takes : ℕ → Prop
  frees : ℕ → Prop

/-- The entries on the walks of the pages that are mapped or cleared. -/
def Effect.On (e : Effect) (own : List ℕ → Bool) (K : Kind) (j : ℕ) : Prop :=
  ∃ cr3 virt, (e.clears cr3 virt ∨ ∃ phys flags, e.maps cr3 virt phys flags) ∧
    OnPath own (Pte.frame cr3) (path virt) K j

/-- From `v` to `w` the tables are edited as `e` says. What is mapped was mapped before or is
in `e`, and what is open to users was open before or is on the way to a page in `e`. -/
structure Performs (own : List ℕ → Bool) (e : Effect) (v : Vmm) (kind : ℕ → Option Kind) (w : Vmm)
    (kind' : ℕ → Option Kind) : Prop extends Edits v kind w kind' (e.On own) where
  allocatable : ∀ f ∈ w.pmm.allocatable, f ∈ v.pmm.allocatable ∧ ¬e.takes f ∨ e.frees f
  taken : ∀ f, kind' f ≠ none → kind f = none → f ∈ v.pmm.allocatable ∧ ¬e.takes f
  user : ∀ f K, kind' f = some K → ∀ j < 512, Pte.present (w.mem.entry f j) = true →
    Pte.user (w.mem.entry f j) = true →
      (kind f = some K ∧ Pte.present (v.mem.entry f j) = true ∧ Pte.user (v.mem.entry f j) = true) ∨
      ∃ cr3 virt phys flags t b, e.maps cr3 virt phys flags ∧
        OnPath own (Pte.frame cr3) (path virt) K j ∧
        access w.mem (Pte.frame cr3) ((path virt).take 3) = some (t, true, b)
  leaf : ∀ f K, kind' f = some K → K.depth = 3 → ∀ j < 512, Pte.present (w.mem.entry f j) = true →
    (kind f = some K ∧ w.mem.entry f j = v.mem.entry f j) ∨
      ∃ cr3 virt phys flags, e.maps cr3 virt phys flags ∧
        OnPath own (Pte.frame cr3) (path virt) K j ∧ w.mem.entry f j = Pte.addr phys ||| flags

section calls

variable {own : List ℕ → Bool} {v w u : Vmm} {kind kind' kind'' : ℕ → Option Kind}
  {roots : List ℕ} {on on' : Kind → ℕ → Prop} {cr3 virt : Word} {e : Effect}

theorem Extends.edits (h : Extends v kind w kind' on) : Edits v kind w kind' on where
  codePageCount := h.codePageCount
  kinds := h.kinds
  fresh f K hf hnone := (h.fresh f K hf hnone).2
  entries := h.entries
  opened := h.opened

theorem Edits.upper (h : Edits v kind w kind' on) (f : ℕ) (K : Kind) (hf : kind f = some K)
    (hK : K.depth < 3) (j : ℕ) (hj : j < 512) (hp : Pte.present (v.mem.entry f j) = true) :
    Pte.present (w.mem.entry f j) = true ∧
      Pte.frame (w.mem.entry f j) = Pte.frame (v.mem.entry f j) :=
  have hopen := h.opened f K hf hK j hj hp
  ⟨hopen.present.trans hp, hopen.frame⟩

theorem Edits.descend_eq (he : Edits v kind w kind' on) (h : Tables own v kind roots) {r f : ℕ}
    (hr : r ∈ roots) {p : List ℕ} (hlt : ∀ i ∈ p, i < 512) (hlen : p.length ≤ 3)
    (hp : descend v.mem r p = some f) : descend w.mem r p = some f :=
  h.forest.descend_mono he.upper (h.forest.root r hr) hlt (by simpa using hlen) hp

/-- The tables are as they were. -/
theorem Edits.of_same (hcode : w.codePageCount = v.codePageCount)
    (hsame : ∀ f, kind f ≠ none → ∀ i < 512, w.mem.entry f i = v.mem.entry f i)
    (on : Kind → ℕ → Prop) : Edits v kind w kind on where
  codePageCount := hcode
  kinds _ _ h := h
  fresh f K h hnone := by simp [hnone] at h
  entries f K hf j hj _ := hsame f (by simp [hf]) j hj
  opened f K hf _ j hj _ := .inl (hsame f (by simp [hf]) j hj)

theorem Edits.trans (h : Edits v kind w kind' on) (h' : Edits w kind' u kind'' on) :
    Edits v kind u kind'' on where
  codePageCount := h'.codePageCount.trans h.codePageCount
  kinds f K hf := h'.kinds f K (h.kinds f K hf)
  fresh f K hf hnone j hj hon := by
    cases hmid : kind' f with
    | none => exact h'.fresh f K hf hmid j hj hon
    | some K' =>
      obtain rfl := Option.some.inj ((h'.kinds f K' hmid).symm.trans hf)
      rw [h'.entries f K' hmid j hj hon, h.fresh f K' hmid hnone j hj hon]
  entries f K hf j hj hon := by
    rw [h'.entries f K (h.kinds f K hf) j hj hon, h.entries f K hf j hj hon]
  opened f K hf hK j hj hp :=
    (h.opened f K hf hK j hj hp).trans
      (h'.opened f K (h.kinds f K hf) hK j hj (h.upper f K hf hK j hj hp).1)

theorem Edits.mono (h : Edits v kind w kind' on) (hon : ∀ K j, on K j → on' K j) :
    Edits v kind w kind' on' :=
  { h with
    fresh := fun f K hf hnone j hj hj' => h.fresh f K hf hnone j hj fun hc => hj' (hon K j hc)
    entries := fun f K hf j hj hj' => h.entries f K hf j hj fun hc => hj' (hon K j hc) }

/-! ## Effects -/

theorem Performs.of_same (hcode : w.codePageCount = v.codePageCount)
    (hsame : ∀ f, kind f ≠ none → ∀ i < 512, w.mem.entry f i = v.mem.entry f i)
    (halloc : ∀ f ∈ w.pmm.allocatable, f ∈ v.pmm.allocatable ∧ ¬e.takes f ∨ e.frees f) :
    Performs own e v kind w kind where
  toEdits := .of_same hcode hsame _
  allocatable := halloc
  taken f hf hnone := absurd hnone hf
  user f K hf j hj hp hu := by
    rw [hsame f (by simp [hf]) j hj] at hp hu
    exact .inl ⟨hf, hp, hu⟩
  leaf f K hf _ j hj _ := .inl ⟨hf, hsame f (by simp [hf]) j hj⟩

theorem Performs.refl (v : Vmm) (kind : ℕ → Option Kind) (htakes : ∀ f, ¬e.takes f) :
    Performs own e v kind v kind :=
  .of_same rfl (fun _ _ _ _ => rfl) fun f hf => .inl ⟨hf, htakes f⟩

/-- Frames are taken first. -/
theorem Performs.of_mem (h : Performs own e v kind w kind') (hmem : v.mem = u.mem)
    (hcode : v.codePageCount = u.codePageCount)
    (halloc : ∀ f ∈ v.pmm.allocatable, f ∈ u.pmm.allocatable) :
    Performs own e u kind w kind' where
  codePageCount := h.codePageCount.trans hcode
  kinds := h.kinds
  fresh := h.fresh
  entries := hmem ▸ h.entries
  opened := hmem ▸ h.opened
  allocatable f hf := (h.allocatable f hf).imp_left fun ⟨hfree, ht⟩ => ⟨halloc f hfree, ht⟩
  taken f hf hnone := (h.taken f hf hnone).imp_left (halloc f)
  user := hmem ▸ h.user
  leaf := hmem ▸ h.leaf

theorem Performs.trans (h : Performs own e v kind w kind') (h' : Performs own e w kind' u kind'')
    (ht : Tables own w kind' roots)
    (hroots : ∀ {cr3 virt phys flags}, e.maps cr3 virt phys flags → Pte.frame cr3 ∈ roots)
    (hfrees : ∀ f, ¬e.frees f) : Performs own e v kind u kind'' where
  toEdits := h.toEdits.trans h'.toEdits
  allocatable f hf := by
    obtain ⟨hfree, -⟩ := (h'.allocatable f hf).resolve_right (hfrees f)
    exact h.allocatable f hfree
  taken f hf hnone := by
    by_cases hmid : kind' f = none
    · exact (h.allocatable f (h'.taken f hf hmid).1).resolve_right (hfrees f)
    · exact h.taken f hmid hnone
  user f K hf j hj hp hu := by
    obtain ⟨hf', hp', hu'⟩ | hnew := h'.user f K hf j hj hp hu
    · obtain hold | ⟨cr3, virt, phys, flags, t, b, hmaps, hon, haccess⟩ := h.user f K hf' j hj hp' hu'
      · exact .inl hold
      · refine .inr ⟨cr3, virt, phys, flags, t, b, hmaps, hon, ?_⟩
        exact ht.forest.access_mono h'.opened (ht.forest.root _ (hroots hmaps))
          (fun i hi => path_lt (List.mem_of_mem_take hi)) (by simp [path]) haccess
    · exact .inr hnew
  leaf f K hf hK j hj hp := by
    obtain ⟨hf', heq⟩ | hnew := h'.leaf f K hf hK j hj hp
    · rw [heq] at hp ⊢
      exact h.leaf f K hf' hK j hj hp
    · exact .inr hnew

theorem kgetPteAddrAt_eq (v : Vmm) (cr3 virt : Word) : v.kgetPteAddrAt cr3 virt =
    (descend v.mem (Pte.frame cr3) ((path virt).take 3)).map fun t => (t, Pte.ptIndex virt) := by
  simp only [Vmm.kgetPteAddrAt, path, List.take_succ_cons, List.take_zero, descend]
  split_ifs <;> simp_all

/-- The last-level entry of an address is in a table of the forest. -/
theorem kind_of_walk (h : Forest own v.mem kind roots) (hr : Pte.frame cr3 ∈ roots) {t i : ℕ}
    (hwalk : v.kgetPteAddrAt cr3 virt = some (t, i)) :
    kind t = some ((Kind.priv (Pte.frame cr3) []).follow own ((path virt).take 3)) ∧
      i = Pte.ptIndex virt ∧ descend v.mem (Pte.frame cr3) ((path virt).take 3) = some t := by
  rw [kgetPteAddrAt_eq] at hwalk
  obtain ⟨t', ht', heq⟩ := Option.map_eq_some_iff.mp hwalk
  obtain ⟨rfl, rfl⟩ := Prod.mk.inj heq
  refine ⟨h.kind_descend (h.root _ hr)
    (fun i hi => path_lt (List.mem_of_mem_take hi)) (by simp [path]) ht', rfl, ht'⟩

/-- One last-level entry is cleared. -/
theorem Tables.clearLeaf (h : Tables own v kind roots) (hr : Pte.frame cr3 ∈ roots) {t i : ℕ}
    (hwalk : v.kgetPteAddrAt cr3 virt = some (t, i)) (hmem : u.mem = v.mem)
    (hcode : u.codePageCount = v.codePageCount)
    (hused : ∀ f, kind f ≠ none → u.pmm.bitmap.test f = false) (hclears : e.clears cr3 virt)
    (halloc : ∀ f ∈ u.pmm.allocatable, f ∈ v.pmm.allocatable ∧ ¬e.takes f ∨ e.frees f) :
    Tables own (u.setEntry t i 0) kind roots ∧ Performs own e v kind (u.setEntry t i 0) kind := by
  obtain ⟨hkind, rfl, -⟩ := kind_of_walk h.forest hr hwalk
  have hu : Tables own u kind roots := h.congr (fun _ _ _ _ => by rw [hmem]) hused
  have hdepth : ¬((Kind.priv (Pte.frame cr3) []).follow own ((path virt).take 3)).depth < 3 := by
    simp [Kind.depth_follow, path]
  have hi := Pte.ptIndex_lt virt
  obtain ⟨hw, hext⟩ := hu.setEntry hkind hi (e := 0) (fun hlt => absurd hlt hdepth)
  have hedits : Edits u kind (u.setEntry t (Pte.ptIndex virt) 0) kind (e.On own) := by
    refine hext.edits.mono ?_
    rintro K j ⟨rfl, rfl⟩
    exact ⟨cr3, virt, .inl hclears, 3, rfl, rfl⟩
  -- a present entry is another one
  have hentry : ∀ f j, j < 512 →
      Pte.present ((u.setEntry t (Pte.ptIndex virt) 0).mem.entry f j) = true →
        (u.setEntry t (Pte.ptIndex virt) 0).mem.entry f j = v.mem.entry f j := by
    intro f j hj hp
    rw [setEntry_entry _ _ hi hj] at hp ⊢
    split_ifs at hp ⊢
    · exact absurd hp (by decide)
    · rw [hmem]
  refine ⟨hw, (Edits.of_same hcode (fun _ _ _ _ => by rw [hmem]) _).trans hedits, halloc,
    fun f hf hnone => absurd hnone hf, fun f K hf j hj hp hu => ?_, fun f K hf _ j hj hp => ?_⟩
  · have heq := hentry f j hj hp
    rw [heq] at hp hu
    exact .inl ⟨hf, hp, hu⟩
  · exact .inl ⟨hf, hentry f j hj hp⟩

theorem Tables.kvmunmapAt (h : Tables own v kind roots) (hr : Pte.frame cr3 ∈ roots)
    (hclears : e.clears cr3 virt) (htakes : ∀ f, ¬e.takes f) :
    Tables own (v.kvmunmapAt cr3 virt).2 kind roots ∧
      Performs own e v kind (v.kvmunmapAt cr3 virt).2 kind := by
  rw [Vmm.kvmunmapAt]
  split
  · exact ⟨h, .refl v kind htakes⟩
  · rename_i t i hwalk
    split_ifs
    · exact ⟨h, .refl v kind htakes⟩
    · exact h.clearLeaf hr hwalk rfl rfl h.used hclears fun f hf => .inl ⟨hf, htakes f⟩

/-- What `kpfree` makes free. -/
theorem kpfree_allocatable {page : Word} (h : v.kpfree page = some w) {f : ℕ}
    (hf : f ∈ w.pmm.allocatable) : f ∈ v.pmm.allocatable ∨ f = Pte.frame page := by
  obtain ⟨-, rfl⟩ | ⟨-, -, -, -, rfl⟩ := kpfree_cases h
  · exact .inl hf
  · by_cases heq : f = Pte.frame page
    · exact .inr heq
    · refine .inl ⟨?_, hf.2⟩
      have hset : (v.pmm.bitmap.set (Pte.frame page)).test f = true := hf.1
      rw [Bitmap.test_set, decide_eq_false heq, Bool.or_false] at hset
      exact hset

theorem Tables.kvmunmapAndFreeAt (h : Tables own v kind roots) (hr : Pte.frame cr3 ∈ roots)
    {b : Bool} (hcall : v.kvmunmapAndFreeAt cr3 virt = some (b, w))
    (hused : ∀ f, kind f ≠ none → w.pmm.bitmap.test f = false) (hclears : e.clears cr3 virt)
    (htakes : ∀ f, ¬e.takes f)
    (hfrees : ∀ t i, v.kgetPteAddrAt cr3 virt = some (t, i) → e.frees (Pte.frame (v.mem.entry t i))) :
    Tables own w kind roots ∧ Performs own e v kind w kind := by
  rw [Vmm.kvmunmapAndFreeAt] at hcall
  split at hcall
  · obtain ⟨-, rfl⟩ := Prod.mk.inj (Option.some.inj hcall)
    exact ⟨h, .refl v kind htakes⟩
  · rename_i t i hwalk
    obtain ⟨u, hfree, heq⟩ := Option.map_eq_some_iff.mp hcall
    obtain ⟨-, rfl⟩ := Prod.mk.inj heq
    refine h.clearLeaf hr hwalk (kpfree_mem hfree) ?_ hused hclears fun f hf => ?_
    · obtain ⟨-, rfl⟩ | ⟨-, -, -, -, rfl⟩ := kpfree_cases hfree <;> rfl
    · rcases kpfree_allocatable hfree hf with hf | rfl
      · exact .inl ⟨hf, htakes f⟩
      · rw [Pte.frame_addr]
        exact .inr (hfrees t i hwalk)

/-- `kpalloc` before a call. -/
theorem Tables.kpalloc (h : Tables own v kind roots) : Tables own v.kpalloc.2 kind roots := by
  refine h.congr (fun _ _ _ _ => rfl) fun f hf => ?_
  by_cases h0 : v.kpalloc.1 = 0
  · rw [show v.kpalloc.2.pmm = v.pmm from v.pmm.kpalloc_takes.unchanged h0]
    exact h.used f hf
  · obtain ⟨g, -, -, -, hext⟩ := (Ext.refl v).kpalloc h0
    rw [hext.test, h.used f hf, Bool.false_and]

theorem kpalloc_allocatable {f : ℕ} (hf : f ∈ v.kpalloc.2.pmm.allocatable) :
    f ∈ v.pmm.allocatable ∧ (v.kpalloc.1 ≠ 0 → f ≠ Pte.frame v.kpalloc.1) := by
  by_cases h0 : v.kpalloc.1 = 0
  · rw [show v.kpalloc.2.pmm = v.pmm from v.pmm.kpalloc_takes.unchanged h0] at hf
    exact ⟨hf, fun hne => absurd h0 hne⟩
  · obtain ⟨g, -, hpage, -, hext⟩ := (Ext.refl v).kpalloc h0
    have hlt : g < 2 ^ 52 := hext.lt List.mem_cons_self
    have htest : (v.pmm.bitmap.test f && decide (f ∉ [g])) = true := (hext.test f).symm.trans hf.1
    rw [Bool.and_eq_true, decide_eq_true_eq, List.mem_singleton] at htest
    refine ⟨⟨htest.1, ?_, hext.frameCount ▸ hf.2.2.1, hf.2.2.2⟩, fun _ => ?_⟩
    · have hfirst := hf.2.1
      rwa [Pmm.firstPage, hext.kernelEnd] at hfirst
    · rw [hpage, Pte.frame_ofFrame hlt]
      exact htest.2

/-- `kvmmap_at` maps one page. -/
theorem Tables.kvmmapAt_performs (h : Tables own v kind roots) {phys flags : Word}
    (hr : Pte.frame cr3 ∈ roots) (hcall : v.kvmmapAt cr3 virt phys flags = some w)
    (hmaps : e.maps cr3 virt phys flags) (htakes : ∀ f, e.takes f → f ∉ v.pmm.allocatable) :
    ∃ kind', Tables own w kind' roots ∧ Performs own e v kind w kind' := by
  obtain ⟨kind', t, ht, hat⟩ := h.kvmmapAt hr hcall
  have hext := hat.ext
  have hon : ∀ K j, OnPath own (Pte.frame cr3) (path virt) K j → e.On own K j :=
    fun K j hon => ⟨cr3, virt, .inr ⟨phys, flags, hmaps⟩, hon⟩
  have hnew : ∀ f K, kind' f = some K → kind f = none → f ∈ v.pmm.allocatable ∧ ¬e.takes f := by
    intro f K hf hnone
    have hfree := (hext.fresh f K hf hnone).1
    exact ⟨hfree, fun hc => htakes f hc hfree⟩
  -- an entry beside the path is an old one, or the zero of a new table
  have hbeside : ∀ f K, kind' f = some K → ∀ j < 512, Pte.present (w.mem.entry f j) = true →
      ¬OnPath own (Pte.frame cr3) (path virt) K j →
        kind f = some K ∧ w.mem.entry f j = v.mem.entry f j := by
    intro f K hf j hj hp hoff
    cases hold : kind f with
    | none =>
      rw [(hext.fresh f K hf hold).2 j hj hoff] at hp
      exact absurd hp (by decide)
    | some K' =>
      obtain rfl := Option.some.inj ((hext.kinds f K' hold).symm.trans hf)
      exact ⟨rfl, hext.entries f K' hold j hj hoff⟩
  refine ⟨kind', ht, hext.edits.mono hon, fun f hf => ?_, fun f hf hnone => ?_,
    fun f K hf j hj hp hu => ?_, fun f K hf hK j hj hp => ?_⟩
  · have hfree := hext.allocatable hf
    exact .inl ⟨hfree, fun hc => htakes f hc hfree⟩
  · obtain ⟨K, hK⟩ := Option.ne_none_iff_exists'.mp hf
    exact hnew f K hK hnone
  · by_cases hc : OnPath own (Pte.frame cr3) (path virt) K j
    · cases huser : Pte.user flags with
      | true =>
        obtain ⟨b, hb⟩ := hat.user huser
        exact .inr ⟨cr3, virt, phys, flags, t, b, hmaps, hc, hb⟩
      | false =>
        obtain ⟨hf', heq⟩ := hat.closed huser f K hf j hj ⟨hp, hu⟩
        rw [heq] at hp hu
        exact .inl ⟨hf', hp, hu⟩
    · obtain ⟨hf', heq⟩ := hbeside f K hf j hj hp hc
      rw [heq] at hp hu
      exact .inl ⟨hf', hp, hu⟩
  · rcases hat.leaf f K hf j hj ⟨hK, hp⟩ with hold | ⟨rfl, rfl⟩
    · exact .inl hold
    · refine .inr ⟨cr3, virt, phys, flags, hmaps, ⟨3, rfl, ?_⟩, hat.entry⟩
      exact Option.some.inj (hf.symm.trans hat.kind_eq)

/-- The second loop of `sys_map_mmio`. -/
theorem Tables.mapMmioPages (h : Tables own v kind roots) (hr : Pte.frame cr3 ∈ roots)
    {phys : Word} {n : ℕ} (hcall : Vmm.mapMmioPages cr3 virt phys n v = some w)
    (hmaps : ∀ i < n, e.maps cr3 (pageAddr virt i) (pageAddr phys i) 0x1F)
    (hroots : ∀ {cr3 virt phys flags}, e.maps cr3 virt phys flags → Pte.frame cr3 ∈ roots)
    (htakes : ∀ f, ¬e.takes f) (hfrees : ∀ f, ¬e.frees f) :
    ∃ kind', Tables own w kind' roots ∧ Performs own e v kind w kind' := by
  induction n generalizing w with
  | zero =>
    obtain rfl := Option.some.inj hcall
    exact ⟨kind, h, .refl v kind htakes⟩
  | succ n ih =>
    obtain ⟨u, hu, hmap⟩ := Option.bind_eq_some_iff.mp hcall
    obtain ⟨kind', ht, he⟩ := ih hu fun i hi => hmaps i (by omega)
    obtain ⟨kind'', ht', he'⟩ := ht.kvmmapAt_performs hr hmap (hmaps n (by omega))
      fun f hf => absurd hf (htakes f)
    exact ⟨kind'', ht', he.trans he' ht hroots hfrees⟩

/-! ## Private walks -/

/-- `own` picks every table on the way. -/
def OwnPath (own : List ℕ → Bool) (p : List ℕ) : Prop := ∀ l < 3, own (p.take (l + 1)) = true

theorem OnPath.eq_priv {r : ℕ} {K : Kind} {j : ℕ} (h : OnPath own r (path virt) K j)
    (hown : OwnPath own (path virt)) :
    ∃ l < 4, (path virt)[l]? = some j ∧ K = .priv r ((path virt).take l) := by
  obtain ⟨l, hj, rfl⟩ := h
  have hl : l < 4 := by
    by_contra hge
    rw [List.getElem?_eq_none (by rw [path_length]; omega)] at hj
    exact absurd hj (by simp)
  refine ⟨l, hl, hj, Kind.follow_of_own fun k hk => ?_⟩
  rw [List.length_take, path_length] at hk
  rw [List.take_take, min_eq_left (by omega)]
  exact hown k (by omega)

theorem OnPath.privateTo {r : ℕ} {K : Kind} {j : ℕ} (h : OnPath own r (path virt) K j)
    (hown : OwnPath own (path virt)) : K.PrivateTo r := by
  obtain ⟨l, -, -, rfl⟩ := h.eq_priv hown
  exact rfl

/-- `K` is not on the way to the page at `p` in `r`. -/
def Beside (r : ℕ) (p : List ℕ) (K : Kind) : Prop := ∀ q, K = .priv r q → ¬q <+: p

theorem Beside.child {r : ℕ} {p : List ℕ} {K : Kind} (h : Beside r p K) (i : ℕ) :
    Beside r p (K.child own i) := by
  rintro q hq hpre
  cases K with
  | common d => exact Kind.noConfusion hq
  | priv r' q' =>
    rw [Kind.child] at hq
    split_ifs at hq
    obtain ⟨rfl, rfl⟩ := Kind.priv.inj hq
    exact h q' rfl ((List.prefix_append _ _).trans hpre)

theorem Beside.follow {r : ℕ} {p : List ℕ} {K : Kind} (h : Beside r p K) (q : List ℕ) :
    Beside r p (K.follow own q) := by
  induction q generalizing K with
  | nil => exact h
  | cons i q ih => exact ih (h.child i)

theorem beside_of_split {r : ℕ} {p q s' : List ℕ} {i j : ℕ} (hp : p = q ++ j :: s')
    (hij : i ≠ j) : Beside r p ((Kind.priv r q).child own i) := by
  rintro q' hq hpre
  rw [Kind.child] at hq
  split_ifs at hq
  obtain ⟨-, rfl⟩ := Kind.priv.inj hq
  rw [hp, List.prefix_append_right_inj, List.cons_prefix_cons] at hpre
  exact hij hpre.1

theorem Beside.not_onPath {r : ℕ} {K : Kind} (h : Beside r (path virt) K)
    (hown : OwnPath own (path virt)) (j : ℕ) : ¬OnPath own r (path virt) K j := by
  intro hon
  obtain ⟨l, -, -, rfl⟩ := hon.eq_priv hown
  exact h _ rfl (List.take_prefix l _)

theorem not_onPath_of_split {r : ℕ} (hown : OwnPath own (path virt))
    {q s' : List ℕ} {i j : ℕ} (hP : path virt = q ++ j :: s') (hij : i ≠ j) :
    ¬OnPath own r (path virt) (.priv r q) i := by
  intro hon
  obtain ⟨l, hl, hget, hK⟩ := hon.eq_priv hown
  obtain ⟨-, hq⟩ := Kind.priv.inj hK
  have hql : q.length = l := by
    rw [hq, List.length_take, path_length]
    omega
  rw [hP, ← hql, List.getElem?_append_right le_rfl, Nat.sub_self, List.getElem?_cons_zero] at hget
  exact hij (Option.some.inj hget).symm

/-- An address of the first gigabyte's second or third 2 MiB after the first. -/
theorem path_of_window (hlow : 0x400000 ≤ virt.toNat) (hhigh : virt.toNat < 0x800000) :
    ∃ s, (s = 2 ∨ s = 3) ∧ path virt = [0, 0, s, Pte.ptIndex virt] := by
  refine ⟨Pte.pdIndex virt, ?_, ?_⟩
  · rw [Pte.pdIndex_eq]
    omega
  · have h4 : Pte.pml4Index virt = 0 := by rw [Pte.pml4Index_eq]; omega
    have h3 : Pte.pdptIndex virt = 0 := by rw [Pte.pdptIndex_eq]; omega
    rw [path, h4, h3]

theorem Splits.ownPath (hown : Splits own) (hlow : 0x400000 ≤ virt.toNat)
    (hhigh : virt.toNat < 0x800000) : OwnPath own (path virt) := by
  obtain ⟨s, hs, hpath⟩ := path_of_window hlow hhigh
  rw [hpath]
  intro l hl
  obtain rfl | rfl | rfl : l = 0 ∨ l = 1 ∨ l = 2 := by omega
  · exact hown.pdpt
  · exact hown.pd
  · rcases hs with rfl | rfl
    · exact hown.pt2
    · exact hown.pt3

/-! ## A new address space -/

/-- The tables that are copied are not in free frames. -/
theorem Tables.intact (h : Tables own v kind roots) (hsrc : SourceKinds kind v cr3) :
    Intact v (v.source cr3) := by
  have hused : ∀ {f K}, kind f = some K → f ∉ v.pmm.allocatable := by
    intro f K hf hmem
    have hfree : v.pmm.bitmap.test f = true := hmem.1
    simp [h.kind_of_free hfree] at hf
  constructor
  case pml4 => exact hused hsrc.pml4
  case pdpt => exact hused hsrc.pdpt
  case pd => exact hused hsrc.pd
  case pt2 => exact fun hp => hused (h.forest.child _ _ hsrc.pd (by simp) 2 (by decide) hp)
  case pt3 => exact fun hp => hused (h.forest.child _ _ hsrc.pd (by simp) 3 (by decide) hp)

/-- `kvmm_create_user_pml4` makes a new address space or changes no table. -/
theorem Tables.kvmmCreateUserPml4 (h : Tables own v kind roots) (hsrc : SourceKinds kind v cr3)
    {pml4 : Word} (hcall : v.kvmmCreateUserPml4 cr3 = some (pml4, w))
    (hused : ∀ f, kind f ≠ none → w.pmm.bitmap.test f = false) :
    (pml4 = 0 ∧ Tables own w kind roots ∧ Edits v kind w kind fun _ _ => False) ∨
      ∃ new, pml4 ≠ 0 ∧ pml4 = Pte.ofFrame new.pml4 ∧ Built v w (v.source cr3) new := by
  have hspec := createUserPml4_spec rfl (h.intact hsrc)
  rw [Vmm.kvmmCreateUserPml4] at hcall
  cases hc : v.createUserPml4 cr3 with
  | error c =>
    rw [hc] at hcall
    obtain ⟨u, rfl, hpair⟩ := Option.map_eq_some_iff.mp hcall
    obtain ⟨rfl, rfl⟩ := Prod.mk.inj hpair
    obtain ⟨w', taken, pages, hstop, hfree⟩ := hspec.of_error _ hc
    have hfreed := freed_of_freeAll hfree.symm
    have hsame : ∀ f, kind f ≠ none → ∀ i < 512, u.mem.entry f i = v.mem.entry f i := by
      intro f hf i hi
      rw [hfreed.mem, hstop.ext.entry (hstop.ext.notMem_of_used (h.used f hf)) hi]
    exact .inl ⟨rfl, h.congr hsame hused,
      .of_same (hfreed.codePageCount.trans hstop.ext.codePageCount) hsame _⟩
  | ok x =>
    rw [hc] at hcall
    obtain rfl := Option.some.inj hcall
    obtain ⟨new, rfl, hb⟩ := hspec.of_ok _ hc
    exact .inr ⟨new, hb.root_ne_zero, rfl, hb⟩

end calls

end Nyvela.Vmm
