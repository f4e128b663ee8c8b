import Nyvela.PageEffects

/-!
# The tables along every run

Whatever is called, the tables of all address spaces stay one forest, as long as no frame
of theirs is freed and nothing else is stored in them.
-/

namespace Nyvela

open PageTree Vmm

/-- The pages that a step maps: `cr3`, `virt`, `phys` and `flags` of the calls of `kvmmap_at`. -/
inductive PageOp.Maps (s : PageState) : PageOp → Word → Word → Word → Word → Prop
  | sysAllocPage {cr3 : Word} : s.vmm.userFindFreePage cr3 ≠ 0 → s.vmm.kpalloc.1 ≠ 0 →
    Maps s (.call (.sysAllocPage cr3)) cr3 (s.vmm.userFindFreePage cr3) s.vmm.kpalloc.1 0x07
  | sysMmap {cr3 virt phys flags : Word} : s.vmm.kisNormalRam phys = true →
    s.vmm.userPageOk virt = true →
    Maps s (.call (.sysMmap cr3 virt phys flags)) cr3 virt phys (flags &&& 0x07)
  | sysAsMap {cr3 virt src flags : Word} {id : ℕ} {as : AddrSpace} : as ∈ s.findAs id →
    s.vmm.kgetPhysPageAddrAt cr3 src ≠ 0 →
    Maps s (.sysAsMap cr3 id virt src flags) as.cr3 virt (s.vmm.kgetPhysPageAddrAt cr3 src)
      (flags &&& 0x07)
  | sysMapMmio {cr3 virt phys pages : Word} {i : ℕ} : i < pages.toNat →
    Maps s (.sysMapMmio cr3 virt phys pages) cr3 (pageAddr virt i) (pageAddr phys i) 0x1F
  | kvmmapAt {cr3 virt phys flags : Word} :
    Maps s (.kvmmapAt cr3 virt phys flags) cr3 virt phys flags
  | mapPage {cr3 virt : Word} : s.vmm.kpalloc.1 ≠ 0 →
    Maps s (.mapPage cr3 virt) cr3 virt s.vmm.kpalloc.1 0x07

/-- The pages that a step unmaps. -/
inductive PageOp.Clears (s : PageState) : PageOp → Word → Word → Prop
  | sysUnmmap {cr3 virt : Word} : s.vmm.userPageOk virt = true →
    Clears s (.call (.sysUnmmap cr3 virt)) cr3 virt
  | sysFreePage {cr3 virt : Word} : s.vmm.userPageOk virt = true →
    Clears s (.call (.sysFreePage cr3 virt)) cr3 virt
  | sysUnmmapAndFree {cr3 virt : Word} : s.vmm.userPageOk virt = true →
    Clears s (.call (.sysUnmmapAndFree cr3 virt)) cr3 virt
  | kvmunmapAt {cr3 virt : Word} : Clears s (.kvmunmapAt cr3 virt) cr3 virt

/-- The frames that a step takes for something else than a table. -/
inductive PageOp.Takes (s : PageState) : PageOp → ℕ → Prop
  | sysAllocPage {cr3 : Word} : s.vmm.userFindFreePage cr3 ≠ 0 → s.vmm.kpalloc.1 ≠ 0 →
    Takes s (.call (.sysAllocPage cr3)) (Pte.frame s.vmm.kpalloc.1)
  | mapPage {cr3 virt : Word} : s.vmm.kpalloc.1 ≠ 0 →
    Takes s (.mapPage cr3 virt) (Pte.frame s.vmm.kpalloc.1)
  | take {f : ℕ} : Takes s (.take f) f

/-- The frames that a step gives to `kpfree`. -/
inductive PageOp.Frees (s : PageState) : PageOp → ℕ → Prop
  | sysFreePage {cr3 virt : Word} {t i : ℕ} : s.vmm.userPageOk virt = true →
    s.vmm.kgetPteAddrAt cr3 virt = some (t, i) →
    Frees s (.call (.sysFreePage cr3 virt)) (Pte.frame (s.vmm.mem.entry t i))
  | sysUnmmapAndFree {cr3 virt : Word} {t i : ℕ} : s.vmm.userPageOk virt = true →
    s.vmm.kgetPteAddrAt cr3 virt = some (t, i) →
    Frees s (.call (.sysUnmmapAndFree cr3 virt)) (Pte.frame (s.vmm.mem.entry t i))
  | give {f : ℕ} : Frees s (.give f) (Pte.frame (Pte.ofFrame f))

namespace PageState

def effect (s : PageState) (op : PageOp) : Effect where
  maps := op.Maps s
  clears := op.Clears s
  takes := op.Takes s
  frees := op.Frees s

/-- The tables of `w` are a forest, and they come from those of `s` by what `op` does. -/
def Performed (own : List ℕ → Bool) (s : PageState) (kind : ℕ → Option Kind) (op : PageOp)
    (w : Vmm) : Prop :=
  ∃ kind', Tables own w kind' (s.roots.map Pte.frame) ∧ Performs own (s.effect op) s.vmm kind w kind'

/-- The tables are a forest, and every root has a directory for the first gigabyte. -/
structure Inv (own : List ℕ → Bool) (s : PageState) (kind : ℕ → Option Kind) : Prop where
  tables : Tables own s.vmm kind (s.roots.map Pte.frame)
  aligned : ∀ r ∈ s.roots, Pte.addr r = r
  pml4e : ∀ r ∈ s.roots, Pte.present (s.vmm.mem.entry (s.vmm.source r).pml4 0) = true
  pdpte : ∀ r ∈ s.roots, Pte.present (s.vmm.mem.entry (s.vmm.source r).pdpt 0) = true
  spaces : ∀ as ∈ s.addrspaces, as.cr3 ∈ s.roots

section inv

variable {own : List ℕ → Bool} {s s' : PageState} {kind kind' : ℕ → Option Kind}
  {on : Kind → ℕ → Prop} {w : Vmm}

theorem Inv.frame_mem (_ : Inv own s kind) {r : Word} (hr : r ∈ s.roots) :
    Pte.frame r ∈ s.roots.map Pte.frame := List.mem_map_of_mem hr

/-- The frames that the kernel holds do not matter. -/
theorem Inv.congr (h : Inv own s kind) (hvmm : s'.vmm = s.vmm) (hroots : s'.roots = s.roots)
    (hspaces : s'.addrspaces = s.addrspaces) : Inv own s' kind := by
  constructor
  case tables => rw [hvmm, hroots]; exact h.tables
  case aligned => rw [hroots]; exact h.aligned
  case pml4e => rw [hvmm, hroots]; exact h.pml4e
  case pdpte => rw [hvmm, hroots]; exact h.pdpte
  case spaces => rw [hroots, hspaces]; exact h.spaces

theorem Inv.sourceKinds (h : Inv own s kind) (hown : Splits own) {r : Word} (hr : r ∈ s.roots) :
    SourceKinds kind s.vmm r :=
  h.tables.sourceKinds hown (h.frame_mem hr) (h.pml4e r hr) (h.pdpte r hr)

theorem Inv.isTable (h : Inv own s kind) {f : ℕ} (hf : kind f ≠ none) : s.IsTable f := by
  obtain ⟨r, hr, p, hlt, hlen, hp⟩ := h.tables.forest.linked f hf
  obtain ⟨r', hr', rfl⟩ := List.mem_map.mp hr
  exact ⟨r', hr', p, hlt, hlen, hp⟩

theorem Inv.kind_ne_none (h : Inv own s kind) {f : ℕ} (hf : s.IsTable f) : kind f ≠ none := by
  obtain ⟨r, hr, p, hlt, hlen, hp⟩ := hf
  rw [h.tables.forest.kind_descend (h.tables.forest.root _ (h.frame_mem hr)) hlt
    (by simpa using hlen) hp]
  simp

theorem source_pdpt (v : Vmm) (cr3 : Word) :
    (v.source cr3).pdpt = Pte.frame (v.mem.entry (Pte.frame cr3) 0) := rfl

theorem Inv.findAs_mem (h : Inv own s kind) {id : ℕ} {a : AddrSpace} (ha : a ∈ s.findAs id) :
    a.cr3 ∈ s.roots := h.spaces a (List.mem_of_find?_eq_some ha)

/-- Directories stay where they are. -/
theorem Inv.edit (h : Inv own s kind) (hown : Splits own)
    (ht : Tables own w kind' (s.roots.map Pte.frame)) (he : Edits s.vmm kind w kind' on) :
    Inv own (s.setVmm w) kind' := by
  have hupper : ∀ r ∈ s.roots, Pte.present (w.mem.entry (w.source r).pml4 0) = true ∧
      Pte.present (w.mem.entry (w.source r).pdpt 0) = true := by
    intro r hr
    have hsrc := h.sourceKinds hown hr
    obtain ⟨hp4, hf4⟩ := he.upper _ _ hsrc.pml4 (by simp) 0 (by decide) (h.pml4e r hr)
    obtain ⟨hp3, -⟩ := he.upper _ _ hsrc.pdpt (by simp) 0 (by decide) (h.pdpte r hr)
    have hpdpt : (w.source r).pdpt = (s.vmm.source r).pdpt := hf4
    exact ⟨hp4, hpdpt ▸ hp3⟩
  exact ⟨ht, h.aligned, fun r hr => (hupper r hr).1, fun r hr => (hupper r hr).2, h.spaces⟩

/-- A new address space has its directory too. -/
theorem Inv.create (h : Inv own s kind) (hown : Splits own) {cr3 : Word} (hr : cr3 ∈ s.roots)
    (hun : Unshared own s.vmm cr3) {new : NewSpace} (hb : Built s.vmm w (s.vmm.source cr3) new)
    (hvmm : s'.vmm = w) (hroots : s'.roots = Pte.ofFrame new.pml4 :: s.roots)
    (hspaces : ∀ as ∈ s'.addrspaces, as ∈ s.addrspaces ∨ as.cr3 = Pte.ofFrame new.pml4) :
    Inv own s' (new.kinds kind) := by
  have hlt : new.pml4 < 2 ^ 52 := hb.ext.lt (by simp [NewSpace.frames])
  have hframe : Pte.frame (Pte.ofFrame new.pml4) = new.pml4 := Pte.frame_ofFrame hlt
  have htables := h.tables.create hown (h.sourceKinds hown hr) hun hb
  have hh := hb.holds
  have hp4 : Leads (w.mem.entry new.pml4 0) new.pdpt := hh.pml4e
  have hp3 : Leads (w.mem.entry new.pdpt 0) new.pd := hh.pdpte
  have hold : ∀ r ∈ s.roots, Pte.present (w.mem.entry (w.source r).pml4 0) = true ∧
      Pte.present (w.mem.entry (w.source r).pdpt 0) = true := by
    intro r hr'
    have hsrc := h.sourceKinds hown hr'
    have hkind4 : kind (Pte.frame r) ≠ none := by
      rw [show kind (Pte.frame r) = _ from hsrc.pml4]
      simp
    have hkind3 : kind (s.vmm.source r).pdpt ≠ none := by
      rw [hsrc.pdpt]
      simp
    have he4 : w.mem.entry (Pte.frame r) 0 = s.vmm.mem.entry (Pte.frame r) 0 :=
      h.tables.entry_of_kind hb hkind4 (by decide)
    have he3 := h.tables.entry_of_kind hb hkind3 (show 0 < 512 by decide)
    have hpdpt : (w.source r).pdpt = (s.vmm.source r).pdpt := congrArg Pte.frame he4
    rw [show (w.source r).pml4 = Pte.frame r from rfl, hpdpt, he4, he3]
    exact ⟨h.pml4e r hr', h.pdpte r hr'⟩
  have hnew : (w.source (Pte.ofFrame new.pml4)).pml4 = new.pml4 := hframe
  have hnew3 : (w.source (Pte.ofFrame new.pml4)).pdpt = new.pdpt := by
    rw [source_pdpt, hframe]
    exact hp4.2
  constructor
  case tables =>
    rw [hvmm, hroots, List.map_cons, hframe]
    exact htables
  case aligned =>
    intro r hr'
    rw [hroots] at hr'
    rcases List.mem_cons.mp hr' with rfl | hr'
    · exact Pte.addr_ofFrame _
    · exact h.aligned r hr'
  case pml4e =>
    intro r hr'
    rw [hroots] at hr'
    rw [hvmm]
    rcases List.mem_cons.mp hr' with rfl | hr'
    · rw [hnew]
      exact hp4.1
    · exact (hold r hr').1
  case pdpte =>
    intro r hr'
    rw [hroots] at hr'
    rw [hvmm]
    rcases List.mem_cons.mp hr' with rfl | hr'
    · rw [hnew3]
      exact hp3.1
    · exact (hold r hr').2
  case spaces =>
    intro as has
    rw [hroots]
    rcases hspaces as has with has | has
    · exact List.mem_cons_of_mem _ (h.spaces as has)
    · rw [has]
      exact List.mem_cons_self

/-! ## Steps that create no address space -/

section performed

variable {cr3 virt r : Word}

theorem Inv.performed_refl (h : Inv own s kind) {op : PageOp} (htakes : ∀ f, ¬op.Takes s f) :
    Performed own s kind op s.vmm := ⟨kind, h.tables, .refl s.vmm kind htakes⟩

theorem Inv.performed_sysAllocPage (h : Inv own s kind) (hr : cr3 ∈ s.roots)
    (hcall : s.vmm.sysAllocPage cr3 = some (r, w)) :
    Performed own s kind (.call (.sysAllocPage cr3)) w := by
  simp only [Vmm.sysAllocPage] at hcall
  split_ifs at hcall with h0 h1
  · obtain ⟨-, rfl⟩ := Prod.mk.inj (Option.some.inj hcall)
    refine h.performed_refl ?_
    rintro _ ⟨hne, -⟩
    exact hne h0
  · obtain ⟨-, rfl⟩ := Prod.mk.inj (Option.some.inj hcall)
    refine ⟨kind, h.tables.kpalloc, .of_same rfl (fun _ _ _ _ => rfl) fun f hf => .inl ?_⟩
    refine ⟨(kpalloc_allocatable hf).1, ?_⟩
    rintro ⟨-, hne⟩
    exact hne h1
  · obtain ⟨u, hu, heq⟩ := Option.map_eq_some_iff.mp hcall
    obtain ⟨-, rfl⟩ := Prod.mk.inj heq
    obtain ⟨kind', ht, hp⟩ := h.tables.kpalloc.kvmmapAt_performs (h.frame_mem hr) hu
      (e := s.effect (.call (.sysAllocPage cr3))) (.sysAllocPage h0 h1) (by
        rintro _ ⟨-, h1⟩ hfree
        exact (kpalloc_allocatable hfree).2 h1 rfl)
    exact ⟨kind', ht, hp.of_mem rfl rfl fun f hf => (kpalloc_allocatable hf).1⟩

theorem Inv.performed_mapPage (h : Inv own s kind) (hr : cr3 ∈ s.roots) (h1 : s.vmm.kpalloc.1 ≠ 0)
    (hcall : s.vmm.kpalloc.2.kvmmapAt cr3 virt s.vmm.kpalloc.1 0x07 = some w) :
    Performed own s kind (.mapPage cr3 virt) w := by
  obtain ⟨kind', ht, hp⟩ := h.tables.kpalloc.kvmmapAt_performs (h.frame_mem hr) hcall
    (e := s.effect (.mapPage cr3 virt)) (.mapPage h1) (by
      rintro _ ⟨⟩ hfree
      exact (kpalloc_allocatable hfree).2 h1 rfl)
  exact ⟨kind', ht, hp.of_mem rfl rfl fun f hf => (kpalloc_allocatable hf).1⟩

theorem Inv.performed_sysMmap (h : Inv own s kind) (hr : cr3 ∈ s.roots) {phys flags : Word}
    (hcall : s.vmm.sysMmap cr3 virt phys flags = some (r, w)) :
    Performed own s kind (.call (.sysMmap cr3 virt phys flags)) w := by
  have htakes : ∀ f, ¬PageOp.Takes s (.call (.sysMmap cr3 virt phys flags)) f := fun f hf => by
    cases hf
  simp only [Vmm.sysMmap] at hcall
  split_ifs at hcall with h0 h1
  · obtain ⟨-, rfl⟩ := Prod.mk.inj (Option.some.inj hcall)
    exact h.performed_refl htakes
  · obtain ⟨-, rfl⟩ := Prod.mk.inj (Option.some.inj hcall)
    exact h.performed_refl htakes
  · obtain ⟨u, hu, heq⟩ := Option.map_eq_some_iff.mp hcall
    obtain ⟨-, rfl⟩ := Prod.mk.inj heq
    rw [not_or, Bool.not_eq_false] at h0
    exact h.tables.kvmmapAt_performs (h.frame_mem hr) hu
      (.sysMmap h0.2 (Bool.not_eq_false _ ▸ h1)) fun f hf => absurd hf (htakes f)

theorem Inv.performed_sysAsMap (h : Inv own s kind) {src flags : Word} {id : ℕ}
    (hcall : s.vmm.sysAsMap cr3 (s.findAs id) virt src flags = some (r, w)) :
    Performed own s kind (.sysAsMap cr3 id virt src flags) w := by
  have htakes : ∀ f, ¬PageOp.Takes s (.sysAsMap cr3 id virt src flags) f := fun f hf => by cases hf
  cases has : s.findAs id with
  | none =>
    rw [has] at hcall
    obtain ⟨-, rfl⟩ := Prod.mk.inj (Option.some.inj hcall)
    exact h.performed_refl htakes
  | some as =>
    rw [has] at hcall
    simp only [Vmm.sysAsMap] at hcall
    split_ifs at hcall with h0 h1
    · obtain ⟨-, rfl⟩ := Prod.mk.inj (Option.some.inj hcall)
      exact h.performed_refl htakes
    · obtain ⟨-, rfl⟩ := Prod.mk.inj (Option.some.inj hcall)
      exact h.performed_refl htakes
    · obtain ⟨u, hu, heq⟩ := Option.map_eq_some_iff.mp hcall
      obtain ⟨-, rfl⟩ := Prod.mk.inj heq
      exact h.tables.kvmmapAt_performs (h.frame_mem (h.findAs_mem has)) hu (.sysAsMap has h1)
        fun f hf => absurd hf (htakes f)

theorem Inv.performed_sysMapMmio (h : Inv own s kind) (hr : cr3 ∈ s.roots) {phys pages : Word}
    (hcall : s.vmm.sysMapMmio cr3 virt phys pages = some (r, w)) :
    Performed own s kind (.sysMapMmio cr3 virt phys pages) w := by
  have htakes : ∀ f, ¬PageOp.Takes s (.sysMapMmio cr3 virt phys pages) f := fun f hf => by cases hf
  simp only [Vmm.sysMapMmio] at hcall
  split_ifs at hcall with h0 h1 h2
  · obtain ⟨-, rfl⟩ := Prod.mk.inj (Option.some.inj hcall)
    exact h.performed_refl htakes
  · obtain ⟨-, rfl⟩ := Prod.mk.inj (Option.some.inj hcall)
    exact h.performed_refl htakes
  · obtain ⟨-, rfl⟩ := Prod.mk.inj (Option.some.inj hcall)
    exact h.performed_refl htakes
  · obtain ⟨u, hu, heq⟩ := Option.map_eq_some_iff.mp hcall
    obtain ⟨-, rfl⟩ := Prod.mk.inj heq
    refine h.tables.mapMmioPages (h.frame_mem hr) hu (fun i hi => .sysMapMmio hi) ?_ htakes
      fun f hf => by cases hf
    rintro _ _ _ _ ⟨⟩
    exact h.frame_mem hr

/-- `sys_free_page` and `sys_unmmap_and_free`. -/
theorem Inv.performed_unmapAndFree (h : Inv own s kind) (hr : cr3 ∈ s.roots) {op : PageOp}
    (hcall : s.vmm.unmapAndFreeUserPage cr3 virt = some (r, w))
    (hused : ∀ f, kind f ≠ none → w.pmm.bitmap.test f = false) (htakes : ∀ f, ¬op.Takes s f)
    (hclears : s.vmm.userPageOk virt = true → op.Clears s cr3 virt)
    (hfrees : s.vmm.userPageOk virt = true → ∀ t i, s.vmm.kgetPteAddrAt cr3 virt = some (t, i) →
      op.Frees s (Pte.frame (s.vmm.mem.entry t i))) : Performed own s kind op w := by
  rw [Vmm.unmapAndFreeUserPage] at hcall
  split_ifs at hcall with h0
  · obtain ⟨-, rfl⟩ := Prod.mk.inj (Option.some.inj hcall)
    exact h.performed_refl htakes
  · rw [not_or, Bool.not_eq_false] at h0
    obtain ⟨x, hx, heq⟩ := Option.map_eq_some_iff.mp hcall
    obtain ⟨-, rfl⟩ := Prod.mk.inj heq
    exact ⟨kind, h.tables.kvmunmapAndFreeAt (h.frame_mem hr) hx hused (hclears h0.2) htakes
      (hfrees h0.2)⟩

theorem Inv.performed_sysUnmmap (h : Inv own s kind) (hr : cr3 ∈ s.roots) :
    Performed own s kind (.call (.sysUnmmap cr3 virt)) (s.vmm.sysUnmmap cr3 virt).2 := by
  have htakes : ∀ f, ¬PageOp.Takes s (.call (.sysUnmmap cr3 virt)) f := fun f hf => by cases hf
  rw [Vmm.sysUnmmap]
  split_ifs with h0
  · exact h.performed_refl htakes
  · rw [not_or, Bool.not_eq_false] at h0
    exact ⟨kind, h.tables.kvmunmapAt (h.frame_mem hr) (.sysUnmmap h0.2) htakes⟩

/-- A store to another frame. -/
theorem entry_store (m : Memory) {f g i j : ℕ} (hi : i < 4096) (hj : j < 512) (hne : g ≠ f)
    (b : BitVec 8) : (m.store (f * 4096 + i) b).entry g j = m.entry g j := by
  apply Memory.entry_congr _ hj
  intro k hk
  apply Memory.store_of_ne
  omega

/-- Every step that creates no address space does what its effect says, if it spares the
tables. -/
theorem Inv.performed (h : Inv own s kind) {op : PageOp} (hstep : Step s op s')
    (hsrc : op.source = none) (hok : SparesTables s op) :
    s'.roots = s.roots ∧ s'.addrspaces = s.addrspaces ∧ Performed own s kind op s'.vmm := by
  have hused : ∀ f, kind f ≠ none → s'.vmm.pmm.bitmap.test f = false := fun f hf =>
    hok.1 s' hstep f (h.isTable hf)
  cases hstep with
  | call hcall =>
    cases hcall with
    | kvmmCreateUserPml4 => exact absurd hsrc (by simp [PageOp.source])
    | sysAllocPage hr hcall => exact ⟨rfl, rfl, h.performed_sysAllocPage hr hcall⟩
    | sysMmap hr hcall => exact ⟨rfl, rfl, h.performed_sysMmap hr hcall⟩
    | sysUnmmap hr => exact ⟨rfl, rfl, h.performed_sysUnmmap hr⟩
    | sysFreePage hr hcall =>
      exact ⟨rfl, rfl, h.performed_unmapAndFree hr hcall hused (fun f hf => by cases hf)
        .sysFreePage fun hok t i => .sysFreePage hok⟩
    | sysUnmmapAndFree hr hcall =>
      exact ⟨rfl, rfl, h.performed_unmapAndFree hr hcall hused (fun f hf => by cases hf)
        .sysUnmmapAndFree fun hok t i => .sysUnmmapAndFree hok⟩
  | sysAsCreate => exact absurd hsrc (by simp [PageOp.source])
  | sysAsMap _ hcall => exact ⟨rfl, rfl, h.performed_sysAsMap hcall⟩
  | sysMapMmio hr hcall => exact ⟨rfl, rfl, h.performed_sysMapMmio hr hcall⟩
  | kvmmapAt hr hcall =>
    exact ⟨rfl, rfl, h.tables.kvmmapAt_performs (h.frame_mem hr) hcall .kvmmapAt
      fun f hf => by cases hf⟩
  | kvmunmapAt hr =>
    exact ⟨rfl, rfl, kind, h.tables.kvmunmapAt (h.frame_mem hr) .kvmunmapAt fun f hf => by cases hf⟩
  | mapPage hr h1 hcall => exact ⟨rfl, rfl, h.performed_mapPage hr h1 hcall⟩
  | @take f hf =>
    refine ⟨rfl, rfl, kind, h.tables.congr (fun _ _ _ _ => rfl) hused, .of_same rfl
      (fun _ _ _ _ => rfl) fun g hg => .inl ?_⟩
    have htest : (s.vmm.pmm.bitmap.clear f).test g = true := hg.1
    rw [Bitmap.test_clear, Bool.and_eq_true, decide_eq_true_eq] at htest
    exact ⟨⟨htest.1, hg.2⟩, fun hc => by cases hc; exact htest.2 rfl⟩
  | give hf hcall =>
    have hmem := kpfree_mem hcall
    refine ⟨rfl, rfl, kind, h.tables.congr (fun _ _ _ _ => by rw [hmem]) hused, .of_same ?_
      (fun _ _ _ _ => by rw [hmem]) fun g hg => ?_⟩
    · obtain ⟨-, rfl⟩ | ⟨-, -, -, -, rfl⟩ := kpfree_cases hcall <;> rfl
    · rcases kpfree_allocatable hcall hg with hg | rfl
      · exact .inl ⟨hg, fun hc => by cases hc⟩
      · exact .inr .give
  | @store f i b hi =>
    have hsame : ∀ g, kind g ≠ none → ∀ j < 512,
        (s.vmm.mem.store (f * 4096 + i) b).entry g j = s.vmm.mem.entry g j := by
      intro g hg j hj
      apply entry_store _ hi hj
      rintro rfl
      exact hok.2 _ _ _ rfl (h.isTable hg)
    exact ⟨rfl, rfl, kind, h.tables.congr hsame hused, .of_same rfl hsame
      fun g hg => .inl ⟨hg, fun hc => by cases hc⟩⟩

end performed

/-! ## Steps that create an address space -/

/-- A step that copies `cr3` changes no table and no root, or it makes a new address space. -/
theorem Inv.created (h : Inv own s kind) (hown : Splits own) {op : PageOp} (hstep : Step s op s')
    {cr3 : Word} (hsrc : op.source = some cr3) (hok : SparesTables s op) :
    cr3 ∈ s.roots ∧
      ((s'.roots = s.roots ∧ s'.addrspaces = s.addrspaces ∧
          Tables own s'.vmm kind (s.roots.map Pte.frame) ∧
          Edits s.vmm kind s'.vmm kind fun _ _ => False) ∨
        ∃ new, Built s.vmm s'.vmm (s.vmm.source cr3) new ∧
          s'.roots = Pte.ofFrame new.pml4 :: s.roots ∧
          ∀ as ∈ s'.addrspaces, as ∈ s.addrspaces ∨ as.cr3 = Pte.ofFrame new.pml4) := by
  have hused : ∀ f, kind f ≠ none → s'.vmm.pmm.bitmap.test f = false := fun f hf =>
    hok.1 s' hstep f (h.isTable hf)
  cases hstep with
  | call hcall =>
    cases hcall with
    | @kvmmCreateUserPml4 cr3' pml4 w hr hcall =>
      obtain rfl : cr3' = cr3 := Option.some.inj hsrc
      refine ⟨hr, ?_⟩
      obtain ⟨rfl, ht, he⟩ | ⟨new, hne, rfl, hb⟩ :=
        h.tables.kvmmCreateUserPml4 (h.sourceKinds hown hr) hcall hused
      · exact .inl ⟨by simp, rfl, ht, he⟩
      · exact .inr ⟨new, hb, by dsimp only; rw [if_neg hne], fun as has => .inl has⟩
    | _ => exact absurd hsrc (by simp [PageOp.source])
  | @sysAsCreate cr3' pml4 w hr hcall =>
    obtain rfl : cr3' = cr3 := Option.some.inj hsrc
    refine ⟨hr, ?_⟩
    have hused' : ∀ f, kind f ≠ none → w.pmm.bitmap.test f = false := by
      intro f hf
      have := hused f hf
      split_ifs at this <;> exact this
    obtain ⟨rfl, ht, he⟩ | ⟨new, hne, rfl, hb⟩ :=
      h.tables.kvmmCreateUserPml4 (h.sourceKinds hown hr) hcall hused'
    · rw [if_pos rfl]
      exact .inl ⟨rfl, rfl, ht, he⟩
    · rw [if_neg hne]
      refine .inr ⟨new, hb, rfl, fun as has => ?_⟩
      rcases List.mem_append.mp has with has | has
      · exact .inl has
      · exact .inr (by rw [List.mem_singleton.mp has])
  | _ => exact absurd hsrc (by simp [PageOp.source])

/-- The step frees no table, stores to none, and copies no table that `own` picks but those
that `kvmm_create_user_pml4` makes anew. -/
def Spares (own : List ℕ → Bool) (s : PageState) (op : PageOp) : Prop :=
  SparesTables s op ∧ ∀ cr3 ∈ op.source, Unshared own s.vmm cr3

theorem Inv.step (h : Inv own s kind) (hown : Splits own) {op : PageOp} (hok : Spares own s op)
    (hstep : Step s op s') : ∃ kind', Inv own s' kind' := by
  cases hsrc : op.source with
  | none =>
    obtain ⟨hroots, hspaces, kind', ht, hp⟩ := h.performed hstep hsrc hok.1
    exact ⟨kind', (h.edit hown ht hp.toEdits).congr rfl hroots hspaces⟩
  | some cr3 =>
    obtain ⟨hr, ⟨hroots, hspaces, ht, he⟩ | ⟨new, hb, hroots, hspaces⟩⟩ :=
      h.created hown hstep hsrc hok.1
    · exact ⟨kind, (h.edit hown ht he).congr rfl hroots hspaces⟩
    · exact ⟨_, h.create hown hr (hok.2 cr3 hsrc) hb rfl hroots hspaces⟩

theorem inv_init (hown : Splits own) (h : pageSystem.init s) : ∃ kind, Inv own s kind := by
  obtain ⟨v, cr3, hboot, hinit, hroots, hspaces, -⟩ := h
  obtain ⟨⟨kind, ht⟩, hp4, hp3, -⟩ := hboot.tables hown hinit
  refine ⟨kind, ?_, ?_, ?_, ?_, ?_⟩
  · rw [hroots]
    exact ht
  all_goals rw [hroots]
  · intro r hr
    rw [List.mem_singleton.mp hr]
    exact hboot.aligned
  · intro r hr
    rw [List.mem_singleton.mp hr]
    exact hp4
  · intro r hr
    rw [List.mem_singleton.mp hr]
    exact hp3
  · rw [hspaces]
    simp

/-- In every run that spares the tables they are a forest. -/
theorem inv_of_reachable (hown : Splits own) (h : (pageSystem.restrict (Spares own)).Reachable s) :
    ∃ kind, Inv own s kind := by
  have hinit : ∀ s, (pageSystem.restrict (Spares own)).init s → ∃ kind, Inv own s kind :=
    fun _ hs => inv_init hown hs
  refine h.invariant hinit ?_
  rintro s op s' ⟨kind, hinv⟩ ⟨hok, hstep⟩
  exact hinv.step hown hok hstep

end inv

end PageState

end Nyvela
