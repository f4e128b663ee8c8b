import Nyvela.VmmCreate
import Nyvela.VmmInit

/-!
# The kernel's direct map

The kernel reaches page tables, heap pages and stacks at their physical
addresses, in whatever address space it was entered. That is right as long as no
address space maps the address of a frame elsewhere.
-/

namespace Nyvela

/-- Frames that the allocators may ever hand out. -/
def Pmm.pool (p : Pmm) : Set ℕ :=
  {f | p.firstPage ≤ f ∧ f < p.frameCount ∧ ¬(0x400000 ≤ f * 4096 ∧ f * 4096 < 0x600000)}

/-- The frames of the page tables for the first gigabyte. -/
def Vmm.tableFrames (v : Vmm) (cr3 : Word) : List ℕ :=
  let pdpt := Pte.frame (v.mem.entry (Pte.frame cr3) 0)
  let pd := Pte.frame (v.mem.entry pdpt 0)
  [Pte.frame cr3, pdpt, pd] ++ (List.range 512).map fun i => Pte.frame (v.mem.entry pd i)

namespace VmState

/-- In every address space, every frame is where the kernel looks for it. -/
def IdentityMapped (s : VmState) : Prop :=
  ∀ r ∈ s.roots, ∀ f ∈ s.vmm.pmm.pool, s.vmm.translate r (Pte.ofFrame f) = some (f * 4096)

/-- No address space in use has a page table in frame `f`. -/
def NoTable (s : VmState) (f : ℕ) : Prop := ∀ r ∈ s.roots, f ∉ s.vmm.tableFrames r

/-- Calls that keep to the window `[0x400000, 0x600000)` which the allocators avoid, and free no
page table: not as a page of the caller, and not among the pages of the window that a
creation out of memory frees. -/
def Careful (s : VmState) : VmOp → Prop
  | .kvmmCreateUserPml4 cr3 => s.vmm.pmm.Plenty 517 ∨
      ∀ virt : Word, 0x400000 ≤ virt.toNat → virt.toNat < 0x600000 →
        ∀ a, s.vmm.translate cr3 virt = some a → s.NoTable (a / 4096)
  | .sysAllocPage cr3 => (s.vmm.userFindFreePage cr3).toNat < 0x600000
  | .sysMmap _ virt _ _ => s.vmm.userPageOk virt = true → virt.toNat < 0x600000
  | .sysUnmmap _ virt => s.vmm.userPageOk virt = true → virt.toNat < 0x600000
  | .sysFreePage cr3 virt | .sysUnmmapAndFree cr3 virt => s.vmm.userPageOk virt = true →
      virt.toNat < 0x600000 ∧ s.NoTable (Pte.frame (s.vmm.kgetPhysPageAddrAt cr3 virt))

/-! ## The invariant -/

/-- The tables are laid out, and nothing but tables has an owner. -/
structure Inv (s : VmState) (own : ℕ → Option Owner) (shared : ℕ → ℕ) (spaces : List Space) :
    Prop where
  layout : s.vmm.Layout own shared spaces
  root : ∀ r ∈ s.roots, ∃ sp ∈ spaces, Pte.frame r = sp.pml4
  space : ∀ sp ∈ spaces, ∃ r ∈ s.roots, Pte.frame r = sp.pml4
  tables : ∀ f, own f ≠ none → ∃ sp ∈ spaces,
    f = sp.pml4 ∨ f = sp.pdpt ∨ f = sp.pd ∨ ∃ i < 512, f = sp.pt shared i

def LaidOut (s : VmState) : Prop := ∃ own shared spaces, s.Inv own shared spaces

section inv

variable {s : VmState} {own : ℕ → Option Owner} {shared : ℕ → ℕ} {spaces : List Space}

theorem Inv.own_eq_none (h : s.Inv own shared spaces) {f : ℕ} (hf : s.NoTable f) :
    own f = none := by
  by_contra hown
  obtain ⟨sp, hsp, htab⟩ := h.tables f hown
  obtain ⟨r, hr, hpml4⟩ := h.space sp hsp
  apply hf r hr
  simp only [Vmm.tableFrames, hpml4, (h.layout.pml4e sp hsp).2, (h.layout.pdpte sp hsp).2,
    List.mem_append, List.mem_cons, List.not_mem_nil, or_false, List.mem_map, List.mem_range]
  rcases htab with h4 | h3 | h2 | ⟨i, hi, heq⟩
  · exact .inl (.inl h4)
  · exact .inl (.inr (.inl h3))
  · exact .inl (.inr (.inr h2))
  · exact .inr ⟨i, hi, by rw [(h.layout.pde sp hsp i hi).2, heq]⟩

theorem Inv.identityMapped (h : s.Inv own shared spaces) (hmem : s.vmm.pmm.frameCount ≤ 0x40000) :
    s.IdentityMapped := by
  rintro r hr f ⟨-, hlt, hout⟩
  obtain ⟨sp, hsp, hpml4⟩ := h.root r hr
  have hnat : (Pte.ofFrame f).toNat = f * 4096 := Pte.ofFrame_toNat (by omega)
  rw [h.layout.translate hsp hpml4 (by omega) (by omega), hnat]

/-- A step that leaves the roots and the owners as they are. -/
theorem Inv.setVmm (h : s.Inv own shared spaces) {v : Vmm} (hv : v.Layout own shared spaces) :
    (⟨v, s.roots⟩ : VmState).Inv own shared spaces where
  layout := hv
  root := h.root
  space := h.space
  tables := h.tables

/-! ## One lemma for each call -/

theorem Inv.kvmmCreateUserPml4 (h : s.Inv own shared spaces) {cr3 pml4 : Word} {v : Vmm}
    (hcr3 : cr3 ∈ s.roots) (hgood : s.Careful (.kvmmCreateUserPml4 cr3))
    (hv : s.vmm.kvmmCreateUserPml4 cr3 = some (pml4, v)) :
    ∃ own spaces, (⟨v, if pml4 = 0 then s.roots else pml4 :: s.roots⟩ : VmState).Inv own shared
      spaces := by
  obtain ⟨sp, hsp, hpml4⟩ := h.root cr3 hcr3
  have hens := Vmm.createUserPml4_ensures h.layout hsp hpml4
  unfold Vmm.kvmmCreateUserPml4 at hv
  cases hcall : s.vmm.createUserPml4 cr3 with
  | error c =>
    obtain ⟨hscarce, hundone⟩ := hens.of_error c hcall
    rw [hcall] at hv
    obtain ⟨w, rfl, heq⟩ := Option.map_eq_some_iff.mp hv
    obtain ⟨rfl, rfl⟩ := Prod.mk.inj heq
    refine ⟨own, spaces, ?_⟩
    rw [if_pos rfl]
    refine h.setVmm ((hundone w rfl).layout h.layout ?_)
    -- a page of the window that is freed is no table
    rintro f hf ⟨i, hi, hp, rfl⟩
    refine hf (h.own_eq_none ?_)
    obtain ⟨hnat, -, -⟩ := Vmm.ofFrame_window hi
    have htrans := h.layout.translate_window hsp hpml4 hi hp
    have hno := (hgood.resolve_left hscarce) _ (by omega) (by omega) _ htrans
    rwa [Nat.mul_div_cancel _ (by decide)] at hno
  | ok r =>
    obtain ⟨new, page, made, hr, hc⟩ := hens.of_ok r hcall
    rw [hcall] at hv
    obtain ⟨rfl⟩ := Option.some.inj hv
    simp only at hr hc
    subst hr
    have hlt : new.pml4 < 2 ^ 52 := hc.ext.lt (by simp)
    have hne : Pte.ofFrame new.pml4 ≠ 0 :=
      Pmm.physOf_ne_zero hlt (s.vmm.pmm.firstPage_pos.trans_le hc.first.1.2.1)
    refine ⟨Vmm.createdOwner own new made none, new :: spaces, ?_⟩
    rw [if_neg hne]
    constructor
    case layout => exact hc.layout h.layout hsp none
    case root =>
      refine List.forall_mem_cons.mpr ⟨⟨new, List.mem_cons_self, Pte.frame_ofFrame hlt⟩, ?_⟩
      intro r hr
      obtain ⟨sp', hsp', heq⟩ := h.root r hr
      exact ⟨sp', List.mem_cons_of_mem _ hsp', heq⟩
    case space =>
      refine List.forall_mem_cons.mpr ⟨⟨_, List.mem_cons_self, Pte.frame_ofFrame hlt⟩, ?_⟩
      intro sp' hsp'
      obtain ⟨r, hr, heq⟩ := h.space sp' hsp'
      exact ⟨r, List.mem_cons_of_mem _ hr, heq⟩
    case tables =>
      intro f hf
      unfold Vmm.createdOwner at hf
      split_ifs at hf with h4 h3 h2 ht2 ht3 hmade
      · exact ⟨new, List.mem_cons_self, .inl h4⟩
      · exact ⟨new, List.mem_cons_self, .inr (.inl h3)⟩
      · exact ⟨new, List.mem_cons_self, .inr (.inr (.inl h2))⟩
      · exact ⟨new, List.mem_cons_self, .inr (.inr (.inr ⟨2, by decide, ht2⟩))⟩
      · exact ⟨new, List.mem_cons_self, .inr (.inr (.inr ⟨3, by decide, ht3⟩))⟩
      · exact absurd rfl hf
      · obtain ⟨sp', hsp', htab⟩ := h.tables f hf
        exact ⟨sp', List.mem_cons_of_mem _ hsp', htab⟩

theorem Inv.sysAllocPage (h : s.Inv own shared spaces) {cr3 r : Word} {v : Vmm}
    (hcr3 : cr3 ∈ s.roots) (hgood : s.Careful (.sysAllocPage cr3))
    (hv : s.vmm.sysAllocPage cr3 = some (r, v)) : v.Layout own shared spaces := by
  obtain ⟨sp, hsp, hpml4⟩ := h.root cr3 hcr3
  simp only [Vmm.sysAllocPage] at hv
  split_ifs at hv with h0 h1
  · obtain ⟨-, rfl⟩ := Prod.mk.inj (Option.some.inj hv)
    exact h.layout
  · obtain ⟨-, rfl⟩ := Prod.mk.inj (Option.some.inj hv)
    exact h.layout.kpalloc
  · have hlow := (Vmm.userFindFreePage_bounds h0).1
    have hhigh : (s.vmm.userFindFreePage cr3).toNat < 0x600000 := hgood
    obtain ⟨w, hw, heq⟩ := Option.map_eq_some_iff.mp hv
    obtain ⟨-, rfl⟩ := Prod.mk.inj heq
    obtain ⟨w', hw', hlayout, -⟩ := h.layout.kpalloc.kvmmapAt hsp hpml4
      (show (s.vmm.userFindFreePage cr3).toNat / 2 ^ 21 = 2 by omega) s.vmm.kpalloc.1 0x07
    obtain rfl := Option.some.inj (hw'.symm.trans hw)
    exact hlayout

theorem Inv.sysMmap (h : s.Inv own shared spaces) {cr3 virt phys flags r : Word} {v : Vmm}
    (hcr3 : cr3 ∈ s.roots) (hgood : s.Careful (.sysMmap cr3 virt phys flags))
    (hv : s.vmm.sysMmap cr3 virt phys flags = some (r, v)) : v.Layout own shared spaces := by
  obtain ⟨sp, hsp, hpml4⟩ := h.root cr3 hcr3
  unfold Vmm.sysMmap at hv
  split_ifs at hv with h0 h1
  · obtain ⟨-, rfl⟩ := Prod.mk.inj (Option.some.inj hv)
    exact h.layout
  · obtain ⟨-, rfl⟩ := Prod.mk.inj (Option.some.inj hv)
    exact h.layout
  · have hok : s.vmm.userPageOk virt = true := by simpa using h1
    have hlow := (Vmm.userPageOk_bounds hok).1
    have hhigh : virt.toNat < 0x600000 := hgood hok
    obtain ⟨w, hw, heq⟩ := Option.map_eq_some_iff.mp hv
    obtain ⟨-, rfl⟩ := Prod.mk.inj heq
    obtain ⟨w', hw', hlayout, -⟩ := h.layout.kvmmapAt hsp hpml4
      (show virt.toNat / 2 ^ 21 = 2 by omega) phys (flags &&& 0x07)
    obtain rfl := Option.some.inj (hw'.symm.trans hw)
    exact hlayout

theorem Inv.sysUnmmap (h : s.Inv own shared spaces) {cr3 virt : Word} (hcr3 : cr3 ∈ s.roots)
    (hgood : s.Careful (.sysUnmmap cr3 virt)) :
    (s.vmm.sysUnmmap cr3 virt).2.Layout own shared spaces := by
  obtain ⟨sp, hsp, hpml4⟩ := h.root cr3 hcr3
  unfold Vmm.sysUnmmap
  split_ifs with h0
  · exact h.layout
  · have hok : s.vmm.userPageOk virt = true := by simpa using (not_or.mp h0).2
    have hlow := (Vmm.userPageOk_bounds hok).1
    have hhigh : virt.toNat < 0x600000 := hgood hok
    exact h.layout.kvmunmapAt hsp hpml4 (by omega)

/-- The two calls that free a page of the caller. -/
theorem Inv.unmapAndFreeUserPage (h : s.Inv own shared spaces) {cr3 virt r : Word} {v : Vmm}
    (hcr3 : cr3 ∈ s.roots) (hgood : s.Careful (.sysFreePage cr3 virt))
    (hv : s.vmm.unmapAndFreeUserPage cr3 virt = some (r, v)) : v.Layout own shared spaces := by
  obtain ⟨sp, hsp, hpml4⟩ := h.root cr3 hcr3
  unfold Vmm.unmapAndFreeUserPage at hv
  split_ifs at hv with h0
  · obtain ⟨-, rfl⟩ := Prod.mk.inj (Option.some.inj hv)
    exact h.layout
  · have hok : s.vmm.userPageOk virt = true := by simpa using (not_or.mp h0).2
    have hlow := (Vmm.userPageOk_bounds hok).1
    obtain ⟨hhigh, hno⟩ := hgood hok
    have hwin : virt.toNat / 2 ^ 21 = 2 := by omega
    obtain ⟨⟨b, w⟩, hw, heq⟩ := Option.map_eq_some_iff.mp hv
    obtain ⟨-, rfl⟩ := Prod.mk.inj heq
    apply h.layout.kvmunmapAndFreeAt hsp hpml4 hwin hw
    intro _
    apply h.own_eq_none
    simpa only [Vmm.kgetPhysPageAddrAt, h.layout.kgetPteAddrAt_window hsp hpml4 hwin,
      Pte.frame_addr] using hno

theorem Inv.step (h : s.Inv own shared spaces) {a : VmOp} {s' : VmState} (hgood : s.Careful a)
    (hs : VmState.Step s a s') : s'.LaidOut := by
  cases hs with
  | kvmmCreateUserPml4 hcr3 hv =>
    obtain ⟨own', spaces', h'⟩ := h.kvmmCreateUserPml4 hcr3 hgood hv
    exact ⟨own', shared, spaces', h'⟩
  | sysAllocPage hcr3 hv => exact ⟨own, shared, spaces, h.setVmm (h.sysAllocPage hcr3 hgood hv)⟩
  | sysMmap hcr3 hv => exact ⟨own, shared, spaces, h.setVmm (h.sysMmap hcr3 hgood hv)⟩
  | sysUnmmap hcr3 => exact ⟨own, shared, spaces, h.setVmm (h.sysUnmmap hcr3 hgood)⟩
  | sysFreePage hcr3 hv =>
    exact ⟨own, shared, spaces, h.setVmm (h.unmapAndFreeUserPage hcr3 hgood hv)⟩
  | sysUnmmapAndFree hcr3 hv =>
    exact ⟨own, shared, spaces, h.setVmm (h.unmapAndFreeUserPage hcr3 hgood hv)⟩

theorem laidOut_init (s : VmState) (h : (vmSystem.restrict Careful).init s) : s.LaidOut := by
  obtain ⟨v, cr3, hb, hv, hroots⟩ := h
  obtain ⟨pts, -, hlayout⟩ := Vmm.layout_of_kvmmInit hb hv
  refine ⟨_, pts, _, hlayout, ?_, ?_, ?_⟩
  · rw [hroots]
    simp only [List.mem_singleton, forall_eq, exists_eq_left]
    rfl
  · rw [hroots]
    simp only [List.mem_singleton, forall_eq, exists_eq_left]
    rfl
  · intro f hf
    refine ⟨_, List.mem_singleton_self _, ?_⟩
    rcases Vmm.bootOwner_ne_none hf with h4 | h3 | h2 | ⟨i, hi, heq⟩
    · exact .inl h4
    · exact .inr (.inl h3)
    · exact .inr (.inr (.inl h2))
    · exact .inr (.inr (.inr ⟨i, hi, heq.trans (Vmm.bootSpace_pt v cr3 pts i).symm⟩))

theorem laidOut_step (s : VmState) (a : VmOp) (s' : VmState) (h : s.LaidOut)
    (hs : (vmSystem.restrict Careful).step s a s') : s'.LaidOut := by
  obtain ⟨own, shared, spaces, hinv⟩ := h
  exact hinv.step hs.1 hs.2

end inv

end VmState

/-! ## A machine with 16 MiB -/

/-- The boot loader's tables are at `0x9000`, `0xA000` and `0xB000`. -/
def Vmm.sixteenMiB : Vmm where
  pmm := Pmm.sixteenMiB
  mem := (Memory.setEntry (fun _ => 0) 9 0 0xA003).setEntry 0xA 0 0xB003
  codePageCount := 1
  mmapEntries := [⟨0x100000, 0xF00000, true⟩]

theorem Vmm.sixteenMiB_booted : Vmm.sixteenMiB.Booted 0x9000 := by
  have h9 : Vmm.sixteenMiB.mem.entry 9 0 = 0xA003 := by
    rw [Vmm.sixteenMiB, Memory.entry_setEntry _ _ (by decide) (by decide), if_neg (by decide),
      Memory.entry_setEntry _ _ (by decide) (by decide), if_pos (by decide)]
  have hA : Vmm.sixteenMiB.mem.entry 0xA 0 = 0xB003 := by
    rw [Vmm.sixteenMiB, Memory.entry_setEntry _ _ (by decide) (by decide), if_pos (by decide)]
  have hcr3 : Pte.frame 0x9000 = 9 := by decide
  have hpdpt : Pte.frame 0xA003 = 0xA := by decide
  have hpd : Pte.frame 0xB003 = 0xB := by decide
  have hreserved : ∀ f < Vmm.sixteenMiB.pmm.firstPage, Vmm.sixteenMiB.pmm.bitmap.test f = false := by
    intro f hf
    have hlt : f < 0x200 := hf
    exact (Pmm.sixteenMiB_test f).trans (decide_eq_false (by omega))
  constructor
  case aligned => decide
  case pml4e => rw [hcr3, h9]; decide
  case pdpte => rw [hcr3, h9, hpdpt, hA]; decide
  case distinct => rw [hcr3, h9, hpdpt, hA, hpd]; decide
  case below =>
    rw [hcr3, h9, hpdpt, hA, hpd]
    decide
  case reserved => exact hreserved

/-- The 512 tables fill the frames below the window. -/
theorem Vmm.sixteenMiB_kvmmInit : ∃ w pts, Vmm.sixteenMiB.kvmmInit 0x9000 = (true, w) ∧
    Vmm.Filled Vmm.sixteenMiB w (Vmm.sixteenMiB.bootSpace 0x9000 pts).pd 512 pts ∧
    w.Layout (Vmm.bootOwner (Vmm.sixteenMiB.bootSpace 0x9000 pts) pts) pts
      [Vmm.sixteenMiB.bootSpace 0x9000 pts] ∧
    w.pmm.allocatable = {f | 0x600 ≤ f ∧ f < 0x1000} := by
  have hpd : Vmm.sixteenMiB.pmm.bitmap.test (Vmm.sixteenMiB.bootSpace 0x9000 id).pd = false :=
    Vmm.sixteenMiB_booted.used id (.inr (.inr rfl))
  have hplenty : Vmm.sixteenMiB.pmm.Plenty 512 := by
    refine ⟨List.range' 0x200 0x200, List.nodup_range', by simp, fun f hf => ?_⟩
    have hset : Vmm.sixteenMiB.pmm.allocatable = _ := Pmm.sixteenMiB_allocatable
    rw [hset]
    rw [List.mem_range'_1] at hf
    exact .inl hf
  obtain ⟨w, hw⟩ := Vmm.initTables_of_plenty hpd hplenty le_rfl
  obtain ⟨pts, hpts, hlayout⟩ := Vmm.layout_of_kvmmInit Vmm.sixteenMiB_booted hw
  refine ⟨w, pts, hw, hpts, hlayout, ?_⟩
  have halloc : Vmm.sixteenMiB.pmm.allocatable = _ := Pmm.sixteenMiB_allocatable
  -- `kpalloc` takes the lowest frame each time
  have hpt : ∀ i, i < 512 → pts i = 0x200 + i := by
    intro i
    induction i using Nat.strong_induction_on with
    | _ i ih =>
      intro hi
      have hleast := hpts.least i hi
      rw [halloc] at hleast
      apply hleast.unique
      constructor
      · refine ⟨.inl (by omega), fun k hk => ?_⟩
        rw [ih k hk (by omega)]
        omega
      · rintro f ⟨hf, hne⟩
        by_contra hlt
        have hmem : 0x200 ≤ f ∧ f < 0x200 + i := by
          rcases hf with hf | hf <;> omega
        apply hne (f - 0x200) (by omega)
        rw [ih (f - 0x200) (by omega) (by omega)]
        omega
  rw [hpts.allocatable, halloc]
  ext f
  constructor
  · rintro ⟨hf | hf, hne⟩
    · exact absurd (by rw [hpt (f - 0x200) (by omega)]; omega) (hne (f - 0x200) (by omega))
    · exact hf
  · rintro ⟨hlow, hhigh⟩
    refine ⟨.inr ⟨hlow, hhigh⟩, fun k hk => ?_⟩
    rw [hpt k hk]
    omega

/-- The first address space that `kvmm_create_user_pml4` makes there has its PML4 at
`0x600000`. -/
theorem VmState.sixteenMiB_created : ∃ (s : VmState) (own : ℕ → Option Owner) (shared : ℕ → ℕ)
    (sp : Space) (spaces : List Space), (vmSystem.restrict Careful).Reachable s ∧
      0x600000 ∈ s.roots ∧ s.vmm.Layout own shared (sp :: spaces) ∧ sp.pml4 = 0x600 ∧
      s.vmm.pmm.frameCount = 0x1000 ∧ s.vmm.pmm.kernelEnd = 0x200000 ∧ s.vmm.codePageCount = 1 := by
  obtain ⟨w, pts, hw, hfill, hlayout, halloc⟩ := Vmm.sixteenMiB_kvmmInit
  have hinit : (vmSystem.restrict Careful).Reachable ⟨w, [0x9000]⟩ :=
    .init ⟨_, _, Vmm.sixteenMiB_booted, hw, rfl⟩
  have hplenty : w.pmm.Plenty 517 := by
    refine ⟨List.range' 0x600 0xA00, List.nodup_range', by simp, fun f hf => ?_⟩
    rw [halloc]
    rw [List.mem_range'_1] at hf
    exact hf
  have hens := Vmm.createUserPml4_ensures hlayout (List.mem_singleton_self _)
    (show Pte.frame 0x9000 = _ from rfl)
  cases hcall : w.createUserPml4 0x9000 with
  | error c => exact absurd hplenty (hens.of_error c hcall).1
  | ok r =>
    obtain ⟨new, page, made, hr, hc⟩ := hens.of_ok r hcall
    have hpml4 : new.pml4 = 0x600 := by
      have hfirst := hc.first
      rw [halloc] at hfirst
      exact hfirst.unique ⟨⟨le_rfl, by decide⟩, fun f hf => hf.1⟩
    rw [hpml4] at hr
    have hcreate : w.kvmmCreateUserPml4 0x9000 = some (0x600000, r.2) := by
      simp only [Vmm.kvmmCreateUserPml4, hcall, Option.some.injEq]
      exact Prod.ext hr rfl
    have hgood : (⟨w, [0x9000]⟩ : VmState).Careful (.kvmmCreateUserPml4 0x9000) := Or.inl hplenty
    refine ⟨_, _, pts, new, _, hinit.step ⟨hgood, .kvmmCreateUserPml4
      (List.mem_singleton_self _) hcreate⟩, ?_, hc.layout hlayout (List.mem_singleton_self _) none,
      hpml4, ?_, ?_, ?_⟩
    · simp
    · exact hc.ext.frameCount.trans hfill.frameCount
    · exact hc.ext.kernelEnd.trans hfill.kernelEnd
    · exact hc.ext.codePageCount.trans hfill.codePageCount

namespace VmState

/-- In every run of careful calls on a machine with at most 1 GiB, the kernel's direct map
holds in every state. -/
theorem identity_map_of_careful {s : VmState}
    (h : (vmSystem.restrict Careful).Reachable s)
    (hmem : s.vmm.pmm.frameCount ≤ 0x40000) : s.IdentityMapped := by
  obtain ⟨own, shared, spaces, hs⟩ := h.invariant laidOut_init laidOut_step
  exact hs.identityMapped hmem

theorem identity_map_of_careful_created : ∃ s : VmState,
    (vmSystem.restrict Careful).Reachable s ∧ s.vmm.pmm.frameCount ≤ 0x40000 ∧
      0x600000 ∈ s.roots ∧ s.IdentityMapped := by
  obtain ⟨s, own, shared, sp, spaces, hreach, hroot, -, -, hcount, -⟩ := sixteenMiB_created
  have hmem : s.vmm.pmm.frameCount ≤ 0x40000 := by rw [hcount]; decide
  exact ⟨s, hreach, hmem, hroot, identity_map_of_careful hreach hmem⟩

/-- A process may unmap the address `0x600000`, where the kernel has the process's PML4. -/
theorem identity_map_broken : ∃ s : VmState, vmSystem.Reachable s ∧
    s.vmm.pmm.frameCount ≤ 0x40000 ∧ 0x600000 ∈ s.roots ∧ 0x600 ∈ s.vmm.pmm.pool ∧
      s.vmm.translate 0x600000 0x600000 = none ∧ ¬s.IdentityMapped := by
  obtain ⟨s, own, shared, sp, spaces, hreach, hroot, hlayout, hpml4, hcount, hend, hcode⟩ :=
    sixteenMiB_created
  have hsp : sp ∈ sp :: spaces := List.mem_cons_self
  have hcr3 : Pte.frame 0x600000 = sp.pml4 := by rw [hpml4]; decide
  have hok : s.vmm.userPageOk 0x600000 = true := by
    simp only [Vmm.userPageOk, Vmm.isSharedUserPage, hcode]
    decide
  have hwalk : s.vmm.kgetPteAddrAt 0x600000 0x600000 = some (sp.pt3, 0) :=
    hlayout.kgetPteAddrAt hsp hcr3 (by decide)
  have hcall : (s.vmm.sysUnmmap 0x600000 0x600000).2 = s.vmm.setEntry sp.pt3 0 0 := by
    have hp : Pte.present (s.vmm.mem.entry sp.pt3 0) = true := (hlayout.pt3e hsp (by decide)).1
    simp only [Vmm.sysUnmmap, hok, Vmm.kvmunmapAt, hwalk, hp]
    rfl
  have hnone : (s.vmm.setEntry sp.pt3 0 0).translate 0x600000 0x600000 = none := by
    have hwalk' : (s.vmm.setEntry sp.pt3 0 0).kgetPteAddrAt 0x600000 0x600000 = some (sp.pt3, 0) :=
      hlayout.kgetPteAddrAt_setEntry hsp hcr3 (by decide) (by decide) (hlayout.upper_ne_pt3 hsp) 0
    have hentry : (s.vmm.setEntry sp.pt3 0 0).mem.entry sp.pt3 0 = 0 := by
      rw [Vmm.setEntry_entry _ _ (by decide) (by decide), if_pos ⟨rfl, rfl⟩]
    simp only [Vmm.translate, hwalk', hentry]
    decide
  have hpool : 0x600 ∈ s.vmm.pmm.pool := by
    refine ⟨?_, by rw [hcount]; decide, by decide⟩
    rw [Pmm.firstPage, hend]
    decide
  have hmem : s.vmm.pmm.frameCount ≤ 0x40000 := by rw [hcount]; decide
  have hstep : vmSystem.Reachable ⟨s.vmm.setEntry sp.pt3 0 0, s.roots⟩ := by
    rw [← hcall]
    exact hreach.of_restrict.step (.sysUnmmap hroot)
  refine ⟨_, hstep, hmem, hroot, hpool, hnone, fun hid => ?_⟩
  have hsome := hid 0x600000 hroot 0x600 hpool
  rw [show Pte.ofFrame 0x600 = 0x600000 from rfl, hnone] at hsome
  exact absurd hsome (by simp)

end VmState

end Nyvela
