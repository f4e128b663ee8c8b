import Mathlib.Data.Nat.Find
import Nyvela.IdentityMap
import Nyvela.PageInvariant

/-!
# Calls that succeed

Mapping a page and creating an address space only take frames, and they return when there
are enough of them.
-/

namespace Nyvela.Vmm

open PageTree

section progress

variable {v w u : Vmm} {taken : List ℕ} {n : ℕ}

theorem Took.trans {taken' : List ℕ} (h : Took v w taken) (h' : Took w u taken') :
    Took v u (taken' ++ taken) := by
  have hnew : ∀ f ∈ taken', f ∈ v.pmm.allocatable ∧ f ∉ taken := by
    intro f hf
    have hmem := h'.fresh f hf
    have htest : (v.pmm.bitmap.test f && decide (f ∉ taken)) = true := (h.test f).symm.trans hmem.1
    rw [Bool.and_eq_true, decide_eq_true_eq] at htest
    refine ⟨⟨htest.1, ?_, ?_, hmem.2.2.2⟩, htest.2⟩
    · have := hmem.2.1
      rwa [Pmm.firstPage, h.kernelEnd] at this
    · exact h.frameCount ▸ hmem.2.2.1
  constructor
  case frameCount => exact h'.frameCount.trans h.frameCount
  case kernelEnd => exact h'.kernelEnd.trans h.kernelEnd
  case codePageCount => exact h'.codePageCount.trans h.codePageCount
  case mmapEntries => exact h'.mmapEntries.trans h.mmapEntries
  case fresh =>
    intro f hf
    rcases List.mem_append.mp hf with hf | hf
    · exact (hnew f hf).1
    · exact h.fresh f hf
  case nodup =>
    refine List.Nodup.append h'.nodup h.nodup fun f hf hf' => (hnew f hf).2 hf'
  case test =>
    intro f
    rw [h'.test, h.test]
    simp only [List.mem_append, not_or, Bool.decide_and, Bool.and_assoc]
    rw [Bool.and_comm (decide (f ∉ taken))]

/-- Frames that are left. -/
theorem Took.plenty (h : Took v w taken) (hp : v.pmm.Plenty (n + taken.length)) :
    w.pmm.Plenty n := by
  obtain ⟨l, hnodup, hlen, hl⟩ := hp
  refine ⟨l.filter fun f => f ∉ taken, hnodup.filter _, ?_, fun f hf => ?_⟩
  · have hsplit := List.length_eq_length_filter_add (l := l) fun f => f ∈ taken
    have hle : (l.filter fun f => f ∈ taken).length ≤ taken.length := by
      refine (List.subperm_of_subset (hnodup.filter _) fun f hf => ?_).length_le
      simpa using (List.mem_filter.mp hf).2
    simp only [decide_not] at hsplit ⊢
    omega
  · rw [List.mem_filter, decide_eq_true_eq] at hf
    exact h.mem_allocatable (hl f hf.1) hf.2

theorem took_nil (v : Vmm) : Took v v [] := (Ext.refl v).toTook

theorem kpalloc_ne_zero (h : v.pmm.Plenty 1) : v.kpalloc.1 ≠ 0 := by
  intro h0
  obtain ⟨l, -, hlen, hl⟩ := h
  obtain ⟨f, hf⟩ := List.exists_mem_of_length_pos hlen
  exact Pmm.kpalloc_eq_null h0 f (hl f hf)

/-- One level of `kvmmap_at` takes at most one frame. -/
theorem ensureTable_took {t i t' : ℕ} {flags : Word} (h : v.ensureTable t i flags = some (t', w)) :
    ∃ taken, Took v w taken ∧ taken.length ≤ 1 := by
  simp only [ensureTable] at h
  split_ifs at h with hp h0
  · obtain ⟨-, rfl⟩ := Prod.mk.inj (Option.some.inj h)
    exact ⟨[], took_nil v, by simp⟩
  · obtain ⟨-, rfl⟩ := Prod.mk.inj (Option.some.inj h)
    obtain ⟨f, -, -, -, htook⟩ := (took_nil v).kpalloc h0
    exact ⟨[f], (htook.setMem _).setMem _, by simp⟩

theorem exists_ensureTable (h : v.pmm.Plenty 1) (t i : ℕ) (flags : Word) :
    ∃ x, v.ensureTable t i flags = some x := by
  simp only [ensureTable]
  split_ifs with hp h0
  · exact ⟨_, rfl⟩
  · exact absurd h0 (kpalloc_ne_zero h)
  · exact ⟨_, rfl⟩

/-- `kvmmap_at` takes at most three frames. -/
theorem kvmmapAt_took {cr3 virt phys flags : Word} (h : v.kvmmapAt cr3 virt phys flags = some w) :
    ∃ taken, Took v w taken ∧ taken.length ≤ 3 := by
  simp only [kvmmapAt] at h
  obtain ⟨⟨t3, v1⟩, hv1, h⟩ := Option.bind_eq_some_iff.mp h
  obtain ⟨⟨t2, v2⟩, hv2, h⟩ := Option.bind_eq_some_iff.mp h
  obtain ⟨⟨t1, v3⟩, hv3, h⟩ := Option.bind_eq_some_iff.mp h
  obtain ⟨l1, ht1, hl1⟩ := ensureTable_took hv1
  obtain ⟨l2, ht2, hl2⟩ := ensureTable_took hv2
  obtain ⟨l3, ht3, hl3⟩ := ensureTable_took hv3
  refine ⟨l3 ++ (l2 ++ l1), ?_, by simp only [List.length_append]; omega⟩
  obtain rfl := Option.some.inj h
  have htook := (ht1.trans ht2).trans ht3
  split_ifs
  · exact (((htook.setMem _).setMem _).setMem _).setMem _
  · exact htook.setMem _

theorem Plenty.mono {p : Pmm} {m n : ℕ} (h : p.Plenty n) (hle : m ≤ n) : p.Plenty m := by
  obtain ⟨l, hnodup, hlen, hl⟩ := h
  exact ⟨l, hnodup, by omega, hl⟩

theorem exists_kvmmapAt (h : v.pmm.Plenty 3) (cr3 virt phys flags : Word) :
    ∃ w, v.kvmmapAt cr3 virt phys flags = some w := by
  simp only [kvmmapAt]
  obtain ⟨⟨t3, v1⟩, hv1⟩ := exists_ensureTable (Plenty.mono h (by decide)) (Pte.frame cr3)
    (Pte.pml4Index virt) (if Pte.user flags then 0x07 else 0x03)
  obtain ⟨l1, ht1, hl1⟩ := ensureTable_took hv1
  have hp1 : v1.pmm.Plenty 2 := ht1.plenty (Plenty.mono h (by omega))
  obtain ⟨⟨t2, v2⟩, hv2⟩ := exists_ensureTable (Plenty.mono hp1 (by decide)) t3
    (Pte.pdptIndex virt) (if Pte.user flags then 0x07 else 0x03)
  obtain ⟨l2, ht2, hl2⟩ := ensureTable_took hv2
  have hp2 : v2.pmm.Plenty 1 := ht2.plenty (Plenty.mono hp1 (by omega))
  obtain ⟨⟨t1, v3⟩, hv3⟩ := exists_ensureTable hp2 t2
    (Pte.pdIndex virt) (if Pte.user flags then 0x07 else 0x03)
  rw [hv1, Option.bind_some, hv2, Option.bind_some, hv3, Option.bind_some]
  exact ⟨_, rfl⟩

/-- Three tables, and for each half of the window a table and 512 pages. -/
theorem framesNeeded_le (v : Vmm) (sp : Space) : v.framesNeeded sp ≤ 1029 := by
  have hle : ∀ pd slot base, v.privateBefore pd slot base 512 ≤ 512 := fun pd slot base =>
    (List.countP_le_length).trans (by simp)
  have h2 := hle sp.pd 2 userCodeVirt
  have h3 := hle sp.pd 3 progStackTop
  simp only [framesNeeded, takenBefore, tablesBefore]
  split_ifs <;> omega

/-- A new address space is made. -/
theorem exists_built {cr3 : Word} (hintact : Intact v (v.source cr3))
    (h : v.pmm.Plenty (n + 1029)) : ∃ new w, Built v w (v.source cr3) new ∧
      v.kvmmCreateUserPml4 cr3 = some (Pte.ofFrame new.pml4, w) ∧ Pte.ofFrame new.pml4 ≠ 0 ∧
      w.pmm.Plenty n := by
  have hneed := framesNeeded_le v (v.source cr3)
  obtain ⟨new, w, hb, hcreate⟩ := exists_created hintact (Plenty.mono h (by omega))
  exact ⟨new, w, hb, hcreate, hb.root_ne_zero,
    hb.ext.toTook.plenty (Plenty.mono h (by rw [hb.length_eq]; omega))⟩

end progress

end Nyvela.Vmm

namespace Nyvela.PageState

open PageTree Vmm

section steps

variable {own : List ℕ → Bool} {s : PageState} {kind : ℕ → Option Kind} {n : ℕ}

/-- A step that only takes frames spares the tables. -/
theorem Inv.spares_of_took (h : Inv own s kind) {op : PageOp}
    (htook : ∀ s', Step s op s' → ∃ taken, Took s.vmm s'.vmm taken)
    (hstore : ∀ f i b, op ≠ .store f i b) : SparesTables s op := by
  refine ⟨fun s' hstep f hf => ?_, fun f i b hop => absurd hop (hstore f i b)⟩
  obtain ⟨taken, ht⟩ := htook s' hstep
  rw [ht.test, h.tables.used f (h.kind_ne_none hf), Bool.false_and]

/-- The root of a new address space is new. -/
theorem Inv.ne_of_built (h : Inv own s kind) {r : Word} (hr : r ∈ s.roots) {w : Vmm} {sp : Space}
    {new : NewSpace} (hb : Built s.vmm w sp new) : Pte.ofFrame new.pml4 ≠ r := by
  rintro rfl
  have hfree := (hb.ext.fresh new.pml4 (by simp [NewSpace.frames])).1
  have hused := h.tables.used _ (h.kind_ne_none ⟨_, hr, [], by simp, by simp, rfl⟩)
  rw [Pte.frame_ofFrame (hb.ext.lt (by simp [NewSpace.frames]))] at hused
  exact Bool.false_ne_true (hused.symm.trans hfree)

/-- The state with a new address space. -/
def addRoot (s : PageState) (w : Vmm) (r : Word) : PageState :=
  { s with vmm := w, roots := r :: s.roots }

/-- With enough frames a new address space can be made from any other. -/
theorem Inv.exists_create (h : Inv own s kind) (hown : Splits own) {cr3 : Word}
    (hr : cr3 ∈ s.roots) (hp : s.vmm.pmm.Plenty (n + 1029)) :
    ∃ new w, Built s.vmm w (s.vmm.source cr3) new ∧ w.pmm.Plenty n ∧
      SparesTables s (.call (.kvmmCreateUserPml4 cr3)) ∧
      Step s (.call (.kvmmCreateUserPml4 cr3)) (s.addRoot w (Pte.ofFrame new.pml4)) := by
  obtain ⟨new, w, hb, hcall, hne, hplenty⟩ :=
    exists_built (h.tables.intact (h.sourceKinds hown hr)) hp
  refine ⟨new, w, hb, hplenty, ?_, ?_⟩
  · refine h.spares_of_took (fun s' hstep => ⟨new.frames, ?_⟩) (by simp)
    cases hstep with
    | call hvm =>
      cases hvm with
      | kvmmCreateUserPml4 _ hcall' =>
        obtain ⟨-, rfl⟩ := Prod.mk.inj (Option.some.inj (hcall.symm.trans hcall'))
        exact hb.ext.toTook
  · have hstep := Step.call (s := s) (VmState.Step.kvmmCreateUserPml4 hr hcall)
    rwa [if_neg hne] at hstep

end steps

theorem sixteenMiB_bootTables : Vmm.sixteenMiB.BootTables 0x9000 := by
  have hentry : ∀ f i, i < 512 → Vmm.sixteenMiB.mem.entry f i =
      if f = 0xA ∧ i = 0 then 0xB003 else if f = 9 ∧ i = 0 then 0xA003 else 0 := by
    intro f i hi
    rw [Vmm.sixteenMiB, Memory.entry_setEntry _ _ (by decide) hi,
      Memory.entry_setEntry _ _ (by decide) hi]
    split_ifs <;> first | rfl | exact Memory.entry_zero _ _
  have hcr3 : Pte.frame 0x9000 = 9 := by decide
  have hpdpt : Pte.frame (Vmm.sixteenMiB.mem.entry 9 0) = 0xA := by
    rw [hentry _ _ (by decide)]
    decide
  refine ⟨Vmm.sixteenMiB_booted, fun i hi h0 => ?_, fun i hi h0 => ?_⟩
  · rw [hcr3, hentry _ _ hi, if_neg (by simp), if_neg (by simp [h0])]
    decide
  · rw [hcr3, hpdpt, hentry _ _ hi, if_neg (by simp [h0]), if_neg (by simp)]
    decide

/-- The machine with 16 MiB after `kvmm_init`. -/
structure Started (s : PageState) : Prop where
  init : pageSystem.init s
  roots : s.roots = [0x9000]
  addrspaces : s.addrspaces = []
  kernel : s.kernel = []
  allocatable : s.vmm.pmm.allocatable = {f | 0x600 ≤ f ∧ f < 0x1000}
  kernelEnd : s.vmm.pmm.kernelEnd = 0x200000
  frameCount : s.vmm.pmm.frameCount = 0x1000
  codePageCount : s.vmm.codePageCount = 1
  mmapEntries : s.vmm.mmapEntries = [⟨0x100000, 0xF00000, true⟩]
  pml4 : ∀ i < 512, i ≠ 0 → Pte.present (s.vmm.mem.entry (s.vmm.source 0x9000).pml4 i) = false
  pdpt : ∀ i < 512, i ≠ 0 → Pte.present (s.vmm.mem.entry (s.vmm.source 0x9000).pdpt i) = false

theorem exists_started {own : List ℕ → Bool} (hown : Splits own) : ∃ s : PageState, Started s := by
  obtain ⟨w, pts, hw, hfill, -, halloc⟩ := Vmm.sixteenMiB_kvmmInit
  obtain ⟨-, -, -, h4, h3⟩ := sixteenMiB_bootTables.tables hown hw
  refine ⟨⟨⟨w, [0x9000]⟩, [], []⟩, ?_⟩
  exact ⟨⟨_, _, sixteenMiB_bootTables, hw, rfl, rfl, rfl⟩, rfl, rfl, rfl, halloc, hfill.kernelEnd,
    hfill.frameCount, hfill.codePageCount, hfill.mmapEntries, h4, h3⟩

/-- Its first address space. -/
theorem Started.exists_create {s : PageState} (h : Started s) {own : List ℕ → Bool}
    (hown : Splits own) : ∃ (new : NewSpace) (w : Vmm),
      Built s.vmm w (s.vmm.source 0x9000) new ∧ Pte.ofFrame new.pml4 ≠ 0x9000 ∧
      w.pmm.Plenty 1500 ∧ SparesTables s (.call (.kvmmCreateUserPml4 0x9000)) ∧
      Step s (.call (.kvmmCreateUserPml4 0x9000)) (s.addRoot w (Pte.ofFrame new.pml4)) := by
  obtain ⟨kind, hinv⟩ := inv_init hown h.init
  have hplenty : s.vmm.pmm.Plenty (1500 + 1029) := by
    refine ⟨List.range' 0x600 0xA00, List.nodup_range', by simp, fun f hf => ?_⟩
    rw [h.allocatable]
    rw [List.mem_range'_1] at hf
    exact hf
  have hr : 0x9000 ∈ s.roots := by simp [h.roots]
  obtain ⟨new, w, hb, hleft, hspare, hstep⟩ := hinv.exists_create hown hr hplenty
  refine ⟨new, w, hb, ?_, hleft, hspare, hstep⟩
  intro heq
  have hfirst : new.pml4 ∈ s.vmm.pmm.allocatable := hb.first.1
  rw [h.allocatable] at hfirst
  have hframe := congrArg Pte.frame heq
  rw [Pte.frame_ofFrame (hb.ext.lt (by simp [NewSpace.frames])),
    show Pte.frame 0x9000 = 9 from by decide] at hframe
  have := hfirst.1
  omega

end Nyvela.PageState
