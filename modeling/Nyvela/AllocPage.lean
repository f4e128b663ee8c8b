import Nyvela.AsMap
import Nyvela.PageMap

/-!
# A page for the caller (`sys_alloc_page` in `src/syscall/syscall.c`)

`sys_alloc_page` takes the first page of the heap area that no user entry maps, whether a
table is missing, the entry is, or the entry is one of the kernel, and maps the lowest free
frame there. The frame comes as it was left.
-/

namespace Nyvela

namespace Vmm

open PageTree

/-- Present and open to users. -/
def UserMapped (m : Memory) (r : ℕ) (virt : Word) : Prop :=
  ∃ e, leaf m r virt = some e ∧ Pte.user e = true

/-- The page addresses in `[USER_HEAP_BASE, USER_AREA_END)` that are not mapped so. -/
def unmappedPages (v : Vmm) (r : ℕ) : Set ℕ :=
  {a | a % 4096 = 0 ∧ userHeapBase ≤ a ∧ a < userAreaEnd ∧ ¬UserMapped v.mem r (BitVec.ofNat 64 a)}

/-- The lowest page is mapped to the lowest frame, which keeps its content. -/
structure Allocates (v w : Vmm) (cr3 virt : Word) (f : ℕ) : Prop where
  page : IsLeast (v.unmappedPages (Pte.frame cr3)) virt.toNat
  frame : IsLeast v.pmm.allocatable f
  entry : leaf w.mem (Pte.frame cr3) virt = some (Pte.ofFrame f ||| 0x07)
  user : ∀ a, SamePage a virt → w.userFrame cr3 a = some f
  bytes : ∀ k < 4096, w.mem (f * 4096 + k) = v.mem (f * 4096 + k)
  other : ∀ a, ¬SamePage a virt → leaf w.mem (Pte.frame cr3) a = leaf v.mem (Pte.frame cr3) a

section

variable {own : List ℕ → Bool} {v w : Vmm} {kind kind' : ℕ → Option Kind} {roots : List ℕ}
  {cr3 virt r : Word}

/-! ## The search -/

theorem userMapped_iff (v : Vmm) (cr3 virt : Word) :
    UserMapped v.mem (Pte.frame cr3) virt ↔ ∃ t i, v.kgetPteAddrAt cr3 virt = some (t, i) ∧
      Pte.present (v.mem.entry t i) = true ∧ Pte.user (v.mem.entry t i) = true := by
  rw [UserMapped, leaf_eq, kgetPteAddrAt_eq]
  cases descend v.mem (Pte.frame cr3) ((path virt).take 3) with
  | none => simp
  | some t =>
    by_cases hp : Pte.present (v.mem.entry t (Pte.ptIndex virt)) = true
    · simp [hp]
    · simp [hp]

def heapPage (i : ℕ) : Word := BitVec.ofNat 64 (userHeapBase + i * 4096)

theorem heapPage_toNat {i : ℕ} (hi : i < 752) : (heapPage i).toNat = 0x410000 + i * 4096 := by
  rw [heapPage, BitVec.toNat_ofNat, userHeapBase]
  omega

/-- The pages that are not taken, by number. -/
theorem mem_unmappedPages {n a : ℕ} : a ∈ v.unmappedPages n ↔
    ∃ i < 752, a = (heapPage i).toNat ∧ ¬UserMapped v.mem n (heapPage i) := by
  constructor
  · rintro ⟨hal, hlow, hhigh, hun⟩
    rw [userHeapBase] at hlow
    rw [userAreaEnd] at hhigh
    have heq : 0x410000 + (a - 0x410000) / 4096 * 4096 = a := by omega
    refine ⟨(a - 0x410000) / 4096, by omega, ?_, ?_⟩
    · rw [heapPage_toNat (by omega), heq]
    · rwa [heapPage, userHeapBase, heq]
  · rintro ⟨i, hi, rfl, hun⟩
    have hnat := heapPage_toNat hi
    refine ⟨by omega, by rw [userHeapBase]; omega, by rw [userAreaEnd]; omega, ?_⟩
    rwa [BitVec.ofNat_toNat, BitVec.setWidth_eq]

/-- What `user_find_free_page` passes over. -/
def taken (v : Vmm) (cr3 virt : Word) : Bool :=
  match v.kgetPteAddrAt cr3 virt with
  | none => false
  | some (pt, i) => Pte.present (v.mem.entry pt i) && Pte.user (v.mem.entry pt i)

theorem taken_iff (v : Vmm) (cr3 virt : Word) :
    v.taken cr3 virt = true ↔ UserMapped v.mem (Pte.frame cr3) virt := by
  rw [userMapped_iff, taken]
  cases v.kgetPteAddrAt cr3 virt with
  | none => simp
  | some x =>
    obtain ⟨t, i⟩ := x
    simp

theorem userFindFreePage_eq (v : Vmm) (cr3 : Word) : v.userFindFreePage cr3 =
    (((List.range 752).find? fun i => !v.taken cr3 (heapPage i)).map heapPage).getD 0 := by
  rw [userFindFreePage, List.find?_map]
  rfl

/-- `user_find_free_page` finds the lowest page that is not taken. -/
theorem userFindFreePage_spec (v : Vmm) (cr3 : Word) :
    (v.userFindFreePage cr3 = 0 ∧ v.unmappedPages (Pte.frame cr3) = ∅) ∨
      ∃ i < 752, v.userFindFreePage cr3 = heapPage i ∧
        IsLeast (v.unmappedPages (Pte.frame cr3)) (heapPage i).toNat := by
  rw [userFindFreePage_eq]
  cases hfind : (List.range 752).find? fun i => !v.taken cr3 (heapPage i) with
  | none =>
    refine .inl ⟨rfl, Set.eq_empty_of_forall_notMem fun a ha => ?_⟩
    obtain ⟨i, hi, -, hun⟩ := mem_unmappedPages.mp ha
    have htaken := List.find?_eq_none.mp hfind i (List.mem_range.mpr hi)
    rw [← taken_iff] at hun
    simp [hun] at htaken
  | some i =>
    obtain ⟨hi, hrange, hbefore⟩ := List.find?_range_eq_some.mp hfind
    rw [List.mem_range] at hrange
    refine .inr ⟨i, hrange, rfl, mem_unmappedPages.mpr ⟨i, hrange, rfl, ?_⟩, fun a ha => ?_⟩
    · rw [← taken_iff]
      simpa using hi
    · obtain ⟨j, hj, rfl, hun⟩ := mem_unmappedPages.mp ha
      rw [heapPage_toNat hrange, heapPage_toNat hj]
      by_contra hlt
      have := hbefore j (by omega)
      rw [Bool.not_not, taken_iff] at this
      exact hun this

/-! ## The frame -/

theorem ensureTable_apply {t i t' : ℕ} {flags : Word} (hi : i < 512)
    (h : v.ensureTable t i flags = some (t', w)) {a : ℕ} (ht : a / 4096 ≠ t) (ht' : a / 4096 ≠ t') :
    w.mem a = v.mem a := by
  simp only [ensureTable] at h
  split_ifs at h
  · obtain ⟨-, rfl⟩ := Prod.mk.inj (Option.some.inj h)
    rfl
  · obtain ⟨rfl, rfl⟩ := Prod.mk.inj (Option.some.inj h)
    rw [setEntry, setMem_mem, Memory.setEntry_apply_of_ne _ _ hi ht, setMem_mem,
      Memory.zeroFrame_apply_of_ne _ ht']
    rfl

/-- `kvmmap_at` writes to tables only: not to a frame that is none and is not free. -/
theorem Stands.kvmmapAt_bytes (h : Stands own v kind roots) {phys flags : Word}
    (hr : Pte.frame cr3 ∈ roots) (hcall : v.kvmmapAt cr3 virt phys flags = some w) {f : ℕ}
    (hf : kind f = none) (hused : f ∉ v.pmm.allocatable) {a : ℕ} (ha : a / 4096 = f) :
    w.mem a = v.mem a := by
  have h4 := Pte.pml4Index_lt virt
  have h3 := Pte.pdptIndex_lt virt
  have h2 := Pte.pdIndex_lt virt
  have h1 := Pte.ptIndex_lt virt
  simp only [Vmm.kvmmapAt] at hcall
  obtain ⟨⟨t3, v1⟩, hv1, hcall⟩ := Option.bind_eq_some_iff.mp hcall
  obtain ⟨⟨t2, v2⟩, hv2, hcall⟩ := Option.bind_eq_some_iff.mp hcall
  obtain ⟨⟨t1, v3⟩, hv3, hcall⟩ := Option.bind_eq_some_iff.mp hcall
  obtain ⟨k, -, hroot, hkind3, hkind2, hkind1, -, -, -, hext, -⟩ :=
    h.ensureTables (Pte.ptIndex virt) hr h4 h3 h2
      (by split_ifs <;> decide) (by split_ifs <;> decide) hv1 hv2 hv3
  have hne : ∀ {t K}, k t = some K → a / 4096 ≠ t := by
    rintro t K hK rfl
    rw [ha] at hK
    exact hused (hext.fresh f K hK hf).1
  have hmem : v3.mem a = v.mem a := by
    rw [ensureTable_apply h2 hv3 (hne hkind2) (hne hkind1),
      ensureTable_apply h3 hv2 (hne hkind3) (hne hkind2), ensureTable_apply h4 hv1 (hne hroot) (hne hkind3)]
  obtain rfl := Option.some.inj hcall
  rw [Vmm.setEntry, setMem_mem, Memory.setEntry_apply_of_ne _ _ h1 (hne hkind1)]
  split_ifs
  · simp only [Vmm.orEntry, Vmm.setEntry, setMem_mem]
    rw [Memory.setEntry_apply_of_ne _ _ h2 (hne hkind2),
      Memory.setEntry_apply_of_ne _ _ h3 (hne hkind3), Memory.setEntry_apply_of_ne _ _ h4 (hne hroot),
      hmem]
  · exact hmem

/-- What the processor permits to users. -/
theorem userFrame_of_access {f : ℕ} {b : Bool}
    (h : access v.mem (Pte.frame cr3) (path virt) = some (f, true, b)) :
    v.userFrame cr3 virt = some f := by
  have hstep : ∀ {t i : ℕ} {p : List ℕ} {f : ℕ} {b : Bool},
      access v.mem t (i :: p) = some (f, true, b) →
        (Pte.present (v.mem.entry t i) && Pte.user (v.mem.entry t i)) = true ∧
          ∃ b', access v.mem (Pte.frame (v.mem.entry t i)) p = some (f, true, b') := by
    intro t i p f b h
    simp only [access] at h
    split_ifs at h with hp
    obtain ⟨x, hx, heq⟩ := Option.map_eq_some_iff.mp h
    simp only [Prod.mk.injEq, Bool.and_eq_true] at heq
    obtain ⟨rfl, ⟨hu, hx1⟩, -⟩ := heq
    exact ⟨by rw [hp, hu, Bool.and_self], x.2.2, by rw [hx, ← hx1]⟩
  obtain ⟨h4, b3, h⟩ := hstep h
  obtain ⟨h3, b2, h⟩ := hstep h
  obtain ⟨h2, b1, h⟩ := hstep h
  obtain ⟨h1, b0, h⟩ := hstep h
  simp only [userFrame, h4, h3, h2, h1, Bool.and_self, if_true]
  exact congrArg _ (congrArg Prod.fst (Option.some.inj h))

theorem Stands.kpalloc (h : Stands own v kind roots) : Stands own v.kpalloc.2 kind roots :=
  ⟨h.forest, fun f hf hfree => h.kept f hf (kpalloc_allocatable hfree).1⟩

/-- The lowest page is mapped to frame `f`, which has been taken. -/
theorem Stands.mapsLowest (h : Stands own v kind roots) (hr : Pte.frame cr3 ∈ roots)
    (hown : ∀ a : Word, 0x400000 ≤ a.toNat → a.toNat < 0x800000 → OwnPath own (path a)) {i f : ℕ}
    (hi : i < 752) (hpage : IsLeast (v.unmappedPages (Pte.frame cr3)) (heapPage i).toNat)
    (hf : IsLeast v.pmm.allocatable f) (hne : v.kpalloc.1 = Pte.ofFrame f)
    (hmap : v.kpalloc.2.kvmmapAt cr3 (heapPage i) v.kpalloc.1 0x07 = some w) :
    Allocates v w cr3 (heapPage i) f := by
  have hu := h.kpalloc
  have hlt : f < 2 ^ 52 := hf.1.2.2.1.trans v.pmm.frameCount_lt
  have h0 : v.kpalloc.1 ≠ 0 := by
    rw [hne]
    exact Pmm.physOf_ne_zero hlt (v.pmm.firstPage_pos.trans_le hf.1.2.1)
  have hkind : kind f = none := by
    by_contra hc
    exact h.kept f hc hf.1
  have hused : f ∉ v.kpalloc.2.pmm.allocatable := fun hc =>
    (kpalloc_allocatable hc).2 h0 (by rw [hne, Pte.frame_ofFrame hlt])
  obtain ⟨kind', t, hw, hat, -⟩ := hu.kvmmapAt hr hmap
  have hentry : w.mem.entry t (Pte.ptIndex (heapPage i)) = Pte.ofFrame f ||| 0x07 := by
    rw [hat.entry, hne, Pte.addr_ofFrame]
  have hpres : Pte.present (Pte.ofFrame f ||| 0x07) = true := by
    rw [Pte.present_or, show Pte.present 0x07 = true by decide, Bool.or_true]
  have huser : Pte.user (Pte.ofFrame f ||| 0x07) = true := by
    rw [Pte.user_or, show Pte.user 0x07 = true by decide, Bool.or_true]
  have hnat := heapPage_toNat hi
  constructor
  case page => exact hpage
  case frame => exact hf
  case entry => rw [leaf_eq, hat.descend_eq, Option.bind_some, hentry, hpres, if_pos rfl]
  case user =>
    intro a ha
    obtain ⟨b, hb⟩ := hat.user (by decide)
    obtain ⟨b', hb'⟩ := access_snoc hb (hentry.symm ▸ hpres) (hentry.symm ▸ huser)
    rw [hentry, Pte.frame_or _ (by decide), Pte.frame_ofFrame hlt] at hb'
    apply userFrame_of_access (b := b')
    rw [path_eq_iff.mpr ha]
    exact hb'
  case bytes =>
    intro k hk
    exact hu.kvmmapAt_bytes hr hmap hkind hused (by omega)
  case other =>
    intro a ha
    exact hat.ext.edits.leaf_eq hu.forest hw.forest hr (hown _ (by omega) (by omega))
      (mt path_eq_iff.mp ha)

/-- What `sys_alloc_page` does. -/
theorem Stands.sysAllocPage (h : Stands own v kind roots) (hr : Pte.frame cr3 ∈ roots)
    (hown : ∀ a : Word, 0x400000 ≤ a.toNat → a.toNat < 0x800000 → OwnPath own (path a))
    (hcall : v.sysAllocPage cr3 = some (r, w)) :
    (r = 0 ∧ w = v ∧ (v.unmappedPages (Pte.frame cr3) = ∅ ∨ v.pmm.allocatable = ∅)) ∨
      (r ≠ 0 ∧ ∃ f, Allocates v w cr3 r f) := by
  simp only [Vmm.sysAllocPage] at hcall
  have hne : ∀ {i}, i < 752 → heapPage i ≠ 0 := by
    intro i hi hz
    have hnat := heapPage_toNat hi
    have hzero : (0 : Word).toNat = 0 := rfl
    rw [hz] at hnat
    omega
  obtain ⟨h0, hnone⟩ | ⟨i, hi, hfind, hleast⟩ := v.userFindFreePage_spec cr3
  · rw [if_pos h0] at hcall
    obtain ⟨rfl, rfl⟩ := Prod.mk.inj (Option.some.inj hcall)
    exact .inl ⟨rfl, rfl, .inl hnone⟩
  rw [hfind, if_neg (hne hi)] at hcall
  split_ifs at hcall with h1
  · obtain ⟨rfl, rfl⟩ := Prod.mk.inj (Option.some.inj hcall)
    have hpmm : v.pmm.kpalloc.2 = v.pmm := v.pmm.kpalloc_takes.unchanged h1
    refine .inl ⟨rfl, by simp only [Vmm.kpalloc, hpmm], .inr ?_⟩
    exact Set.eq_empty_of_forall_notMem fun f => Pmm.kpalloc_eq_null h1 f
  · obtain ⟨u, hmap, heq⟩ := Option.map_eq_some_iff.mp hcall
    obtain ⟨rfl, rfl⟩ := Prod.mk.inj heq
    obtain ⟨f, hf, hpage⟩ := Pmm.kpalloc_eq_some h1
    exact .inr ⟨hne hi, f, h.mapsLowest hr hown hi hleast hf (congrArg Prod.fst hpage) hmap⟩

theorem TreeOk.sysAllocPage (hok : TreeOk v.mem (Pte.frame cr3)) (hout : Outside v (Pte.frame cr3))
    (hcall : v.sysAllocPage cr3 = some (r, w)) :
    (r = 0 ∧ w = v ∧ (v.unmappedPages (Pte.frame cr3) = ∅ ∨ v.pmm.allocatable = ∅)) ∨
      (r ≠ 0 ∧ ∃ f, Allocates v w cr3 r f) :=
  (hok.stands hout).sysAllocPage (List.mem_singleton_self _) (fun _ _ _ => ownPath_allOwn _) hcall

end

/-! ## First fit -/

section

variable {own own' : List ℕ → Bool} {v v' w : Vmm} {kind kind' : ℕ → Option Kind}
  {roots roots' : List ℕ} {cr3 r : Word} {f g : ℕ}

end

end Vmm

namespace PageState

open PageTree Vmm

section

variable {own : List ℕ → Bool} {s : PageState} {kind : ℕ → Option Kind} {g : ℕ} {b : BitVec 8}

end

end PageState

end Nyvela
