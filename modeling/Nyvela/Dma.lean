import Nyvela.DeviceIsolation
import Nyvela.PageMap

/-!
# Pages for devices (`src/mm/dma.c`, `sys_dma_alloc_page` in `src/syscall/syscall.c`)

A pool of sixteen frames, with a bitmap of its own, is to be set up by `kdma_init`, but
`kmain` does not call it. `DMA_PAGES` then is `0`, so the pool is the first pages of memory,
and the first of them is `NULL`. A page that is freed stays mapped.
-/

namespace Nyvela

open PageTree Vmm

def dmaVirtBase : Word := 0xFFFF800000500000
def dmaPageAmount : ℕ := 16

/-- The machine with `DMA_BITMAP` and `DMA_PAGES`. The kernel does not keep `owner`, which is the
address space that a page of the pool was last mapped in. -/
structure DmaState extends VmState where
  dmaBitmap : Bitmap
  dmaPages : Word
  owner : ℕ → Option Word

namespace DmaState

/-- `DMA_BITMAP` has 128 bytes. -/
def kdmaInit (s : DmaState) : Bool × DmaState :=
  let r := s.vmm.pmm.kpallocContiguous (BitVec.ofNat 64 dmaPageAmount)
  (decide (r.1 ≠ 0), { s with
    vmm := { s.vmm with pmm := r.2 }
    dmaBitmap := fun i => if i < 128 then 0 else s.dmaBitmap i
    dmaPages := r.1 })

def kdmaPalloc (s : DmaState) : Word × DmaState :=
  match (List.range dmaPageAmount).find? fun i => !s.dmaBitmap.test i with
  | some i => (s.dmaPages + BitVec.ofNat 64 (4096 * i), { s with dmaBitmap := s.dmaBitmap.set i })
  | none => (0, s)

def kdmaPfree (s : DmaState) (page : Word) : DmaState :=
  if page < s.dmaPages ∨ s.dmaPages + BitVec.ofNat 64 (dmaPageAmount * 4096) ≤ page then s
  else if (page - s.dmaPages) % 4096 ≠ 0 then s
  else { s with dmaBitmap := s.dmaBitmap.clear ((page - s.dmaPages) / 4096).toNat }

/-- `kvmmap_at` does not fail: it maps, or the kernel halts. -/
def sysDmaAllocPage (s : DmaState) (cr3 : Word) : Option (Word × DmaState) :=
  let (page, s) := s.kdmaPalloc
  if page = 0 then some (0, s)
  else
    let n := (page - s.dmaPages) / 4096
    let virt := dmaVirtBase + n * 4096
    (s.vmm.kvmmapAt cr3 virt page 0x07).map fun v =>
      (virt, { s with vmm := v, owner := Function.update s.owner n.toNat (some cr3) })

def sysDmaFreePage (s : DmaState) (addr : Word) : DmaState :=
  let n := (addr - dmaVirtBase) / 4096
  let page := s.dmaPages + n * 4096
  if page < s.dmaPages ∨ s.dmaPages + BitVec.ofNat 64 (dmaPageAmount * 4096) ≤ page then s
  else s.kdmaPfree page

end DmaState

/-- `kdmaInit` is a step of its own, which no caller makes. -/
inductive DmaOp
  | kdmaInit
  | sysDmaAllocPage (cr3 : Word)
  | sysDmaFreePage (addr : Word)

namespace DmaState

inductive Step : DmaState → DmaOp → DmaState → Prop
  | kdmaInit {s : DmaState} : Step s .kdmaInit s.kdmaInit.2
  | sysDmaAllocPage {s t : DmaState} {cr3 r : Word} : cr3 ∈ s.roots →
    s.sysDmaAllocPage cr3 = some (r, t) → Step s (.sysDmaAllocPage cr3) t
  | sysDmaFreePage {s : DmaState} {addr : Word} : Step s (.sysDmaFreePage addr) (s.sysDmaFreePage addr)

end DmaState

/-- From `kmain` on: memory and address spaces as any steps have left them, and the variables of
`dma.c` with their initial values. -/
def dmaSystem : System DmaState DmaOp where
  init s := ∃ p : PageState, pageSystem.Reachable p ∧ s.toVmState = p.toVmState ∧
    s.dmaBitmap = (fun _ => 0) ∧ s.dmaPages = 0
  step := DmaState.Step

/-- The boot sequence as it is. -/
def kmainSystem : System DmaState DmaOp := dmaSystem.restrict fun _ op => op ≠ .kdmaInit

/-- The sixteen frames are the first free run. -/
theorem Pmm.takes_pool (p : Pmm) :
    Takes p (p.kpallocContiguous (BitVec.ofNat 64 dmaPageAmount)) dmaPageAmount
      (IsLeast (p.runs dmaPageAmount)) := by
  have hfirst := p.kernelEnd_lt
  have hamount : (BitVec.ofNat 64 dmaPageAmount).toNat = dmaPageAmount := rfl
  have htakes := p.kpallocContiguous_takes (BitVec.ofNat 64 dmaPageAmount)
    (by rw [hamount, dmaPageAmount]; omega) (by rw [firstPage, hamount, dmaPageAmount]; omega)
  rwa [hamount] at htakes

namespace DmaState

/-! ## Where the pages come from -/

/-- A run of frames from `base` on that `kpalloc_contiguous` has returned and that is in use. -/
structure Reserved (s : DmaState) (base : ℕ) : Prop where
  obtained : ∃ u : DmaState, dmaSystem.Reachable u ∧
    (u.vmm.pmm.kpallocContiguous (BitVec.ofNat 64 dmaPageAmount)).1 = Pmm.physOf base
  used : ∀ k < dmaPageAmount, s.vmm.pmm.bitmap.test (base + k) = false
  low : s.vmm.pmm.firstPage ≤ base
  high : base + dmaPageAmount ≤ s.vmm.pmm.frameCount

/-- `kdma_init` has succeeded. -/
structure Pool (s : DmaState) (base : ℕ) : Prop extends s.Reserved base where
  pages : s.dmaPages = Pmm.physOf base

/-- The page that the call maps is of a reserved run, and a call that returns `0` takes none. -/
def FromPool (s : DmaState) (r : Word) (t : DmaState) : Prop :=
  (r ≠ 0 → ∃ base, t.Reserved base ∧ ∃ k < dmaPageAmount, s.kdmaPalloc.1 = Pmm.physOf (base + k)) ∧
    (r = 0 → t.dmaBitmap = s.dmaBitmap)

section

variable {s t : DmaState} {base : ℕ} {cr3 r : Word}

/-- A free page of the pool, or none is left. -/
theorem kdmaPalloc_cases (s : DmaState) :
    (∃ i < dmaPageAmount, s.dmaBitmap.test i = false ∧
      s.kdmaPalloc = (s.dmaPages + BitVec.ofNat 64 (4096 * i),
        { s with dmaBitmap := s.dmaBitmap.set i })) ∨
      (∀ i < dmaPageAmount, s.dmaBitmap.test i = true) ∧ s.kdmaPalloc = (0, s) := by
  rw [kdmaPalloc]
  cases hfind : (List.range dmaPageAmount).find? fun i => !s.dmaBitmap.test i with
  | none =>
    refine .inr ⟨fun i hi => ?_, rfl⟩
    have hset := List.find?_eq_none.mp hfind i (List.mem_range.mpr hi)
    simpa using hset
  | some i =>
    have hfree := List.find?_some hfind
    exact .inl ⟨i, List.mem_range.mp (List.mem_of_find?_eq_some hfind), by simpa using hfree, rfl⟩

/-- The address of page `i` for the user. -/
def dmaVirt (i : ℕ) : Word := dmaVirtBase + BitVec.ofNat 64 (4096 * i)

theorem index_of_page (p : Word) {i : ℕ} (hi : i < dmaPageAmount) :
    (p + BitVec.ofNat 64 (4096 * i) - p) / 4096 = BitVec.ofNat 64 i := by
  rw [dmaPageAmount] at hi
  rw [show p + BitVec.ofNat 64 (4096 * i) - p = BitVec.ofNat 64 (4096 * i) by
    rw [BitVec.add_comm, BitVec.add_sub_cancel]]
  apply BitVec.eq_of_toNat_eq
  rw [BitVec.toNat_udiv, BitVec.toNat_ofNat, BitVec.toNat_ofNat,
    show (4096 : Word).toNat = 4096 from rfl]
  omega

theorem dmaVirt_ne_zero {i : ℕ} (hi : i < dmaPageAmount) : dmaVirt i ≠ 0 := by
  revert i
  decide

/-- `sys_dma_alloc_page` takes a page that it cannot map, maps one, or has none left. -/
theorem sysDmaAllocPage_cases (hcall : s.sysDmaAllocPage cr3 = some (r, t)) :
    (∃ i < dmaPageAmount, s.dmaBitmap.test i = false ∧ s.kdmaPalloc.1 = 0 ∧
      s.dmaPages + BitVec.ofNat 64 (4096 * i) = 0 ∧ r = 0 ∧
      t = { s with dmaBitmap := s.dmaBitmap.set i }) ∨
    (∃ i < dmaPageAmount, s.dmaBitmap.test i = false ∧
      s.kdmaPalloc.1 = s.dmaPages + BitVec.ofNat 64 (4096 * i) ∧ ∃ v,
      s.vmm.kvmmapAt cr3 (dmaVirt i) (s.dmaPages + BitVec.ofNat 64 (4096 * i)) 0x07 = some v ∧
      r = dmaVirt i ∧ t = { s with
        vmm := v
        dmaBitmap := s.dmaBitmap.set i
        owner := Function.update s.owner i (some cr3) }) ∨
    ((∀ i < dmaPageAmount, s.dmaBitmap.test i = true) ∧ r = 0 ∧ t = s) := by
  simp only [sysDmaAllocPage] at hcall
  obtain ⟨i, hi, hfree, hpage⟩ | ⟨hfull, hpage⟩ := s.kdmaPalloc_cases
  · rw [hpage] at hcall ⊢
    dsimp only at hcall ⊢
    split_ifs at hcall with h0
    · obtain ⟨rfl, rfl⟩ := Prod.mk.inj (Option.some.inj hcall)
      exact .inl ⟨i, hi, hfree, h0, h0, rfl, rfl⟩
    · obtain ⟨v, hmap, heq⟩ := Option.map_eq_some_iff.mp hcall
      have hvirt : dmaVirtBase + BitVec.ofNat 64 i * 4096 = dmaVirt i := by
        rw [dmaVirt, Nat.mul_comm, BitVec.ofNat_mul]
        rfl
      have hnat : (BitVec.ofNat 64 i).toNat = i := by
        rw [dmaPageAmount] at hi
        rw [BitVec.toNat_ofNat]
        omega
      rw [index_of_page _ hi, hvirt] at hmap heq
      rw [hnat] at heq
      obtain ⟨rfl, rfl⟩ := Prod.mk.inj heq
      exact .inr (.inl ⟨i, hi, hfree, rfl, v, hmap, rfl, rfl⟩)
  · rw [hpage] at hcall
    obtain ⟨rfl, rfl⟩ := Prod.mk.inj (Option.some.inj hcall)
    exact .inr (.inr ⟨hfull, rfl, rfl⟩)

/-! ## The pool -/

theorem Reserved.lt (h : s.Reserved base) : base + dmaPageAmount < 2 ^ 52 :=
  Nat.lt_of_le_of_lt h.high s.vmm.pmm.frameCount_lt

theorem physOf_add (f i : ℕ) :
    Pmm.physOf f + BitVec.ofNat 64 (4096 * i) = Pmm.physOf (f + i) := by
  rw [Pmm.physOf, Pmm.physOf, ← BitVec.ofNat_add,
    show f * 0x1000 + 4096 * i = (f + i) * 0x1000 by omega]

/-- A page of the pool. -/
theorem Pool.page_eq (h : s.Pool base) (i : ℕ) :
    s.dmaPages + BitVec.ofNat 64 (4096 * i) = Pmm.physOf (base + i) := by
  rw [h.pages, physOf_add]

theorem Pool.page_ne_zero (h : s.Pool base) {i : ℕ} (hi : i < dmaPageAmount) :
    Pmm.physOf (base + i) ≠ 0 := by
  have hlt := h.lt
  have hpos := s.vmm.pmm.firstPage_pos
  have hlow := h.low
  exact Pmm.physOf_ne_zero (by omega) (by omega)

theorem Pool.congr (h : s.Pool base) (hpages : t.dmaPages = s.dmaPages)
    {taken : List ℕ} (htook : Took s.vmm t.vmm taken) : t.Pool base where
  pages := hpages.trans h.pages
  obtained := h.obtained
  used k hk := by rw [htook.test, h.used k hk, Bool.false_and]
  low := by
    rw [Pmm.firstPage, htook.kernelEnd]
    exact h.low
  high := htook.frameCount ▸ h.high

/-- A pool that has just been made. -/
theorem exists_kdmaInit (s : DmaState) (hpages : s.kdmaInit.2.dmaPages ≠ 0) :
    ∃ base, s.kdmaInit.2.dmaPages = Pmm.physOf base ∧ s.kdmaInit.2.vmm.pmm.firstPage ≤ base ∧
      base + dmaPageAmount ≤ s.kdmaInit.2.vmm.pmm.frameCount ∧
      ∀ f, s.kdmaInit.2.vmm.pmm.bitmap.test f = true ↔
        s.vmm.pmm.bitmap.test f = true ∧ ¬(base ≤ f ∧ f < base + dmaPageAmount) := by
  have htakes := s.vmm.pmm.takes_pool
  obtain ⟨base, hbase⟩ := not_not.mp (mt htakes.null_iff.mpr hpages)
  refine ⟨base, Pmm.physOf_of_toNat (htakes.start base hbase), ?_, ?_, fun f => ?_⟩
  · have hlow := (hbase.1 0 (by decide)).2.1
    rw [Nat.add_zero] at hlow
    rw [Pmm.firstPage, show s.kdmaInit.2.vmm.pmm.kernelEnd = _ from htakes.kernelEnd]
    exact hlow
  · have hhigh := (hbase.1 15 (by decide)).2.2.1
    rw [show s.kdmaInit.2.vmm.pmm.frameCount = _ from htakes.frameCount, dmaPageAmount]
    omega
  · exact Set.ext_iff.mp (htakes.removed base hbase) f

theorem pool_kdmaInit (hs : dmaSystem.Reachable s) (hpages : s.kdmaInit.2.dmaPages ≠ 0) :
    ∃ base, s.kdmaInit.2.Pool base := by
  obtain ⟨base, hstart, hlow, hhigh, htest⟩ := s.exists_kdmaInit hpages
  refine ⟨base, ⟨⟨s, hs, hstart⟩, fun k hk => ?_, hlow, hhigh⟩, hstart⟩
  rw [Bool.eq_false_iff]
  exact fun hfree => ((htest _).mp hfree).2 (by omega)

/-- Its pages are free. -/
theorem dmaBitmap_kdmaInit (s : DmaState) {i : ℕ} (hi : i < dmaPageAmount) :
    s.kdmaInit.2.dmaBitmap.test i = false := by
  rw [dmaPageAmount] at hi
  rw [Bitmap.test_eq_getLsbD, show s.kdmaInit.2.dmaBitmap (i / 8) = 0 from if_pos (by omega)]
  simp

theorem step_alloc_pool (h : s.Pool base) (hcall : s.sysDmaAllocPage cr3 = some (r, t)) :
    t.Pool base := by
  obtain ⟨i, -, -, -, -, -, rfl⟩ | ⟨i, -, -, -, v, hmap, -, rfl⟩ | ⟨-, -, rfl⟩ :=
    sysDmaAllocPage_cases hcall
  · exact ⟨⟨h.obtained, h.used, h.low, h.high⟩, h.pages⟩
  · obtain ⟨taken, htook, -⟩ := kvmmapAt_took hmap
    exact h.congr rfl htook
  · exact h

/-- `kdma_pfree` frees a page of the pool, or nothing. -/
theorem kdmaPfree_cases (s : DmaState) (page : Word) :
    s.kdmaPfree page = s ∨ ∃ i < dmaPageAmount, page = s.dmaPages + BitVec.ofNat 64 (4096 * i) ∧
      s.kdmaPfree page = { s with dmaBitmap := s.dmaBitmap.clear i } := by
  rw [kdmaPfree]
  split_ifs with hrange hmod
  · exact .inl rfl
  · exact .inl rfl
  · rw [not_or, BitVec.not_lt, BitVec.not_le, BitVec.le_def, BitVec.lt_def, BitVec.toNat_add,
      show (BitVec.ofNat 64 (dmaPageAmount * 4096)).toNat = 65536 from rfl] at hrange
    rw [not_not] at hmod
    have hsub : (page - s.dmaPages).toNat = page.toNat - s.dmaPages.toNat :=
      BitVec.toNat_sub_of_le (BitVec.le_def.mpr hrange.1)
    have hmod' : (page.toNat - s.dmaPages.toNat) % 4096 = 0 := by
      have := congrArg BitVec.toNat hmod
      rwa [BitVec.toNat_umod, hsub, show (4096 : Word).toNat = 4096 from rfl] at this
    have hdiv : ((page - s.dmaPages) / 4096).toNat = (page.toNat - s.dmaPages.toNat) / 4096 := by
      rw [BitVec.toNat_udiv, hsub, show (4096 : Word).toNat = 4096 from rfl]
    have hp := page.isLt
    refine .inr ⟨_, ?_, ?_, rfl⟩
    · rw [hdiv, dmaPageAmount]
      omega
    · apply BitVec.eq_of_toNat_eq
      rw [BitVec.toNat_add, BitVec.toNat_ofNat, hdiv]
      omega

/-- So does `sys_dma_free_page`, by the number of the page in its window. -/
theorem sysDmaFreePage_cases (s : DmaState) (addr : Word) :
    s.sysDmaFreePage addr = s ∨ ∃ i < dmaPageAmount,
      (addr - dmaVirtBase) / 4096 = BitVec.ofNat 64 i ∧
      s.sysDmaFreePage addr = { s with dmaBitmap := s.dmaBitmap.clear i } := by
  simp only [sysDmaFreePage]
  have hdiv : ((addr - dmaVirtBase) / 4096).toNat < 2 ^ 52 := by
    rw [BitVec.toNat_udiv, show (4096 : Word).toNat = 4096 from rfl]
    have := (addr - dmaVirtBase).isLt
    omega
  generalize (addr - dmaVirtBase) / 4096 = n at hdiv ⊢
  split_ifs
  · exact .inl rfl
  · obtain hsame | ⟨i, hi, hpage, hfree⟩ := s.kdmaPfree_cases (s.dmaPages + n * 4096)
    · exact .inl hsame
    · refine .inr ⟨i, hi, ?_, hfree⟩
      have hnat := congrArg BitVec.toNat ((BitVec.add_right_inj _).mp hpage)
      rw [dmaPageAmount] at hi
      rw [BitVec.toNat_mul, BitVec.toNat_ofNat, show (4096 : Word).toNat = 4096 from rfl] at hnat
      apply BitVec.eq_of_toNat_eq
      rw [BitVec.toNat_ofNat]
      omega

/-- `addr` lies in page `n` of the window. -/
def InDmaPage (addr : Word) (n : ℕ) : Prop :=
  dmaVirtBase.toNat + 4096 * n ≤ addr.toNat ∧ addr.toNat < dmaVirtBase.toNat + 4096 * n + 4096

instance (addr : Word) (n : ℕ) : Decidable (InDmaPage addr n) :=
  inferInstanceAs (Decidable (_ ∧ _))

/-- Below the window the difference wraps to a number that is too large for a page of the pool. -/
theorem inDmaPage_iff (addr : Word) {n : ℕ} (hn : n < dmaPageAmount) :
    InDmaPage addr n ↔ ((addr - dmaVirtBase) / 4096).toNat = n := by
  have haddr := addr.isLt
  have hbase : dmaVirtBase.toNat = 0xFFFF800000500000 := rfl
  rw [dmaPageAmount] at hn
  rw [InDmaPage, BitVec.toNat_udiv, BitVec.toNat_sub, hbase, show (4096 : Word).toNat = 4096 from rfl]
  omega

/-- A pool that does not wrap around is freed page by page. -/
theorem sysDmaFreePage_eq (h : s.dmaPages.toNat + 65536 < 2 ^ 64) {addr : Word} {n : ℕ}
    (hn : n < dmaPageAmount) (haddr : ((addr - dmaVirtBase) / 4096).toNat = n) :
    s.sysDmaFreePage addr = { s with dmaBitmap := s.dmaBitmap.clear n } := by
  have hmul : ((addr - dmaVirtBase) / 4096 * 4096).toNat = n * 4096 := by
    rw [dmaPageAmount] at hn
    rw [BitVec.toNat_mul, haddr, show (4096 : Word).toNat = 4096 from rfl]
    omega
  simp only [sysDmaFreePage, kdmaPfree]
  generalize (addr - dmaVirtBase) / 4096 * 4096 = offset at hmul
  have hrange : ¬(s.dmaPages + offset < s.dmaPages ∨
      s.dmaPages + BitVec.ofNat 64 (dmaPageAmount * 4096) ≤ s.dmaPages + offset) := by
    rw [dmaPageAmount] at hn
    rw [BitVec.lt_def, BitVec.le_def, BitVec.toNat_add, BitVec.toNat_add, hmul,
      show (BitVec.ofNat 64 (dmaPageAmount * 4096)).toNat = 65536 from rfl]
    omega
  have hsub : s.dmaPages + offset - s.dmaPages = offset := by
    rw [BitVec.add_comm, BitVec.add_sub_cancel]
  have hmod : offset % 4096 = 0 := by
    apply BitVec.eq_of_toNat_eq
    rw [BitVec.toNat_umod, hmul, show (4096 : Word).toNat = 4096 from rfl, Nat.mul_mod_left]
    rfl
  rw [if_neg hrange, if_neg hrange, hsub, if_neg (not_not_intro hmod), BitVec.toNat_udiv, hmul,
    show (4096 : Word).toNat = 4096 from rfl, Nat.mul_div_cancel _ (by decide)]

theorem dmaVirt_index {i : ℕ} (hi : i < dmaPageAmount) :
    ((dmaVirt i - dmaVirtBase) / 4096).toNat = i := by
  rw [dmaVirt, index_of_page _ hi, BitVec.toNat_ofNat]
  rw [dmaPageAmount] at hi
  omega

theorem clear_of_free {b : Bitmap} {i : ℕ} (h : b.test i = false) : b.clear i = b := by
  apply Bitmap.ext_test
  intro j
  rw [Bitmap.test_clear]
  by_cases hj : j = i
  · rw [hj, h, Bool.false_and]
  · rw [decide_eq_true hj, Bool.and_true]

/-- There is no pool, or `kpalloc_contiguous` has returned it. -/
theorem pool_of_reachable (hs : dmaSystem.Reachable s) : s.dmaPages = 0 ∨ ∃ base, s.Pool base := by
  induction hs with
  | init hs =>
    obtain ⟨-, -, -, -, hzero⟩ := hs
    exact .inl hzero
  | @step s t op hs hstep ih =>
    cases hstep with
    | kdmaInit => exact or_iff_not_imp_left.mpr (pool_kdmaInit hs)
    | sysDmaAllocPage _ hcall =>
      have hpages : t.dmaPages = s.dmaPages := by
        obtain ⟨_, -, -, -, -, -, rfl⟩ | ⟨_, -, -, -, _, -, -, rfl⟩ | ⟨-, -, rfl⟩ :=
          sysDmaAllocPage_cases hcall <;> rfl
      rw [hpages]
      exact ih.imp_right fun ⟨base, h⟩ => ⟨base, step_alloc_pool h hcall⟩
    | sysDmaFreePage =>
      rename_i addr
      obtain heq | ⟨i, -, -, heq⟩ := s.sysDmaFreePage_cases addr
      · rw [heq]
        exact ih
      · rw [heq]
        exact ih.imp_right fun ⟨base, h⟩ => ⟨base, ⟨h.obtained, h.used, h.low, h.high⟩, h.pages⟩

/-- The pages come from the pool if there is one, or all are taken. -/
theorem dma_alloc_from_pool_iff {s t : DmaState} {cr3 r : Word} (hs : dmaSystem.Reachable s)
    (hcall : s.sysDmaAllocPage cr3 = some (r, t)) :
    s.FromPool r t ↔ s.dmaPages ≠ 0 ∨ ∀ i < dmaPageAmount, s.dmaBitmap.test i = true := by
  obtain hzero | ⟨base, hpool⟩ := pool_of_reachable hs
  · -- without a pool the pages are those from address `0` on
    rw [hzero, or_iff_right (fun h => h rfl)]
    obtain ⟨i, hi, hfree, -, -, rfl, rfl⟩ | ⟨i, hi, hfree, hpage, v, -, rfl, rfl⟩ | ⟨hfull, rfl, rfl⟩ :=
      sysDmaAllocPage_cases hcall
    · refine iff_of_false (fun h => ?_) fun hfull => Bool.false_ne_true (hfree.symm.trans (hfull i hi))
      have hsame : s.dmaBitmap.set i = s.dmaBitmap := h.2 rfl
      have hset := Bitmap.test_set s.dmaBitmap i i
      rw [hsame, hfree, decide_eq_true rfl] at hset
      exact Bool.false_ne_true hset
    · refine iff_of_false (fun h => ?_) fun hfull => Bool.false_ne_true (hfree.symm.trans (hfull i hi))
      obtain ⟨base, hres, k, hk, heq⟩ := h.1 (dmaVirt_ne_zero hi)
      rw [hpage, hzero, show (0 : Word) = 0#64 from rfl, BitVec.zero_add] at heq
      -- a reserved run is above the kernel
      have hnat := congrArg BitVec.toNat heq
      have hlt := hres.lt
      have hlow := hres.low
      have hkernel := v.pmm.image_le
      rw [Pmm.physOf_toNat (by omega), BitVec.toNat_ofNat] at hnat
      rw [dmaPageAmount] at hi
      rw [Pmm.firstPage] at hlow
      dsimp only at hlow
      omega
    · exact iff_of_true ⟨fun h => absurd rfl h, fun _ => rfl⟩ hfull
  · have hne : s.dmaPages ≠ 0 := by
      rw [hpool.pages]
      exact hpool.page_ne_zero (i := 0) (by decide)
    refine iff_of_true ?_ (.inl hne)
    obtain ⟨i, hi, -, -, h0, -⟩ | ⟨i, hi, -, hpage, v, hmap, rfl, rfl⟩ | ⟨-, rfl, rfl⟩ :=
      sysDmaAllocPage_cases hcall
    · rw [hpool.page_eq] at h0
      exact absurd h0 (hpool.page_ne_zero hi)
    · refine ⟨fun _ => ⟨base, (step_alloc_pool hpool hcall).toReserved, i, hi, ?_⟩,
        fun h => absurd h (dmaVirt_ne_zero hi)⟩
      rw [hpage, hpool.page_eq]
    · exact ⟨fun h => absurd rfl h, fun _ => rfl⟩

end

/-! ## Without a pool -/

/-- The state that `kmain` leaves. -/
def boot (p : PageState) : DmaState := ⟨p.toVmState, fun _ => 0, 0, fun _ => none⟩

theorem reachable_boot {p : PageState} (hp : pageSystem.Reachable p) :
    kmainSystem.Reachable (boot p) := .init ⟨p, hp, rfl, rfl, rfl⟩

/-- The first page is `NULL`. -/
theorem sysDmaAllocPage_boot (p : PageState) (cr3 : Word) :
    (boot p).sysDmaAllocPage cr3 =
      some (0, { boot p with dmaBitmap := Bitmap.set (fun _ => 0) 0 }) := by
  have hfind : ((List.range dmaPageAmount).find? fun i => !Bitmap.test (fun _ => 0) i) = some 0 := by
    decide
  simp only [sysDmaAllocPage, kdmaPalloc, boot, hfind]
  rfl

/-- Nothing was set up, and the first call takes the page that is `NULL`. -/
theorem dma_alloc_from_pool_iff_boot : ∃ (s t : DmaState) (cr3 : Word),
    s.sysDmaAllocPage cr3 = some (0, t) ∧
      (s.FromPool 0 t ↔ s.dmaPages ≠ 0 ∨ ∀ i < dmaPageAmount, s.dmaBitmap.test i = true) := by
  obtain ⟨p, hp⟩ := PageState.exists_started splits_windowOwn
  have hcall := sysDmaAllocPage_boot p 0x9000
  have hs : dmaSystem.Reachable (boot p) := (reachable_boot (.init hp.init)).of_restrict
  exact ⟨_, _, _, hcall, dma_alloc_from_pool_iff hs hcall⟩

/-- The second page is in the frame `1`. -/
theorem kdmaPalloc_second (p : PageState) :
    ({ boot p with dmaBitmap := Bitmap.set (fun _ => 0) 0 } : DmaState).kdmaPalloc =
      (0x1000, { boot p with dmaBitmap := (Bitmap.set (fun _ => 0) 0).set 1 }) := by
  have hfind : ((List.range dmaPageAmount).find? fun i =>
      !Bitmap.test (Bitmap.set (fun _ => 0) 0) i) = some 1 := by decide
  simp only [kdmaPalloc, hfind]
  rfl

theorem exists_second (p : PageState) {cr3 : Word} {v : Vmm}
    (hv : p.vmm.kvmmapAt cr3 0xFFFF800000501000 0x1000 0x07 = some v) :
    ∃ t, ({ boot p with dmaBitmap := Bitmap.set (fun _ => 0) 0 } : DmaState).sysDmaAllocPage cr3 =
      some (0xFFFF800000501000, t) := by
  have hvirt : dmaVirtBase + (0x1000 - (boot p).dmaPages) / 4096 * 4096 = 0xFFFF800000501000 := by
    rw [show (boot p).dmaPages = 0 from rfl]
    decide
  simp only [sysDmaAllocPage, kdmaPalloc_second, hvirt]
  rw [if_neg (by decide), show (boot p).vmm.kvmmapAt cr3 _ _ _ = _ from hv]
  exact ⟨_, rfl⟩

/-- The first call returns `0` and takes a page, the second maps the frame `1`, which is below
the end of the kernel. -/
theorem dma_alloc_maps_low_memory : ∃ (s t t' : DmaState) (cr3 : Word),
    kmainSystem.Reachable s ∧ cr3 ∈ s.roots ∧
    s.sysDmaAllocPage cr3 = some (0, t) ∧ t.dmaBitmap ≠ s.dmaBitmap ∧
    t.sysDmaAllocPage cr3 = some (0xFFFF800000501000, t') ∧ t.kdmaPalloc.1 = Pmm.physOf 1 ∧
    0x1000 < t.vmm.pmm.kernelEnd := by
  obtain ⟨p, hp⟩ := PageState.exists_started splits_windowOwn
  obtain ⟨new, w, hb, -, hplenty, -, hstep⟩ := hp.exists_create splits_windowOwn
  have hreach : pageSystem.Reachable (p.addRoot w (Pte.ofFrame new.pml4)) :=
    .step (.init hp.init) hstep
  obtain ⟨v, hv⟩ := exists_kvmmapAt (Plenty.mono hplenty (by decide)) (Pte.ofFrame new.pml4)
    0xFFFF800000501000 0x1000 0x07
  obtain ⟨t', ht'⟩ := exists_second (p.addRoot w (Pte.ofFrame new.pml4)) hv
  refine ⟨_, _, t', Pte.ofFrame new.pml4, reachable_boot hreach, List.mem_cons_self,
    sysDmaAllocPage_boot _ _, fun hsame => ?_, ht', congrArg Prod.fst (kdmaPalloc_second _), ?_⟩
  · have hset : Bitmap.test (Bitmap.set (fun _ => 0) 0) 0 = Bitmap.test (fun _ => 0) 0 :=
      congrArg (Bitmap.test · 0) hsame
    exact absurd hset (by decide)
  · have hend : w.pmm.kernelEnd = 0x200000 := hb.ext.kernelEnd.trans hp.kernelEnd
    exact Nat.lt_of_lt_of_eq (by decide) hend.symm

/-! ## Addresses -/

/-- **Addresses of pages for devices.** A call clears the bit of the page that the address lies in,
also for an address below the window, where the subtraction wraps. -/
theorem dma_free_page_by_address (s : DmaState) (h : s.dmaPages.toNat < 2 ^ 46) :
    (∀ addr : Word,
      (∀ n, (s.sysDmaFreePage addr).dmaBitmap.test n =
        (s.dmaBitmap.test n && !decide (n < dmaPageAmount ∧ InDmaPage addr n))) ∧
      ({ s.sysDmaFreePage addr with dmaBitmap := s.dmaBitmap } : DmaState) = s) ∧
    ∀ (cr3 r : Word) (t : DmaState), s.sysDmaAllocPage cr3 = some (r, t) → r ≠ 0 →
      (t.sysDmaFreePage r).dmaBitmap = s.dmaBitmap := by
  have hroom : s.dmaPages.toNat + 65536 < 2 ^ 64 := by omega
  constructor
  · intro addr
    by_cases hin : ∃ n < dmaPageAmount, InDmaPage addr n
    · obtain ⟨n, hn, hpage⟩ := hin
      have hindex := (inDmaPage_iff addr hn).mp hpage
      rw [sysDmaFreePage_eq hroom hn hindex]
      refine ⟨fun m => ?_, rfl⟩
      have hm : (m < dmaPageAmount ∧ InDmaPage addr m) ↔ m = n := by
        constructor
        · rintro ⟨hm, hmpage⟩
          rw [← hindex, ← (inDmaPage_iff addr hm).mp hmpage]
        · rintro rfl
          exact ⟨hn, hpage⟩
      rw [Bitmap.test_clear, decide_eq_decide.mpr hm, ← decide_not]
    · have hsame : s.sysDmaFreePage addr = s := by
        obtain hsame | ⟨i, hi, hindex, -⟩ := s.sysDmaFreePage_cases addr
        · exact hsame
        · refine absurd ⟨i, hi, (inDmaPage_iff addr hi).mpr ?_⟩ hin
          rw [hindex, BitVec.toNat_ofNat]
          rw [dmaPageAmount] at hi
          omega
      rw [hsame]
      refine ⟨fun n => ?_, rfl⟩
      rw [decide_eq_false fun hn => hin ⟨n, hn⟩, Bool.not_false, Bool.and_true]
  · intro cr3 r t hcall hr
    obtain ⟨_, _, _, _, _, h0, _⟩ | ⟨i, hi, hfree, -, v, -, rfl, rfl⟩ | ⟨_, h0, _⟩ :=
      sysDmaAllocPage_cases hcall
    · exact absurd h0 hr
    · apply Bitmap.ext_test
      intro j
      rw [sysDmaFreePage_eq (by exact hroom) hi (dmaVirt_index hi), Bitmap.test_clear,
        Bitmap.test_set]
      by_cases hj : j = i
      · simp [hj, hfree]
      · simp [hj]
    · exact absurd h0 hr

/-- A pool of free pages from `0x600000` on. -/
def pooled (p : PageState) : DmaState := { boot p with dmaPages := 0x600000 }

theorem exists_first (p : PageState) {cr3 : Word} {v : Vmm}
    (hv : p.vmm.kvmmapAt cr3 dmaVirtBase 0x600000 0x07 = some v) :
    ∃ t, (pooled p).sysDmaAllocPage cr3 = some (dmaVirtBase, t) := by
  have hpage : (pooled p).kdmaPalloc =
      (0x600000, { pooled p with dmaBitmap := Bitmap.set (fun _ => 0) 0 }) := by
    have hfind : ((List.range dmaPageAmount).find? fun i => !Bitmap.test (fun _ => 0) i) = some 0 := by
      decide
    simp only [kdmaPalloc, pooled, boot, hfind]
    rfl
  have hvirt : dmaVirtBase + (0x600000 - (pooled p).dmaPages) / 4096 * 4096 = dmaVirtBase := by
    rw [show (pooled p).dmaPages = 0x600000 from rfl]
    decide
  simp only [sysDmaAllocPage, hpage, hvirt]
  rw [if_neg (by decide), show (pooled p).vmm.kvmmapAt cr3 _ _ _ = _ from hv]
  exact ⟨_, rfl⟩

theorem dma_free_page_by_address_pooled : ∃ (s t : DmaState) (cr3 : Word),
    s.dmaPages = 0x600000 ∧ s.sysDmaAllocPage cr3 = some (dmaVirtBase, t) ∧
    (t.sysDmaFreePage dmaVirtBase).dmaBitmap = s.dmaBitmap ∧
    ∀ n, (s.sysDmaFreePage 0).dmaBitmap.test n =
      (s.dmaBitmap.test n && !decide (n < dmaPageAmount ∧ InDmaPage 0 n)) := by
  obtain ⟨p, hp⟩ := PageState.exists_started splits_windowOwn
  obtain ⟨new, w, -, -, hplenty, -, -⟩ := hp.exists_create splits_windowOwn
  obtain ⟨v, hv⟩ := exists_kvmmapAt (v := (p.addRoot w (Pte.ofFrame new.pml4)).vmm)
    (Plenty.mono hplenty (by decide)) (Pte.ofFrame new.pml4) dmaVirtBase 0x600000 0x07
  obtain ⟨t, hcall⟩ := exists_first (p.addRoot w (Pte.ofFrame new.pml4)) hv
  have h := dma_free_page_by_address (pooled (p.addRoot w (Pte.ofFrame new.pml4))) (by
    rw [show (pooled _).dmaPages = 0x600000 from rfl]
    decide)
  exact ⟨_, t, _, rfl, hcall, h.2 _ _ _ hcall (by decide), (h.1 0).1⟩

end DmaState

end Nyvela
