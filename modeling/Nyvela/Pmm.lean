import Nyvela.Lib.Bitmap
import Nyvela.Lib.Search

/-!
# The physical page allocator (`src/mm/pmm.c`)

One bit of `BITMAP` per 4 KiB frame, set when the frame is free. The three
allocators scan the frames above the kernel image and pass over physical
`[0x400000, 0x600000)`, where user programs are linked.
-/

namespace Nyvela

/-- A `uint64_t`; also a pointer, with `0` for `NULL`. -/
abbrev Word := BitVec 64

/-- The globals of `pmm.c` with the linker symbol `kernel_end`. `FRAME_COUNT` is
a 64-bit number divided by 4096, and the linker script starts the image at 1 MiB. -/
structure Pmm where
  bitmap : Bitmap
  frameCount : ℕ
  kernelEnd : ℕ
  frameCount_lt : frameCount < 2 ^ 52
  image_le : 0x100000 ≤ kernelEnd
  kernelEnd_lt : kernelEnd + 4095 < 2 ^ 64

namespace Pmm

def firstPage (p : Pmm) : ℕ := (p.kernelEnd + 4095) / 4096

def physOf (page : ℕ) : Word := BitVec.ofNat 64 (page * 0x1000)

/-- The window the allocators step over. -/
def skipped (phys : Word) : Bool := 0x400000#64 ≤ phys && phys < 0x600000#64

def kpalloc (p : Pmm) : Word × Pmm :=
  match searchUp (fun page => page < p.frameCount)
      (fun page => p.bitmap.test page && !skipped (physOf page))
      (p.frameCount + 1) p.firstPage with
  | some page => (physOf page, { p with bitmap := p.bitmap.clear page })
  | none => (0, p)

def kpallocTop (p : Pmm) : Word × Pmm :=
  match searchDown (fun page => p.bitmap.test page && !skipped (physOf page))
      p.firstPage p.frameCount with
  | some page => (physOf page, { p with bitmap := p.bitmap.clear page })
  | none => (0, p)

/-- The inner loop of `kpalloc_contiguous`: is every page of the run usable? -/
def runOk (p : Pmm) (pages page : ℕ) : Bool :=
  (List.range pages).all fun i => !skipped (physOf (page + i)) && p.bitmap.test (page + i)

def clearRun (b : Bitmap) (page pages : ℕ) : Bitmap :=
  (List.range pages).foldl (fun b i => b.clear (page + i)) b

/-- The sum in the loop guard is a 64-bit one. Whether or not it wraps, the guard
fails within `FRAME_COUNT + 1` rounds. -/
def kpallocContiguous (p : Pmm) (pages : Word) : Word × Pmm :=
  if pages = 0 then (0, p)
  else if pages = 1 then p.kpalloc
  else
    match searchUp (fun page => (page + pages.toNat) % 2 ^ 64 ≤ p.frameCount)
        (p.runOk pages.toNat) (p.frameCount + 1) p.firstPage with
    | some page => (physOf page, { p with bitmap := clearRun p.bitmap page pages.toNat })
    | none => (0, p)

/-- `none` is the halted kernel: `kpfree` prints its error and hangs. -/
def kpfree (p : Pmm) (page : Word) : Option Pmm :=
  if page = 0 then some p
  else if page % 0x1000 ≠ 0 then none
  else
    let frame := (page / 0x1000).toNat
    if p.frameCount ≤ frame then none
    else if p.bitmap.test frame then none
    else some { p with bitmap := p.bitmap.set frame }

def kpfreeContiguous (p : Pmm) (page pages : Word) : Option Pmm :=
  if page = 0 ∨ pages = 0 then some p
  else (List.range pages.toNat).foldlM
    (fun p i => p.kpfree (page + BitVec.ofNat 64 (i * 0x1000))) p

/-! ## The abstract allocator -/

/-- `F`: the free frames. -/
def free (p : Pmm) : Set ℕ := p.bitmap.members

/-- `A`: the free frames the allocators may hand out. -/
def allocatable (p : Pmm) : Set ℕ :=
  {f | f ∈ p.free ∧ p.firstPage ≤ f ∧ f < p.frameCount ∧
    ¬(0x400000 ≤ f * 4096 ∧ f * 4096 < 0x600000)}

/-- The starts of `n` consecutive allocatable frames. -/
def runs (p : Pmm) (n : ℕ) : Set ℕ := {f | ∀ i < n, f + i ∈ p.allocatable}

/-- At least `n` frames can be handed out. -/
def Plenty (p : Pmm) (n : ℕ) : Prop :=
  ∃ l : List ℕ, l.Nodup ∧ n ≤ l.length ∧ ∀ f ∈ l, f ∈ p.allocatable

/-- Exactly `n` frames can be handed out. -/
def Spare (p : Pmm) (n : ℕ) : Prop := p.Plenty n ∧ ¬p.Plenty (n + 1)

/-- A call that hands out the `n` frames from a start that satisfies `choice`,
or `NULL` exactly when no start does. -/
structure Takes (p : Pmm) (r : Word × Pmm) (n : ℕ) (choice : ℕ → Prop) : Prop where
  start : ∀ f, choice f → r.1.toNat = f * 4096
  removed : ∀ f, choice f → r.2.free = p.free \ {j | f ≤ j ∧ j < f + n}
  null_iff : r.1 = 0 ↔ ¬∃ f, choice f
  unchanged : r.1 = 0 → r.2 = p
  frameCount : r.2.frameCount = p.frameCount
  kernelEnd : r.2.kernelEnd = p.kernelEnd

/-! ## The scans find what the abstract allocator chooses -/

theorem ext_test {p q : Pmm} (htest : ∀ f, p.bitmap.test f = q.bitmap.test f)
    (hcount : p.frameCount = q.frameCount) (hend : p.kernelEnd = q.kernelEnd) : p = q := by
  have hbitmap := Bitmap.ext_test htest
  cases p
  cases q
  simp_all

theorem physOf_toNat {page : ℕ} (h : page < 2 ^ 52) : (physOf page).toNat = page * 4096 := by
  rw [physOf, BitVec.toNat_ofNat]
  omega

theorem physOf_ne_zero {page : ℕ} (h : page < 2 ^ 52) (h0 : 0 < page) : physOf page ≠ 0 := by
  intro hz
  have ht := congrArg BitVec.toNat hz
  rw [physOf_toNat h] at ht
  simp at ht
  omega

theorem skipped_physOf {page : ℕ} (h : page < 2 ^ 52) :
    skipped (physOf page) = true ↔ 0x400000 ≤ page * 4096 ∧ page * 4096 < 0x600000 := by
  simp only [skipped, Bool.and_eq_true, decide_eq_true_eq, BitVec.le_def, BitVec.lt_def,
    physOf_toNat h]
  rfl

theorem firstPage_pos (p : Pmm) : 0 < p.firstPage := by
  have := p.image_le
  unfold firstPage
  omega

/-- The test both loops make on one page, for pages below `FRAME_COUNT`. -/
theorem mem_allocatable_iff {p : Pmm} {f : ℕ} (hf : f < p.frameCount) :
    f ∈ p.allocatable ↔
      p.firstPage ≤ f ∧ (p.bitmap.test f && !skipped (physOf f)) = true := by
  have hlt : f < 2 ^ 52 := hf.trans p.frameCount_lt
  have hs := skipped_physOf hlt
  rw [Bool.and_eq_true, Bool.not_eq_true', ← Bool.not_eq_true, hs]
  constructor
  · rintro ⟨hfree, hfirst, -, hout⟩
    exact ⟨hfirst, hfree, hout⟩
  · rintro ⟨hfirst, hfree, hout⟩
    exact ⟨hfree, hfirst, hf, hout⟩

theorem upward_kpalloc (p : Pmm) :
    upward (fun page => decide (page < p.frameCount))
      (fun page => p.bitmap.test page && !skipped (physOf page)) p.firstPage = p.allocatable := by
  ext f
  constructor
  · rintro ⟨hfirst, hall, hf⟩
    have hlt : f < p.frameCount := of_decide_eq_true (hall f hfirst le_rfl)
    exact (mem_allocatable_iff hlt).mpr ⟨hfirst, hf⟩
  · intro hf
    have hlt : f < p.frameCount := hf.2.2.1
    obtain ⟨hfirst, hok⟩ := (mem_allocatable_iff hlt).mp hf
    exact ⟨hfirst, fun k _ hk => decide_eq_true (by omega), hok⟩

theorem downward_kpallocTop (p : Pmm) :
    {f | p.firstPage ≤ f ∧ f < p.frameCount ∧
      (p.bitmap.test f && !skipped (physOf f)) = true} = p.allocatable := by
  ext f
  constructor
  · rintro ⟨hfirst, hlt, hok⟩
    exact (mem_allocatable_iff hlt).mpr ⟨hfirst, hok⟩
  · intro hf
    have hlt : f < p.frameCount := hf.2.2.1
    obtain ⟨hfirst, hok⟩ := (mem_allocatable_iff hlt).mp hf
    exact ⟨hfirst, hlt, hok⟩

theorem runOk_iff {p : Pmm} {n page : ℕ} (hfirst : p.firstPage ≤ page)
    (hlt : page + n ≤ p.frameCount) : p.runOk n page = true ↔ page ∈ p.runs n := by
  simp only [runOk, List.all_eq_true, List.mem_range]
  constructor
  · intro h i hi
    refine (mem_allocatable_iff (by omega)).mpr ⟨by omega, ?_⟩
    rw [Bool.and_comm]
    exact h i hi
  · intro h i hi
    have hok := ((mem_allocatable_iff (by omega)).mp (h i hi)).2
    rwa [Bool.and_comm] at hok

theorem upward_kpallocContiguous (p : Pmm) {n : ℕ} (hn : 1 ≤ n)
    (hov : p.firstPage + n < 2 ^ 64) :
    upward (fun page => decide ((page + n) % 2 ^ 64 ≤ p.frameCount)) (p.runOk n) p.firstPage =
      p.runs n := by
  have hfc := p.frameCount_lt
  ext f
  constructor
  · rintro ⟨hfirst, hall, hok⟩
    -- the guard holds at every page up to `f`, so no sum up to there wraps
    have hle : ∀ k, p.firstPage + k ≤ f → p.firstPage + k + n ≤ p.frameCount := by
      intro k
      induction k with
      | zero =>
        intro hk
        have hg := of_decide_eq_true (hall p.firstPage le_rfl hfirst)
        rw [Nat.mod_eq_of_lt hov] at hg
        simpa using hg
      | succ k ih =>
        intro hk
        have hprev := ih (by omega)
        have hg := of_decide_eq_true (hall (p.firstPage + (k + 1)) (by omega) hk)
        rw [Nat.mod_eq_of_lt (by omega)] at hg
        exact hg
    have hlt := hle (f - p.firstPage) (by omega)
    exact (runOk_iff hfirst (by omega)).mp hok
  · intro hf
    have hfirst : p.firstPage ≤ f := (hf 0 (by omega)).2.1
    have hlast : f + (n - 1) < p.frameCount := (hf (n - 1) (by omega)).2.2.1
    refine ⟨hfirst, fun k _ hk => decide_eq_true ?_, (runOk_iff hfirst (by omega)).mpr hf⟩
    rw [Nat.mod_eq_of_lt (by omega)]
    omega

theorem members_clearRun (b : Bitmap) (page n : ℕ) :
    (clearRun b page n).members = b.members \ {j | page ≤ j ∧ j < page + n} := by
  induction n with
  | zero =>
    ext j
    simp only [clearRun, List.range_zero, List.foldl_nil, Set.mem_sdiff, Set.mem_ofPred_eq]
    constructor
    · intro hj
      exact ⟨hj, by omega⟩
    · exact fun hj => hj.1
  | succ n ih =>
    have hstep : clearRun b page (n + 1) = (clearRun b page n).clear (page + n) := by
      simp [clearRun, List.range_succ]
    rw [hstep, Bitmap.members_clear, ih]
    ext j
    simp only [Set.mem_sdiff, Set.mem_ofPred_eq, Set.mem_singleton_iff]
    constructor
    · rintro ⟨⟨hj, hout⟩, hne⟩
      exact ⟨hj, by omega⟩
    · rintro ⟨hj, hout⟩
      exact ⟨⟨hj, by omega⟩, by omega⟩

theorem free_clear (p : Pmm) (f : ℕ) :
    ({ p with bitmap := p.bitmap.clear f } : Pmm).free = p.free \ {j | f ≤ j ∧ j < f + 1} := by
  have hone : {j | f ≤ j ∧ j < f + 1} = ({f} : Set ℕ) := by
    ext j
    simp only [Set.mem_ofPred_eq, Set.mem_singleton_iff]
    omega
  rw [hone]
  exact Bitmap.members_clear _ _

/-! ## Refinement -/

theorem takes_null {p : Pmm} {n : ℕ} {choice : ℕ → Prop} (h : ¬∃ f, choice f) :
    Takes p (0, p) n choice where
  start f hf := absurd ⟨f, hf⟩ h
  removed f hf := absurd ⟨f, hf⟩ h
  null_iff := by simpa using h
  unchanged _ := rfl
  frameCount := rfl
  kernelEnd := rfl

theorem takes_page {p : Pmm} {n f : ℕ} {b : Bitmap} {choice : ℕ → Prop} (hf : choice f)
    (huniq : ∀ g, choice g → g = f) (hmem : f ∈ p.allocatable)
    (hb : b.members = p.free \ {j | f ≤ j ∧ j < f + n}) :
    Takes p (physOf f, { p with bitmap := b }) n choice where
  start g hg := by
    rw [huniq g hg]
    exact physOf_toNat (hmem.2.2.1.trans p.frameCount_lt)
  removed g hg := by
    rw [huniq g hg]
    exact hb
  null_iff := by
    have hpos : 0 < f := p.firstPage_pos.trans_le hmem.2.1
    have hne : physOf f ≠ 0 := physOf_ne_zero (hmem.2.2.1.trans p.frameCount_lt) hpos
    constructor
    · exact fun hz => absurd hz hne
    · exact fun hno => absurd ⟨f, hf⟩ hno
  unchanged hz := by
    have hpos : 0 < f := p.firstPage_pos.trans_le hmem.2.1
    exact absurd hz (physOf_ne_zero (hmem.2.2.1.trans p.frameCount_lt) hpos)
  frameCount := rfl
  kernelEnd := rfl

theorem kpalloc_takes (p : Pmm) : Takes p p.kpalloc 1 (IsLeast p.allocatable) := by
  have hspec := searchUp_spec (fun page => decide (page < p.frameCount))
    (fun page => p.bitmap.test page && !skipped (physOf page)) (p.frameCount + 1) p.firstPage
    ⟨p.frameCount, by omega, by simp⟩
  rw [upward_kpalloc] at hspec
  unfold kpalloc
  rcases hspec with ⟨f, hs, hleast⟩ | ⟨hs, hempty⟩
  · rw [hs]
    exact takes_page hleast (fun g hg => hg.unique hleast) hleast.1 (free_clear p f)
  · rw [hs]
    apply takes_null
    rintro ⟨f, hf, -⟩
    simp [hempty] at hf

theorem kpallocTop_takes (p : Pmm) : Takes p p.kpallocTop 1 (IsGreatest p.allocatable) := by
  have hspec := searchDown_spec (fun page => p.bitmap.test page && !skipped (physOf page))
    p.firstPage p.frameCount
  rw [downward_kpallocTop] at hspec
  unfold kpallocTop
  rcases hspec with ⟨f, hs, hgreatest⟩ | ⟨hs, hempty⟩
  · rw [hs]
    exact takes_page hgreatest (fun g hg => hg.unique hgreatest) hgreatest.1 (free_clear p f)
  · rw [hs]
    apply takes_null
    rintro ⟨f, hf, -⟩
    simp [hempty] at hf

theorem runs_one (p : Pmm) : p.runs 1 = p.allocatable := by
  ext f
  constructor
  · intro h
    simpa using h 0 (by omega)
  · intro h i hi
    rwa [show f + i = f by omega]

theorem kpallocContiguous_takes (p : Pmm) (pages : Word) (hn : 1 ≤ pages.toNat)
    (hov : p.firstPage + pages.toNat < 2 ^ 64) :
    Takes p (p.kpallocContiguous pages) pages.toNat (IsLeast (p.runs pages.toNat)) := by
  have h0 : pages ≠ 0 := by rintro rfl; simp at hn
  unfold kpallocContiguous
  rw [if_neg h0]
  by_cases h1 : pages = 1
  · have hone : pages.toNat = 1 := by rw [h1]; rfl
    rw [if_pos h1, hone, runs_one]
    exact p.kpalloc_takes
  · rw [if_neg h1]
    have hstop : ∃ k < p.frameCount + 1,
        decide ((p.firstPage + k + pages.toNat) % 2 ^ 64 ≤ p.frameCount) = false := by
      have hpos := p.firstPage_pos
      have hfc := p.frameCount_lt
      by_cases hfit : p.firstPage + pages.toNat ≤ p.frameCount
      · exact ⟨p.frameCount, by omega, decide_eq_false (by omega)⟩
      · exact ⟨0, by omega, decide_eq_false (by omega)⟩
    have hspec := searchUp_spec (fun page => decide ((page + pages.toNat) % 2 ^ 64 ≤ p.frameCount))
      (p.runOk pages.toNat) (p.frameCount + 1) p.firstPage hstop
    rw [upward_kpallocContiguous p hn hov] at hspec
    rcases hspec with ⟨f, hs, hleast⟩ | ⟨hs, hempty⟩
    · have hmem : f ∈ p.allocatable := by simpa using hleast.1 0 (by omega)
      simp only [hs]
      exact takes_page hleast (fun g hg => hg.unique hleast) hmem (members_clearRun _ _ _)
    · simp only [hs]
      apply takes_null
      rintro ⟨f, hf, -⟩
      simp [hempty] at hf

theorem kpfree_used {p : Pmm} {f : ℕ} (hpos : 0 < f) (hf : f < p.frameCount)
    (hused : f ∉ p.free) :
    p.kpfree (physOf f) = some { p with bitmap := p.bitmap.set f } := by
  have hlt : f < 2 ^ 52 := hf.trans p.frameCount_lt
  have hmod : physOf f % 0x1000 = 0 := by
    apply BitVec.eq_of_toNat_eq
    rw [BitVec.toNat_umod, physOf_toNat hlt]
    simp
  have hdiv : (physOf f / 0x1000).toNat = f := by
    rw [BitVec.toNat_udiv, physOf_toNat hlt]
    simp
  have htest : p.bitmap.test f = false := by simpa [free] using hused
  unfold kpfree
  simp only [if_neg (physOf_ne_zero hlt hpos), hmod, ne_eq, not_true, if_false, hdiv,
    if_neg (Nat.not_le.mpr hf), htest, Bool.false_eq_true]

theorem physOf_of_toNat {w : Word} {f : ℕ} (h : w.toNat = f * 4096) : w = physOf f := by
  apply BitVec.eq_of_toNat_eq
  have := w.isLt
  rw [physOf, BitVec.toNat_ofNat]
  omega

/-- The frame a successful `kpalloc` hands out, as a frame number. -/
theorem kpalloc_eq_some {p : Pmm} (h : p.kpalloc.1 ≠ 0) :
    ∃ f, IsLeast p.allocatable f ∧
      p.kpalloc = (physOf f, { p with bitmap := p.bitmap.clear f }) := by
  have hspec := searchUp_spec (fun page => decide (page < p.frameCount))
    (fun page => p.bitmap.test page && !skipped (physOf page)) (p.frameCount + 1) p.firstPage
    ⟨p.frameCount, by omega, by simp⟩
  rw [upward_kpalloc] at hspec
  rcases hspec with ⟨f, hs, hleast⟩ | ⟨hs, -⟩
  · refine ⟨f, hleast, ?_⟩
    unfold kpalloc
    rw [hs]
  · simp [kpalloc, hs] at h

theorem kpalloc_eq_null {p : Pmm} (h : p.kpalloc.1 = 0) (f : ℕ) : f ∉ p.allocatable := by
  have hspec := searchUp_spec (fun page => decide (page < p.frameCount))
    (fun page => p.bitmap.test page && !skipped (physOf page)) (p.frameCount + 1) p.firstPage
    ⟨p.frameCount, by omega, by simp⟩
  rw [upward_kpalloc] at hspec
  rcases hspec with ⟨g, -, hleast⟩ | ⟨-, hempty⟩
  · exact absurd ⟨g, hleast⟩ (p.kpalloc_takes.null_iff.mp h)
  · simp [hempty]

theorem kpfree_kpalloc {p : Pmm} (h : p.kpalloc.1 ≠ 0) :
    p.kpalloc.2.kpfree p.kpalloc.1 = some p := by
  obtain ⟨f, hleast, heq⟩ := kpalloc_eq_some h
  have hf : f ∈ p.allocatable := hleast.1
  have hused : f ∉ ({ p with bitmap := p.bitmap.clear f } : Pmm).free := by
    simp [free, Bitmap.test_clear]
  have hset : (p.bitmap.clear f).set f = p.bitmap := Bitmap.set_clear_of_test hf.1
  have hfree := kpfree_used (p := { p with bitmap := p.bitmap.clear f })
    (p.firstPage_pos.trans_le hf.2.1) hf.2.2.1 hused
  rw [heq]
  simpa only [hset] using hfree

/-- The byte-packed allocator implements the set of free frames. -/
theorem allocator_refines_free_set (p : Pmm) :
    Takes p p.kpalloc 1 (IsLeast p.allocatable) ∧
    Takes p p.kpallocTop 1 (IsGreatest p.allocatable) ∧
    (∀ pages : Word, 1 ≤ pages.toNat → p.firstPage + pages.toNat < 2 ^ 64 →
      Takes p (p.kpallocContiguous pages) pages.toNat (IsLeast (p.runs pages.toNat))) ∧
    (∀ f, 0 < f → f < p.frameCount → f ∉ p.free →
      ∃ p', p.kpfree (physOf f) = some p' ∧ p'.free = insert f p.free ∧
        p'.frameCount = p.frameCount ∧ p'.kernelEnd = p.kernelEnd) ∧
    (p.kpalloc.1 ≠ 0 → p.kpalloc.2.kpfree p.kpalloc.1 = some p) := by
  refine ⟨p.kpalloc_takes, p.kpallocTop_takes, p.kpallocContiguous_takes, ?_, kpfree_kpalloc⟩
  intro f hpos hf hused
  exact ⟨_, kpfree_used hpos hf hused, Bitmap.members_set _ _, rfl, rfl⟩

/-- A machine with 16 MiB of RAM and a kernel that ends at 2 MiB, as `kpmm_init`
leaves it: the frames from `0x200` to `0xfff` are free. -/
def sixteenMiB : Pmm where
  bitmap j := if 0x40 ≤ j ∧ j < 0x200 then 0xff else 0
  frameCount := 0x1000
  kernelEnd := 0x200000
  frameCount_lt := by decide
  image_le := by decide
  kernelEnd_lt := by decide

theorem sixteenMiB_test (f : ℕ) :
    sixteenMiB.bitmap.test f = decide (0x200 ≤ f ∧ f < 0x1000) := by
  have hdiv : 0x40 ≤ f / 8 ∧ f / 8 < 0x200 ↔ 0x200 ≤ f ∧ f < 0x1000 := by omega
  have hones : ∀ k < 8, (0xff#8).getLsbD k = true := by decide
  rw [Bitmap.test_eq_getLsbD]
  by_cases h : 0x200 ≤ f ∧ f < 0x1000
  · simp only [sixteenMiB, if_pos (hdiv.mpr h), decide_eq_true h]
    exact hones _ (Nat.mod_lt f (by decide))
  · simp [sixteenMiB, if_neg (mt hdiv.mp h), h]

theorem sixteenMiB_allocatable :
    sixteenMiB.allocatable = {f | (0x200 ≤ f ∧ f < 0x400) ∨ (0x600 ≤ f ∧ f < 0x1000)} := by
  ext f
  have hfree : f ∈ sixteenMiB.free ↔ 0x200 ≤ f ∧ f < 0x1000 := by
    simp [free, sixteenMiB_test]
  have hfirst : sixteenMiB.firstPage = 0x200 := rfl
  have hcount : sixteenMiB.frameCount = 0x1000 := rfl
  simp only [allocatable, Set.mem_ofPred_eq, hfree, hfirst, hcount]
  omega

example : sixteenMiB.kpalloc.1 = 0x200000 := by decide

end Pmm

end Nyvela
