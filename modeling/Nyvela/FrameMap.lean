import Mathlib.Data.List.Induction
import Nyvela.DeviceMemory

/-!
# The frames at boot (`kpmm_init` in `src/mm/pmm.c`)

The firmware reports regions of memory in any order; they may overlap and need not be
page-aligned. `kpmm_init` sizes the bitmap by the highest address of a usable region,
frees the whole pages of each usable region and takes those of the kernel image back.
-/

namespace Nyvela

def mmapEntriesMax : ℕ := 512

/-- The first loop of `kpmm_init`: the highest end of a usable entry. -/
def highestEnd (l : List E820Entry) : ℕ :=
  l.foldl (fun endAddr e => if e.usable && decide (endAddr < e.endAddr) then e.endAddr else endAddr) 0

/-- `FRAME_COUNT`, with the sum in 64 bits. -/
def frameCountOf (l : List E820Entry) : ℕ := (highestEnd l + 0xFFF) % 2 ^ 64 / 0x1000

/-- The bits of the pages from `first` on that are below `last`. -/
def Bitmap.setPages (b : Bitmap) (first last : ℕ) : Bitmap :=
  (List.range (last - first)).foldl (fun b i => b.set (first + i)) b

/-- Both bounds are 64-bit sums; the first is rounded up and the second down. -/
def E820Entry.mark (b : Bitmap) (e : E820Entry) : Bitmap :=
  if e.usable then b.setPages ((e.baseAddr + 4095) % 2 ^ 64 / 4096) (e.endAddr / 4096) else b

namespace Pmm

/-- `BITMAP_SIZE`. -/
def bitmapSize (p : Pmm) : ℕ := (p.frameCount + 7) / 8

/-- `p` is the state before: whatever memory holds at `BITMAP`. -/
def kpmmInit (p : Pmm) (table : List E820Entry) : Pmm :=
  let l := table.take mmapEntriesMax
  let frameCount := frameCountOf l
  let bitmap : Bitmap := Memory.memset p.bitmap 0 0 ((frameCount + 7) / 8)
  { p with
    bitmap := clearRun (l.foldl E820Entry.mark bitmap) 0 p.firstPage
    frameCount := frameCount
    frameCount_lt := by
      simp only [frameCount, frameCountOf]
      omega }

/-- The bit of frame `f` is in the bitmap and is set. -/
def MarkedFree (p : Pmm) (f : ℕ) : Prop := f / 8 < p.bitmapSize ∧ p.bitmap.test f = true

end Pmm

/-- The entry spans all of page `f`. -/
def E820Entry.Spans (e : E820Entry) (f : ℕ) : Prop :=
  e.usable = true ∧ e.baseAddr ≤ 4096 * f ∧ 4096 * f + 4096 ≤ e.baseAddr + e.lengthInBytes

/-! ## The loops -/

section

variable {l : List E820Entry} {e : E820Entry} {f : ℕ}

theorem highestEnd_append (l : List E820Entry) (e : E820Entry) :
    highestEnd (l ++ [e]) =
      if e.usable && decide (highestEnd l < e.endAddr) then e.endAddr else highestEnd l := by
  simp [highestEnd]

theorem endAddr_le_highestEnd (he : e ∈ l) (hu : e.usable = true) : e.endAddr ≤ highestEnd l := by
  induction l using List.reverseRecOn with
  | nil => simp at he
  | append_singleton l d ih =>
    rw [highestEnd_append]
    rcases List.mem_append.mp he with he | he
    · have hle := ih he
      split_ifs with hd
      · simp only [Bool.and_eq_true, decide_eq_true_eq] at hd
        omega
      · exact hle
    · obtain rfl := List.mem_singleton.mp he
      split_ifs with hd
      · exact le_rfl
      · simpa [hu] using hd

/-- The highest end is that of an entry, if it is not that of an empty memory. -/
theorem exists_highestEnd (h : highestEnd l ≠ 0) :
    ∃ e ∈ l, e.usable = true ∧ e.endAddr = highestEnd l := by
  induction l using List.reverseRecOn with
  | nil => exact absurd rfl h
  | append_singleton l d ih =>
    rw [highestEnd_append] at h ⊢
    split_ifs at h ⊢ with hd
    · simp only [Bool.and_eq_true, decide_eq_true_eq] at hd
      exact ⟨d, by simp, hd.1, rfl⟩
    · obtain ⟨e, he, hu, heq⟩ := ih h
      exact ⟨e, by simp [he], hu, heq⟩

theorem Bitmap.test_setPages (b : Bitmap) (first last : ℕ) :
    (b.setPages first last).test f = true ↔ b.test f = true ∨ (first ≤ f ∧ f < last) := by
  have hrun : ∀ n, ((List.range n).foldl (fun b i => b.set (first + i)) b).test f = true ↔
      b.test f = true ∨ (first ≤ f ∧ f < first + n) := by
    intro n
    induction n with
    | zero => simp
    | succ n ih =>
      rw [List.range_succ, List.foldl_append, List.foldl_cons, List.foldl_nil, Bitmap.test_set,
        Bool.or_eq_true, ih, decide_eq_true_eq, or_assoc]
      exact or_congr_right (by omega)
  rw [setPages, hrun]
  exact or_congr_right (by omega)

/-- The pages that an entry frees are those it spans. -/
theorem E820Entry.test_mark (b : Bitmap) (hwrap : e.baseAddr + e.lengthInBytes + 4095 < 2 ^ 64) :
    (e.mark b).test f = true ↔ b.test f = true ∨ e.Spans f := by
  unfold mark Spans
  split_ifs with hu
  · rw [Bitmap.test_setPages, endAddr, Nat.mod_eq_of_lt (by omega), Nat.mod_eq_of_lt (by omega)]
    simp only [hu, true_and]
    exact or_congr_right (by omega)
  · simp [hu]

theorem test_foldl_mark (hwrap : ∀ e ∈ l, e.baseAddr + e.lengthInBytes + 4095 < 2 ^ 64) (b : Bitmap) :
    (l.foldl E820Entry.mark b).test f = true ↔ b.test f = true ∨ ∃ e ∈ l, e.Spans f := by
  induction l generalizing b with
  | nil => simp
  | cons d l ih =>
    rw [List.foldl_cons, ih (fun e he => hwrap e (List.mem_cons_of_mem _ he)),
      E820Entry.test_mark b (hwrap d List.mem_cons_self), or_assoc]
    simp only [List.mem_cons, exists_eq_or_imp]

/-- A page that an entry spans has its bit in the bitmap. -/
theorem Spans.lt_frameCountOf (hwrap : ∀ e ∈ l, e.baseAddr + e.lengthInBytes + 4095 < 2 ^ 64)
    (he : e ∈ l) (hf : e.Spans f) : f < frameCountOf l := by
  obtain ⟨hu, -, hlast⟩ := hf
  have hle := endAddr_le_highestEnd he hu
  have hnowrap := hwrap e he
  rw [E820Entry.endAddr, Nat.mod_eq_of_lt (by omega)] at hle
  have hlt : highestEnd l + 0xFFF < 2 ^ 64 := by
    obtain ⟨d, hd, -, heq⟩ := exists_highestEnd (l := l) (by omega)
    have := hwrap d hd
    rw [E820Entry.endAddr, Nat.mod_eq_of_lt (by omega)] at heq
    omega
  rw [frameCountOf, Nat.mod_eq_of_lt hlt]
  omega

end

namespace Pmm

variable {p : Pmm} {table : List E820Entry} {f : ℕ}

theorem kpmmInit_firstPage (p : Pmm) (table : List E820Entry) :
    (p.kpmmInit table).firstPage = p.firstPage := rfl

theorem kpmmInit_frameCount (p : Pmm) (table : List E820Entry) :
    (p.kpmmInit table).frameCount = frameCountOf (table.take mmapEntriesMax) := rfl

theorem test_kpmmInit
    (hwrap : ∀ e ∈ table, e.baseAddr + e.lengthInBytes + 4095 < 2 ^ 64) :
    (p.kpmmInit table).bitmap.test f = true ↔ p.firstPage ≤ f ∧
      (((p.kpmmInit table).bitmapSize ≤ f / 8 ∧ p.bitmap.test f = true) ∨
        ∃ e ∈ table.take mmapEntriesMax, e.Spans f) := by
  have hclear : ∀ b : Bitmap, (clearRun b 0 p.firstPage).test f = true ↔
      b.test f = true ∧ p.firstPage ≤ f := by
    intro b
    have hmem := Set.ext_iff.mp (members_clearRun b 0 p.firstPage) f
    simp only [Bitmap.mem_members, Set.mem_sdiff, Set.mem_ofPred_eq] at hmem
    rw [hmem]
    constructor
    · exact fun h => ⟨h.1, by omega⟩
    · exact fun h => ⟨h.1, by omega⟩
  have hset : ∀ n, Bitmap.test (Memory.memset p.bitmap 0 0 n) f = true ↔
      n ≤ f / 8 ∧ p.bitmap.test f = true := by
    intro n
    rw [Bitmap.test, Memory.memset_apply]
    split_ifs with hn
    · have hlt : ¬n ≤ f / 8 := by omega
      simp [hlt]
    · exact ⟨fun h => ⟨by omega, h⟩, fun h => h.2⟩
  have hbits := test_foldl_mark (f := f) (l := table.take mmapEntriesMax)
    (fun e he => hwrap e (List.mem_of_mem_take he))
  exact (hclear _).trans (by rw [hbits, hset, and_comm]; rfl)

theorem lt_frameCount_of_spans
    (hwrap : ∀ e ∈ table, e.baseAddr + e.lengthInBytes + 4095 < 2 ^ 64)
    (hspan : ∃ e ∈ table.take mmapEntriesMax, e.Spans f) : f < (p.kpmmInit table).frameCount := by
  obtain ⟨e, he, hf⟩ := hspan
  exact Spans.lt_frameCountOf (fun e he => hwrap e (List.mem_of_mem_take he)) he hf

theorem markedFree_kpmmInit
    (hwrap : ∀ e ∈ table, e.baseAddr + e.lengthInBytes + 4095 < 2 ^ 64) :
    (p.kpmmInit table).MarkedFree f ↔
      p.firstPage ≤ f ∧ ∃ e ∈ table.take mmapEntriesMax, e.Spans f := by
  rw [MarkedFree, test_kpmmInit hwrap]
  constructor
  · rintro ⟨hsize, hfirst, ⟨hout, -⟩ | hspan⟩
    · omega
    · exact ⟨hfirst, hspan⟩
  · rintro ⟨hfirst, hspan⟩
    have hlt := lt_frameCount_of_spans (p := p) hwrap hspan
    exact ⟨by unfold bitmapSize; omega, hfirst, .inr hspan⟩

end Pmm

/-- The frames that are free after `kpmm_init` are the whole pages of usable memory above the
kernel image. No bit is set outside the frames and the bytes of the bitmap. -/
theorem kpmm_init_frees_usable (p : Pmm) (table : List E820Entry) (hlen : table.length ≤ 512)
    (hwrap : ∀ e ∈ table, e.baseAddr + e.lengthInBytes + 4095 < 2 ^ 64) :
    (∀ f, (p.kpmmInit table).MarkedFree f ↔
      (p.kernelEnd + 4095) / 4096 ≤ f ∧ ∃ e ∈ table, e.Spans f) ∧
    (∀ f, (p.kpmmInit table).MarkedFree f → f < (p.kpmmInit table).frameCount) ∧
    ∀ f, (p.kpmmInit table).bitmap.test f = true → (p.kpmmInit table).bitmapSize ≤ f / 8 →
      p.bitmap.test f = true := by
  have htake : table.take mmapEntriesMax = table := List.take_of_length_le hlen
  refine ⟨fun f => ?_, fun f hf => ?_, fun f htest hout => ?_⟩
  · rw [Pmm.markedFree_kpmmInit hwrap, htake]
    rfl
  · exact Pmm.lt_frameCount_of_spans hwrap ((Pmm.markedFree_kpmmInit hwrap).mp hf).2
  · obtain ⟨-, ⟨-, hold⟩ | hspan⟩ := (Pmm.test_kpmmInit hwrap).mp htest
    · exact hold
    · have hlt := Pmm.lt_frameCount_of_spans (p := p) hwrap hspan
      unfold Pmm.bitmapSize at hout
      omega

/-- Two overlapping regions that begin and end inside pages, above an image of 3 MiB. -/
theorem kpmm_init_frees_usable_overlapping :
    let p : Pmm := ⟨fun _ => 0xFF, 0, 0x400000, by decide, by decide, by decide⟩
    let table : List E820Entry := [⟨0x800800, 0x2000, true⟩, ⟨0x3FF000, 0x401900, true⟩]
    (p.kpmmInit table).MarkedFree 0x801 ∧ ¬(p.kpmmInit table).MarkedFree 0x800 := by
  intro p table
  obtain ⟨hfree, -, -⟩ := kpmm_init_frees_usable p table (by decide) (by decide)
  rw [hfree, hfree]
  refine ⟨⟨by decide, ⟨0x800800, 0x2000, true⟩, by simp [table], rfl, by decide, by decide⟩, ?_⟩
  rintro ⟨-, e, he, -, hbase, hend⟩
  simp only [table, List.mem_cons, List.not_mem_nil, or_false] at he
  rcases he with rfl | rfl
  · exact absurd hbase (by decide)
  · exact absurd hend (by decide)

/-! ## The place of the bitmap -/

section

variable {l : List E820Entry}

theorem highestEnd_le_iff {n : ℕ} :
    highestEnd l ≤ n ↔ ∀ e ∈ l, e.usable = true → e.endAddr ≤ n := by
  constructor
  · exact fun h e he hu => (endAddr_le_highestEnd he hu).trans h
  · intro h
    by_cases h0 : highestEnd l = 0
    · omega
    · obtain ⟨e, he, hu, heq⟩ := exists_highestEnd h0
      exact heq ▸ h e he hu

theorem lt_highestEnd_iff {n : ℕ} :
    n < highestEnd l ↔ ∃ e ∈ l, e.usable = true ∧ n < e.endAddr := by
  rw [← not_le, highestEnd_le_iff]
  push Not
  rfl

theorem highestEnd_lt (l : List E820Entry) : highestEnd l < 2 ^ 64 := by
  by_cases h0 : highestEnd l = 0
  · omega
  · obtain ⟨e, -, -, heq⟩ := exists_highestEnd h0
    rw [← heq]
    exact Nat.mod_lt _ (by decide)

/-- The end of the highest usable region bounds the bitmap, unless the frame count wraps to `0`. -/
theorem frameCountOf_le_iff {n : ℕ} :
    frameCountOf l ≤ n ↔ highestEnd l ≤ n * 4096 ∨ 2 ^ 64 - 4096 < highestEnd l := by
  have hlt := highestEnd_lt l
  unfold frameCountOf
  omega

end

/-- The bitmap keeps clear of the page below the first stack pointer, of video memory and of
the image, exactly if no usable region ends above `0x378000000`; or if one ends in the last page
of all, for then `FRAME_COUNT` wraps to `0`. -/
theorem bitmap_fits_iff (p : Pmm) (table : List E820Entry)
    (hwrap : ∀ e ∈ table, e.baseAddr + e.lengthInBytes < 2 ^ 64) :
    (¬Vmm.Overlap 0x10000 (p.kpmmInit table).bitmapSize 0x7F000 0x1000 ∧
      ¬Vmm.Overlap 0x10000 (p.kpmmInit table).bitmapSize 0xB8000 4000 ∧
      ¬Vmm.Overlap 0x10000 (p.kpmmInit table).bitmapSize 0x100000 (p.kernelEnd - 0x100000)) ↔
    (∀ e ∈ table.take 512, e.usable = true → e.baseAddr + e.lengthInBytes ≤ 0x378000000) ∨
      ∃ e ∈ table.take 512, e.usable = true ∧ 2 ^ 64 - 4096 < e.baseAddr + e.lengthInBytes := by
  have hsize : (p.kpmmInit table).bitmapSize ≤ 0x6F000 ↔
      frameCountOf (table.take 512) ≤ 0x378000 := by
    rw [Pmm.bitmapSize, Pmm.kpmmInit_frameCount, mmapEntriesMax]
    omega
  have hend : ∀ e ∈ table.take 512, e.endAddr = e.baseAddr + e.lengthInBytes := fun e he =>
    Nat.mod_eq_of_lt (hwrap e (List.mem_of_mem_take he))
  have hfits : (∀ e ∈ table.take 512, e.usable = true → e.baseAddr + e.lengthInBytes ≤ 0x378000000) ↔
      highestEnd (table.take 512) ≤ 0x378000 * 4096 := by
    rw [highestEnd_le_iff]
    exact forall₂_congr fun e he => by rw [hend e he]
  have hlast : (∃ e ∈ table.take 512, e.usable = true ∧
      2 ^ 64 - 4096 < e.baseAddr + e.lengthInBytes) ↔ 2 ^ 64 - 4096 < highestEnd (table.take 512) := by
    rw [lt_highestEnd_iff]
    constructor
    · rintro ⟨e, he, hu, hlt⟩
      exact ⟨e, he, hu, by rwa [hend e he]⟩
    · rintro ⟨e, he, hu, hlt⟩
      exact ⟨e, he, hu, by rwa [hend e he] at hlt⟩
  rw [hfits, hlast, ← frameCountOf_le_iff, ← hsize]
  constructor
  · rintro ⟨hstack, -, -⟩
    by_contra hbig
    exact hstack ⟨0x7F000, by omega, by omega⟩
  · intro hle
    refine ⟨?_, ?_, ?_⟩ <;> exact Vmm.not_overlap_of_le (by omega)

/-- Usable memory up to 8 GiB. -/
theorem bitmap_fits_iff_small :
    let p : Pmm := ⟨fun _ => 0, 0, 0x200000, by decide, by decide, by decide⟩
    ¬Vmm.Overlap 0x10000 (p.kpmmInit [⟨0x100000, 0x1FFF00000, true⟩]).bitmapSize 0x7F000 0x1000 := by
  intro p
  refine ((bitmap_fits_iff p [⟨0x100000, 0x1FFF00000, true⟩] (by decide)).mpr (.inl ?_)).1
  decide

/-- With usable memory up to 16 GiB the bitmap covers the stack that `kpmm_init` runs on. -/
theorem bitmap_covers_boot_stack :
    let p : Pmm := ⟨fun _ => 0, 0, 0x200000, by decide, by decide, by decide⟩
    let table : List E820Entry := [⟨0x100000000, 0x300000000, true⟩]
    (∀ e ∈ table, e.baseAddr + e.lengthInBytes + 4095 < 2 ^ 64) ∧
      (p.kpmmInit table).bitmapSize = 0x80000 ∧
      Vmm.Overlap 0x10000 (p.kpmmInit table).bitmapSize 0x7F000 0x1000 := by
  intro p table
  have hsize : (p.kpmmInit table).bitmapSize = 0x80000 := by decide
  refine ⟨by decide, hsize, 0x7F000, ?_, by decide⟩
  rw [hsize]
  decide

/-! ## The two views of RAM -/

/-- Page `f` begins in the entry, which ends before the page does. -/
def E820Entry.EndsIn (e : E820Entry) (f : ℕ) : Prop :=
  e.usable = true ∧ e.baseAddr ≤ 4096 * f ∧ 4096 * f < e.baseAddr + e.lengthInBytes ∧
    e.baseAddr + e.lengthInBytes < 4096 * f + 4096

/-- The machine after `kpmm_init` with this table, of which the kernel reads 512 entries. -/
def Vmm.kpmmInit (v : Vmm) (table : List E820Entry) : Vmm :=
  { v with pmm := v.pmm.kpmmInit table, mmapEntries := table.take mmapEntriesMax }

/-- `kis_normal_ram` of a frame above the image that is not the bitmap's. -/
theorem Vmm.kisNormalRam_physOf {v : Vmm} {f : ℕ} (hf : f < 2 ^ 52) (hfirst : v.pmm.firstPage ≤ f)
    (hout : ¬(0x10000 ≤ 4096 * f ∧ 4096 * f < 0x10000 + v.pmm.bitmapSize)) :
    v.kisNormalRam (Pmm.physOf f) = true ↔
      ∃ e ∈ v.mmapEntries, e.usable = true ∧ e.baseAddr ≤ 4096 * f ∧ 4096 * f < e.endAddr := by
  have hnat : (Pmm.physOf f).toNat = 4096 * f := by rw [Pmm.physOf_toNat hf]; omega
  have hand : Pmm.physOf f &&& 0xFFF = 0 := by
    apply BitVec.eq_of_toNat_eq
    rw [BitVec.toNat_and, show (0xFFF : Word).toNat = 2 ^ 12 - 1 from rfl,
      Nat.and_two_pow_sub_one_eq_mod, hnat]
    simp
  rw [Pmm.firstPage] at hfirst
  rw [Pmm.bitmapSize] at hout
  rw [kisNormalRam, if_neg (not_not.mpr hand), hnat, if_neg (by omega), if_neg hout,
    List.any_eq_true]
  simp only [Bool.and_eq_true, decide_eq_true_eq, and_assoc]

/-- The frames that `kis_normal_ram` calls RAM are those marked free, exactly if no usable
region ends inside a page that no usable region spans. -/
theorem normal_ram_iff_free (v : Vmm) (table : List E820Entry)
    (hwrap : ∀ e ∈ table, e.baseAddr + e.lengthInBytes + 4095 < 2 ^ 64) :
    (∀ f < 2 ^ 52, (v.kpmmInit table).pmm.firstPage ≤ f →
      ¬(0x10000 ≤ 4096 * f ∧ 4096 * f < 0x10000 + (v.kpmmInit table).pmm.bitmapSize) →
      ((v.kpmmInit table).kisNormalRam (Pmm.physOf f) = true ↔
        (v.kpmmInit table).pmm.MarkedFree f)) ↔
    ∀ e ∈ table.take 512, ∀ f, e.EndsIn f → (v.kpmmInit table).pmm.firstPage ≤ f →
      ¬(0x10000 ≤ 4096 * f ∧ 4096 * f < 0x10000 + (v.kpmmInit table).pmm.bitmapSize) →
      ∃ d ∈ table.take 512, d.Spans f := by
  have hend : ∀ e ∈ table.take 512, e.endAddr = e.baseAddr + e.lengthInBytes := fun e he =>
    Nat.mod_eq_of_lt (by have := hwrap e (List.mem_of_mem_take he); omega)
  have hfree : ∀ f, (v.kpmmInit table).pmm.MarkedFree f ↔
      (v.kpmmInit table).pmm.firstPage ≤ f ∧ ∃ e ∈ table.take 512, e.Spans f := fun f =>
    Pmm.markedFree_kpmmInit hwrap
  have hmap : (v.kpmmInit table).mmapEntries = table.take 512 := rfl
  constructor
  · intro hagree e he f hf hfirst hout
    obtain ⟨hu, hbase, hlt, -⟩ := hf
    have hram : (v.kpmmInit table).kisNormalRam (Pmm.physOf f) = true := by
      rw [Vmm.kisNormalRam_physOf _ hfirst hout, hmap]
      · exact ⟨e, he, hu, hbase, by rwa [hend e he]⟩
      · have := hwrap e (List.mem_of_mem_take he)
        omega
    have hlt52 : f < 2 ^ 52 := by
      have := hwrap e (List.mem_of_mem_take he)
      omega
    exact ((hfree f).mp ((hagree f hlt52 hfirst hout).mp hram)).2
  · intro hcover f hf hfirst hout
    rw [Vmm.kisNormalRam_physOf hf hfirst hout, hfree, hmap]
    constructor
    · rintro ⟨e, he, hu, hbase, hlt⟩
      rw [hend e he] at hlt
      refine ⟨hfirst, ?_⟩
      by_cases hall : 4096 * f + 4096 ≤ e.baseAddr + e.lengthInBytes
      · exact ⟨e, he, hu, hbase, hall⟩
      · exact hcover e he f ⟨hu, hbase, hlt, by omega⟩ hfirst hout
    · rintro ⟨-, e, he, hu, hbase, hall⟩
      exact ⟨e, he, hu, hbase, by rw [hend e he]; omega⟩

/-- A region that ends at a page boundary. -/
theorem normal_ram_iff_free_aligned :
    let p : Pmm := ⟨fun _ => 0, 0, 0x200000, by decide, by decide, by decide⟩
    let v : Vmm := ⟨p, fun _ => 0, 0, []⟩
    let w := v.kpmmInit [⟨0x100000, 0xF00000, true⟩]
    w.kisNormalRam (Pmm.physOf 0xFFF) = true ∧ w.pmm.MarkedFree 0xFFF := by
  intro p v w
  have hagree := (normal_ram_iff_free v [⟨0x100000, 0xF00000, true⟩] (by decide)).mpr (by
    rintro e he f ⟨-, -, hlt, hgt⟩
    rw [show e = ⟨0x100000, 0xF00000, true⟩ by simpa using he] at hlt hgt
    dsimp only at hlt hgt
    omega)
  have hram : w.kisNormalRam (Pmm.physOf 0xFFF) = true := by decide
  exact ⟨hram, (hagree 0xFFF (by decide) (by decide) (by decide)).mp hram⟩

/-- In the last page of a region that ends inside it the two differ. -/
theorem normal_ram_not_free :
    let p : Pmm := ⟨fun _ => 0, 0, 0x200000, by decide, by decide, by decide⟩
    let v : Vmm := ⟨p, fun _ => 0, 0, []⟩
    let w := v.kpmmInit [⟨0x100000, 0xEFFC00, true⟩]
    w.kisNormalRam (Pmm.physOf 0xFFF) = true ∧ ¬w.pmm.MarkedFree 0xFFF := by
  intro p v w
  refine ⟨by decide, fun hfree => ?_⟩
  obtain ⟨-, e, he, -, -, hend⟩ := (Pmm.markedFree_kpmmInit (by decide)).mp hfree
  rw [show e = ⟨0x100000, 0xEFFC00, true⟩ by simpa [mmapEntriesMax] using he] at hend
  exact absurd hend (by decide)

end Nyvela
