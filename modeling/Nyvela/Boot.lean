import Nyvela.BootPrint

/-!
# From the disk to `0x100000`

The three loaders: `boot.s` reads `stage_1`, which reads `stage_2` and, in a loop, the kernel;
`stage_2` moves the kernel to the address that it is linked for. What they do below `0x10000`
(code, stack, tables and memory map) is left out, but not what they print.
-/

namespace Nyvela.Boot

/-- The bytes of the disk. -/
abbrev Disk := ℕ → BitVec 8

/-- A disk address packet. -/
structure Dap where
  count : BitVec 16
  offset : BitVec 16
  segment : BitVec 16
  lba : BitVec 64

/-- `int 0x13` with `ah = 0x42` -/
def int13 (disk : Disk) (d : Dap) (m : Memory) : Memory := fun a =>
  let base := d.segment.toNat * 16 + d.offset.toNat
  if base ≤ a ∧ a < base + d.count.toNat * 512 then disk (d.lba.toNat * 512 + (a - base)) else m a

def Loader.read (disk : Disk) (d : Dap) (s : Loader) : Loader := { s with mem := int13 disk d s.mem }

/-! ## The load loop of `stage_1` -/

/-- `kernel_remaining`, `kernel_dest` and the low half of the address in `DAP_kernel`. -/
structure Load where
  remaining : BitVec 16
  dest : BitVec 32
  lba : BitVec 32
  mem : Memory

/-- One chunk. -/
def Load.step (disk : Disk) (s : Load) : Load :=
  let cx := if s.remaining ≤ 128 then s.remaining else 128
  { remaining := s.remaining - cx
    dest := s.dest + (cx.setWidth 32 <<< 9)
    lba := s.lba + cx.setWidth 32
    mem := int13 disk
      { count := cx
        offset := s.dest.setWidth 16
        segment := (s.dest >>> 4).setWidth 16
        lba := s.lba.setWidth 64 } s.mem }

theorem Load.step_remaining (disk : Disk) (s : Load) :
    (s.step disk).remaining.toNat = s.remaining.toNat - min s.remaining.toNat 128 := by
  simp only [step]
  split
  · next h =>
    have : s.remaining.toNat ≤ 128 := h
    rw [Nat.min_eq_left this]
    simp
  · next h =>
    have h' : 128 < s.remaining.toNat := by bv_omega
    rw [Nat.min_eq_right (by omega)]
    bv_omega

/-- `.kernel_load_loop` -/
def Load.loop (disk : Disk) (s : Load) : Load :=
  if (s.step disk).remaining = 0 then s.step disk else loop disk (s.step disk)
termination_by s.remaining.toNat
decreasing_by
  next h =>
    have hr := step_remaining disk s
    have hne : (s.step disk).remaining.toNat ≠ 0 := fun he => h (BitVec.eq_of_toNat_eq he)
    omega

/-- Sectors of the kernel stand at the load address. -/
def Loaded (disk : Disk) (m : Memory) (sectors : ℕ) : Prop :=
  ∀ i < sectors * 512, m (0x10000 + i) = disk (37 * 512 + i)

/-- Of `n` sectors `c` are read. -/
structure Load.Progress (disk : Disk) (n c : ℕ) (s : Load) : Prop where
  remaining : s.remaining.toNat + c = n
  dest : s.dest.toNat = 0x10000 + c * 512
  lba : s.lba.toNat = 37 + c
  loaded : Loaded disk s.mem c

/-- Chunks start on a segment of their own until the segment register wraps around. -/
theorem Load.Progress.step {disk : Disk} {n c : ℕ} {s : Load} (h : Progress disk n c s)
    (hn : n ≤ 1920) (hc : c % 128 = 0) (hlt : c < n) :
    Progress disk n (c + min (n - c) 128) (s.step disk) := by
  have hrem := h.remaining
  have hdest := h.dest
  have hlba := h.lba
  obtain ⟨cx, hcx⟩ : ∃ v, v = if s.remaining ≤ 128 then s.remaining else 128 := ⟨_, rfl⟩
  have hk : cx.toNat = min (n - c) 128 := by
    rw [hcx]
    split <;> bv_omega
  have hbase : ((s.dest >>> 4).setWidth 16).toNat * 16 + (s.dest.setWidth 16).toNat =
      s.dest.toNat := by
    rw [BitVec.toNat_setWidth, BitVec.toNat_setWidth, BitVec.toNat_ushiftRight,
      Nat.shiftRight_eq_div_pow]
    omega
  have hshift : (cx.setWidth 32 <<< 9).toNat = cx.toNat * 512 := by
    rw [BitVec.toNat_shiftLeft, BitVec.toNat_setWidth, Nat.shiftLeft_eq]
    omega
  have hwide : (cx.setWidth 32).toNat = cx.toNat := by
    rw [BitVec.toNat_setWidth]
    omega
  have hlbaw : (s.lba.setWidth 64).toNat = 37 + c := by
    rw [BitVec.toNat_setWidth]
    omega
  unfold Load.step
  rw [← hcx, ← hk]
  refine ⟨?_, ?_, ?_, ?_⟩
  · dsimp only
    bv_omega
  · dsimp only
    rw [BitVec.toNat_add, hshift]
    omega
  · dsimp only
    rw [BitVec.toNat_add, hwide]
    omega
  · intro i hi
    dsimp only [int13]
    rw [hbase, hlbaw, hdest]
    by_cases hin : i < c * 512
    · rw [if_neg (by omega)]
      exact h.loaded i hin
    · rw [if_pos (by omega)]
      exact congrArg disk (by omega)

theorem Load.Progress.loop {disk : Disk} {n c : ℕ} {s : Load} (h : Progress disk n c s)
    (hn : n ≤ 1920) (hc : c % 128 = 0) (hlt : c < n) : Loaded disk (s.loop disk).mem n := by
  have hstep := h.step hn hc hlt
  have hrem := hstep.remaining
  rw [Load.loop]
  split
  · next hz =>
    rw [hz] at hrem
    have hall : c + min (n - c) 128 = n := by simpa using hrem
    rw [← hall]
    exact hstep.loaded
  · next hz =>
    have hne : (s.step disk).remaining.toNat ≠ 0 := fun he => hz (BitVec.eq_of_toNat_eq he)
    exact hstep.loop hn (by omega) (by omega)
termination_by n - c

def loadKernel (disk : Disk) (sectors : ℕ) (m : Memory) : Memory :=
  (Load.loop disk
    { remaining := BitVec.ofNat 16 sectors, dest := 0x10000, lba := 0x25, mem := m }).mem

theorem loadKernel_loaded (disk : Disk) {n : ℕ} (m : Memory) (hpos : 0 < n) (hn : n ≤ 1920) :
    Loaded disk (loadKernel disk n m) n := by
  refine Load.Progress.loop (c := 0) ⟨?_, rfl, rfl, fun i hi => by omega⟩ hn rfl hpos
  rw [BitVec.toNat_ofNat]
  omega

/-! ## The stages -/

/-- `boot.s`, once the video mode is set. -/
def bootSector (disk : Disk) (s : Loader) : Loader :=
  let s := print16.messages [(.init, "Loading Stage 1 to memory...")] { s with col := 0, row := 0 }
  let s := s.read disk { count := 4, offset := 0, segment := 0x0800, lba := 1 }
  print16.messages [
    (.succ, "Loaded Stage 1 successfully to memory."),
    (.info, "Performing far jump to Stage 1...")] s

def beforeLoad (disk : Disk) (s : Loader) : Loader :=
  let s := print16.messages [
    (.succ, "Entered Stage 1."),
    (.info, "Loading Stage 2 to memory...")] s
  let s := s.read disk { count := 32, offset := 0, segment := 0x0880, lba := 5 }
  print16.messages [
    (.succ, "Loaded Stage 2 to memory."),
    (.info, "Loading Kernel to memory...")] s

/-- What `stage_1` prints after the load. -/
def stage1Messages : List (Label × String) := [
  (.succ, "Loaded Kernel to memory."),
  (.info, "Obtainining the BIOS memory map..."),
  (.succ, "Obtained the BIOS memory map."),
  (.info, "Enabling A20..."),
  (.succ, "Enabled A20."),
  (.info, "Preparing GDT..."),
  (.succ, "Encoded Null Entry to GDT."),
  (.succ, "Encoded Kernel Code Entry to GDT."),
  (.succ, "Encoded Kernel Data Entry to GDT."),
  (.succ, "Encoded User Code Entry to GDT."),
  (.succ, "Encoded User Data Entry to GDT."),
  (.succ, "Encoded Kernel Code (x64) Entry to GDT."),
  (.info, "Setting GDT..."),
  (.succ, "Set GDT."),
  (.info, "Entering protected mode...")]

def stage1 (disk : Disk) (sectors : ℕ) (s : Loader) : Loader :=
  let s := beforeLoad disk s
  print16.messages stage1Messages { s with mem := loadKernel disk sectors s.mem }

def stage2Messages : List (Label × String) := [
  (.info, "Entered protected mode successfully."),
  (.info, "Disabling paging..."),
  (.succ, "Disabled paging."),
  (.info, "Enabling PAE..."),
  (.succ, "Enabled PAE."),
  (.info, "Setting LME..."),
  (.succ, "Set LME."),
  (.info, "Updating PML4 table..."),
  (.info, "Preparing PML4 table..."),
  (.succ, "Prepared PML4 table."),
  (.info, "Preparing PDPT table..."),
  (.succ, "Prepared PDPT table."),
  (.info, "Mapping PD table..."),
  (.succ, "Mapped PD table."),
  (.succ, "Updated PML4 table."),
  (.info, "Entering long mode...")]

/-- The copy in `long_mode_enter`. -/
def relocate (sectors : ℕ) (m : Memory) : Memory :=
  Memory.repMovs 8 (sectors * 512 / 8) 0x100000 0x10000 m

def stage2 (sectors : ℕ) (s : Loader) : Memory :=
  relocate sectors (print32.messages stage2Messages s).mem

/-- Memory when the kernel is entered. -/
def boot (disk : Disk) (sectors : ℕ) (s : Loader) : Memory :=
  stage2 sectors (stage1 disk sectors (bootSector disk s))

/-! ## The kernel arrives -/

/-- The kernel at its address is the kernel on the disk. -/
def HandedOver (disk : Disk) (sectors : ℕ) (m : Memory) : Prop :=
  ∀ i < sectors * 512, m (0x100000 + i) = disk (37 * 512 + i)

/-- A byte that the loaders had below `0x100000` arrives. -/
theorem relocate_apply {sectors i : ℕ} (m : Memory) (hi : i < sectors * 512)
    (hlow : 0x10000 + i < 0x100000) : relocate sectors m (0x100000 + i) = m (0x10000 + i) :=
  Memory.repMovs_inside m (by omega) (Or.inr hlow)

theorem handedOver_boot (disk : Disk) {n : ℕ} (s : Loader) (hpos : 0 < n) (hn : n ≤ 1344) :
    HandedOver disk n (boot disk n s) := by
  intro i hi
  have hload := loadKernel_loaded disk (beforeLoad disk (bootSector disk s)).mem hpos
    (show n ≤ 1920 by omega) i hi
  rw [boot, stage2, relocate_apply _ hi (by omega), print32_plain.messages_low _ _ (by omega),
    stage1, print16_plain.messages_low _ _ (by omega)]
  exact hload

theorem At.read {r : ℕ} {s : Loader} (h : At r s) (disk : Disk) (d : Dap) : At r (s.read disk d) := h

/-- Seven messages come before the load. -/
theorem beforeLoad_at (disk : Disk) (s : Loader) : At 7 (beforeLoad disk (bootSector disk s)) := by
  have h0 : At 0 { s with col := 0, row := 0 } := ⟨rfl, rfl⟩
  have h1 := h0.messages16 [(.init, "Loading Stage 1 to memory...")] (by decide) (by decide)
  have h3 := (h1.read disk ⟨4, 0, 0x0800, 1⟩).messages16 [
    (.succ, "Loaded Stage 1 successfully to memory."),
    (.info, "Performing far jump to Stage 1...")] (by decide) (by decide)
  have h5 := h3.messages16 [
    (.succ, "Entered Stage 1."),
    (.info, "Loading Stage 2 to memory...")] (by decide) (by decide)
  exact (h5.read disk ⟨32, 0, 0x0880, 5⟩).messages16 [
    (.succ, "Loaded Stage 2 to memory."),
    (.info, "Loading Kernel to memory...")] (by decide) (by decide)

/-- The first character of the screen is a bracket when the kernel is moved. -/
theorem screen_bracket (disk : Disk) (n : ℕ) (s : Loader) :
    (print32.messages stage2Messages (stage1 disk n (bootSector disk s))).mem 0xB8000 = 0x5B := by
  obtain ⟨hcol, hrow⟩ := beforeLoad_at disk s
  obtain ⟨t, ht⟩ : ∃ t, t = beforeLoad disk (bootSector disk s) := ⟨_, rfl⟩
  rw [← ht] at hcol hrow
  have h0 : Marked 7 { t with mem := loadKernel disk n t.mem } :=
    Marked.of_le hcol (Nat.le_of_eq hrow)
  have hr0 : Loader.row { t with mem := loadKernel disk n t.mem } = t.row := rfl
  obtain ⟨h1, r1⟩ := h0.messages16 (show ∀ q ∈ stage1Messages, q.2.length < 70 by decide)
    (by rw [hr0, hrow]; decide)
  rw [hr0, hrow] at r1
  have heq : stage1 disk n (bootSector disk s) =
      print16.messages stage1Messages { t with mem := loadKernel disk n t.mem } := by rw [ht]; rfl
  rw [← heq] at h1 r1
  obtain ⟨h2, r2⟩ := h1.messages32 (show ∀ q ∈ stage2Messages, q.2.length < 70 by decide)
    (by rw [r1]; decide)
  rw [r1] at h2 r2
  -- fourteen of the sixteen messages scroll, and row 7 is the first that is marked
  have htop : cell 0 0 = 0xB8000 := rfl
  rw [← htop]
  exact h2.bracket 0 (by decide) (by rw [r2]; decide)

/-- For every size that `KERNEL_SECTORS` can have: whatever the disk holds, the kernel arrives,
exactly if its staged copy ends below the text screen. -/
theorem kernel_handed_over_iff (n : ℕ) (hpos : 1 ≤ n) (hn : n ≤ 65535) :
    (∀ disk s, HandedOver disk n (boot disk n s)) ↔ n ≤ 1344 := by
  constructor
  · intro hall
    by_contra hlarge
    -- byte 0xA8000 of the kernel is staged where the screen starts
    have hbyte := hall (fun _ => 0) { mem := fun _ => 0, col := 0, row := 0 } 0xA8000 (by omega)
    rw [boot, stage2, relocate_apply _ (by omega) (by decide)] at hbyte
    rw [show 0x10000 + 0xA8000 = 0xB8000 by decide, screen_bracket] at hbyte
    exact absurd hbyte (by decide)
  · intro hle disk s
    exact handedOver_boot disk s hpos hle

theorem kernel_handed_over_small :
    HandedOver (fun _ => 0) 700 (boot (fun _ => 0) 700 ⟨fun _ => 0, 0, 0⟩) :=
  (kernel_handed_over_iff 700 (by decide) (by decide)).mpr (by decide) _ _

/-- A kernel of 1345 sectors, all zeros, arrives with a bracket in its last sector. -/
theorem kernel_overwritten_by_message :
    boot (fun _ => 0) 1345 ⟨fun _ => 0, 0, 0⟩ (0x100000 + 0xA8000) = 0x5B ∧
      ¬ HandedOver (fun _ => 0) 1345 (boot (fun _ => 0) 1345 ⟨fun _ => 0, 0, 0⟩) := by
  have hb : boot (fun _ => 0) 1345 ⟨fun _ => 0, 0, 0⟩ (0x100000 + 0xA8000) = 0x5B := by
    rw [boot, stage2, relocate_apply _ (by decide) (by decide),
      show 0x10000 + 0xA8000 = 0xB8000 by decide, screen_bracket]
  refine ⟨hb, fun h => ?_⟩
  have hbyte := h 0xA8000 (by decide)
  rw [hb] at hbyte
  exact absurd hbyte (by decide)

end Nyvela.Boot
