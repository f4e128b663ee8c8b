import Nyvela.WindowIsolation

/-!
# Device memory

`sys_map_mmio` takes every frame that `kis_normal_ram` does not call RAM for a device's.
That function also says no for the frames that the kernel keeps, and it looks at the first
byte of a frame only.
-/

namespace Nyvela

namespace Vmm

/-- What `sys_map_mmio` has checked when it maps. -/
structure MmioAccepted (v : Vmm) (cr3 virt phys pages : Word) : Prop where
  pos : 0 < pages.toNat
  le : pages.toNat ≤ 256
  aligned : phys.toNat % 4096 = 0
  low : userMmioMin ≤ virt.toNat
  high : virt.toNat + pages.toNat * 4096 ≤ userMmioMax
  lt : phys.toNat + pages.toNat * 4096 < 2 ^ 64
  notRam : ∀ i < pages.toNat, v.kisNormalRam (pageAddr phys i) = false
  unmapped : ∀ i < pages.toNat, ∀ t j, v.kgetPteAddrAt cr3 (pageAddr virt i) = some (t, j) →
    Pte.present (v.mem.entry t j) = false

section accepted

variable {v w : Vmm} {cr3 virt phys pages r : Word}

theorem pageAddr_toNat {start : Word} {i : ℕ} (h : start.toNat + i * 4096 < 2 ^ 64) :
    (pageAddr start i).toNat = start.toNat + i * 4096 := by
  rw [pageAddr, BitVec.toNat_add, BitVec.toNat_mul, BitVec.toNat_ofNat,
    show (0x1000 : Word).toNat = 4096 from rfl]
  omega

theorem aligned_of_or {a b : Word} (h : (a ||| b) &&& 0xFFF = 0) : b.toNat % 4096 = 0 := by
  have hb : b &&& 0xFFF = 0 := by
    apply BitVec.eq_of_getLsbD_eq
    intro i hi
    have hbit := congrArg (fun x : Word => x.getLsbD i) h
    simp only [BitVec.getLsbD_and, BitVec.getLsbD_or] at hbit ⊢
    cases ha : a.getLsbD i <;> simp_all
  have hnat := congrArg BitVec.toNat hb
  rw [BitVec.toNat_and, show (0xFFF : Word).toNat = 2 ^ 12 - 1 from rfl,
    Nat.and_two_pow_sub_one_eq_mod] at hnat
  exact hnat

/-- A refused call changes nothing. -/
theorem sysMapMmio_cases (h : v.sysMapMmio cr3 virt phys pages = some (r, w)) :
    (r = 0 ∧ w = v) ∨ (r = virt ∧ MmioAccepted v cr3 virt phys pages ∧
      mapMmioPages cr3 virt phys pages.toNat v = some w) := by
  simp only [sysMapMmio] at h
  split_ifs at h with h0 h1 h2
  · obtain ⟨rfl, rfl⟩ := Prod.mk.inj (Option.some.inj h)
    exact .inl ⟨rfl, rfl⟩
  · obtain ⟨rfl, rfl⟩ := Prod.mk.inj (Option.some.inj h)
    exact .inl ⟨rfl, rfl⟩
  · obtain ⟨rfl, rfl⟩ := Prod.mk.inj (Option.some.inj h)
    exact .inl ⟨rfl, rfl⟩
  · obtain ⟨u, hu, heq⟩ := Option.map_eq_some_iff.mp h
    obtain ⟨rfl, rfl⟩ := Prod.mk.inj heq
    refine .inr ⟨rfl, ?_, hu⟩
    simp only [not_or, not_lt, ne_eq, not_not] at h0 h1
    obtain ⟨hpos, hle, halign⟩ := h0
    obtain ⟨hlow, hvwrap, hhigh, hpwrap⟩ := h1
    have hlen : (pages * 0x1000).toNat = pages.toNat * 4096 := by
      rw [BitVec.toNat_mul, show (0x1000 : Word).toNat = 4096 from rfl]
      omega
    rw [BitVec.lt_def, BitVec.toNat_add, hlen] at hvwrap hpwrap
    rw [BitVec.toNat_add, hlen] at hhigh
    have hv := virt.isLt
    have hp := phys.isLt
    have hne : pages.toNat ≠ 0 := fun hc => hpos (BitVec.eq_of_toNat_eq hc)
    rw [Bool.not_eq_true, List.any_eq_false] at h2
    constructor
    case pos => omega
    case le => exact hle
    case aligned => exact aligned_of_or halign
    case low => exact hlow
    case high => omega
    case lt => omega
    case notRam =>
      intro i hi
      have := h2 i (List.mem_range.mpr hi)
      simp only [Bool.or_eq_true, not_or, Bool.not_eq_true] at this
      exact this.1
    case unmapped =>
      intro i hi t j hwalk
      have := h2 i (List.mem_range.mpr hi)
      simp only [Bool.or_eq_true, not_or, Bool.not_eq_true, hwalk] at this
      exact this.2

theorem MmioAccepted.phys_toNat (h : MmioAccepted v cr3 virt phys pages) {i : ℕ}
    (hi : i < pages.toNat) : (pageAddr phys i).toNat = phys.toNat + i * 4096 :=
  pageAddr_toNat (h.lt.trans_le' (Nat.add_le_add_left (Nat.mul_le_mul_right 4096 hi.le) _))

theorem MmioAccepted.page_aligned (h : MmioAccepted v cr3 virt phys pages) {i : ℕ}
    (hi : i < pages.toNat) : (pageAddr phys i).toNat % 4096 = 0 := by
  rw [h.phys_toNat hi, Nat.add_mul_mod_self_right, h.aligned]

/-- Its pages are in the device window. -/
theorem MmioAccepted.virt_toNat (h : MmioAccepted v cr3 virt phys pages) {i : ℕ}
    (hi : i < pages.toNat) : userMmioMin ≤ (pageAddr virt i).toNat ∧
      (pageAddr virt i).toNat < userMmioMax := by
  have hlow := h.low
  have hhigh := h.high
  have hnat : (pageAddr virt i).toNat = virt.toNat + i * 4096 := by
    apply pageAddr_toNat
    rw [userMmioMax] at hhigh
    omega
  rw [hnat]
  omega

/-- One page is mapped. -/
theorem sysMapMmio_one (hal : (virt ||| phys) &&& 0xFFF = 0) (hlow : userMmioMin ≤ virt.toNat)
    (hhigh : virt.toNat + 4096 ≤ userMmioMax) (hlt : phys.toNat + 4096 < 2 ^ 64)
    (hram : v.kisNormalRam phys = false) (hun : ∀ t j, v.kgetPteAddrAt cr3 virt = some (t, j) →
      Pte.present (v.mem.entry t j) = false) (hmap : v.kvmmapAt cr3 virt phys 0x1F = some w) :
    v.sysMapMmio cr3 virt phys 1 = some (virt, w) := by
  have hvlt : virt.toNat + 4096 < 2 ^ 64 := by
    rw [userMmioMax] at hhigh
    omega
  have hsum : ∀ {a : Word}, a.toNat + 4096 < 2 ^ 64 →
      (a + 1 * 0x1000).toNat = a.toNat + 4096 := by
    intro a ha
    rw [BitVec.toNat_add, show ((1 : Word) * 0x1000).toNat = 4096 from rfl]
    omega
  have hzero : ∀ a : Word, pageAddr a 0 = a := by
    intro a
    simp [pageAddr]
  have hfirst : ¬((1 : Word) = 0 ∨ 256 < (1 : Word).toNat ∨ (virt ||| phys) &&& 0xFFF ≠ 0) := by
    rw [hal]
    decide
  have hsecond : ¬(virt.toNat < userMmioMin ∨ virt + 1 * 0x1000 < virt ∨
      userMmioMax < (virt + 1 * 0x1000).toNat ∨ phys + 1 * 0x1000 < phys) := by
    rw [BitVec.lt_def, BitVec.lt_def, hsum hvlt, hsum hlt]
    omega
  simp only [sysMapMmio]
  rw [if_neg hfirst, if_neg hsecond, if_neg]
  · simpa [mapMmioPages, hzero] using hmap
  · rw [Bool.not_eq_true, List.any_eq_false]
    intro i hi
    obtain rfl : i = 0 := by simpa using hi
    rw [hzero, hzero, hram, Bool.false_or, Bool.not_eq_true]
    split
    · rfl
    · rename_i t j hwalk
      exact hun t j hwalk

end accepted

/-! ## What counts as a device -/

/-- Some byte is both in the `n` bytes from `a` on and in the `m` bytes from `b` on. -/
def Overlap (a n b m : ℕ) : Prop := ∃ x, (a ≤ x ∧ x < a + n) ∧ b ≤ x ∧ x < b + m

/-- The bytes of the bitmap, which is at `0x10000`. -/
def bitmapSize (v : Vmm) : ℕ := (v.pmm.frameCount + 7) / 8

/-- The frame at `p` has nothing of usable RAM, of the kernel image, of the bitmap and of the
boot loader's tables, which are in the frames `boot`. -/
structure DeviceFrame (v : Vmm) (boot : List ℕ) (p : ℕ) : Prop where
  ram : ∀ e ∈ v.mmapEntries, e.usable = true → ¬Overlap p 4096 e.baseAddr e.lengthInBytes
  image : ¬Overlap p 4096 0x100000 (v.pmm.kernelEnd - 0x100000)
  bitmap : ¬Overlap p 4096 0x10000 v.bitmapSize
  tables : ∀ f ∈ boot, ¬Overlap p 4096 (f * 4096) 4096

/-- `kis_normal_ram` looks the frame up in the memory map, where no usable region begins
inside it or has an end that wraps around. -/
structure LookedUp (v : Vmm) (p : ℕ) : Prop where
  above : v.pmm.kernelEnd ≤ p
  outside : ¬(0x10000 ≤ p ∧ p < 0x10000 + v.bitmapSize)
  begins : ∀ e ∈ v.mmapEntries, e.usable = true →
    ¬(p < e.baseAddr ∧ e.baseAddr < p + 4096 ∧ 0 < e.lengthInBytes)
  wraps : ∀ e ∈ v.mmapEntries, e.usable = true →
    ¬(e.baseAddr ≤ p ∧ e.endAddr ≤ p ∧ p < e.baseAddr + e.lengthInBytes)

/-- A frame of the first megabyte that is free of all of it, as that of the console is. -/
structure LowHole (v : Vmm) (boot : List ℕ) (p : ℕ) : Prop where
  below : p < 0x100000
  outside : p + 4096 ≤ 0x10000 ∨ 0x10000 + v.bitmapSize ≤ p
  table : p / 4096 ∉ boot
  ram : ∀ e ∈ v.mmapEntries, e.usable = true → e.lengthInBytes = 0 ∨
    p + 4096 ≤ e.baseAddr ∨ e.baseAddr + e.lengthInBytes ≤ p

section devices

variable {v w : Vmm} {boot : List ℕ} {p : ℕ}

theorem not_overlap_of_le {a n b m : ℕ} (h : m = 0 ∨ a + n ≤ b ∨ b + m ≤ a) :
    ¬Overlap a n b m := by
  rintro ⟨x, ⟨h1, h2⟩, h3, h4⟩
  omega

theorem le_of_not_overlap {a n b m : ℕ} (hn : 0 < n) (h : ¬Overlap a n b m) :
    m = 0 ∨ a + n ≤ b ∨ b + m ≤ a := by
  by_contra hc
  exact h ⟨max a b, by omega, by omega⟩

/-- What `kis_normal_ram` denies. -/
theorem kisNormalRam_eq_false {phys : Word} (hal : phys.toNat % 4096 = 0)
    (h : v.kisNormalRam phys = false) (hp : v.pmm.kernelEnd ≤ phys.toNat)
    (hout : ¬(0x10000 ≤ phys.toNat ∧ phys.toNat < 0x10000 + v.bitmapSize)) :
    ∀ e ∈ v.mmapEntries, e.usable = true →
      ¬(e.baseAddr ≤ phys.toNat ∧ phys.toNat < e.endAddr) := by
  have hand : phys &&& 0xFFF = 0 := by
    apply BitVec.eq_of_toNat_eq
    rw [BitVec.toNat_and, show (0xFFF : Word).toNat = 2 ^ 12 - 1 from rfl,
      Nat.and_two_pow_sub_one_eq_mod]
    exact hal
  rw [bitmapSize] at hout
  rw [kisNormalRam, if_neg (not_not.mpr hand), if_neg (by omega), if_neg hout,
    List.any_eq_false] at h
  rintro e he hu ⟨hbase, hend⟩
  apply h e he
  simp [hu, hbase, hend]

/-- For a frame that is not called RAM. -/
theorem deviceFrame_iff {phys : Word} (hal : phys.toNat % 4096 = 0)
    (hram : v.kisNormalRam phys = false) (hboot : ∀ f ∈ boot, f < v.pmm.firstPage) :
    DeviceFrame v boot phys.toNat ↔ LookedUp v phys.toNat ∨ LowHole v boot phys.toNat := by
  have himage := v.pmm.image_le
  constructor
  · intro h
    have hbm := le_of_not_overlap (by decide) h.bitmap
    by_cases hlow : phys.toNat < v.pmm.kernelEnd
    · have himg := le_of_not_overlap (by decide) h.image
      right
      refine ⟨by omega, by omega, fun hmem => ?_, fun e he hu => ?_⟩
      · have := le_of_not_overlap (by decide) (h.tables _ hmem)
        omega
      · exact le_of_not_overlap (by decide) (h.ram e he hu)
    · left
      refine ⟨by omega, by omega, fun e he hu => ?_, fun e he hu => ?_⟩
      · have := le_of_not_overlap (by decide) (h.ram e he hu)
        omega
      · have := le_of_not_overlap (by decide) (h.ram e he hu)
        omega
  · rintro (h | h)
    · have hmap := kisNormalRam_eq_false hal hram h.above h.outside
      have habove := h.above
      have hout := h.outside
      refine ⟨fun e he hu => ?_, ?_, ?_, fun f hf => ?_⟩
      · -- the first byte is in no region, so a byte of the frame is in one that begins later
        have hbegin := h.begins e he hu
        have hwrap := h.wraps e he hu
        have hno := hmap e he hu
        exact not_overlap_of_le (by omega)
      · exact not_overlap_of_le (by omega)
      · exact not_overlap_of_le (by omega)
      · have hlt := hboot f hf
        rw [Pmm.firstPage] at hlt
        exact not_overlap_of_le (by omega)
    · have hbelow := h.below
      refine ⟨fun e he hu => not_overlap_of_le (h.ram e he hu), ?_, ?_, fun f hf => ?_⟩
      · exact not_overlap_of_le (by omega)
      · exact not_overlap_of_le (by have := h.outside; omega)
      · have hne : phys.toNat / 4096 ≠ f := fun heq => h.table (heq ▸ hf)
        exact not_overlap_of_le (by omega)

/-- A successful call maps device frames only, exactly if every frame is looked up and lies
whole on one side of each region, or is a hole of the first megabyte. -/
theorem map_mmio_devices_iff (v : Vmm) {boot : List ℕ} (hboot : ∀ f ∈ boot, f < v.pmm.firstPage)
    {cr3 virt phys pages r : Word} {w : Vmm}
    (hcall : v.sysMapMmio cr3 virt phys pages = some (r, w)) (hr : r ≠ 0) :
    (∀ i < pages.toNat, DeviceFrame v boot (pageAddr phys i).toNat) ↔
      ∀ i < pages.toNat, LookedUp v (pageAddr phys i).toNat ∨
        LowHole v boot (pageAddr phys i).toNat := by
  obtain ⟨h0, -⟩ | ⟨-, hacc, -⟩ := sysMapMmio_cases hcall
  · exact absurd h0 hr
  exact forall₂_congr fun i hi =>
    deviceFrame_iff (hacc.page_aligned hi) (hacc.notRam i hi) hboot

end devices

end Vmm

/-! ## The machine with 16 MiB -/

namespace PageState

open PageTree Vmm

variable {s : PageState} {new : NewSpace} {w : Vmm}

/-- In its first address space nothing is mapped in the device window. -/
theorem Started.kgetPteAddrAt_device (h : Started s)
    (hb : Built s.vmm w (s.vmm.source 0x9000) new) {virt : Word} (hlow : userMmioMin ≤ virt.toNat)
    (hhigh : virt.toNat < userMmioMax) : w.kgetPteAddrAt (Pte.ofFrame new.pml4) virt = none := by
  have h4 : Pte.pml4Index virt = 0 := by
    rw [userMmioMax] at hhigh
    rw [Pte.pml4Index_eq]
    omega
  have h3 : Pte.pdptIndex virt = 1 := by
    rw [userMmioMin] at hlow
    rw [userMmioMax] at hhigh
    rw [Pte.pdptIndex_eq]
    omega
  have hp4 : Leads (w.mem.entry new.pml4 0) new.pdpt := hb.holds.pml4e
  have habsent : Pte.present (w.mem.entry new.pdpt 1) = false := by
    rw [hb.pdpt 1 (by decide) (by decide)]
    exact h.pdpt 1 (by decide) (by decide)
  rw [kgetPteAddrAt, Pte.frame_ofFrame (hb.ext.lt (by simp [NewSpace.frames])), h4, h3]
  simp [hp4.1, hp4.2, habsent]

/-- A page that `kis_normal_ram` denies can be mapped there. -/
theorem Started.sysMapMmio_one (h : Started s) (hb : Built s.vmm w (s.vmm.source 0x9000) new)
    (hp : w.pmm.Plenty 3) {phys : Word} (hal : phys &&& 0xFFF = 0)
    (hlt : phys.toNat + 4096 < 2 ^ 64) (hram : w.kisNormalRam phys = false) :
    ∃ u, w.kvmmapAt (Pte.ofFrame new.pml4) 0x40000000 phys 0x1F = some u ∧
      w.sysMapMmio (Pte.ofFrame new.pml4) 0x40000000 phys 1 = some (0x40000000, u) := by
  obtain ⟨u, hu⟩ := exists_kvmmapAt hp (Pte.ofFrame new.pml4) 0x40000000 phys 0x1F
  refine ⟨u, hu, Vmm.sysMapMmio_one ?_ (by decide) (by decide) hlt hram (fun t j hwalk => ?_) hu⟩
  · have hand : ∀ a b c : Word, (a ||| b) &&& c = (a &&& c) ||| (b &&& c) := by
      intro a b c
      ext i hi
      simp [Bool.and_or_distrib_right]
    rw [hand, hal]
    decide
  · rw [h.kgetPteAddrAt_device hb (by decide) (by decide)] at hwalk
    exact absurd hwalk (by simp)

theorem kisNormalRam_of_lt {v : Vmm} {phys : Word} (h : phys.toNat < v.pmm.kernelEnd) :
    v.kisNormalRam phys = false := by
  simp [kisNormalRam, h]

/-- The page of the console is a device's. -/
theorem map_mmio_devices_iff_console : ∃ (s : PageState) (cr3 : Word) (u : Vmm),
    pageSystem.Reachable s ∧ cr3 ∈ s.roots ∧
    s.vmm.sysMapMmio cr3 0x40000000 0xB8000 1 = some (0x40000000, u) ∧
    ∀ i < (1 : Word).toNat, DeviceFrame s.vmm [9, 10, 11] (pageAddr 0xB8000 i).toNat := by
  obtain ⟨s, hs⟩ := exists_started splits_windowOwn
  obtain ⟨new, w, hb, -, hplenty, -, hstep⟩ := hs.exists_create splits_windowOwn
  have hend : w.pmm.kernelEnd = 0x200000 := hb.ext.kernelEnd.trans hs.kernelEnd
  have hcount : w.pmm.frameCount = 0x1000 := hb.ext.frameCount.trans hs.frameCount
  have hmmap : w.mmapEntries = _ := hb.ext.mmapEntries.trans hs.mmapEntries
  obtain ⟨u, -, hcall⟩ := hs.sysMapMmio_one hb (Plenty.mono hplenty (by decide))
    (show (0xB8000 : Word) &&& 0xFFF = 0 by decide) (by decide) (kisNormalRam_of_lt (by rw [hend]; decide))
  refine ⟨s.addRoot w (Pte.ofFrame new.pml4), Pte.ofFrame new.pml4, u,
    (System.Reachable.init hs.init).step hstep, List.mem_cons_self, hcall, ?_⟩
  have hboot : ∀ f ∈ [9, 10, 11], f < w.pmm.firstPage := by
    rw [Pmm.firstPage, hend]
    decide
  refine (map_mmio_devices_iff w hboot hcall (by decide)).mpr fun i hi => .inr ?_
  obtain rfl : i = 0 := by
    have : i < 1 := hi
    omega
  refine ⟨by decide, .inr ?_, by decide, fun e he _ => ?_⟩
  · rw [bitmapSize, hcount]
    decide
  · rw [hmmap] at he
    rw [List.mem_singleton.mp he]
    decide

/-- The first page of the kernel image, which is usable RAM, is mapped too. -/
theorem map_mmio_maps_image : ∃ (s : PageState) (cr3 : Word) (u : Vmm),
    pageSystem.Reachable s ∧ cr3 ∈ s.roots ∧
    s.vmm.sysMapMmio cr3 0x40000000 0x100000 1 = some (0x40000000, u) ∧
    Overlap 0x100000 4096 0x100000 (s.vmm.pmm.kernelEnd - 0x100000) ∧
    ∃ e ∈ s.vmm.mmapEntries, e.usable = true ∧
      Overlap 0x100000 4096 e.baseAddr e.lengthInBytes := by
  obtain ⟨s, hs⟩ := exists_started splits_windowOwn
  obtain ⟨new, w, hb, -, hplenty, -, hstep⟩ := hs.exists_create splits_windowOwn
  have hend : w.pmm.kernelEnd = 0x200000 := hb.ext.kernelEnd.trans hs.kernelEnd
  have hmmap : w.mmapEntries = _ := hb.ext.mmapEntries.trans hs.mmapEntries
  obtain ⟨u, -, hcall⟩ := hs.sysMapMmio_one hb (Plenty.mono hplenty (by decide))
    (show (0x100000 : Word) &&& 0xFFF = 0 by decide) (by decide) (kisNormalRam_of_lt (by rw [hend]; decide))
  refine ⟨s.addRoot w (Pte.ofFrame new.pml4), Pte.ofFrame new.pml4, u,
    (System.Reachable.init hs.init).step hstep, List.mem_cons_self, hcall, ?_, ?_⟩
  · rw [show (s.addRoot w (Pte.ofFrame new.pml4)).vmm = w from rfl, hend]
    exact ⟨0x100000, by decide, by decide⟩
  · rw [show (s.addRoot w (Pte.ofFrame new.pml4)).vmm = w from rfl, hmmap]
    exact ⟨_, List.mem_singleton_self _, rfl, 0x100000, by decide, by decide⟩

end PageState

end Nyvela
