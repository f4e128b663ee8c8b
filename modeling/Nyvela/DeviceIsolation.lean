import Nyvela.DeviceMemory

/-!
# The device window

`sys_map_mmio` maps above the first gigabyte, where an address space gets its directory with
its first device. A new address space copies the entry that leads there and not the
directory, so it shares the devices of its creator, those to come included.
-/

namespace Nyvela

open PageTree Vmm

/-- The tables of the window and those of `[0x40000000, 0x80000000)`. -/
def deviceOwn : List ℕ → Bool
  | [0, 1] => true
  | [0, 1, _] => true
  | p => windowOwn p

theorem splits_deviceOwn : Splits deviceOwn where
  pdpt := by decide
  pd := by decide
  pt2 := by decide
  pt3 := by decide
  rest i h2 h3 := splits_windowOwn.rest i h2 h3

/-- The path of an address of the device window. -/
theorem path_of_device {virt : Word} (hlow : userMmioMin ≤ virt.toNat)
    (hhigh : virt.toNat < userMmioMax) :
    path virt = [0, 1, Pte.pdIndex virt, Pte.ptIndex virt] := by
  rw [userMmioMin] at hlow
  rw [userMmioMax] at hhigh
  have h4 : Pte.pml4Index virt = 0 := by rw [Pte.pml4Index_eq]; omega
  have h3 : Pte.pdptIndex virt = 1 := by rw [Pte.pdptIndex_eq]; omega
  rw [path, h4, h3]

theorem ownPath_device {virt : Word} (hlow : userMmioMin ≤ virt.toNat)
    (hhigh : virt.toNat < userMmioMax) : OwnPath deviceOwn (path virt) := by
  rw [path_of_device hlow hhigh]
  intro l hl
  obtain rfl | rfl | rfl : l = 0 ∨ l = 1 ∨ l = 2 := by omega
  · exact splits_deviceOwn.pdpt
  · rfl
  · rfl

namespace PageState

/-- An address space is only created from one that has no device yet, and the tables are
spared. -/
def NoDevices (s : PageState) (op : PageOp) : Prop :=
  SparesTables s op ∧ ∀ cr3 ∈ op.source,
    Pte.present (s.vmm.mem.entry (s.vmm.source cr3).pdpt 1) = false

theorem spares_of_noDevices {s : PageState} {op : PageOp} (h : NoDevices s op) :
    Spares deviceOwn s op := by
  refine ⟨h.1, fun cr3 hcr3 => ⟨fun i _ h0 hown => ?_, fun i _ h0 hown => ?_⟩⟩
  · simp [deviceOwn, windowOwn, h0] at hown
  · obtain rfl : i = 1 := by
      by_contra hne
      have hw : windowOwn [0, i] = true := by
        unfold deviceOwn at hown
        split at hown <;> simp_all
      simp [windowOwn, h0] at hw
    exact h.2 cr3 hcr3

theorem exists_inv_device {s : PageState} (h : (pageSystem.restrict NoDevices).Reachable s) :
    ∃ kind, Inv deviceOwn s kind := by
  apply inv_of_reachable splits_deviceOwn
  induction h with
  | init hs => exact .init hs
  | step _ hs ih => exact ih.step ⟨spares_of_noDevices hs.1, hs.2⟩

/-- In every state of a run in which no address space with a device is copied and no table
freed: a call of `sys_map_mmio` changes no translation in another address space. -/
theorem device_window_isolated {s : PageState}
    (hs : (pageSystem.restrict NoDevices).Reachable s) {cr3 virt phys pages r : Word} {w : Vmm}
    (hr : cr3 ∈ s.roots) (hcall : s.vmm.sysMapMmio cr3 virt phys pages = some (r, w)) :
    ∀ r' ∈ s.roots, r' ≠ cr3 → ∀ a,
      access w.mem (Pte.frame r') (path a) = access s.vmm.mem (Pte.frame r') (path a) := by
  intro r' hr' hne a
  obtain ⟨kind, hinv⟩ := exists_inv_device hs
  obtain ⟨kind', -, hp⟩ := hinv.performed_sysMapMmio hr hcall
  obtain ⟨-, rfl⟩ | ⟨-, hacc, -⟩ := sysMapMmio_cases hcall
  · rfl
  have hpriv : Edits s.vmm kind w kind' fun K _ => K.PrivateTo (Pte.frame cr3) := by
    refine hp.toEdits.mono ?_
    rintro K j ⟨cr3', virt', hclear | ⟨_, _, hmap⟩, hon⟩
    · cases hclear
    · cases hmap with
      | sysMapMmio hi =>
        obtain ⟨hlow, hhigh⟩ := hacc.virt_toNat hi
        exact hon.privateTo (ownPath_device hlow hhigh)
  exact hpriv.access_eq hinv.tables (hinv.frame_mem hr')
    (fun heq => hne (hinv.eq_of_frame hr' hr heq)) a

/-! ## Shared devices -/

section shared

variable {own : List ℕ → Bool} {v w : Vmm} {kind kind' : ℕ → Option Kind} {roots : List ℕ}

/-- A new address space has the device tables of the one that it is made from. -/
theorem descend_of_built {cr3 : Word} {new : NewSpace} (h : Tables own v kind roots)
    (hr : Pte.frame cr3 ∈ roots) (hb : Built v w (v.source cr3) new) {i t : ℕ} (hi : i < 512)
    (hp : descend v.mem (Pte.frame cr3) [0, 1, i] = some t) :
    descend w.mem (Pte.frame cr3) [0, 1, i] = some t ∧
      descend w.mem new.pml4 [0, 1, i] = some t := by
  have hsame : ∀ f, kind f ≠ none → ∀ j < 512, w.mem.entry f j = v.mem.entry f j :=
    fun f hf j hj => h.entry_of_kind hb hf hj
  have hold := (Edits.of_same hb.ext.codePageCount hsame fun _ _ => False).descend_eq h hr
    (by simpa using hi) (by simp) hp
  refine ⟨hold, ?_⟩
  have hpml4e : Leads (w.mem.entry new.pml4 0) new.pdpt := hb.holds.pml4e
  have hkind : kind (v.source cr3).pdpt ≠ none := by
    simp only [descend] at hp
    split_ifs at hp with h4
    rw [source_pdpt, h.forest.child _ _ (h.forest.root _ hr) (by simp) 0 (by decide) h4]
    simp
  have hcopy : w.mem.entry new.pdpt 1 = w.mem.entry (v.source cr3).pdpt 1 := by
    rw [hb.pdpt 1 (by decide) (by decide), hsame _ hkind 1 (by decide)]
  have hpdpt : Pte.frame (w.mem.entry (Pte.frame cr3) 0) = (v.source cr3).pdpt := by
    rw [hsame _ (by rw [h.forest.root _ hr]; simp) 0 (by decide)]
    rfl
  have hrest : descend w.mem (v.source cr3).pdpt [1, i] = some t := by
    rw [descend] at hold
    split_ifs at hold
    rwa [hpdpt] at hold
  rw [descend, if_pos hpml4e.1, hpml4e.2, descend, hcopy]
  exact hrest

/-- The last step of a walk. -/
theorem access_eq_none_iff {m : Memory} {r t i : ℕ} {p : List ℕ} (hp : descend m r p = some t) :
    access m r (p ++ [i]) = none ↔ Pte.present (m.entry t i) = false := by
  rw [← Option.map_eq_none_iff (f := Prod.fst), access_map_fst, descend_append, hp, Option.bind_some]
  simp only [descend]
  cases Pte.present (m.entry t i) <;> simp

end shared

/-! ## Two devices -/

/-- A creation or a call of `sys_map_mmio`. -/
def DeviceStep (s : PageState) (op : PageOp) : Prop :=
  SparesTables s op ∧ (op.source ≠ none ∨ ∃ cr3 virt phys pages, op = .sysMapMmio cr3 virt phys pages)

theorem reachable_of_device {s : PageState} (h : (pageSystem.restrict DeviceStep).Reachable s) :
    (pageSystem.restrict SparesTables).Reachable s := by
  induction h with
  | init hs => exact .init hs
  | step _ hs ih => exact ih.step ⟨hs.1.1, hs.2⟩

/-- Above the end of memory nothing is RAM. -/
theorem kisNormalRam_above {v : Vmm} {phys : Word}
    (hmmap : v.mmapEntries = [⟨0x100000, 0xF00000, true⟩]) (hp : 0x1000000 ≤ phys.toNat) :
    v.kisNormalRam phys = false := by
  have hend : ¬phys.toNat < (⟨0x100000, 0xF00000, true⟩ : E820Entry).endAddr := by
    have hval : (⟨0x100000, 0xF00000, true⟩ : E820Entry).endAddr = 0x1000000 := by decide
    omega
  rw [kisNormalRam, hmmap]
  split_ifs
  · rfl
  · rfl
  · rfl
  · simp [hend]

/-- `sys_map_mmio` of one page spares the tables. -/
theorem Inv.spares_mapMmio {own : List ℕ → Bool} {s : PageState} {kind : ℕ → Option Kind}
    (h : Inv own s kind) {cr3 virt phys : Word} {w : Vmm}
    (hcall : s.vmm.sysMapMmio cr3 virt phys 1 = some (virt, w))
    (hmap : s.vmm.kvmmapAt cr3 virt phys 0x1F = some w) :
    SparesTables s (.sysMapMmio cr3 virt phys 1) := by
  refine h.spares_of_took (fun s' hstep => ?_) (by simp)
  cases hstep with
  | sysMapMmio _ hcall' =>
    obtain ⟨-, rfl⟩ := Prod.mk.inj (Option.some.inj (hcall.symm.trans hcall'))
    obtain ⟨taken, htook, -⟩ := kvmmapAt_took hmap
    exact ⟨taken, htook⟩

/-- No device has been mapped when the first address space is created. -/
theorem Started.reachable_noDevices {s s' : PageState} (h : Started s)
    (hspare : SparesTables s (.call (.kvmmCreateUserPml4 0x9000)))
    (hstep : Step s (.call (.kvmmCreateUserPml4 0x9000)) s') :
    (pageSystem.restrict NoDevices).Reachable s' := by
  refine .step (.init h.init) ⟨⟨hspare, fun cr3 hcr3 => ?_⟩, hstep⟩
  obtain rfl := Option.some.inj hcr3
  exact h.pdpt 1 (by decide) (by decide)

/-- The machine with 16 MiB has an address space with one device, at `0x40000000`. -/
theorem exists_first_device : ∃ (s : PageState) (cr3 : Word) (t : ℕ),
    (pageSystem.restrict DeviceStep).Reachable s ∧ s.roots = [cr3, 0x9000] ∧ cr3 ≠ 0x9000 ∧
    descend s.vmm.mem (Pte.frame cr3) [0, 1, 0] = some t ∧ s.vmm.mem.entry t 1 = 0 ∧
    s.vmm.pmm.Plenty 1400 ∧ s.vmm.mmapEntries = [⟨0x100000, 0xF00000, true⟩] := by
  obtain ⟨s, hs⟩ := exists_started splits_deviceOwn
  obtain ⟨new, w, hb, hne, hplenty, hspare, hstep⟩ := hs.exists_create splits_deviceOwn
  have hmmap : w.mmapEntries = [⟨0x100000, 0xF00000, true⟩] :=
    hb.ext.mmapEntries.trans hs.mmapEntries
  have hreach : (pageSystem.restrict DeviceStep).Reachable (s.addRoot w (Pte.ofFrame new.pml4)) :=
    .step (.init hs.init) ⟨⟨hspare, .inl (by simp [PageOp.source])⟩, hstep⟩
  obtain ⟨kind, hinv⟩ := exists_inv_device (hs.reachable_noDevices hspare hstep)
  have hr : Pte.ofFrame new.pml4 ∈ (s.addRoot w (Pte.ofFrame new.pml4)).roots := List.mem_cons_self
  obtain ⟨u, hmap, hcall⟩ := hs.sysMapMmio_one hb (Plenty.mono hplenty (by decide))
    (show (0xE0000000 : Word) &&& 0xFFF = 0 by decide) (by decide)
    (kisNormalRam_above hmmap (by decide))
  have hwalk : w.kgetPteAddrAt (Pte.ofFrame new.pml4) 0x40000000 = none :=
    hs.kgetPteAddrAt_device hb (by decide) (by decide)
  obtain ⟨kind', t, ht, hext, hkind, hdesc, -⟩ := hinv.tables.kvmmapAt (hinv.frame_mem hr) hmap
  have hpath : path 0x40000000 = [0, 1, 0, 0] := by decide
  have hown : OwnPath deviceOwn (path 0x40000000) := ownPath_device (by decide) (by decide)
  rw [hpath] at hkind hdesc
  -- the last-level table is new, and only its first entry is set
  have hfresh : kind t = none := by
    by_contra hold
    obtain ⟨K, hK⟩ := Option.ne_none_iff_exists'.mp hold
    have hpriv : kind t = some (.priv (Pte.frame (Pte.ofFrame new.pml4)) [0, 1, 0]) := by
      rw [hK, ← hext.kinds t K hK, hkind]
      rfl
    rw [kgetPteAddrAt_eq, hpath] at hwalk
    have := (hinv.tables.forest.descend_of_priv hpriv).2
    rw [show w.mem = (s.addRoot w (Pte.ofFrame new.pml4)).vmm.mem from rfl] at hwalk
    simp [this] at hwalk
  have hempty : u.mem.entry t 1 = 0 := by
    refine (hext.fresh t _ hkind hfresh).2 1 (by decide) fun hon => ?_
    obtain ⟨l, hl, hj, hK⟩ := hon.eq_priv hown
    have htake := (Kind.eq_of_follow hK).2
    rw [hpath] at hj htake
    obtain rfl | rfl | rfl | rfl : l = 0 ∨ l = 1 ∨ l = 2 ∨ l = 3 := by omega
    · exact absurd hj (by decide)
    · exact absurd htake (by decide)
    · exact absurd hj (by decide)
    · exact absurd hj (by decide)
  have hspare' := hinv.spares_mapMmio hcall hmap
  refine ⟨_, Pte.ofFrame new.pml4, t, hreach.step ⟨⟨hspare', .inr ⟨_, _, _, _, rfl⟩⟩,
    .sysMapMmio hr hcall⟩, ?_, hne, hdesc, hempty, ?_, ?_⟩
  · rw [setVmm, addRoot, hs.roots]
  · obtain ⟨taken, htook, hlen⟩ := kvmmapAt_took hmap
    exact htook.plenty (Plenty.mono hplenty (by omega))
  · exact hext.mmapEntries.trans hmmap

/-- The first address space maps a device, and the kernel sees none. -/
theorem device_window_isolated_first : ∃ (s : PageState) (cr3 : Word) (w : Vmm),
    (pageSystem.restrict NoDevices).Reachable s ∧ cr3 ∈ s.roots ∧
    s.vmm.sysMapMmio cr3 0x40000000 0xE0000000 1 = some (0x40000000, w) ∧
    ∀ r' ∈ s.roots, r' ≠ cr3 → ∀ a,
      access w.mem (Pte.frame r') (path a) = access s.vmm.mem (Pte.frame r') (path a) := by
  obtain ⟨s, hs⟩ := exists_started splits_deviceOwn
  obtain ⟨new, w, hb, -, hplenty, hspare, hstep⟩ := hs.exists_create splits_deviceOwn
  have hreach := hs.reachable_noDevices hspare hstep
  obtain ⟨u, -, hcall⟩ := hs.sysMapMmio_one hb (Plenty.mono hplenty (by decide))
    (show (0xE0000000 : Word) &&& 0xFFF = 0 by decide) (by decide)
    (kisNormalRam_above (hb.ext.mmapEntries.trans hs.mmapEntries) (by decide))
  have hr : Pte.ofFrame new.pml4 ∈ (s.addRoot w (Pte.ofFrame new.pml4)).roots := List.mem_cons_self
  exact ⟨_, _, u, hreach, hr, hcall, device_window_isolated hreach hr hcall⟩

/-- An address space is made from one with a device. A second device of the old one then shows
in the new one. -/
theorem device_shows_in_copy : ∃ (s : PageState) (cr3 cr3' : Word) (w : Vmm),
    (pageSystem.restrict DeviceStep).Reachable s ∧ cr3 ∈ s.roots ∧ cr3' ∈ s.roots ∧ cr3' ≠ cr3 ∧
    s.vmm.sysMapMmio cr3 0x40001000 0xE0001000 1 = some (0x40001000, w) ∧
    access s.vmm.mem (Pte.frame cr3') (path 0x40001000) = none ∧
    access w.mem (Pte.frame cr3') (path 0x40001000) ≠ none := by
  obtain ⟨s, cr3, t, hreach, hroots, -, hdesc, hempty, hplenty, hmmap⟩ := exists_first_device
  obtain ⟨kind, hinv⟩ := exists_inv (reachable_of_device hreach)
  have hr : cr3 ∈ s.roots := by simp [hroots]
  obtain ⟨new, w, hb, hleft, hspare, hstep⟩ :=
    hinv.exists_create splits_windowOwn hr (n := 100) (Plenty.mono hplenty (by decide))
  have hreach' : (pageSystem.restrict DeviceStep).Reachable (s.addRoot w (Pte.ofFrame new.pml4)) :=
    hreach.step ⟨⟨hspare, .inl (by simp [PageOp.source])⟩, hstep⟩
  obtain ⟨kind', hinv'⟩ := exists_inv (reachable_of_device hreach')
  have hlt : new.pml4 < 2 ^ 52 := hb.ext.lt (by simp [NewSpace.frames])
  have hframe : Pte.frame (Pte.ofFrame new.pml4) = new.pml4 := Pte.frame_ofFrame hlt
  have hmem : Pte.ofFrame new.pml4 ∈ (s.addRoot w (Pte.ofFrame new.pml4)).roots := List.mem_cons_self
  have hmem' : cr3 ∈ (s.addRoot w (Pte.ofFrame new.pml4)).roots := List.mem_cons_of_mem _ hr
  obtain ⟨hold, hnew⟩ := descend_of_built hinv.tables (hinv.frame_mem hr) hb (by decide) hdesc
  have hkind : kind t ≠ none :=
    hinv.kind_ne_none ⟨cr3, hr, [0, 1, 0], by simp, by simp, hdesc⟩
  have hempty' : w.mem.entry t 1 = 0 := by
    rw [hinv.tables.entry_of_kind hb hkind (by decide), hempty]
  have hpath : path 0x40001000 = [0, 1, 0] ++ [1] := by decide
  have htake : (path 0x40001000).take 3 = [0, 1, 0] := by decide
  obtain ⟨u, hmap⟩ := exists_kvmmapAt (Plenty.mono hleft (by decide)) cr3 0x40001000 0xE0001000 0x1F
  have hcall : w.sysMapMmio cr3 0x40001000 0xE0001000 1 = some (0x40001000, u) := by
    refine Vmm.sysMapMmio_one (by decide) (by decide) (by decide) (by decide)
      (kisNormalRam_above (hb.ext.mmapEntries.trans hmmap) (by decide)) (fun t' j hwalk => ?_) hmap
    rw [kgetPteAddrAt_eq, htake, hold] at hwalk
    obtain ⟨rfl, rfl⟩ := Prod.mk.inj (Option.some.inj hwalk)
    rw [show Pte.ptIndex 0x40001000 = 1 from by decide, hempty']
    decide
  obtain ⟨kind'', t', -, hext, -, hdesc', hentry, -⟩ :=
    hinv'.tables.kvmmapAt (hinv'.frame_mem hmem') hmap
  have hkeep : ∀ {r}, r ∈ (s.addRoot w (Pte.ofFrame new.pml4)).roots →
      descend w.mem (Pte.frame r) [0, 1, 0] = some t →
      descend u.mem (Pte.frame r) [0, 1, 0] = some t := fun hr hp =>
    hext.edits.descend_eq hinv'.tables (hinv'.frame_mem hr) (by simp) (by simp) hp
  rw [htake, hkeep hmem' hold] at hdesc'
  obtain rfl := Option.some.inj hdesc'
  refine ⟨_, cr3, Pte.ofFrame new.pml4, u, hreach', hmem', hmem, hinv.ne_of_built hr hb, hcall, ?_, ?_⟩
  · rw [hpath, hframe]
    exact (access_eq_none_iff hnew).mpr (by rw [hempty']; decide)
  · rw [hpath, ne_eq, access_eq_none_iff (hkeep hmem (by rw [hframe]; exact hnew))]
    rw [show Pte.ptIndex 0x40001000 = 1 from by decide] at hentry
    rw [hentry]
    decide

end PageState

end Nyvela
