import Nyvela.FreeAuthority

/-!
# Copies to user memory (`copy_to_user` in `src/syscall/syscall.c`)

The copy runs in kernel mode in the caller's address space. There a write needs a
present entry and nothing else: neither the user bit nor, as `CR0.WP` is clear,
the write bit is looked at.
-/

namespace Nyvela.Vmm

/-- `memcpy` through the address space `cr3`. A page fault in kernel mode halts. -/
def memcpyAt (cr3 dest src : Word) : ℕ → Vmm → Option Vmm
  | 0, v => some v
  | n + 1, v =>
    (memcpyAt cr3 dest src n v).bind fun v =>
      (v.translate cr3 (src + BitVec.ofNat 64 n)).bind fun p =>
        (v.translate cr3 (dest + BitVec.ofNat 64 n)).map fun q =>
          v.setMem (v.mem.store q (v.mem p))

def copyToUser (v : Vmm) (cr3 uaddr kbuf len : Word) : Option (ℤ × Vmm) :=
  if len = 0 then some (0, v)
  else if kbuf = 0 then some (-1, v)
  else if userRangeOk uaddr len = false then some (-1, v)
  else (memcpyAt cr3 uaddr kbuf len.toNat v).map fun v => (0, v)

/-- The loop of `copy_to_user_at`, page by page. The entry must be present, open to the user
and writable; the page is then written at its physical address. -/
def copyPages (cr3 : Word) : ℕ → Word → ℕ → ℕ → Vmm → Option (ℤ × Vmm)
  | 0, _, _, _, _ => none
  | fuel + 1, addr, src, remaining, v =>
    if remaining = 0 then some (0, v)
    else
      match v.kgetPteAddrAt cr3 addr with
      | none => some (-1, v)
      | some (pt, i) =>
        let entry := v.mem.entry pt i
        if !Pte.present entry then some (-1, v)
        else if !Pte.user entry then some (-1, v)
        else if !Pte.writable entry then some (-1, v)
        else
          let pageOffset := (addr &&& 0xFFF).toNat
          let chunk := min (0x1000 - pageOffset) remaining
          copyPages cr3 fuel (addr + BitVec.ofNat 64 chunk) (src + chunk) (remaining - chunk)
            (v.setMem (v.mem.memcpy ((Pte.addr entry).toNat + pageOffset) src chunk))

/-- Each round copies a byte at least, so there are no more rounds than bytes. -/
def copyToUserAt (v : Vmm) (cr3 uaddr : Word) (kbuf len : ℕ) : Option (ℤ × Vmm) :=
  if len = 0 then some (0, v)
  else if kbuf = 0 then some (-1, v)
  else if userRangeOk uaddr (BitVec.ofNat 64 len) = false then some (-1, v)
  else copyPages cr3 (len + 1) uaddr kbuf len v

/-- Byte by byte, each to where the address space maps it at that moment. -/
def WritesThrough (cr3 dest : Word) (n : ℕ) (v v' : Vmm) : Prop :=
  ∃ w : ℕ → Vmm, w 0 = v ∧ w n = v' ∧ ∀ i < n, ∃ q b,
    (w i).translate cr3 (dest + BitVec.ofNat 64 i) = some q ∧
      w (i + 1) = (w i).setMem ((w i).mem.store q b)

/-- No byte of the `n` bytes from `dest` on is mapped into a frame of `K`. -/
def Avoids (v : Vmm) (cr3 dest : Word) (n : ℕ) (K : Set ℕ) : Prop :=
  ∀ i < n, ∀ q, v.translate cr3 (dest + BitVec.ofNat 64 i) = some q → q / 4096 ∉ K

section

variable {v v' : Vmm} {cr3 dest src : Word} {n : ℕ} {K : Set ℕ}

theorem writesThrough_memcpyAt (h : memcpyAt cr3 dest src n v = some v') :
    WritesThrough cr3 dest n v v' := by
  induction n generalizing v' with
  | zero =>
    obtain rfl := Option.some.inj h
    exact ⟨fun _ => v, rfl, rfl, fun i hi => absurd hi (by omega)⟩
  | succ n ih =>
    obtain ⟨u, hu, h⟩ := Option.bind_eq_some_iff.mp h
    obtain ⟨p, -, h⟩ := Option.bind_eq_some_iff.mp h
    obtain ⟨q, hq, rfl⟩ := Option.map_eq_some_iff.mp h
    obtain ⟨w, h0, hn, hstep⟩ := ih hu
    refine ⟨Function.update w (n + 1) (u.setMem (u.mem.store q (u.mem p))), ?_, ?_, ?_⟩
    · rw [Function.update_of_ne (by omega), h0]
    · rw [Function.update_self]
    · intro i hi
      rw [Function.update_of_ne (show i ≠ n + 1 by omega)]
      by_cases heq : i = n
      · subst heq
        rw [Function.update_self, hn]
        exact ⟨q, _, hq, rfl⟩
      · rw [Function.update_of_ne (show i + 1 ≠ n + 1 by omega)]
        exact hstep i (by omega)

/-- The walk of an address below 1 GiB only reads the tables of `tableFrames`. -/
theorem translate_congr {virt : Word} (hvirt : virt.toNat < 2 ^ 30)
    (h : ∀ f ∈ v.tableFrames cr3, ∀ j < 512, v'.mem.entry f j = v.mem.entry f j) :
    v'.translate cr3 virt = v.translate cr3 virt := by
  have h4 : Pte.pml4Index virt = 0 := by rw [Pte.pml4Index_eq]; omega
  have h3 : Pte.pdptIndex virt = 0 := by rw [Pte.pdptIndex_eq]; omega
  have h2 : Pte.pdIndex virt < 512 := by rw [Pte.pdIndex_eq]; omega
  have hpml4 := h (Pte.frame cr3) (by simp [tableFrames]) 0 (by decide)
  have hpdpt := h (Pte.frame (v.mem.entry (Pte.frame cr3) 0)) (by simp [tableFrames]) 0 (by decide)
  have hpd := h (Pte.frame (v.mem.entry (Pte.frame (v.mem.entry (Pte.frame cr3) 0)) 0))
    (by simp [tableFrames]) _ h2
  have hpt := h (Pte.frame (v.mem.entry (Pte.frame (v.mem.entry (Pte.frame
    (v.mem.entry (Pte.frame cr3) 0)) 0)) (Pte.pdIndex virt)))
    (List.mem_append_right _ (List.mem_map.mpr ⟨_, List.mem_range.mpr h2, rfl⟩)) _
    (Pte.ptIndex_lt virt)
  simp only [translate, kgetPteAddrAt, h4, h3, hpml4, hpdpt, hpd]
  split_ifs <;> simp_all

theorem toNat_add_ofNat {i : ℕ} (h : dest.toNat + n ≤ 2 ^ 30) (hi : i < n) :
    (dest + BitVec.ofNat 64 i).toNat = dest.toNat + i := by
  rw [BitVec.toNat_add, BitVec.toNat_ofNat]
  omega

/-- A copy that avoids `K` writes where the bytes were mapped before it began, as long as the
tables that map them are in `K`. -/
theorem memcpyAt_writes (hdest : dest.toNat + n ≤ 2 ^ 30) (htab : ∀ f ∈ v.tableFrames cr3, f ∈ K)
    (havoid : v.Avoids cr3 dest n K) (h : memcpyAt cr3 dest src n v = some v') {a : ℕ}
    (ha : v'.mem a ≠ v.mem a) : ∃ i < n, v.translate cr3 (dest + BitVec.ofNat 64 i) = some a := by
  induction n generalizing v' a with
  | zero =>
    obtain rfl := Option.some.inj h
    exact absurd rfl ha
  | succ n ih =>
    obtain ⟨u, hu, h⟩ := Option.bind_eq_some_iff.mp h
    obtain ⟨p, -, h⟩ := Option.bind_eq_some_iff.mp h
    obtain ⟨q, hq, rfl⟩ := Option.map_eq_some_iff.mp h
    have hu' : ∀ {a}, u.mem a ≠ v.mem a →
        ∃ i < n, v.translate cr3 (dest + BitVec.ofNat 64 i) = some a := fun ha =>
      ih (by omega) (fun i hi => havoid i (by omega)) hu ha
    -- nothing in `K` has changed so far, so the walk is still the one at the start
    have hsame : ∀ f ∈ v.tableFrames cr3, ∀ j < 512, u.mem.entry f j = v.mem.entry f j := by
      intro f hf j hj
      apply Memory.entry_congr _ hj
      intro k hk
      by_contra hne
      obtain ⟨i, hi, htrans⟩ := hu' hne
      apply havoid i (by omega) _ htrans
      rw [show (f * 4096 + k) / 4096 = f by omega]
      exact htab f hf
    have hvirt := toNat_add_ofNat hdest (show n < n + 1 by omega)
    rw [translate_congr (by omega) hsame] at hq
    by_cases haq : a = q
    · exact ⟨n, by omega, by rw [hq, haq]⟩
    · rw [setMem_mem, Memory.store_of_ne _ _ haq] at ha
      obtain ⟨i, hi, htrans⟩ := hu' ha
      exact ⟨i, by omega, htrans⟩

theorem memcpyAt_pmm (h : memcpyAt cr3 dest src n v = some v') : v'.pmm = v.pmm := by
  induction n generalizing v' with
  | zero =>
    obtain rfl := Option.some.inj h
    rfl
  | succ n ih =>
    obtain ⟨u, hu, h⟩ := Option.bind_eq_some_iff.mp h
    obtain ⟨p, -, h⟩ := Option.bind_eq_some_iff.mp h
    obtain ⟨q, -, rfl⟩ := Option.map_eq_some_iff.mp h
    have hpmm : u.pmm = v.pmm := ih hu
    exact hpmm

theorem userRangeOk_bounds {addr len : Word} (hlen : len ≠ 0) (h : userRangeOk addr len = true) :
    0x400000 ≤ addr.toNat ∧ addr.toNat + len.toNat ≤ 0x700000 ∧ len.toNat ≤ 2304 := by
  unfold userRangeOk userAreaBase userAreaEnd syscallMaxBuf syscallMaxPath at h
  split_ifs at h with h1 h2 h3 h4
  have hsum : (addr + len).toNat = (addr.toNat + len.toNat) % 2 ^ 64 := BitVec.toNat_add _ _
  rw [BitVec.lt_def, hsum] at h3
  have := addr.isLt
  omega

/-- What an accepted copy writes: bytes of the buffer's own pages, whatever the flags of their
entries. Frames that no page of the buffer maps stay as they are, if they include the tables. -/
theorem copy_to_user_contained (v v' : Vmm) (cr3 uaddr kbuf len : Word)
    (h : v.copyToUser cr3 uaddr kbuf len = some (0, v')) :
    (len = 0 ∧ v' = v) ∨
      (0x400000 ≤ uaddr.toNat ∧ uaddr.toNat + len.toNat ≤ 0x700000 ∧ len.toNat ≤ 2304 ∧
        v'.pmm = v.pmm ∧ WritesThrough cr3 uaddr len.toNat v v' ∧
        ∀ K : Set ℕ, (∀ f ∈ v.tableFrames cr3, f ∈ K) → v.Avoids cr3 uaddr len.toNat K →
          (∀ a, v'.mem a ≠ v.mem a →
            ∃ i < len.toNat, v.translate cr3 (uaddr + BitVec.ofNat 64 i) = some a) ∧
          ∀ a, a / 4096 ∈ K → v'.mem a = v.mem a) := by
  unfold copyToUser at h
  split_ifs at h with h0 h1 h2
  · obtain ⟨-, rfl⟩ := Prod.mk.inj (Option.some.inj h)
    exact .inl ⟨h0, rfl⟩
  · exact absurd (Prod.mk.inj (Option.some.inj h)).1 (by decide)
  · exact absurd (Prod.mk.inj (Option.some.inj h)).1 (by decide)
  · obtain ⟨w, hw, heq⟩ := Option.map_eq_some_iff.mp h
    obtain ⟨-, rfl⟩ := Prod.mk.inj heq
    obtain ⟨hlow, hhigh, hlen⟩ := userRangeOk_bounds h0 (by simpa using h2)
    refine .inr ⟨hlow, hhigh, hlen, memcpyAt_pmm hw, writesThrough_memcpyAt hw, ?_⟩
    intro K htab havoid
    have hwrites := fun a => memcpyAt_writes (a := a) (by omega) htab havoid hw
    refine ⟨hwrites, fun a ha => ?_⟩
    by_contra hne
    obtain ⟨i, hi, htrans⟩ := hwrites a hne
    exact havoid i hi a htrans ha

theorem copyToUser_byte {uaddr kbuf : Word} {p q : ℕ} (hk : kbuf ≠ 0)
    (hok : userRangeOk uaddr 1 = true) (hp : v.translate cr3 kbuf = some p)
    (hq : v.translate cr3 uaddr = some q) :
    v.copyToUser cr3 uaddr kbuf 1 = some (0, v.setMem (v.mem.store q (v.mem p))) := by
  have hmem : memcpyAt cr3 uaddr kbuf 1 v = some (v.setMem (v.mem.store q (v.mem p))) := by
    have hsrc : kbuf + BitVec.ofNat 64 0 = kbuf := BitVec.add_zero _
    have hdst : uaddr + BitVec.ofNat 64 0 = uaddr := BitVec.add_zero _
    simp only [memcpyAt, Option.bind_some, hsrc, hdst, hp, hq, Option.map_some]
  rw [copyToUser, if_neg (by decide), if_neg hk, if_neg (by rw [hok]; decide),
    show (1 : Word).toNat = 1 from rfl, hmem]
  rfl

end

/-- The last byte that is accepted. -/
theorem copy_to_user_contained_last : ∃ (s : VmState) (v : Vmm), vmSystem.Reachable s ∧
    0x600000 ∈ s.roots ∧ s.vmm.copyToUser 0x600000 0x6FFFFF 0x9000 1 = some (0, v) ∧
    v.pmm = s.vmm.pmm ∧ WritesThrough 0x600000 0x6FFFFF 1 s.vmm v := by
  obtain ⟨s, own, shared, sp, spaces, hreach, hroot, hlayout, hpml4, -⟩ :=
    VmState.sixteenMiB_created
  have hsp : sp ∈ sp :: spaces := List.mem_cons_self
  have hcr3 : Pte.frame 0x600000 = sp.pml4 := by rw [hpml4]; decide
  have hsrc := hlayout.translate hsp hcr3 (show (0x9000 : Word).toNat < 2 ^ 30 by decide)
    (by decide)
  have hdst := hlayout.translate hsp hcr3 (show (0x6FFFFF : Word).toNat < 2 ^ 30 by decide)
    (by decide)
  have hcall := copyToUser_byte (by decide) (by decide) hsrc hdst
  obtain ⟨hlen, -⟩ | ⟨-, -, -, hpmm, hwrites, -⟩ := copy_to_user_contained _ _ _ _ _ _ hcall
  · exact absurd hlen (by decide)
  · exact ⟨s, _, hreach.of_restrict, hroot, hcall, hpmm, hwrites⟩

/-- A process may have the kernel write to the process's own PML4, at `0x600000`. -/
theorem copy_to_user_escapes : ∃ (s : VmState) (v : Vmm), vmSystem.Reachable s ∧
    0x600000 ∈ s.roots ∧ s.vmm.userFrame 0x600000 0x600000 = none ∧
    s.vmm.pmm.bitmap.test 0x600 = false ∧
    s.vmm.copyToUser 0x600000 0x600000 0x9000 1 = some (0, v) ∧
    v.mem = s.vmm.mem.store 0x600000 (s.vmm.mem 0x9000) := by
  obtain ⟨s, own, shared, sp, spaces, hreach, hroot, hlayout, hpml4, -⟩ :=
    VmState.sixteenMiB_created
  have hsp : sp ∈ sp :: spaces := List.mem_cons_self
  have hcr3 : Pte.frame 0x600000 = sp.pml4 := by rw [hpml4]; decide
  have hsrc := hlayout.translate hsp hcr3 (show (0x9000 : Word).toNat < 2 ^ 30 by decide)
    (by decide)
  have hdst := hlayout.translate hsp hcr3 (show (0x600000 : Word).toNat < 2 ^ 30 by decide)
    (by decide)
  have hused : s.vmm.pmm.bitmap.test 0x600 = false := by
    rw [← hpml4]
    exact hlayout.used _ (by simp [hlayout.ownPml4 sp hsp])
  exact ⟨s, _, hreach.of_restrict, hroot, hlayout.userFrame_kernelOnly hsp hcr3 (by decide), hused,
    copyToUser_byte (by decide) (by decide) hsrc hdst, rfl⟩

end Nyvela.Vmm
