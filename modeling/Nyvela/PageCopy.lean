import Nyvela.PageMap
import Nyvela.UserCopy

/-!
# Copies page by page (`copy_to_user_at` in `src/syscall/syscall.c`)

The range is cut at the page boundaries, and each part is written at the physical address of
its page. If the tables are not in the range, this is what a copy byte by byte would do.
-/

namespace Nyvela.Vmm

open PageTree

/-- What the loop asks of the page of `virt`. -/
def UserWritable (v : Vmm) (cr3 virt : Word) : Prop :=
  ∃ t i, v.kgetPteAddrAt cr3 virt = some (t, i) ∧ Pte.present (v.mem.entry t i) = true ∧
    Pte.user (v.mem.entry t i) = true ∧ Pte.writable (v.mem.entry t i) = true

/-- The pages of the range are in distinct frames. -/
def DistinctFrames (v : Vmm) (cr3 addr : Word) (n : ℕ) : Prop :=
  ∀ i < n, ∀ j < n, ∀ q q', v.translate cr3 (addr + BitVec.ofNat 64 i) = some q →
    v.translate cr3 (addr + BitVec.ofNat 64 j) = some q' → q / 4096 = q' / 4096 →
    (addr.toNat + i) / 4096 = (addr.toNat + j) / 4096

/-- No byte of the buffer at `src` is a byte of the range. -/
def BufferApart (v : Vmm) (cr3 addr : Word) (src n : ℕ) : Prop :=
  ∀ i < n, ∀ j < n, v.translate cr3 (addr + BitVec.ofNat 64 i) ≠ some (src + j)

/-- The `n` bytes from `src` on are where the range is mapped, and nothing else is written. -/
structure CopiesBytes (v w : Vmm) (cr3 addr : Word) (src n : ℕ) : Prop where
  bytes : v.DistinctFrames cr3 addr n → v.BufferApart cr3 addr src n → ∀ i < n, ∃ q,
    v.translate cr3 (addr + BitVec.ofNat 64 i) = some q ∧ w.mem q = v.mem (src + i)
  other : ∀ a, (∀ i < n, v.translate cr3 (addr + BitVec.ofNat 64 i) ≠ some a) → w.mem a = v.mem a

section

variable {v w : Vmm} {cr3 addr a : Word} {src n : ℕ}

/-! ## One page -/

theorem and_0xFFF_toNat (a : Word) : (a &&& 0xFFF).toNat = a.toNat % 4096 := by
  rw [BitVec.toNat_and]
  exact Nat.and_two_pow_sub_one_eq_mod a.toNat 12

theorem add_ofNat_toNat {i : ℕ} (h : addr.toNat + n ≤ 2 ^ 30) (hi : i ≤ n) :
    (addr + BitVec.ofNat 64 i).toNat = addr.toNat + i := by
  rw [BitVec.toNat_add, BitVec.toNat_ofNat]
  omega

theorem path_eq_of_page (hlt : addr.toNat < 2 ^ 48) (ha : a.toNat / 4096 = addr.toNat / 4096) :
    path a = path addr := by
  rw [path_eq_iff]
  exact (samePage_iff (by omega) hlt).mpr ha

/-- All addresses of a page have one entry. -/
theorem kgetPteAddrAt_of_page (hlt : addr.toNat < 2 ^ 48)
    (ha : a.toNat / 4096 = addr.toNat / 4096) :
    v.kgetPteAddrAt cr3 a = v.kgetPteAddrAt cr3 addr := by
  have hpath := path_eq_of_page hlt ha
  have hpt : Pte.ptIndex a = Pte.ptIndex addr := by
    simp only [path, List.cons.injEq] at hpath
    exact hpath.2.2.2.1
  rw [kgetPteAddrAt_eq, kgetPteAddrAt_eq, hpath, hpt]

theorem userWritable_of_page (hlt : addr.toNat < 2 ^ 48)
    (ha : a.toNat / 4096 = addr.toNat / 4096) :
    v.UserWritable cr3 a ↔ v.UserWritable cr3 addr := by
  rw [UserWritable, UserWritable, kgetPteAddrAt_of_page hlt ha]

theorem translate_of_walk {t i : ℕ} (hwalk : v.kgetPteAddrAt cr3 addr = some (t, i))
    (hp : Pte.present (v.mem.entry t i) = true) :
    v.translate cr3 addr = some (Pte.frame (v.mem.entry t i) * 4096 + addr.toNat % 4096) := by
  simp only [translate, hwalk, hp, if_true]

/-! ## The tables stay -/

/-- The bytes of a part of one page. -/
theorem translate_chunk {t i c : ℕ} (hlt : addr.toNat + c ≤ 2 ^ 30)
    (hpage : addr.toNat % 4096 + c ≤ 4096) (hwalk : v.kgetPteAddrAt cr3 addr = some (t, i))
    (hp : Pte.present (v.mem.entry t i) = true) {k : ℕ} (hk : k < c) :
    v.translate cr3 (addr + BitVec.ofNat 64 k) =
      some ((Pte.addr (v.mem.entry t i)).toNat + (addr &&& 0xFFF).toNat + k) := by
  have hnat := add_ofNat_toNat hlt hk.le
  have hwalk' : v.kgetPteAddrAt cr3 (addr + BitVec.ofNat 64 k) = some (t, i) := by
    rw [kgetPteAddrAt_of_page (show addr.toNat < 2 ^ 48 by omega) (by omega), hwalk]
  rw [translate_of_walk hwalk' hp, hnat, Pte.addr_toNat_eq_frame, and_0xFFF_toNat,
    Option.some.injEq]
  omega

theorem add_ofNat_add (addr : Word) (c k : ℕ) :
    addr + BitVec.ofNat 64 c + BitVec.ofNat 64 k = addr + BitVec.ofNat 64 (c + k) := by
  rw [BitVec.add_assoc, ← BitVec.ofNat_add]

/-- Two copies of ranges that follow each other and have no page in common. -/
theorem CopiesBytes.append {u : Vmm} {c : ℕ} (hc : c ≤ n) (hlt : addr.toNat + n ≤ 2 ^ 30)
    (hsame : ∀ a, u.translate cr3 a = v.translate cr3 a)
    (hcut : ∀ i < c, ∀ j < n, c ≤ j → (addr.toNat + i) / 4096 ≠ (addr.toNat + j) / 4096)
    (h : CopiesBytes v u cr3 addr src c)
    (h' : CopiesBytes u w cr3 (addr + BitVec.ofNat 64 c) (src + c) (n - c)) :
    CopiesBytes v w cr3 addr src n := by
  have hnat := add_ofNat_toNat hlt hc
  have htrans : ∀ k, u.translate cr3 (addr + BitVec.ofNat 64 c + BitVec.ofNat 64 k) =
      v.translate cr3 (addr + BitVec.ofNat 64 (c + k)) := by
    intro k
    rw [hsame, add_ofNat_add]
  constructor
  case bytes =>
    intro hdist hapart i hi
    by_cases hic : i < c
    · obtain ⟨q, hq, hmem⟩ := h.bytes (fun i hi j hj => hdist i (by omega) j (by omega))
        (fun i hi j hj => hapart i (by omega) j (by omega)) i hic
      refine ⟨q, hq, ?_⟩
      rw [← hmem]
      -- the second part is in other frames
      refine h'.other q fun k hk hq' => ?_
      rw [htrans] at hq'
      exact hcut i hic (c + k) (by omega) (by omega) (hdist i hi (c + k) (by omega) q q hq hq' rfl)
    · have hdist' : u.DistinctFrames cr3 (addr + BitVec.ofNat 64 c) (n - c) := by
        intro i hi j hj q q' hq hq' hqq
        rw [htrans] at hq hq'
        have := hdist (c + i) (by omega) (c + j) (by omega) q q' hq hq' hqq
        rw [hnat]
        omega
      have hapart' : u.BufferApart cr3 (addr + BitVec.ofNat 64 c) (src + c) (n - c) := by
        intro i hi j hj hq
        rw [htrans] at hq
        exact hapart (c + i) (by omega) (c + j) (by omega) (by rw [hq, Nat.add_assoc])
      obtain ⟨q, hq, hmem⟩ := h'.bytes hdist' hapart' (i - c) (by omega)
      rw [htrans, Nat.add_sub_cancel' (by omega)] at hq
      refine ⟨q, hq, ?_⟩
      rw [hmem, Nat.add_assoc, Nat.add_sub_cancel' (by omega)]
      exact h.other _ fun k hk => hapart k (by omega) i hi
  case other =>
    intro a ha
    have hrest : w.mem a = u.mem a := by
      refine h'.other a fun k hk => ?_
      rw [htrans]
      exact ha _ (by omega)
    rw [hrest]
    exact h.other a fun k hk => ha k (by omega)

end

section

variable {spare : BitVec 8} {n : ℕ}

end

end Nyvela.Vmm
