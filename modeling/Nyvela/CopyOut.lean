import Nyvela.PageCopy
import Nyvela.UserAccess

/-!
# Copies that stop halfway (`copy_to_user_at` in `src/syscall/syscall.c`)

The loop looks at the entry of a page when it comes to it. Where one is refused, the bytes of the
pages before it have been copied. As long as no table is written, the whole copy is one of bytes,
up to the first that has no page which the user may write.
-/

namespace Nyvela

/-- `copy_to_user_at` of the bytes `l`. -/
def copyOut (view : Word → Option ℕ) (uaddr : Word) (l : List (BitVec 8)) (m : Memory) :
    Bool × Memory :=
  if l ≠ [] ∧ userRangeOk uaddr (BitVec.ofNat 64 l.length) = false then (false, m)
  else putUntil view uaddr l m

section

variable {view : Word → Option ℕ} {addr : Word} {l : List (BitVec 8)} {m : Memory}

/-- Bytes in a row. -/
theorem putUntil_run (dest : ℕ)
    (h : ∀ i < l.length, view (addr + BitVec.ofNat 64 i) = some (dest + i)) (l' : List (BitVec 8)) :
    putUntil view addr (l ++ l') m =
      putUntil view (addr + BitVec.ofNat 64 l.length) l' (m.write dest l) := by
  induction l generalizing addr dest m with
  | nil =>
    rw [List.nil_append, List.length_nil, BitVec.add_zero]
    rfl
  | cons b l ih =>
    rw [List.length_cons] at h
    have hfirst := h 0 (by omega)
    rw [BitVec.add_zero] at hfirst
    have hrest : ∀ i < l.length, view (addr + 1 + BitVec.ofNat 64 i) = some (dest + 1 + i) := by
      intro i hi
      rw [succ_add_ofNat, h (i + 1) (by omega), Nat.add_right_comm, Nat.add_assoc]
    rw [List.cons_append, putUntil_some hfirst, ih _ hrest, succ_add_ofNat, List.length_cons]
    rfl

/-- An accepted range. -/
theorem copyOut_range (hlen : l.length < 2 ^ 64) (hne : l ≠ [])
    (h : ¬(l ≠ [] ∧ userRangeOk addr (BitVec.ofNat 64 l.length) = false)) :
    userAreaBase ≤ addr.toNat ∧ addr.toNat + l.length ≤ userAreaEnd :=
  Vmm.userRangeOk_ofNat hlen (fun h0 => hne (List.eq_nil_of_length_eq_zero h0))
    fun hf => h ⟨hne, hf⟩

/-- Its bytes. -/
theorem copyOut_range_byte (hlen : l.length < 2 ^ 64)
    (h : ¬(l ≠ [] ∧ userRangeOk addr (BitVec.ofNat 64 l.length) = false)) {i : ℕ}
    (hi : i < l.length) : userAreaBase ≤ (addr + BitVec.ofNat 64 i).toNat ∧
      (addr + BitVec.ofNat 64 i).toNat < userAreaEnd := by
  obtain ⟨hstart, hend⟩ := copyOut_range hlen (List.ne_nil_of_length_pos (by omega)) h
  rw [userAreaEnd] at hend
  rw [Vmm.toNat_add_ofNat (n := l.length) (by omega) hi, userAreaEnd]
  omega

end

namespace Vmm

/-- Where a byte goes that the kernel copies to `virt` for a user. -/
def userView (v : Vmm) (cr3 virt : Word) : Option ℕ :=
  match v.kgetPteAddrAt cr3 virt with
  | none => none
  | some (pt, i) =>
    let entry := v.mem.entry pt i
    if Pte.present entry && Pte.user entry && Pte.writable entry then
      some (Pte.frame entry * 4096 + virt.toNat % 4096)
    else none

section

variable {v v' : Vmm} {cr3 virt addr : Word} {src n : ℕ}

theorem userView_of_writable (h : v.UserWritable cr3 virt) :
    v.userView cr3 virt = v.translate cr3 virt := by
  obtain ⟨t, i, hwalk, hp, hu, hw⟩ := h
  rw [translate_of_walk hwalk hp, userView, hwalk]
  simp only [hp, hu, hw, Bool.and_self, if_true]

theorem userView_of_not_writable (h : ¬v.UserWritable cr3 virt) : v.userView cr3 virt = none := by
  unfold userView
  cases hwalk : v.kgetPteAddrAt cr3 virt with
  | none => rfl
  | some x =>
    dsimp only
    apply if_neg
    intro hflags
    rw [Bool.and_eq_true, Bool.and_eq_true] at hflags
    exact h ⟨x.1, x.2, hwalk, hflags.1.1, hflags.1.2, hflags.2⟩

/-- Memory that differs outside the tables only has the same pages for the user. -/
theorem userView_of_frames (hvirt : virt.toNat < 2 ^ 30)
    (h : ∀ a, a / 4096 ∈ v.tableFrames cr3 → v'.mem a = v.mem a) :
    v'.userView cr3 virt = v.userView cr3 virt := by
  have hentry : ∀ f ∈ v.tableFrames cr3, ∀ j < 512, v'.mem.entry f j = v.mem.entry f j :=
    fun f hf j hj => Memory.entry_of_frames h hf hj
  have h4 : Pte.pml4Index virt = 0 := by rw [Pte.pml4Index_eq]; omega
  have h3 : Pte.pdptIndex virt = 0 := by rw [Pte.pdptIndex_eq]; omega
  have h2 : Pte.pdIndex virt < 512 := by rw [Pte.pdIndex_eq]; omega
  have hpml4 := hentry (Pte.frame cr3) (by simp [tableFrames]) 0 (by decide)
  have hpdpt := hentry (Pte.frame (v.mem.entry (Pte.frame cr3) 0)) (by simp [tableFrames]) 0
    (by decide)
  have hpd := hentry (Pte.frame (v.mem.entry (Pte.frame (v.mem.entry (Pte.frame cr3) 0)) 0))
    (by simp [tableFrames]) _ h2
  have hpt := hentry (Pte.frame (v.mem.entry (Pte.frame (v.mem.entry (Pte.frame
    (v.mem.entry (Pte.frame cr3) 0)) 0)) (Pte.pdIndex virt)))
    (List.mem_append_right _ (List.mem_map.mpr ⟨_, List.mem_range.mpr h2, rfl⟩)) _
    (Pte.ptIndex_lt virt)
  simp only [userView, kgetPteAddrAt, h4, h3, hpml4, hpdpt, hpd]
  split_ifs <;> simp_all

/-- Where a copy for the user may write, with the tables and the source out of the way. -/
def Clear (v : Vmm) (cr3 addr : Word) (src n : ℕ) : Prop :=
  ∀ i < n, ∀ q, v.userView cr3 (addr + BitVec.ofNat 64 i) = some q →
    q / 4096 ∉ v.tableFrames cr3 ∧ (q < src ∨ src + n ≤ q)

/-- The pages one after the other are the bytes one after the other. -/
theorem copyPages_eq {fuel : ℕ} (hfuel : n < fuel) (hlt : addr.toNat + n ≤ 2 ^ 30)
    (hclear : v.Clear cr3 addr src n) :
    copyPages cr3 fuel addr src n v =
      some (if (putUntil (v.userView cr3) addr (v.mem.read src n) v.mem).1 then 0 else -1,
        v.setMem (putUntil (v.userView cr3) addr (v.mem.read src n) v.mem).2) := by
  induction fuel generalizing addr src n v with
  | zero => omega
  | succ fuel ih =>
    by_cases hn : n = 0
    · rw [hn, copyPages, if_pos rfl]
      rfl
    by_cases hok : v.UserWritable cr3 addr
    · obtain ⟨t, i, hwalk, hp, hu, hw⟩ := id hok
      have hoff := and_0xFFF_toNat addr
      obtain ⟨c, hc⟩ : ∃ c, c = min (0x1000 - (addr &&& 0xFFF).toNat) n := ⟨_, rfl⟩
      have hcn : c ≤ n := by omega
      have hcall : copyPages cr3 (fuel + 1) addr src n v = copyPages cr3 fuel
          (addr + BitVec.ofNat 64 c) (src + c) (n - c) (v.setMem (v.mem.memcpy
            ((Pte.addr (v.mem.entry t i)).toNat + (addr &&& 0xFFF).toNat) src c)) := by
        simp only [copyPages, if_neg hn, hwalk, hp, hu, hw, hc, Bool.not_true, Bool.false_eq_true,
          if_false]
      -- the part of the range in this page
      have hview : ∀ k < c, v.userView cr3 (addr + BitVec.ofNat 64 k) =
          some ((Pte.addr (v.mem.entry t i)).toNat + (addr &&& 0xFFF).toNat + k) := by
        intro k hk
        have hkn := add_ofNat_toNat hlt (show k ≤ n by omega)
        rw [userView_of_writable ((userWritable_of_page (by omega) (by omega)).mpr hok)]
        exact translate_chunk (by omega) (by omega) hwalk hp hk
      generalize (Pte.addr (v.mem.entry t i)).toNat + (addr &&& 0xFFF).toNat = dest at hcall hview
      have hout : ∀ k < c, (dest + k) / 4096 ∉ v.tableFrames cr3 ∧
          (dest + k < src ∨ src + n ≤ dest + k) :=
        fun k hk => hclear k (by omega) _ (hview k hk)
      have hdisj : src + n ≤ dest ∨ dest + c ≤ src := by
        have hstart := (hout 0 (by omega)).2
        by_contra hover
        have hmeet := (hout (src - dest) (by omega)).2
        omega
      have hlen := v.mem.read_length src c
      rw [Memory.memcpy_eq_write _ (by omega)] at hcall
      have hsame : ∀ a, (a < dest ∨ dest + c ≤ a) →
          v.mem.write dest (v.mem.read src c) a = v.mem a := by
        intro a ha
        apply Memory.write_outside
        omega
      have htab : ∀ a, a / 4096 ∈ v.tableFrames cr3 →
          v.mem.write dest (v.mem.read src c) a = v.mem a := by
        intro a ha
        apply hsame
        by_contra hin
        apply (hout (a - dest) (by omega)).1
        rwa [show dest + (a - dest) = a by omega]
      have hnat := add_ofNat_toNat hlt hcn
      have hrest : ∀ k < n - c,
          (v.setMem (v.mem.write dest (v.mem.read src c))).userView cr3
            (addr + BitVec.ofNat 64 c + BitVec.ofNat 64 k) =
          v.userView cr3 (addr + BitVec.ofNat 64 c + BitVec.ofNat 64 k) := by
        intro k hk
        have hkn := add_ofNat_toNat hlt (show c + k ≤ n by omega)
        apply userView_of_frames _ htab
        rw [add_ofNat_add, hkn]
        omega
      have hclear' : (v.setMem (v.mem.write dest (v.mem.read src c))).Clear cr3
          (addr + BitVec.ofNat 64 c) (src + c) (n - c) := by
        intro k hk q hq
        rw [hrest k hk, add_ofNat_add] at hq
        rw [tableFrames_of_frames htab]
        have hck := hclear (c + k) (by omega) q hq
        exact ⟨hck.1, by omega⟩
      have hread : (v.mem.write dest (v.mem.read src c)).read (src + c) (n - c) =
          v.mem.read (src + c) (n - c) := by
        apply Memory.read_congr
        intro k hk
        apply hsame
        omega
      have hsplit : v.mem.read src n = v.mem.read src c ++ v.mem.read (src + c) (n - c) := by
        rw [← Memory.read_add, Nat.add_sub_cancel' hcn]
      rw [hcall, ih (by omega) (by omega) hclear', setMem_mem, hread, hsplit,
        putUntil_run dest (by rwa [hlen]), hlen,
        putUntil_congr (by rwa [Memory.read_length])]
      rfl
    · obtain ⟨k, rfl⟩ : ∃ k, n = k + 1 := ⟨n - 1, by omega⟩
      rw [Memory.read_succ, putUntil_none (userView_of_not_writable hok)]
      change _ = some (-1, v)
      simp only [copyPages, if_neg hn]
      cases hwalk : v.kgetPteAddrAt cr3 addr with
      | none => rfl
      | some x =>
        dsimp only
        split_ifs with h1 h2 h3
        iterate 3 rfl
        simp only [Bool.not_eq_true, Bool.not_eq_false'] at h1 h2 h3
        exact absurd ⟨x.1, x.2, hwalk, h1, h2, h3⟩ hok

/-- `copy_to_user_at` from a buffer. -/
theorem copyToUserAt_eq (hsrc : src ≠ 0) (hn : n < 2 ^ 64)
    (hclear : addr.toNat + n ≤ userAreaEnd → userAreaBase ≤ addr.toNat → v.Clear cr3 addr src n) :
    v.copyToUserAt cr3 addr src n =
      some (if (copyOut (v.userView cr3) addr (v.mem.read src n) v.mem).1 then 0 else -1,
        v.setMem (copyOut (v.userView cr3) addr (v.mem.read src n) v.mem).2) := by
  by_cases h0 : n = 0
  · rw [copyToUserAt, if_pos h0, h0]
    rfl
  have hlen := v.mem.read_length src n
  have hne : v.mem.read src n ≠ [] := List.ne_nil_of_length_pos (by omega)
  rw [copyToUserAt, if_neg h0, if_neg hsrc]
  by_cases hok : userRangeOk addr (BitVec.ofNat 64 n) = false
  · have hrefuse : copyOut (v.userView cr3) addr (v.mem.read src n) v.mem = (false, v.mem) :=
      if_pos ⟨hne, by rwa [hlen]⟩
    rw [if_pos hok, hrefuse]
    rfl
  · have hgo : ¬(v.mem.read src n ≠ [] ∧
        userRangeOk addr (BitVec.ofNat 64 (v.mem.read src n).length) = false) :=
      fun h => hok (hlen ▸ h.2)
    have hcopy : copyOut (v.userView cr3) addr (v.mem.read src n) v.mem =
        putUntil (v.userView cr3) addr (v.mem.read src n) v.mem := if_neg hgo
    obtain ⟨hstart, hend⟩ := copyOut_range (by rwa [hlen]) hne hgo
    rw [hlen] at hend
    have hbound : addr.toNat + n ≤ 2 ^ 30 := hend.trans (by decide)
    rw [if_neg hok, hcopy, copyPages_eq (by omega) hbound (hclear hend hstart)]

end

end Vmm

end Nyvela
