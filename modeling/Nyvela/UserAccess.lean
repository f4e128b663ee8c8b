import Nyvela.UserCopy

/-!
# Reading user memory (`copy_user_path` and `copy_from_user` in `src/syscall/syscall.c`)

The kernel reads and writes the caller's memory through the caller's own page tables. As long as
no byte is written into a table, the address space is the same for the whole copy, and the copy
is one of bytes between the physical addresses that it stands for.
-/

namespace Nyvela

/-- The loop of `copy_user_path`, with `n` rounds to go. The outer `none` is a page fault, the
inner one the result `-1`. -/
def copyUserPathLoop (load : Word → Option (BitVec 8)) (uaddr : Word) :
    ℕ → ℕ → List Char → Option (Option (List Char))
  | 0, _, _ => some none
  | n + 1, i, out =>
    if userAreaEnd ≤ (uaddr + BitVec.ofNat 64 i).toNat then some none
    else
      (load (uaddr + BitVec.ofNat 64 i)).bind fun c =>
        if c = 0 then some (some out)
        else copyUserPathLoop load uaddr n (i + 1) (out ++ [Char.ofNat c.toNat])

def copyUserPath (load : Word → Option (BitVec 8)) (uaddr : Word) : Option (Option (List Char)) :=
  if uaddr.toNat < userAreaBase ∨ userAreaEnd ≤ uaddr.toNat then some none
  else copyUserPathLoop load uaddr syscallMaxPath 0 []

/-- The bytes that `copy_user_path` looks at: up to the first zero, and not behind the user
area. -/
def PathByte (load : Word → Option (BitVec 8)) (uaddr : Word) (i : ℕ) : Prop :=
  i < syscallMaxPath ∧ (uaddr + BitVec.ofNat 64 i).toNat < userAreaEnd ∧
    ∀ j < i, load (uaddr + BitVec.ofNat 64 j) ≠ some 0

/-- The `n` bytes from `addr` on. -/
def loads (load : Word → Option (BitVec 8)) (addr : Word) : ℕ → Option (List (BitVec 8))
  | 0 => some []
  | n + 1 =>
    (loads load addr n).bind fun l => (load (addr + BitVec.ofNat 64 n)).map fun b => l ++ [b]

/-- The bytes `l` from `addr` on, each where `view` puts it, up to the first that it has no place
for. -/
def putUntil (view : Word → Option ℕ) : Word → List (BitVec 8) → Memory → Bool × Memory
  | _, [], m => (true, m)
  | addr, b :: l, m =>
    match view addr with
    | none => (false, m)
    | some q => putUntil view (addr + 1) l (m.store q b)

/-- All of them, or none. -/
def put (view : Word → Option ℕ) (addr : Word) (l : List (BitVec 8)) (m : Memory) :
    Option Memory :=
  if (putUntil view addr l m).1 then some (putUntil view addr l m).2 else none

section

variable {load load' : Word → Option (BitVec 8)} {uaddr : Word}

theorem copyUserPathLoop_congr (h : ∀ i, PathByte load uaddr i →
      load' (uaddr + BitVec.ofNat 64 i) = load (uaddr + BitVec.ofNat 64 i))
    {n i : ℕ} (hi : i + n = syscallMaxPath)
    (hbefore : ∀ j < i, load (uaddr + BitVec.ofNat 64 j) ≠ some 0) (out : List Char) :
    copyUserPathLoop load' uaddr n i out = copyUserPathLoop load uaddr n i out := by
  induction n generalizing i out with
  | zero => rfl
  | succ n ih =>
    unfold copyUserPathLoop
    by_cases hend : userAreaEnd ≤ (uaddr + BitVec.ofNat 64 i).toNat
    · rw [if_pos hend, if_pos hend]
    rw [if_neg hend, if_neg hend, h i ⟨by omega, by omega, hbefore⟩]
    cases hload : load (uaddr + BitVec.ofNat 64 i) with
    | none => rfl
    | some c =>
      rw [Option.bind_some, Option.bind_some]
      by_cases hc : c = 0
      · rw [if_pos hc, if_pos hc]
      · rw [if_neg hc, if_neg hc]
        apply ih (by omega)
        intro j hj
        by_cases hji : j = i
        · rw [hji, hload]
          intro heq
          exact hc (Option.some.inj heq)
        · exact hbefore j (by omega)

/-- Only the bytes that it looks at matter. -/
theorem copyUserPath_congr (h : ∀ i, PathByte load uaddr i →
      load' (uaddr + BitVec.ofNat 64 i) = load (uaddr + BitVec.ofNat 64 i)) :
    copyUserPath load' uaddr = copyUserPath load uaddr := by
  unfold copyUserPath
  rw [copyUserPathLoop_congr h (Nat.zero_add _) fun j hj => absurd hj (Nat.not_lt_zero j)]

theorem loads_congr {addr : Word} {n : ℕ} (h : ∀ i < n,
      load' (addr + BitVec.ofNat 64 i) = load (addr + BitVec.ofNat 64 i)) :
    loads load' addr n = loads load addr n := by
  induction n with
  | zero => rfl
  | succ n ih =>
    rw [loads, loads, ih fun i hi => h i (by omega), h n (by omega)]

theorem loads_length {addr : Word} {n : ℕ} {l : List (BitVec 8)}
    (h : loads load addr n = some l) : l.length = n := by
  induction n generalizing l with
  | zero =>
    obtain rfl := Option.some.inj h
    rfl
  | succ n ih =>
    obtain ⟨l', hl', hlast⟩ := Option.bind_eq_some_iff.mp h
    obtain ⟨b, -, rfl⟩ := Option.map_eq_some_iff.mp hlast
    rw [List.length_append, ih hl', List.length_singleton]

end

section

variable {view : Word → Option ℕ} {addr : Word} {l : List (BitVec 8)} {m m' : Memory}

theorem succ_add_ofNat (addr : Word) (i : ℕ) :
    addr + 1 + BitVec.ofNat 64 i = addr + BitVec.ofNat 64 (i + 1) := by
  rw [Nat.add_comm i 1, BitVec.ofNat_add, BitVec.add_assoc]
  rfl

theorem putUntil_none {b : BitVec 8} (h : view addr = none) :
    putUntil view addr (b :: l) m = (false, m) := by
  rw [putUntil, h]

theorem putUntil_some {b : BitVec 8} {q : ℕ} (h : view addr = some q) :
    putUntil view addr (b :: l) m = putUntil view (addr + 1) l (m.store q b) := by
  rw [putUntil, h]

theorem putUntil_append (addr : Word) (l l' : List (BitVec 8)) (m : Memory) :
    putUntil view addr (l ++ l') m =
      if (putUntil view addr l m).1 then
        putUntil view (addr + BitVec.ofNat 64 l.length) l' (putUntil view addr l m).2
      else putUntil view addr l m := by
  induction l generalizing addr m with
  | nil =>
    rw [List.length_nil, BitVec.add_zero]
    rfl
  | cons b l ih =>
    rw [List.cons_append]
    cases hq : view addr with
    | none =>
      rw [putUntil_none hq, putUntil_none hq]
      rfl
    | some q => rw [putUntil_some hq, putUntil_some hq, ih, succ_add_ofNat, List.length_cons]

/-- Only the addresses of the bytes matter. -/
theorem putUntil_congr {view' : Word → Option ℕ}
    (h : ∀ i < l.length, view' (addr + BitVec.ofNat 64 i) = view (addr + BitVec.ofNat 64 i)) :
    putUntil view' addr l m = putUntil view addr l m := by
  induction l generalizing addr m with
  | nil => rfl
  | cons b l ih =>
    rw [List.length_cons] at h
    have hfirst := h 0 (by omega)
    rw [BitVec.add_zero] at hfirst
    have hrest : ∀ i < l.length, view' (addr + 1 + BitVec.ofNat 64 i) =
        view (addr + 1 + BitVec.ofNat 64 i) := by
      intro i hi
      rw [succ_add_ofNat]
      exact h (i + 1) (by omega)
    cases hq : view addr with
    | none => rw [putUntil_none hq, putUntil_none (hfirst.trans hq)]
    | some q => rw [putUntil_some hq, putUntil_some (hfirst.trans hq), ih hrest]

/-- What the bytes leave alone. -/
theorem putUntil_frame {a : ℕ} (h : ∀ i < l.length, view (addr + BitVec.ofNat 64 i) ≠ some a) :
    (putUntil view addr l m).2 a = m a := by
  induction l generalizing addr m with
  | nil => rfl
  | cons b l ih =>
    rw [List.length_cons] at h
    have hfirst := h 0 (by omega)
    rw [BitVec.add_zero] at hfirst
    have hrest : ∀ i < l.length, view (addr + 1 + BitVec.ofNat 64 i) ≠ some a := by
      intro i hi
      rw [succ_add_ofNat]
      exact h (i + 1) (by omega)
    cases hq : view addr with
    | none => rw [putUntil_none hq]
    | some q =>
      have hne : a ≠ q := by
        intro heq
        exact hfirst (heq ▸ hq)
      rw [putUntil_some hq, ih hrest, Memory.store_of_ne _ _ hne]

/-- The same bytes go to the same places in another memory. -/
theorem putUntil_agree (view : Word → Option ℕ) (addr : Word) (l : List (BitVec 8))
    (m m' : Memory) : (putUntil view addr l m').1 = (putUntil view addr l m).1 ∧
      ∀ a, m' a = m a → (putUntil view addr l m').2 a = (putUntil view addr l m).2 a := by
  induction l generalizing addr m m' with
  | nil => exact ⟨rfl, fun a ha => ha⟩
  | cons b l ih =>
    cases hq : view addr with
    | none =>
      rw [putUntil_none hq, putUntil_none hq]
      exact ⟨rfl, fun a ha => ha⟩
    | some q =>
      rw [putUntil_some hq, putUntil_some hq]
      obtain ⟨hflag, hagree⟩ := ih (addr + 1) (m.store q b) (m'.store q b)
      refine ⟨hflag, fun a ha => hagree a ?_⟩
      by_cases haq : a = q
      · rw [haq, Memory.store_self, Memory.store_self]
      · rw [Memory.store_of_ne _ _ haq, Memory.store_of_ne _ _ haq, ha]

theorem put_append (addr : Word) (l l' : List (BitVec 8)) (m : Memory) :
    put view addr (l ++ l') m =
      (put view addr l m).bind (put view (addr + BitVec.ofNat 64 l.length) l') := by
  unfold put
  rw [putUntil_append]
  by_cases h : (putUntil view addr l m).1 = true
  · simp only [if_pos h]
    rfl
  · simp only [if_neg h]
    rfl

theorem put_singleton (addr : Word) (b : BitVec 8) (m : Memory) :
    put view addr [b] m = (view addr).map fun q => m.store q b := by
  unfold put
  cases hq : view addr with
  | none =>
    rw [putUntil_none hq]
    rfl
  | some q =>
    rw [putUntil_some hq]
    rfl

theorem put_frame (h : put view addr l m = some m') {a : ℕ}
    (ha : ∀ i < l.length, view (addr + BitVec.ofNat 64 i) ≠ some a) : m' a = m a := by
  unfold put at h
  split_ifs at h
  rw [← Option.some.inj h]
  exact putUntil_frame ha

end

namespace Vmm

/-- The byte that the address space `cr3` has at `virt`. -/
def loadAt (v : Vmm) (cr3 virt : Word) : Option (BitVec 8) := (v.translate cr3 virt).map v.mem

def copyFromUser (v : Vmm) (cr3 uaddr kbuf len : Word) : Option (ℤ × Vmm) :=
  if len = 0 then some (0, v)
  else if kbuf = 0 then some (-1, v)
  else if userRangeOk uaddr len = false then some (-1, v)
  else (memcpyAt cr3 kbuf uaddr len.toNat v).map fun v => (0, v)

section

variable {v v' : Vmm} {cr3 : Word}

/-- Memory that differs outside the tables only has the same address spaces. -/
theorem translate_of_frames {virt : Word} (hvirt : virt.toNat < 2 ^ 30)
    (h : ∀ a, a / 4096 ∈ v.tableFrames cr3 → v'.mem a = v.mem a) :
    v'.translate cr3 virt = v.translate cr3 virt := by
  apply translate_congr hvirt
  intro f hf j hj
  exact Memory.entry_of_frames h hf hj

theorem tableFrames_of_frames (h : ∀ a, a / 4096 ∈ v.tableFrames cr3 → v'.mem a = v.mem a) :
    v'.tableFrames cr3 = v.tableFrames cr3 := by
  have hentry : ∀ f ∈ v.tableFrames cr3, ∀ j < 512, v'.mem.entry f j = v.mem.entry f j :=
    fun f hf j hj => Memory.entry_of_frames h hf hj
  have hpml4 := hentry (Pte.frame cr3) (by simp [tableFrames]) 0 (by decide)
  have hpdpt := hentry (Pte.frame (v.mem.entry (Pte.frame cr3) 0)) (by simp [tableFrames]) 0
    (by decide)
  have hpd := hentry (Pte.frame (v.mem.entry (Pte.frame (v.mem.entry (Pte.frame cr3) 0)) 0))
    (by simp [tableFrames])
  have hpts := List.map_congr_left (l := List.range 512) fun i hi =>
    congrArg Pte.frame (hpd i (List.mem_range.mp hi))
  simp only [tableFrames, hpml4, hpdpt, hpts]

theorem toNat_ofNat_add {a n i : ℕ} (h : a + n ≤ 2 ^ 30) (hi : i < n) :
    (BitVec.ofNat 64 a + BitVec.ofNat 64 i : Word).toNat = a + i := by
  rw [BitVec.toNat_add, BitVec.toNat_ofNat, BitVec.toNat_ofNat]
  omega

/-- The `n` bytes at the physical address `p` are at that address in the address space, too. -/
def Seen (v : Vmm) (cr3 : Word) (p n : ℕ) : Prop :=
  p + n ≤ 2 ^ 30 ∧
    ∀ i < n, v.translate cr3 (BitVec.ofNat 64 p + BitVec.ofNat 64 i) = some (p + i)

theorem ofNat_ne_zero {n : ℕ} (hn : n < 2 ^ 64) (h0 : n ≠ 0) : (BitVec.ofNat 64 n : Word) ≠ 0 := by
  intro hzero
  apply h0
  rw [← Nat.mod_eq_of_lt hn, ← BitVec.toNat_ofNat, hzero]
  rfl

theorem userRangeOk_ofNat {addr : Word} {n : ℕ} (hn : n < 2 ^ 64) (h0 : n ≠ 0)
    (hok : ¬userRangeOk addr (BitVec.ofNat 64 n) = false) :
    userAreaBase ≤ addr.toNat ∧ addr.toNat + n ≤ userAreaEnd := by
  obtain ⟨hstart, hend, -⟩ :=
    userRangeOk_bounds (ofNat_ne_zero hn h0) (Bool.eq_true_of_not_eq_false hok)
  rw [BitVec.toNat_ofNat, Nat.mod_eq_of_lt hn] at hend
  exact ⟨hstart, hend⟩

theorem Seen.ne_zero {p n : ℕ} (hs : v.Seen cr3 p n) (hp : p ≠ 0) :
    (BitVec.ofNat 64 p : Word) ≠ 0 := by
  have := hs.1
  exact ofNat_ne_zero (by omega) hp

/-- A copy from the user to memory that the kernel reaches at its physical address. -/
theorem memcpyAt_from {src : Word} {dest n : ℕ} (hseen : v.Seen cr3 dest n)
    (hsrc : src.toNat + n ≤ 2 ^ 30)
    (htab : ∀ i < n, (dest + i) / 4096 ∉ v.tableFrames cr3)
    (hapart : ∀ i < n, ∀ p, v.translate cr3 (src + BitVec.ofNat 64 i) = some p →
      p < dest ∨ dest + n ≤ p) {j : ℕ} (hj : j ≤ n) :
    memcpyAt cr3 (BitVec.ofNat 64 dest) src j v =
      (loads (v.loadAt cr3) src j).map fun l => v.setMem (v.mem.write dest l) := by
  obtain ⟨hdest, hid⟩ := hseen
  induction j with
  | zero => rfl
  | succ j ih =>
    rw [memcpyAt, ih (by omega), loads]
    cases hl : loads (v.loadAt cr3) src j with
    | none => rfl
    | some l =>
      have hlen := loads_length hl
      have hout : ∀ a, a < dest ∨ dest + j ≤ a → v.mem.write dest l a = v.mem a :=
        fun a ha => Memory.write_outside _ _ _ (by omega)
      have hsame : ∀ virt : Word, virt.toNat < 2 ^ 30 →
          (v.setMem (v.mem.write dest l)).translate cr3 virt = v.translate cr3 virt := by
        intro virt hvirt
        apply translate_of_frames hvirt
        intro a ha
        apply hout
        by_contra hin
        apply htab (a - dest) (by omega)
        rwa [show dest + (a - dest) = a by omega]
      have hto := toNat_ofNat_add hdest (show j < n by omega)
      have hfrom := toNat_add_ofNat hsrc (show j < n by omega)
      simp only [Option.map_some, Option.bind_some]
      rw [hsame _ (by omega), hsame _ (by omega), hid j (by omega), loadAt]
      cases hp : v.translate cr3 (src + BitVec.ofNat 64 j) with
      | none => rfl
      | some p =>
        have hnot := hapart j (by omega) p hp
        simp only [Option.map_some, Option.bind_some]
        rw [setMem_mem, hout p (by omega), Memory.write_append, hlen]
        rfl

/-- A copy to the user from memory that the kernel reaches at its physical address. -/
theorem memcpyAt_to {dest : Word} {src n : ℕ} (hdest : dest.toNat + n ≤ 2 ^ 30)
    (hseen : v.Seen cr3 src n)
    (hto : ∀ i < n, ∀ q, v.translate cr3 (dest + BitVec.ofNat 64 i) = some q →
      q / 4096 ∉ v.tableFrames cr3 ∧ (q < src ∨ src + n ≤ q)) {j : ℕ} (hj : j ≤ n) :
    memcpyAt cr3 dest (BitVec.ofNat 64 src) j v =
      (put (v.translate cr3) dest (v.mem.read src j) v.mem).map v.setMem := by
  obtain ⟨hsrc, hid⟩ := hseen
  induction j with
  | zero => rfl
  | succ j ih =>
    have hread : v.mem.read src (j + 1) = v.mem.read src j ++ [v.mem (src + j)] := by
      simp only [Memory.read, List.range_succ, List.map_append, List.map_cons, List.map_nil]
    have hlen : (v.mem.read src j).length = j := by
      rw [Memory.read, List.length_map, List.length_range]
    rw [memcpyAt, ih (by omega), hread, put_append, hlen]
    cases hput : put (v.translate cr3) dest (v.mem.read src j) v.mem with
    | none => rfl
    | some m =>
      have hframe : ∀ a, (∀ i < j, v.translate cr3 (dest + BitVec.ofNat 64 i) ≠ some a) →
          m a = v.mem a := by
        intro a ha
        apply put_frame hput
        rwa [hlen]
      have hsame : ∀ virt : Word, virt.toNat < 2 ^ 30 →
          (v.setMem m).translate cr3 virt = v.translate cr3 virt := by
        intro virt hvirt
        apply translate_of_frames hvirt
        intro a ha
        apply hframe
        intro i hi hq
        exact (hto i (by omega) a hq).1 ha
      have hsource : m (src + j) = v.mem (src + j) := by
        apply hframe
        intro i hi hq
        have := (hto i (by omega) _ hq).2
        omega
      have hfrom := toNat_ofNat_add hsrc (show j < n by omega)
      have hat := toNat_add_ofNat hdest (show j < n by omega)
      simp only [Option.map_some, Option.bind_some]
      rw [hsame _ (by omega), hsame _ (by omega), hid j (by omega), Option.bind_some, setMem_mem,
        hsource, put_singleton, Option.map_map]
      rfl

end

/-! ## What a program sees of memory -/

/-- The byte at `virt`, if there is one, is in a frame of `user`. -/
def Owned (v : Vmm) (user : Set ℕ) (cr3 virt : Word) : Prop :=
  ∀ q, v.translate cr3 virt = some q → q / 4096 ∈ user

def OwnedPath (v : Vmm) (user : Set ℕ) (cr3 rdi : Word) : Prop :=
  ∀ i, PathByte (v.loadAt cr3) rdi i → v.Owned user cr3 (rdi + BitVec.ofNat 64 i)

def OwnedBuf (v : Vmm) (user : Set ℕ) (cr3 rsi : Word) (n : ℕ) : Prop :=
  ∀ i < n, v.Owned user cr3 (rsi + BitVec.ofNat 64 i)

/-- The `n` bytes at `p` are neither in a table nor memory of the programs. -/
def Hidden (v : Vmm) (user : Set ℕ) (cr3 : Word) (p n : ℕ) : Prop :=
  p ≠ 0 ∧ ∀ i < n, (p + i) / 4096 ∉ v.tableFrames cr3 ∧ (p + i) / 4096 ∉ user

/-- Through the address space `cr3` a program sees the frames of `user`: `view` says where, and
`mem` has their bytes. -/
structure Shows (v : Vmm) (user : Set ℕ) (cr3 : Word) (view : Word → Option ℕ) (mem : Memory) :
    Prop where
  tables : ∀ f ∈ v.tableFrames cr3, f ∉ user
  view : ∀ virt : Word, virt.toNat < 2 ^ 30 → v.translate cr3 virt = view virt
  mem : ∀ a, a / 4096 ∈ user → v.mem a = mem a

section

variable {v v' : Vmm} {user : Set ℕ} {cr3 cr3' virt rsi rdx : Word} {view : Word → Option ℕ}
  {mem mem' : Memory} {kbuf n : ℕ}

theorem Hidden.apart (hb : v.Hidden user cr3 kbuf n) {a : ℕ} (ha : a / 4096 ∈ user) :
    a < kbuf ∨ kbuf + n ≤ a := by
  by_contra hin
  apply (hb.2 (a - kbuf) (by omega)).2
  rwa [show kbuf + (a - kbuf) = a by omega]

theorem Owned.buf (ho : v.Owned user cr3 virt) : v.OwnedBuf user cr3 virt 1 := by
  intro i hi
  obtain rfl : i = 0 := by omega
  rwa [BitVec.add_zero]

/-- Memory that differs outside the tables only. -/
theorem Shows.of_frames (h : v.Shows user cr3 view mem)
    (htables : ∀ a, a / 4096 ∈ v.tableFrames cr3 → v'.mem a = v.mem a)
    (hmem : ∀ a, a / 4096 ∈ user → v'.mem a = mem' a) : v'.Shows user cr3 view mem' := by
  refine ⟨?_, fun virt hvirt => ?_, hmem⟩
  · rw [tableFrames_of_frames htables]
    exact h.tables
  · rw [translate_of_frames hvirt htables]
    exact h.view virt hvirt

section same

variable (h : v.Shows user cr3 view mem) (h' : v'.Shows user cr3' view mem')

include h h'

/-- Addresses stay where they are. -/
theorem Shows.owned (hvirt : virt.toNat < 2 ^ 30) (ho : v.Owned user cr3 virt) :
    v'.Owned user cr3' virt := by
  intro q hq
  apply ho q
  rw [h.view virt hvirt, ← h'.view virt hvirt, hq]

theorem Shows.ownedBuf (hlt : rsi.toNat + n ≤ 2 ^ 30) (ho : v.OwnedBuf user cr3 rsi n) :
    v'.OwnedBuf user cr3' rsi n := by
  intro i hi
  apply h.owned h' _ (ho i hi)
  rw [toNat_add_ofNat hlt hi]
  omega

theorem Shows.seen (hs : v.Seen cr3 kbuf n) : v'.Seen cr3' kbuf n := by
  refine ⟨hs.1, fun i hi => ?_⟩
  have hvirt : (BitVec.ofNat 64 kbuf + BitVec.ofNat 64 i : Word).toNat < 2 ^ 30 := by
    have := hs.1
    rw [toNat_ofNat_add this hi]
    omega
  rw [h'.view _ hvirt, ← h.view _ hvirt]
  exact hs.2 i hi

end same

theorem Shows.load (h : v.Shows user cr3 view mem) (hvirt : virt.toNat < 2 ^ 30)
    (ho : v.Owned user cr3 virt) : (view virt).map mem = v.loadAt cr3 virt := by
  unfold loadAt
  rw [← h.view virt hvirt]
  cases hq : v.translate cr3 virt with
  | none => rfl
  | some q => rw [Option.map_some, Option.map_some, h.mem q (ho q hq)]

theorem Shows.path (h : v.Shows user cr3 view mem) {rdi : Word}
    (ho : v.OwnedPath user cr3 rdi) :
    copyUserPath (fun virt => (view virt).map mem) rdi = copyUserPath (v.loadAt cr3) rdi := by
  apply copyUserPath_congr
  intro i hi
  have hlt : (rdi + BitVec.ofNat 64 i).toNat < userAreaEnd := hi.2.1
  exact h.load (hlt.trans (by decide)) (ho i hi)

/-- `copy_from_user` into a buffer that the kernel finds in the address space. -/
theorem Shows.copyFromUser (h : v.Shows user cr3 view mem) (hs : v.Seen cr3 kbuf rdx.toNat)
    (hb : v.Hidden user cr3 kbuf rdx.toNat)
    (ho : rsi.toNat + rdx.toNat ≤ 2 ^ 30 → v.OwnedBuf user cr3 rsi rdx.toNat) (h0 : rdx ≠ 0) :
    v.copyFromUser cr3 rsi (BitVec.ofNat 64 kbuf) rdx =
      if userRangeOk rsi rdx = false then some (-1, v)
      else (loads (fun virt => (view virt).map mem) rsi rdx.toNat).map fun l =>
        (0, v.setMem (v.mem.write kbuf l)) := by
  rw [Vmm.copyFromUser, if_neg h0, if_neg (hs.ne_zero hb.1)]
  by_cases hok : userRangeOk rsi rdx = false
  · rw [if_pos hok, if_pos hok]
  obtain ⟨-, hend, -⟩ := userRangeOk_bounds h0 (Bool.eq_true_of_not_eq_false hok)
  have ho := ho (by omega)
  have hloads : loads (fun virt => (view virt).map mem) rsi rdx.toNat =
      loads (v.loadAt cr3) rsi rdx.toNat := by
    apply loads_congr
    intro i hi
    apply h.load _ (ho i hi)
    rw [toNat_add_ofNat (n := rdx.toNat) (by omega) hi]
    omega
  rw [if_neg hok, if_neg hok, memcpyAt_from hs (by omega) (fun i hi => (hb.2 i hi).1)
    (fun i hi p hp => hb.apart (ho i hi p hp)) le_rfl, hloads, Option.map_map]
  rfl

/-- `copy_to_user` from such a buffer. -/
theorem Shows.copyToUser (h : v.Shows user cr3 view mem) (hs : v.Seen cr3 kbuf n)
    (hb : v.Hidden user cr3 kbuf n) (ho : rsi.toNat + n ≤ 2 ^ 30 → v.OwnedBuf user cr3 rsi n)
    (h0 : n ≠ 0) :
    v.copyToUser cr3 rsi (BitVec.ofNat 64 kbuf) (BitVec.ofNat 64 n) =
      if userRangeOk rsi (BitVec.ofNat 64 n) = false then some (-1, v)
      else (put (v.translate cr3) rsi (v.mem.read kbuf n) v.mem).map fun m =>
        (0, v.setMem m) := by
  have hlt := hs.1
  have hlen : (BitVec.ofNat 64 n : Word).toNat = n := by
    rw [BitVec.toNat_ofNat]
    omega
  rw [Vmm.copyToUser, if_neg (ofNat_ne_zero (by omega) h0), if_neg (hs.ne_zero hb.1)]
  by_cases hok : userRangeOk rsi (BitVec.ofNat 64 n) = false
  · rw [if_pos hok, if_pos hok]
  obtain ⟨-, hend⟩ := userRangeOk_ofNat (by omega) h0 hok
  rw [userAreaEnd] at hend
  have hto : ∀ i < n, ∀ q, v.translate cr3 (rsi + BitVec.ofNat 64 i) = some q →
      q / 4096 ∉ v.tableFrames cr3 ∧ (q < kbuf ∨ kbuf + n ≤ q) := by
    intro i hi q hq
    have huser := ho (by omega) i hi q hq
    exact ⟨fun htab => h.tables _ htab huser, hb.apart huser⟩
  rw [if_neg hok, if_neg hok, hlen, memcpyAt_to (by omega) hs hto le_rfl, Option.map_map]
  rfl

/-- Bytes that go into the memory of a program. -/
theorem Shows.put (h : v.Shows user cr3 view mem) {l : List (BitVec 8)}
    (hlt : virt.toNat + l.length ≤ 2 ^ 30) (ho : v.OwnedBuf user cr3 virt l.length) :
    (put (v.translate cr3) virt l v.mem = none ∧ put view virt l mem = none) ∨
      ∃ m m', put (v.translate cr3) virt l v.mem = some m ∧ put view virt l mem = some m' ∧
        (∀ a, a / 4096 ∉ user → m a = v.mem a) ∧ ∀ a, a / 4096 ∈ user → m a = m' a := by
  have hview : putUntil view virt l mem = putUntil (v.translate cr3) virt l mem := by
    apply putUntil_congr
    intro i hi
    rw [h.view]
    rw [toNat_add_ofNat hlt hi]
    omega
  obtain ⟨hflag, hagree⟩ := putUntil_agree (v.translate cr3) virt l mem v.mem
  unfold Nyvela.put
  rw [hview, hflag]
  by_cases hput : (putUntil (v.translate cr3) virt l mem).1 = true
  · rw [if_pos hput, if_pos hput]
    refine Or.inr ⟨_, _, rfl, rfl, fun a ha => ?_, fun a ha => hagree a (h.mem a ha)⟩
    apply putUntil_frame
    intro i hi hq
    exact ha (ho i hi a hq)
  · rw [if_neg hput, if_neg hput]
    exact Or.inl ⟨rfl, rfl⟩

end

end Vmm

end Nyvela
