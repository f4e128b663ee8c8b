import Mathlib.Algebra.GroupWithZero.Nat
import Nyvela.RamfsCreate
import Nyvela.UserCopy

/-!
# Listing a directory

`ramfs_list` with the buffer it fills, what `sys_fs_list` hands on of it, and what a reader
can make of the lines.
-/

namespace Nyvela

def byte (c : Char) : BitVec 8 := BitVec.ofNat 8 c.toNat

namespace Ramfs

/-- `listLoop` on the buffer itself. Each child is a block of the heap, so that `pos` is far from
the end of the address space. -/
def listLoopAt (s : Ramfs) (buf len : ℕ) :
    ℕ → ℕ → ℕ → Memory → Option (Except VfsErr ℕ × Memory)
  | 0, _, _, _ => none
  | fuel + 1, c, pos, m =>
    if c = 0 then some (.ok pos, m.store (buf + pos) 0)
    else
      let nl := (s.node c).name.length
      if len < pos + nl + 1 + 1 then some (.error .nospace, m)
      else
        listLoopAt s buf len fuel (s.node c).sibling (pos + nl + 1)
          ((m.write (buf + pos) ((s.node c).name.map byte)).store (buf + (pos + nl)) (byte '\n'))

def ramfsListAt (s : Ramfs) (fuel : ℕ) (path : List Char) (buf len : ℕ) (m : Memory) :
    Option (Except VfsErr ℕ × Memory) :=
  if s.root = 0 ∨ buf = 0 ∨ len = 0 then some (.error .inval, m)
  else
    (s.ramfsLookup fuel path).bind fun d =>
      if d = 0 then some (.error .notfound, m)
      else if (s.node d).isDir = false then some (.error .notdir, m)
      else s.listLoopAt buf len fuel (s.node d).child 0 m

section

variable {s : Ramfs}

/-! ## The buffer -/

/-- The buffer ends up with the lines that `listLoop` makes and a zero behind them. -/
theorem listLoopAt_returns {c : ℕ} {l : List ℕ} (h : IsChain 0 (fun c => (s.node c).sibling) c l)
    (buf : ℕ) {len : ℕ} {out : List Char} (hout : out.length + 1 ≤ len) (m : Memory) :
    ∃ r m', Returns (fun fuel => s.listLoop len fuel c out) r ∧
      Returns (fun fuel => s.listLoopAt buf len fuel c out.length (m.write buf (out.map byte)))
        (r.map List.length, m') ∧
      ∀ full, r = .ok full → m' = m.write buf (full.map byte ++ [0]) := by
  induction l generalizing c out with
  | nil =>
    obtain rfl : c = 0 := h
    refine ⟨.ok out, m.write buf (out.map byte ++ [0]), .succ (fun fuel => ?_) (.const _),
      .succ (fun fuel => ?_) (.const _), ?_⟩
    · simp [listLoop]
    · simp [listLoopAt, Except.map, Memory.write_append, Memory.write]
    · rintro full ⟨⟩
      rfl
  | cons d l ih =>
    obtain ⟨rfl, h0, hrest⟩ := h
    by_cases hfull : len < out.length + (s.node c).name.length + 1 + 1
    · refine ⟨.error .nospace, m.write buf (out.map byte), .succ (fun fuel => ?_) (.const _),
        .succ (fun fuel => ?_) (.const _), ?_⟩
      · simp only [listLoop, h0, hfull, if_true, if_false]
      · simp only [listLoopAt, h0, hfull, if_true, if_false]
        rfl
      · rintro full ⟨⟩
    · obtain ⟨r, m', hr, hm', hfullr⟩ := ih hrest
        (show (out ++ (s.node c).name ++ ['\n']).length + 1 ≤ len by
          simp only [List.length_append, List.length_singleton]; omega)
      refine ⟨r, m', .succ (fun fuel => ?_) hr, .succ (fun fuel => ?_) hm', hfullr⟩
      · simp only [listLoop, h0, hfull, if_false]
      · simp only [listLoopAt, h0, hfull, if_false]
        simp [Memory.write_append, Memory.write, Nat.add_assoc]

/-- What `ramfs_list` leaves in the buffer for a directory. -/
theorem ramfsListAt_returns {path : List Char} {d : ℕ} {l : List ℕ} (hroot : s.root ≠ 0)
    (hres : s.Resolves path d) (hd : d ≠ 0) (hdir : (s.node d).isDir = true)
    (hl : IsChain 0 (fun c => (s.node c).sibling) (s.node d).child l) {buf len : ℕ}
    (hbuf : buf ≠ 0) (hlen : 1 ≤ len) (m : Memory) :
    ∃ r m', Returns (fun fuel => s.ramfsList fuel path len) r ∧
      Returns (fun fuel => s.ramfsListAt fuel path buf len m) (r.map List.length, m') ∧
      (∀ out, r = .ok out → m' = m.write buf (out.map byte ++ [0])) ∧
      r = if (unlines '\n' (s.names l)).length + 1 ≤ len
        then .ok (unlines '\n' (s.names l)) else .error .nospace := by
  have hnil : ([] : List Char).length + 1 ≤ len := by simpa using hlen
  obtain ⟨r, m', hr, hm', hout⟩ := listLoopAt_returns hl buf hnil m
  have hspec := hr.unique (listLoop_returns hl hnil)
  have hlen0 : len ≠ 0 := by omega
  refine ⟨r, m', ?_, ?_, hout, by simpa using hspec⟩
  · simp only [ramfsList, hroot, hlen0, or_self, if_false]
    refine Returns.bind hres ?_
    simpa only [hd, hdir, if_false, Bool.true_eq_false] using hr
  · simp only [ramfsListAt, hroot, hbuf, hlen0, or_self, if_false]
    refine Returns.bind hres ?_
    simp only [hd, hdir, if_false, Bool.true_eq_false]
    exact hm'

theorem vfsList_lines {path : List Char} {len d : ℕ} {l : List ℕ} {out : List Char}
    (hres : s.Resolves path d)
    (hl : IsChain 0 (fun c => (s.node c).sibling) (s.node d).child l)
    (hret : Returns (fun fuel => s.vfsList fuel path len) (.ok out)) :
    out = unlines '\n' (s.names l) := by
  have hfails : ∀ e : VfsErr, ¬Returns (fun _ => some (Except.error e)) (Except.ok out) := by
    intro e h
    cases h.unique (.const (Except.error e))
  unfold vfsList ramfsList at hret
  cases hpath : vfsPathOk path with
  | false =>
    simp only [hpath, Bool.false_eq_true, if_false] at hret
    exact absurd hret (hfails _)
  | true =>
    simp only [hpath, if_true] at hret
    by_cases hargs : s.root = 0 ∨ len = 0
    · simp only [if_pos hargs] at hret
      exact absurd hret (hfails _)
    simp only [if_neg hargs] at hret
    have hret := Returns.of_bind hres hret
    split_ifs at hret
    · exact absurd hret (hfails _)
    · exact absurd hret (hfails _)
    · have hnil : ([] : List Char).length + 1 ≤ len := by
        simp only [List.length_nil]
        omega
      have heq := hret.unique (listLoop_returns hl hnil)
      split_ifs at heq
      simpa using heq

/-! ## The system call -/

/-- Between `v` and `v'` the call wrote to the kernel buffer, and then `n` bytes to the user. -/
def ListCopies (cr3 ubuf len : Word) (v v' : Vmm) (n : ℕ) : Prop :=
  n ≤ len.toNat ∧ ∃ kbuf v₁, (∀ a, a < kbuf ∨ kbuf + len.toNat ≤ a → v₁.mem a = v.mem a) ∧
    Vmm.WritesThrough cr3 ubuf n v₁ v'

theorem listCopies_zero (cr3 ubuf len : Word) {v v' : Vmm} {kbuf : ℕ}
    (h : ∀ a, a < kbuf ∨ kbuf + len.toNat ≤ a → v'.mem a = v.mem a) :
    ListCopies cr3 ubuf len v v' 0 :=
  ⟨Nat.zero_le _, kbuf, v', h, fun _ => v', rfl, rfl, fun i hi => absurd hi (Nat.not_lt_zero i)⟩

theorem ListCopies.copyToUser {cr3 ubuf kaddr len : Word} {v v₁ v' : Vmm} {kbuf n : ℕ} {c : ℤ}
    (hn : n ≤ len.toNat) (hkaddr : kaddr ≠ 0)
    (hbuf : ∀ a, a < kbuf ∨ kbuf + len.toNat ≤ a → v₁.mem a = v.mem a)
    (h : v₁.copyToUser cr3 ubuf kaddr (BitVec.ofNat 64 n) = some (c, v')) :
    ∃ k, ListCopies cr3 ubuf len v v' k ∧ (c = 0 → k = n) := by
  have hlt := len.isLt
  have hnat : (BitVec.ofNat 64 n).toNat = n := by
    rw [BitVec.toNat_ofNat, Nat.mod_eq_of_lt (by omega)]
  unfold Vmm.copyToUser at h
  split_ifs at h with h0 hr
  · obtain ⟨rfl, rfl⟩ := Prod.mk.inj (Option.some.inj h)
    refine ⟨0, listCopies_zero cr3 ubuf len hbuf, fun _ => ?_⟩
    rw [← hnat, h0]
    rfl
  · obtain ⟨rfl, rfl⟩ := Prod.mk.inj (Option.some.inj h)
    exact ⟨0, listCopies_zero cr3 ubuf len hbuf, fun hc => absurd hc (by decide)⟩
  · obtain ⟨u, hu, heq⟩ := Option.map_eq_some_iff.mp h
    obtain ⟨rfl, rfl⟩ := Prod.mk.inj heq
    rw [hnat] at hu
    exact ⟨n, ⟨hn, kbuf, v₁, hbuf, Vmm.writesThrough_memcpyAt hu⟩, fun _ => rfl⟩

end

/-- What `vfs_list` gives for a root with one child. -/
theorem OnlyChild.vfsList {s : Ramfs} {addr : List Name → ℕ} {leaf : Name} {n : ℕ}
    (h : s.OnlyChild addr leaf n) {len : ℕ} (hlen : leaf.length + 2 ≤ len) :
    Returns (fun fuel => s.vfsList fuel ['/'] len) (.ok (leaf ++ ['\n'])) := by
  obtain ⟨r, -, hret, -, -, hr⟩ := ramfsListAt_returns h.root_ne_zero h.resolves_root h.root_ne_zero
    h.root_isDir h.chain Nat.one_ne_zero (show 1 ≤ len by omega) fun _ => 0
  rw [h.names, unlines_cons, unlines_nil, List.append_nil,
    if_pos (by rw [List.length_append, List.length_singleton]; omega)] at hr
  rw [hr] at hret
  exact hret

/-- Splitting a listing at the newlines gives the names of the children exactly when there is
no newline in any of them. -/
theorem listing_decodes_iff {s : Ramfs} {path : List Char} {len d : ℕ} {l : List ℕ}
    {out : List Char} (hres : s.Resolves path d)
    (hl : IsChain 0 (fun c => (s.node c).sibling) (s.node d).child l)
    (hret : Returns (fun fuel => s.vfsList fuel path len) (.ok out)) :
    (lines '\n' out).Perm (s.names l) ↔ ∀ c ∈ l, '\n' ∉ (s.node c).name := by
  rw [vfsList_lines hres hl hret, lines_unlines_perm_iff]
  simp [names]

theorem listing_decodes_one_name : ∃ s, ramfsSystem.Reachable s ∧ ∃ n,
    IsChain 0 (fun c => (s.node c).sibling) (s.node s.root).child [n] ∧
      ∃ out, Returns (fun fuel => s.vfsList fuel ['/'] 8) (.ok out) ∧
        (lines '\n' out).Perm (s.names [n]) := by
  obtain ⟨s, addr, n, hs⟩ := exists_onlyChild (show NameOk "abc".toList by decide) (by decide)
  have hret := hs.vfsList (show _ ≤ 8 by decide)
  refine ⟨s, hs.reachable, n, hs.chain, _, hret,
    (listing_decodes_iff hs.resolves_root hs.chain hret).mpr fun c hc => ?_⟩
  rw [List.mem_singleton.mp hc, hs.node]
  decide

/-- The one file that `vfs_create` made as `a`, newline, `b` is listed as two. -/
theorem listing_splits_name : ∃ s, ramfsSystem.Reachable s ∧ ∃ n,
    IsChain 0 (fun c => (s.node c).sibling) (s.node s.root).child [n] ∧
      (s.node n).name = "a\nb".toList ∧
      ∃ out, Returns (fun fuel => s.vfsList fuel ['/'] 8) (.ok out) ∧
        lines '\n' out = ["a".toList, "b".toList] ∧ ¬(lines '\n' out).Perm (s.names [n]) := by
  obtain ⟨s, addr, n, hs⟩ := exists_onlyChild (show NameOk "a\nb".toList by decide) (by decide)
  have hret := hs.vfsList (show _ ≤ 8 by decide)
  have hlines : lines '\n' ("a\nb".toList ++ ['\n']) = ["a".toList, "b".toList] := by decide
  refine ⟨s, hs.reachable, n, hs.chain, by rw [hs.node], _, hret, hlines, fun hperm => ?_⟩
  rw [hlines, hs.names] at hperm
  exact absurd hperm.length_eq (by decide)

end Ramfs

end Nyvela
