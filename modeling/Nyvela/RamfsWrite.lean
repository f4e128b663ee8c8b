import Nyvela.RamfsCreate

/-!
# Writes that fail

`ramfs_write` copies chunk by chunk and asks for the next page in between. When there is none, the
chunks before it have been copied, and nothing puts the old bytes back.
-/

namespace Nyvela

namespace Ramfs

/-- `vfs_write` gets to its loop, for the file at `f`. -/
structure PassesChecks (s : Ramfs) (path : List Char) (f : ℕ) (buf : List (BitVec 8))
    (offset : ℕ) : Prop where
  pathOk : vfsPathOk path = true
  resolves : s.Resolves path f
  ne_zero : f ≠ 0
  file : (s.node f).isDir = false
  nonempty : buf.length ≠ 0
  inside : offset ≤ (s.node f).size
  sum : (offset + buf.length) % 2 ^ 64 ≤ vfsMaxFileSize

/-- The file may have all the pages that the buffer reaches into, and there is a frame for each one
that it does not have yet. -/
def HasFrames (s : Ramfs) (f : ℕ) (buf : List (BitVec 8)) (offset : ℕ) : Prop :=
  offset + buf.length ≤ vfsMaxFileSize ∧ s.heap.heap.pmm.canTake
    ((offset + buf.length + 4095) / 4096 - (s.node f).pageCount) = true

/-- The buffer repeats the content behind `offset`, for instance because there is none. -/
def Repeats (s : Ramfs) (f : ℕ) (buf : List (BitVec 8)) (offset : ℕ) : Prop :=
  ∀ k, offset ≤ k → k < (s.node f).size → buf[k - offset]? = (s.content f)[k]?

section

variable {s s' : Ramfs} {addr : List Name → ℕ}

theorem PassesChecks.unique {path : List Char} {f g : ℕ} {buf : List (BitVec 8)} {offset : ℕ}
    (hf : s.PassesChecks path f buf offset) (hg : s.PassesChecks path g buf offset) : f = g :=
  Returns.unique hf.resolves hg.resolves

/-- From the checks on, `vfs_write` is its loop. -/
theorem PassesChecks.vfsWrite {path : List Char} {f : ℕ} {buf : List (BitVec 8)} {offset : ℕ}
    (hf : s.PassesChecks path f buf offset) (hroot : s.root ≠ 0) {r : Except VfsErr ℕ}
    (h : Returns (fun fuel => writeLoop f offset buf fuel s 0) (r, s')) :
    Returns (fun fuel => s.vfsWrite fuel path buf offset)
      (r, match r with
        | .ok written => s'.growSize f (offset + written)
        | .error _ => s') := by
  have hinside := Nat.not_lt.mpr hf.inside
  have hsum := Nat.not_lt.mpr hf.sum
  simp only [Ramfs.vfsWrite, hf.pathOk, if_true, ramfsWrite, hroot, if_false]
  refine Returns.bind hf.resolves ?_
  simp only [hf.ne_zero, hf.file, hf.nonempty, hinside, hsum, Bool.false_eq_true, if_false]
  refine h.bind ?_
  cases r <;> exact .const _

/-- A call that does not get to its loop changes nothing. -/
theorem vfsWrite_stops (hi : s.Inv addr) (path : List Char) (buf : List (BitVec 8)) (offset : ℕ) :
    (∃ r, Returns (fun fuel => s.vfsWrite fuel path buf offset) (r, s) ∧
      ∀ f, ¬s.PassesChecks path f buf offset) ∨
    ∃ p, addr p ≠ 0 ∧ s.PassesChecks path (addr p) buf offset := by
  have hroot : s.root ≠ 0 := hi.root ▸ hi.rootDir.1
  have hlookup := hi.toTree.ramfsLookup path
  have hres : s.Resolves path _ := hlookup
  unfold vfsWrite
  by_cases hpath : vfsPathOk path = true
  swap
  · refine Or.inl ⟨.error .badpath, ?_, fun f hf => hpath hf.pathOk⟩
    simpa [hpath] using Returns.const _
  simp only [hpath, if_true, ramfsWrite, hroot, if_false]
  rcases resolve_find s addr path with ⟨hr, -⟩ | ⟨p, -, hr, hp, -⟩
  · refine Or.inl ⟨_, hlookup.bind (by simpa [hr] using Returns.const _), fun f hf => hf.ne_zero ?_⟩
    rw [← hr]
    exact Returns.unique hf.resolves hlookup
  rw [hr] at hlookup hres
  have hfile : ∀ f, s.PassesChecks path f buf offset → f = addr p := fun f hf =>
    Returns.unique hf.resolves hlookup
  by_cases hd : (s.node (addr p)).isDir = true
  · refine Or.inl ⟨_, hlookup.bind (by simpa [hp, hd] using Returns.const _), fun f hf => ?_⟩
    exact absurd (hf.file.symm.trans (by rw [hfile f hf, hd])) (by decide)
  by_cases h0 : buf.length = 0
  · exact Or.inl ⟨_, hlookup.bind (by simpa [hp, hd, h0] using Returns.const _),
      fun f hf => hf.nonempty h0⟩
  by_cases hoff : (s.node (addr p)).size < offset
  · refine Or.inl ⟨_, hlookup.bind (by simpa [hp, hd, h0, hoff] using Returns.const _),
      fun f hf => absurd hf.inside ?_⟩
    rw [hfile f hf]
    omega
  by_cases hmax : vfsMaxFileSize < (offset + buf.length) % 2 ^ 64
  · refine Or.inl ⟨.error .nospace, hlookup.bind ?_, fun f hf => absurd hf.sum (by omega)⟩
    simp only [hp, hd, h0, hoff, hmax, Bool.false_eq_true, if_false, if_true]
    exact .const _
  · exact Or.inr ⟨p, hp, hpath, hres, hp, by simpa using hd, h0, by omega, by omega⟩

theorem content_congr {n : ℕ} (hsize : (s'.node n).size = (s.node n).size)
    (h : ∀ k < (s.node n).size, s'.byteAt n k = s.byteAt n k) : s'.content n = s.content n := by
  unfold content
  rw [hsize]
  exact List.map_congr_left fun k hk => h k (List.mem_range.mp hk)

theorem Grown.size {f : ℕ} (h : Grown f s s') (n : ℕ) : (s'.node n).size = (s.node n).size := by
  by_cases hn : n = f
  · obtain ⟨pages, count, hself, -⟩ := h.self
    rw [hn, hself]
  · rw [h.others n hn]

theorem Grown.isDir {f : ℕ} (h : Grown f s s') (n : ℕ) : (s'.node n).isDir = (s.node n).isDir := by
  by_cases hn : n = f
  · obtain ⟨pages, count, hself, -⟩ := h.self
    rw [hn, hself]
  · rw [h.others n hn]

/-- What the loop leaves when it fails: the file has the bytes of the buffer from `offset` to its
old end, and everything else is as before. -/
theorem failed_loop_keeps_iff (hi : s.Inv addr) {p : List Name} (hp : addr p ≠ 0)
    (hfile : (s.node (addr p)).isDir = false) {path : List Char} (hres : s.Resolves path (addr p))
    {buf : List (BitVec 8)} {offset : ℕ} (hgrown : Grown (addr p) s s') (hi' : s'.Inv addr)
    (hlack : (s.node (addr p)).pageCount * 4096 < offset + buf.length)
    (hnew : ∀ k, offset ≤ k → k < (s.node (addr p)).pageCount * 4096 →
      buf[k - offset]? = some (s'.byteAt (addr p) k))
    (hold : ∀ q k, addr q ≠ 0 → k < (s.node (addr q)).pageCount * 4096 →
      ¬(q = p ∧ offset ≤ k ∧ k < offset + buf.length) → s'.byteAt (addr q) k = s.byteAt (addr q) k) :
    (∀ other, SamePath s s' other) ↔ s.Repeats (addr p) buf offset := by
  have hsize := hi.size_le p hp
  constructor
  · intro hsame k hk₁ hk₂
    obtain ⟨n, hn, -, hkeeps⟩ := hsame path
    obtain rfl : n = addr p := Returns.unique hn hres
    rw [← (hkeeps hp).2 hfile, content_getElem? _ _ (by rw [hgrown.size]; exact hk₂)]
    exact hnew k hk₁ (by omega)
  · intro hrepeats other
    refine samePath_of_entryAt hi.toTree hi'.toTree fun q _ => ⟨rfl, ?_⟩
    unfold entryAt
    by_cases hq : addr q = 0
    · rw [if_pos hq, if_pos hq]
    rw [if_neg hq, if_neg hq, hgrown.isDir, content_congr (hgrown.size _) fun k hk => ?_]
    have hsizeq := hi.size_le q hq
    by_cases hin : q = p ∧ offset ≤ k
    · obtain ⟨rfl, hle⟩ := hin
      have hbytes := (hnew k hle (by omega)).symm.trans (hrepeats k hle hk)
      rw [content_getElem? _ _ hk] at hbytes
      exact Option.some.inj hbytes
    · exact hold q k hq (by omega) fun h => hin ⟨h.1, h.2.1⟩

end

/-- A write that returns an error leaves every file as it was exactly when it does not get to its
loop, or the loop finds every page it needs, or it writes nothing new over the old content. -/
theorem failed_write_keeps_iff {s : Ramfs} (hs : ramfsSystem.Reachable s) (path : List Char)
    (buf : List (BitVec 8)) (offset : ℕ) :
    ∃ r s', Returns (fun fuel => s.vfsWrite fuel path buf offset) (r, s') ∧
      (((∃ e, r = .error e) → ∀ other, SamePath s s' other) ↔
        ∀ f, s.PassesChecks path f buf offset →
          s.HasFrames f buf offset ∨ s.Repeats f buf offset) := by
  obtain ⟨addr, hi, -⟩ : ∃ addr, s.Inv addr ∧ s.Shaped addr :=
    hs.invariant (M := ramfsSystem) (fun _ => inv_init)
      fun _ _ _ ⟨_, hi, hshape⟩ => callStep_inv hi hshape
  obtain ⟨r, hret, hno⟩ | ⟨p, hp, hpass⟩ := vfsWrite_stops hi path buf offset
  · exact ⟨r, s, hret, iff_of_true (fun _ => samePath_self hi.toTree) fun f hf => absurd hf (hno f)⟩
  have hroot : s.root ≠ 0 := hi.root ▸ hi.rootDir.1
  have hstart : offset + 0 ≤ (s.node (addr p)).pageCount * 4096 :=
    hpass.inside.trans (hi.size_le p hp)
  obtain ⟨r, s', hret, hi', hgrown, hout, hnew, hold⟩ :=
    writeLoop_returns hi hp (Nat.zero_le _) hstart
  have hwrite := hpass.vfsWrite hroot hret
  rcases hout with ⟨rfl, hlack, hcan⟩ | ⟨rfl, hend, hcan⟩
  · have hkeeps := failed_loop_keeps_iff hi hp hpass.file hpass.resolves hgrown hi' hlack
      (fun k hk₁ hk₂ => hnew k hk₁ (by omega) (Or.inl hk₂)) hold
    refine ⟨_, _, hwrite, fun h f hf => ?_, fun h _ => ?_⟩
    · rw [hf.unique hpass]
      exact Or.inr (hkeeps.mp (h ⟨_, rfl⟩))
    · refine hkeeps.mpr ((h _ hpass).resolve_left fun hframes => ?_)
      exact absurd (hframes.2.symm.trans (hcan hframes.1)) (by decide)
  · refine ⟨_, _, hwrite, iff_of_true (fun h => ?_) fun f hf => Or.inl ?_⟩
    · obtain ⟨e, he⟩ := h
      cases he
    · rw [hf.unique hpass]
      exact ⟨hend.trans (Nat.mul_le_mul_right 4096 (hi'.count_le p hp)), hcan⟩

/-! ## A machine without frames -/

/-- The first byte of an empty file goes to the start of a new page. -/
theorem writeLoop_first {f : ℕ} {s : Ramfs} (hcount : (s.node f).pageCount = 0)
    (hk : s.heap.heap.pmm.kpalloc.1 ≠ 0) (v : BitVec 8) :
    Returns (fun fuel => writeLoop f 0 [v] fuel s 0)
      (.ok 1, (s.addPage f s.heap.heap.pmm.kpalloc.1.toNat s.heap.heap.pmm.kpalloc.2).copyIn
        s.heap.heap.pmm.kpalloc.1.toNat [v]) := by
  have hpage : s.heap.heap.pmm.kpalloc.1.toNat ≠ 0 := by simpa [BitVec.toNat_eq] using hk
  have hensure : Returns (fun fuel => ramfsEnsurePage f 0 fuel s) (s.heap.heap.pmm.kpalloc.1.toNat,
      s.addPage f s.heap.heap.pmm.kpalloc.1.toNat s.heap.heap.pmm.kpalloc.2) := by
    refine .succ (g := fun fuel => ramfsEnsurePage f 0 fuel
      (s.addPage f s.heap.heap.pmm.kpalloc.1.toNat s.heap.heap.pmm.kpalloc.2)) (fun fuel => ?_)
      (.succ (fun fuel => ?_) (.const _))
    · rw [ramfsEnsurePage, if_pos (by omega), if_neg (by rw [hcount]; decide)]
      exact if_neg hk
    · simp [ramfsEnsurePage, addPage_node, hcount]
  refine .succ (fun fuel => ?_) (hensure.bind (g := fun r fuel =>
    if r.1 = 0 then some (.error .nospace, r.2)
    else writeLoop f 0 [v] fuel (r.2.copyIn r.1 [v]) 1) ?_)
  · simp [writeLoop, chunkAt]
  · simp only [hpage, if_false]
    refine .succ (fun fuel => ?_) (.const _)
    simp [writeLoop]

theorem Inv.reached_ne_zero {s : Ramfs} {addr : List Name → ℕ} (hi : s.Inv addr) {n : ℕ}
    (h : Reached s n) : n ≠ 0 := by
  cases h with
  | root => exact hi.root ▸ hi.rootDir.1
  | child _ hl hn => exact hl.mem_ne_null n hn

theorem OnlyChild.passesChecks {s : Ramfs} {addr : List Name → ℕ} {leaf : Name} {n : ℕ}
    (h : s.OnlyChild addr leaf n) (v : BitVec 8) : s.PassesChecks ('/' :: leaf) n [v] 0 where
  pathOk := h.pathOk
  resolves := h.resolves
  ne_zero := h.ne_zero
  file := by rw [h.node]
  nonempty := by simp
  inside := Nat.zero_le _
  sum := by simp [vfsMaxFileSize]

/-- An append to a file leaves the others whether there are frames or not. -/
theorem failed_write_keeps_append : ∃ s, ramfsSystem.Reachable s ∧
    ∃ r s', Returns (fun fuel => s.vfsWrite fuel "/f".toList [1] 0) (r, s') ∧
      ((∃ e, r = .error e) → ∀ other, SamePath s s' other) := by
  obtain ⟨s, addr, n, hs⟩ := exists_onlyChild (show NameOk "f".toList by decide) (by decide)
  obtain ⟨r, s', hret, hiff⟩ := failed_write_keeps_iff hs.reachable "/f".toList [1] 0
  refine ⟨s, hs.reachable, r, s', hret, hiff.mpr fun f hf => Or.inr fun k _ hk => ?_⟩
  rw [hf.unique (hs.passesChecks 1), hs.node] at hk
  exact absurd hk (Nat.not_lt_zero k)

/-- A file of one byte, on a machine whose frames are then all taken. -/
theorem exists_one_byte : ∃ s addr n, ramfsSystem.Reachable s ∧ s.Inv addr ∧
    addr ["f".toList] = n ∧ n ≠ 0 ∧ (s.node n).isDir = false ∧ (s.node n).pageCount = 1 ∧
    s.content n = [1] ∧ s.heap.heap.pmm.kpalloc.1 = 0 := by
  obtain ⟨s, addr, n, hs⟩ := exists_onlyChild (show NameOk "f".toList by decide) (by decide)
  have hloop := writeLoop_first (f := n) (s := s) (by rw [hs.node]) hs.frame 1
  have hwrite := (hs.passesChecks 1).vfsWrite hs.root_ne_zero hloop
  obtain ⟨page, hpage⟩ : ∃ page, page = s.heap.heap.pmm.kpalloc.1.toNat := ⟨_, rfl⟩
  obtain ⟨s₁, hs₁⟩ : ∃ s₁, s₁ = ((s.addPage n page s.heap.heap.pmm.kpalloc.2).copyIn page
    [1]).growSize n (0 + 1) := ⟨_, rfl⟩
  dsimp only at hwrite
  rw [← hpage, ← hs₁] at hwrite
  have hnode : s₁.node n = ⟨"f".toList, false, 1, 0, 0, Function.update (fun _ => 0) 0 page, 1⟩ := by
    rw [hs₁, growSize_node, if_pos rfl]
    simp [copyIn, addPage_node, hs.node]
  have hbyte : s₁.byteAt n 0 = 1 := by
    rw [byteAt, hnode, hs₁, mem, growSize_heap]
    simp [copyIn, Memory.write]
  have hreach : ramfsSystem.Reachable s₁ :=
    hs.reachable.step (CallStep.write (by decide) hwrite)
  obtain ⟨r, t, hret, hi₁, -⟩ := vfsWrite_returns hs.inv ('/' :: "f".toList) 0
    (show [(1 : BitVec 8)].length ≤ vfsMaxFileSize by decide)
  obtain rfl : s₁ = t := congrArg Prod.snd (hwrite.unique hret)
  -- everyone else takes what is left
  have hstep : HeapState.Step s₁.heap (.frames fun _ => 0) _ := .frames fun _ _ => by
    simp [Bitmap.test]
  have htarget : ¬Reached s₁ (HeapOp.frames fun _ => 0).target := fun h =>
    hi₁.reached_ne_zero h rfl
  have hi₂ := hi₁.others hstep htarget fun _ _ _ _ _ _ => by simp [Bitmap.test]
  refine ⟨_, addr, n, hreach.step (.others hstep htarget fun _ _ _ _ _ _ => by simp [Bitmap.test]),
    hi₂, hs.addr_eq, hs.ne_zero, ?_, ?_, ?_, ?_⟩
  · change (s₁.node n).isDir = false
    rw [hnode]
  · change (s₁.node n).pageCount = 1
    rw [hnode]
  · change s₁.content n = [1]
    rw [content, hnode]
    simp [hbyte]
  · by_contra hk
    obtain ⟨f, -, -, -, hfree, -⟩ := Pmm.kpalloc_frame hk
    simp [Bitmap.test] at hfree

/-- Writing 4097 bytes over one of them fails for want of a second page, after the first has been
written. -/
theorem failed_write_overwrites : ∃ s, ramfsSystem.Reachable s ∧ ∃ f s',
    s.Resolves "/f".toList f ∧ s.content f = [1] ∧
    Returns (fun fuel => s.vfsWrite fuel "/f".toList (List.replicate 4097 2) 0)
      (.error .nospace, s') ∧
    s'.Resolves "/f".toList f ∧ s'.content f = [2] := by
  obtain ⟨s, addr, n, hreach, hi, hn, hn0, hfile, hcount, hcontent, hk⟩ := exists_one_byte
  have hpath : ∀ {t : Ramfs}, t.Inv addr → t.Resolves "/f".toList n := by
    intro t ht
    have hlookup : t.Resolves "/f".toList _ := ht.toTree.ramfsLookup "/f".toList
    rwa [resolve, show parsePath "/f".toList = some ["f".toList] by decide, Option.elim_some, hn]
      at hlookup
  have hsize : (s.node n).size = 1 := by rw [← content_length, hcontent]; rfl
  obtain ⟨buf, hbuf⟩ : ∃ buf : List (BitVec 8), buf = List.replicate 4097 2 := ⟨_, rfl⟩
  have hlen : buf.length = 4097 := by rw [hbuf, List.length_replicate]
  have hfirst : buf[0]? = some 2 := by rw [hbuf, List.getElem?_replicate, if_pos (by decide)]
  rw [← hbuf]
  have hpass : s.PassesChecks "/f".toList n buf 0 :=
    ⟨by decide, hpath hi, hn0, hfile, by rw [hlen]; decide, Nat.zero_le _, by rw [hlen]; decide⟩
  subst hn
  obtain ⟨r, s', hret, hi', hgrown, hout, hnew, -⟩ :=
    writeLoop_returns hi hn0 (Nat.zero_le buf.length)
      (show 0 + 0 ≤ (s.node (addr ["f".toList])).pageCount * 4096 from Nat.zero_le _)
  obtain ⟨rfl, -⟩ : r = .error .nospace ∧ _ := by
    apply hout.resolve_right
    rintro ⟨-, -, hcan⟩
    rw [hlen, hcount] at hcan
    simp [Pmm.canTake, hk] at hcan
  have hbyte := hnew 0 le_rfl (by omega) (Or.inl (by rw [hcount]; decide))
  rw [Nat.sub_self, hfirst] at hbyte
  refine ⟨s, hreach, _, s', hpath hi, hcontent,
    hpass.vfsWrite (hi.root ▸ hi.rootDir.1) hret, hpath hi', ?_⟩
  rw [content, hgrown.size, hsize]
  exact congrArg (fun b => [b]) (Option.some.inj hbyte).symm

end Ramfs

end Nyvela
