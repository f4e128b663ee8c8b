import Nyvela.RamfsFile

/-!
# The file system calls (`src/fs/vfs.c`) and what they refine

Along every run in which no allocation fails, the nodes and pages represent a map
from paths to byte strings, and each call does to the map what it should.
-/

namespace Nyvela

def vfsPathOk (path : List Char) : Bool :=
  decide (path.head? = some '/') && decide (path.length ≤ vfsPathMax)

namespace Ramfs

def vfsInit (s : Ramfs) (fuel : ℕ) : Option (Bool × Ramfs) := s.ramfsInit fuel

def vfsCreate (s : Ramfs) (fuel : ℕ) (path : List Char) (isDir : Bool) :
    Option (Except VfsErr Unit × Ramfs) :=
  if vfsPathOk path then s.ramfsCreate fuel path isDir else some (.error .badpath, s)

def vfsWrite (s : Ramfs) (fuel : ℕ) (path : List Char) (buf : List (BitVec 8)) (offset : ℕ) :
    Option (Except VfsErr ℕ × Ramfs) :=
  if vfsPathOk path then s.ramfsWrite fuel path buf offset else some (.error .badpath, s)

def vfsRead (s : Ramfs) (fuel : ℕ) (path : List Char) (len offset : ℕ) :
    Option (Except VfsErr (List (BitVec 8))) :=
  if vfsPathOk path then s.ramfsRead fuel path len offset else some (.error .badpath)

def vfsList (s : Ramfs) (fuel : ℕ) (path : List Char) (len : ℕ) :
    Option (Except VfsErr (List Char)) :=
  if vfsPathOk path then s.ramfsList fuel path len else some (.error .badpath)

def vfsSize (s : Ramfs) (fuel : ℕ) (path : List Char) : Option (Except VfsErr ℕ) :=
  if vfsPathOk path then s.ramfsSize fuel path else some (.error .badpath)

end Ramfs

/-! ## Runs -/

/-- The calls that change the state. -/
inductive VfsOp
  | create (path : List Char) (isDir : Bool)
  | write (path : List Char) (buf : List (BitVec 8)) (offset : ℕ)

namespace Ramfs

/-- No allocation that the call makes fails. `vfs_create` reports `NOSPACE` only when
`kmalloc` does fail; a write takes as many frames as the file's pages fall short of. -/
def AllocsOk (s : Ramfs) : VfsOp → Prop
  | .create path isDir => ∀ s', ¬Returns (fun fuel => s.vfsCreate fuel path isDir)
      (.error .nospace, s')
  | .write path buf offset => ∀ f, Returns (fun fuel => s.ramfsLookup fuel path) f → f ≠ 0 →
      offset ≤ (s.node f).size → offset + buf.length ≤ vfsMaxFileSize →
      s.heap.heap.pmm.canTake
        ((offset + buf.length + 4095) / 4096 - (s.node f).pageCount) = true

inductive Step : Ramfs → VfsOp → Ramfs → Prop
  | create {s s' : Ramfs} {path : List Char} {isDir : Bool} {r : Except VfsErr Unit} :
    s.AllocsOk (.create path isDir) →
    Returns (fun fuel => s.vfsCreate fuel path isDir) (r, s') → Step s (.create path isDir) s'
  | write {s s' : Ramfs} {path : List Char} {buf : List (BitVec 8)} {offset : ℕ}
    {r : Except VfsErr ℕ} :
    buf.length ≤ vfsMaxFileSize → s.AllocsOk (.write path buf offset) →
    Returns (fun fuel => s.vfsWrite fuel path buf offset) (r, s') →
    Step s (.write path buf offset) s'

end Ramfs

/-- The file system from `vfs_init` on, over a heap that was used before. -/
def vfsSystem : System Ramfs VfsOp where
  init s := ∃ s₀ : Ramfs, s₀.root = 0 ∧ heapSystem.Reachable s₀.heap ∧
    Returns (fun fuel => s₀.vfsInit fuel) (true, s)
  step := Ramfs.Step

namespace Ramfs

/-! ## The calls -/

section calls

variable {s : Ramfs} {addr : List Name → ℕ}

theorem resolve_find (s : Ramfs) (addr : List Name → ℕ) (path : List Char) :
    (resolve addr path = 0 ∧ FileMap.find (s.entryAt addr) path = none) ∨
      ∃ p, parsePath path = some p ∧ resolve addr path = addr p ∧ addr p ≠ 0 ∧
        FileMap.find (s.entryAt addr) path =
          some (p, if (s.node (addr p)).isDir then .dir else .file (s.content (addr p))) := by
  unfold resolve FileMap.find entryAt
  cases hparse : parsePath path with
  | none => exact Or.inl ⟨rfl, rfl⟩
  | some p =>
    by_cases h0 : addr p = 0
    · exact Or.inl ⟨h0, by simp [h0]⟩
    · refine Or.inr ⟨p, rfl, rfl, h0, ?_⟩
      cases hd : (s.node (addr p)).isDir <;> simp [h0, hd]

theorem ramfsSize_returns (hi : s.Inv addr) (path : List Char) :
    Returns (fun fuel => s.ramfsSize fuel path) (FileMap.size (s.entryAt addr) path) := by
  have hroot : s.root ≠ 0 := hi.root ▸ hi.rootDir.1
  unfold ramfsSize
  simp only [hroot, if_false]
  refine (hi.toTree.ramfsLookup path).bind ?_
  unfold FileMap.size
  rcases resolve_find s addr path with ⟨hr, hf⟩ | ⟨p, -, hr, hp, hf⟩
  · simpa [hr, hf] using Returns.const _
  · rw [hr, hf]
    cases hd : (s.node (addr p)).isDir
    · simpa [hp, hd, content_length] using Returns.const _
    · simpa [hp, hd] using Returns.const _

theorem size_le_max (hi : s.Inv addr) {p : List Name} (hp : addr p ≠ 0) :
    (s.node (addr p)).size ≤ vfsMaxFileSize := by
  have h1 := hi.size_le p hp
  have h2 := hi.count_le p hp
  exact h1.trans (Nat.mul_le_mul_right 4096 h2)

theorem ramfsRead_returns (hi : s.Inv addr) (path : List Char) {len : ℕ} (offset : ℕ)
    (hlen : len ≤ vfsMaxFileSize) :
    Returns (fun fuel => s.ramfsRead fuel path len offset)
      (FileMap.read (s.entryAt addr) path len offset) := by
  have hroot : s.root ≠ 0 := hi.root ▸ hi.rootDir.1
  unfold ramfsRead
  simp only [hroot, if_false]
  refine (hi.toTree.ramfsLookup path).bind ?_
  unfold FileMap.read
  rcases resolve_find s addr path with ⟨hr, hf⟩ | ⟨p, -, hr, hp, hf⟩
  · simpa [hr, hf] using Returns.const _
  rw [hr, hf]
  cases hd : (s.node (addr p)).isDir with
  | true => simpa [hp, hd] using Returns.const _
  | false =>
    simp only [hp, Bool.false_eq_true, if_false]
    by_cases h0 : len = 0
    · simpa [h0] using Returns.const _
    by_cases hend : (s.node (addr p)).size ≤ offset
    · have hnil : (s.content (addr p)).drop offset = [] :=
        List.drop_eq_nil_of_le (by rw [content_length]; exact hend)
      simpa [h0, hend, hnil] using Returns.const _
    simp only [h0, hend, if_false]
    have hsize := size_le_max hi hp
    unfold vfsMaxFileSize at hsize hlen
    rw [Nat.mod_eq_of_lt (by omega)]
    set n := if (s.node (addr p)).size < offset + len then (s.node (addr p)).size - offset else len
      with hn
    have hfit : offset + n ≤ (s.node (addr p)).size := by split_ifs at hn <;> omega
    have htake : ((s.content (addr p)).drop offset).take len =
        ((s.content (addr p)).drop offset).take n := by
      rw [List.take_eq_take_iff, List.length_drop, content_length]
      split_ifs at hn <;> omega
    rw [htake, content_slice s (addr p) hfit]
    exact (readLoop_returns hi hp hfit (Nat.zero_le _)).bind (.const _) |>.congr fun fuel => by
      rw [Option.map_eq_bind]
      rfl

/-- What `ramfs_write` does to the map, unless a frame that it needs is missing; the tree keeps
its shape in any case. -/
theorem ramfsWrite_returns (hi : s.Inv addr) {path : List Char} {buf : List (BitVec 8)}
    {offset : ℕ} (hlen : buf.length ≤ vfsMaxFileSize) :
    ∃ r s', Returns (fun fuel => s.ramfsWrite fuel path buf offset) (r, s') ∧ s'.Inv addr ∧
      (s.Shaped addr → s'.Shaped addr) ∧
      (¬s.AllocsOk (.write path buf offset) ∨
        (r, s'.entryAt addr) = FileMap.write (s.entryAt addr) path buf offset) := by
  have hroot : s.root ≠ 0 := hi.root ▸ hi.rootDir.1
  have hlookup := hi.toTree.ramfsLookup path
  unfold ramfsWrite FileMap.write
  simp only [hroot, if_false]
  rcases resolve_find s addr path with ⟨hr, hf⟩ | ⟨p, -, hr, hp, hf⟩
  · exact ⟨_, s, hlookup.bind (by simpa [hr] using Returns.const _), hi, id,
      Or.inr (by simp only [hf])⟩
  rw [hr] at hlookup
  rw [hf]
  cases hd : (s.node (addr p)).isDir with
  | true => exact ⟨_, s, hlookup.bind (by simpa [hp, hd] using Returns.const _), hi, id, Or.inr rfl⟩
  | false =>
    simp only [Bool.false_eq_true, if_false, content_length]
    by_cases h0 : buf = []
    · exact ⟨_, s, hlookup.bind (by simpa [hp, hd, h0] using Returns.const _), hi, id,
        Or.inr (by simp [h0])⟩
    have h0' : buf.length ≠ 0 := by simpa using h0
    by_cases hoff : (s.node (addr p)).size < offset
    · exact ⟨_, s, hlookup.bind (by simpa [hp, hd, h0, hoff] using Returns.const _), hi, id,
        Or.inr (by simp [h0, hoff])⟩
    -- the sum in the size check does not wrap: both its parts are small by now
    have hmod : (offset + buf.length) % 2 ^ 64 = offset + buf.length := by
      have hsize := size_le_max hi hp
      unfold vfsMaxFileSize at hsize hlen
      exact Nat.mod_eq_of_lt (by omega)
    by_cases hmax : vfsMaxFileSize < offset + buf.length
    · refine ⟨.error .nospace, s, hlookup.bind ?_, hi, id, Or.inr (by simp [h0, hoff, hmax])⟩
      simp only [hp, hd, h0', hoff, hmod, hmax, Bool.false_eq_true, if_false, if_true]
      exact .const _
    obtain ⟨r, s', hret, hi', hgrown, ⟨rfl, hcan⟩ | ⟨rfl, hi'', hentry⟩⟩ :=
      write_returns hi hp hd (show offset ≤ _ by omega)
        (show offset + buf.length ≤ vfsMaxFileSize by omega)
    · refine ⟨.error .nospace, s', hlookup.bind ?_, hi', hgrown.shaped, Or.inl fun hok => ?_⟩
      · simp only [hp, hd, h0', hoff, hmod, hmax, Bool.false_eq_true, if_false]
        exact hret.bind (.const _)
      · exact absurd (hok _ hlookup hp (by omega) (by omega)) (Bool.eq_false_iff.mp hcan)
    refine ⟨.ok buf.length, s'.growSize (addr p) (offset + buf.length), hlookup.bind ?_, hi'',
      fun hs => growSize_shaped (hgrown.shaped hs) _ _, Or.inr ?_⟩
    · simp only [hp, hd, h0', hoff, hmod, hmax, Bool.false_eq_true, if_false]
      exact hret.bind (.const _)
    · simp only [h0, hoff, hmax, if_false]
      rw [hentry]

/-- Everything `ramfs_create` can do once it has found the directory. -/
theorem createAt_returns (hi : s.Inv addr) {q : List Name} (hq : s.DirAt addr q) {leaf : Name}
    (hleaf : NameOk leaf) (isDir : Bool) :
    (addr (q ++ [leaf]) ≠ 0 ∧
      Returns (fun fuel => s.createAt fuel (addr q) leaf isDir) (.error .exists_, s)) ∨
    (addr (q ++ [leaf]) = 0 ∧ ∃ n h, Returns (fun fuel => s.heap.kmalloc fuel 168) (n, h) ∧
      ((n = 0 ∧ Returns (fun fuel => s.createAt fuel (addr q) leaf isDir)
          (.error .nospace, { s with heap := h })) ∨
        (n ≠ 0 ∧ Returns (fun fuel => s.createAt fuel (addr q) leaf isDir)
          (.ok (), s.created (addr q) leaf isDir n h)))) := by
  have hfind := hi.toTree.findChild hq.1 leaf
  unfold createAt
  simp only [hq.1, hq.2, hleaf.1, or_self, Bool.true_eq_false, if_false]
  by_cases hexists : addr (q ++ [leaf]) = 0
  · obtain ⟨⟨n, h⟩, hk⟩ := HeapState.kmalloc_returns hi.heap 168
    refine Or.inr ⟨hexists, n, h, hk, ?_⟩
    by_cases hn : n = 0
    · refine Or.inl ⟨hn, hfind.bind ?_⟩
      have halloc : Returns (fun fuel => s.ramfsAllocNode fuel leaf isDir)
          (0, { s with heap := h }) := hk.bind (by simpa [hn] using Returns.const _)
      simp only [hexists, ne_eq, not_true_eq_false, if_false]
      exact halloc.bind (.const _)
    · refine Or.inr ⟨hn, hfind.bind ?_⟩
      have halloc : Returns (fun fuel => s.ramfsAllocNode fuel leaf isDir)
          (n, setNode { s with heap := h } n
            ⟨leaf.take vfsNameMax, isDir, 0, 0, 0, fun _ => 0, 0⟩) :=
        hk.bind (by simpa [hn] using Returns.const _)
      simp only [hexists, ne_eq, not_true_eq_false, if_false]
      refine halloc.bind ?_
      simp only [hn, if_false]
      exact .const _
  · refine Or.inl ⟨hexists, hfind.bind ?_⟩
    simpa [hexists] using Returns.const _

/-- A `kmalloc` that fails leaves the file system. -/
theorem Inv.kmalloc_null (hi : s.Inv addr) {fuel size : ℕ} {h : HeapState}
    (hk : s.heap.kmalloc fuel size = some (0, h)) : Inv { s with heap := h } addr := by
  obtain ⟨hh, -, ⟨-, hlive⟩ | ⟨hne, -⟩⟩ := HeapState.kmalloc_client hi.heap hk
  · refine hi.of_heap hh (fun p hp => by rw [hlive]; exact hi.live p hp) fun p i f hp hpi hpage => ?_
    obtain ⟨g, -, hg, hgused⟩ := hi.page p i hp hpi
    obtain rfl : g = f := by omega
    exact HeapState.kmalloc_used hk hgused
  · exact absurd rfl hne

theorem entryAt_eq_dir (q : List Name) : s.entryAt addr q = some .dir ↔ s.DirAt addr q := by
  unfold entryAt DirAt
  by_cases h0 : addr q = 0
  · simp [h0]
  · cases hd : (s.node (addr q)).isDir <;> simp [h0]

theorem entryAt_eq_none (q : List Name) : s.entryAt addr q = none ↔ addr q = 0 := by
  unfold entryAt
  by_cases h0 : addr q = 0
  · simp [h0]
  · cases hd : (s.node (addr q)).isDir <;> simp [h0]

/-- Everything `ramfs_create` can do. -/
theorem ramfsCreate_cases (hi : s.Inv addr) {path : List Char} (hpath : vfsPathOk path = true)
    (isDir : Bool) :
    (∃ q leaf, parsePath path = some (q ++ [leaf]) ∧ NameOk leaf ∧ s.DirAt addr q ∧
      ((addr (q ++ [leaf]) ≠ 0 ∧
        Returns (fun fuel => s.ramfsCreate fuel path isDir) (.error .exists_, s)) ∨
      (addr (q ++ [leaf]) = 0 ∧ ∃ n h, Returns (fun fuel => s.heap.kmalloc fuel 168) (n, h) ∧
        ((n = 0 ∧ Returns (fun fuel => s.ramfsCreate fuel path isDir)
            (.error .nospace, { s with heap := h })) ∨
          (n ≠ 0 ∧ Returns (fun fuel => s.ramfsCreate fuel path isDir)
            (.ok (), s.created (addr q) leaf isDir n h)))))) ∨
    ((∀ q a, parsePath path = some (q ++ [a]) → ¬s.DirAt addr q) ∧
      Returns (fun fuel => s.ramfsCreate fuel path isDir) (.error .badpath, s)) := by
  have hroot : s.root ≠ 0 := hi.root ▸ hi.rootDir.1
  obtain ⟨hhead, hlong⟩ : path.head? = some '/' ∧ path.length ≤ vfsPathMax := by
    simpa [vfsPathOk] using hpath
  by_cases hslash : path = ['/']
  · refine Or.inr ⟨by simp [hslash, parsePath], ?_⟩
    simpa [ramfsCreate, hslash] using Returns.const _
  have hbody : ∀ fuel, s.ramfsCreate fuel path isDir =
      (s.ramfsParentOf fuel path).bind fun r => s.createAt fuel r.1 r.2 isDir := by
    intro fuel
    simp [ramfsCreate, hroot, hhead, hslash, Nat.not_lt.mpr hlong]
  obtain ⟨r, hret, ⟨q, hparse, hname, hq, hrq⟩ | ⟨hr0, hnone⟩⟩ := hi.toTree.ramfsParentOf path
  · have hcreate : ∀ {res}, Returns (fun fuel => s.createAt fuel (addr q) r.2 isDir) res →
        Returns (fun fuel => s.ramfsCreate fuel path isDir) res := by
      intro res h
      rw [← hrq] at h
      exact (hret.bind h).congr hbody
    refine Or.inl ⟨q, r.2, hparse, hname, hq, ?_⟩
    rcases createAt_returns hi hq hname isDir with ⟨hne, h⟩ | ⟨h0, n, h', hk, ⟨hn, h⟩ | ⟨hn, h⟩⟩
    · exact Or.inl ⟨hne, hcreate h⟩
    · exact Or.inr ⟨h0, n, h', hk, Or.inl ⟨hn, hcreate h⟩⟩
    · exact Or.inr ⟨h0, n, h', hk, Or.inr ⟨hn, hcreate h⟩⟩
  · refine Or.inr ⟨hnone, (hret.bind ?_).congr hbody⟩
    simpa [createAt, hr0] using Returns.const _

/-- What `ramfs_create` does to the map, unless `kmalloc` fails. -/
theorem ramfsCreate_returns (hi : s.Inv addr) {path : List Char} (hpath : vfsPathOk path = true)
    (isDir : Bool) :
    ∃ r s' addr', Returns (fun fuel => s.ramfsCreate fuel path isDir) (r, s') ∧
      s'.Inv addr' ∧ (s.Shaped addr → s'.Shaped addr') ∧
      (r = .error .nospace ∨
        (r, s'.entryAt addr') = FileMap.create (s.entryAt addr) path isDir) := by
  rcases ramfsCreate_cases hi hpath isDir with ⟨q, leaf, hparse, hname, hq, hcases⟩ | ⟨hnone, hret⟩
  · have hspec : FileMap.create (s.entryAt addr) path isDir =
        if addr (q ++ [leaf]) ≠ 0 then (.error .exists_, s.entryAt addr)
        else (.ok (), Function.update (s.entryAt addr) (q ++ [leaf])
          (some (if isDir then .dir else .file []))) := by
      rw [FileMap.create, hparse]
      simp only [List.append_eq_nil_iff, List.cons_ne_nil, and_false, List.dropLast_concat,
        (entryAt_eq_dir q).mpr hq, ne_eq, not_true_eq_false, or_self, if_false, entryAt_eq_none]
    rw [hspec]
    rcases hcases with ⟨hne, hret⟩ | ⟨h0, n, h, hk, hcases⟩
    · rw [if_pos hne]
      exact ⟨_, s, addr, hret, hi, id, Or.inr rfl⟩
    obtain ⟨fuel, hk⟩ := hk.exists_fuel
    rcases hcases with ⟨rfl, hret⟩ | ⟨hn, hret⟩
    · exact ⟨_, _, addr, hret, hi.kmalloc_null hk,
        fun hs => hs.congr (fun _ => rfl) fun _ => rfl, Or.inl rfl⟩
    · rw [if_neg (by simpa using h0)]
      refine ⟨_, _, _, hret, created_inv hi hq h0 hname hk hn, fun hs => ?_, Or.inr ?_⟩
      · exact created_shaped hi hq hname hk hn hs (parsePath_no_slash hparse _ (by simp))
      · rw [created_entryAt hi hname hk hn]
  · have hspec : FileMap.create (s.entryAt addr) path isDir = (.error .badpath, s.entryAt addr) := by
      rw [FileMap.create]
      cases hparse : parsePath path with
      | none => rfl
      | some p =>
        refine if_pos ?_
        cases p using List.reverseRecOn with
        | nil => exact Or.inl rfl
        | append_singleton q a =>
          refine Or.inr fun h => hnone q a hparse ?_
          rw [List.dropLast_concat] at h
          exact (entryAt_eq_dir q).mp h
    rw [hspec]
    exact ⟨.error .badpath, s, addr, hret, hi, id, Or.inr rfl⟩

end calls

/-! ## The refinement -/

end Ramfs

namespace FileMap

def vfsCreate (m : FileMap) (path : List Char) (isDir : Bool) : Except VfsErr Unit × FileMap :=
  if vfsPathOk path then m.create path isDir else (.error .badpath, m)

def vfsWrite (m : FileMap) (path : List Char) (d : List (BitVec 8)) (offset : ℕ) :
    Except VfsErr ℕ × FileMap :=
  if vfsPathOk path then m.write path d offset else (.error .badpath, m)

def vfsRead (m : FileMap) (path : List Char) (len offset : ℕ) :
    Except VfsErr (List (BitVec 8)) :=
  if vfsPathOk path then m.read path len offset else .error .badpath

def vfsSize (m : FileMap) (path : List Char) : Except VfsErr ℕ :=
  if vfsPathOk path then m.size path else .error .badpath

end FileMap

namespace Ramfs

section steps

variable {s : Ramfs} {addr : List Name → ℕ}

theorem vfsCreate_returns (hi : s.Inv addr) (path : List Char) (isDir : Bool) :
    ∃ r s' addr', Returns (fun fuel => s.vfsCreate fuel path isDir) (r, s') ∧
      s'.Inv addr' ∧ (s.Shaped addr → s'.Shaped addr') ∧
      (r = .error .nospace ∨
        (r, s'.entryAt addr') = FileMap.vfsCreate (s.entryAt addr) path isDir) := by
  unfold vfsCreate FileMap.vfsCreate
  cases hpath : vfsPathOk path with
  | false => exact ⟨_, s, addr, .const _, hi, id, Or.inr rfl⟩
  | true => exact ramfsCreate_returns hi hpath isDir

theorem vfsWrite_returns (hi : s.Inv addr) (path : List Char) {buf : List (BitVec 8)}
    (offset : ℕ) (hlen : buf.length ≤ vfsMaxFileSize) :
    ∃ r s', Returns (fun fuel => s.vfsWrite fuel path buf offset) (r, s') ∧ s'.Inv addr ∧
      (s.Shaped addr → s'.Shaped addr) ∧
      (¬s.AllocsOk (.write path buf offset) ∨
        (r, s'.entryAt addr) = FileMap.vfsWrite (s.entryAt addr) path buf offset) := by
  unfold vfsWrite FileMap.vfsWrite
  cases hpath : vfsPathOk path with
  | false => exact ⟨_, s, .const _, hi, id, Or.inr rfl⟩
  | true => exact ramfsWrite_returns hi hlen

theorem vfsWrite_refines (hi : s.Inv addr) {path : List Char} {buf : List (BitVec 8)} {offset : ℕ}
    (hlen : buf.length ≤ vfsMaxFileSize) (hok : s.AllocsOk (.write path buf offset)) :
    ∃ s', Returns (fun fuel => s.vfsWrite fuel path buf offset)
        ((FileMap.vfsWrite (s.entryAt addr) path buf offset).1, s') ∧
      s'.Inv addr ∧ s'.entryAt addr = (FileMap.vfsWrite (s.entryAt addr) path buf offset).2 := by
  obtain ⟨r, s', hret, hi', -, hno | heq⟩ := vfsWrite_returns hi path offset hlen
  · exact absurd hok hno
  · rw [← heq]
    exact ⟨s', hret, hi', rfl⟩

end steps

/-- What `vfs_init` makes when it succeeds. -/
theorem vfsInit_returns {s₀ : Ramfs} (hroot : s₀.root = 0) {n : ℕ} {h : HeapState}
    (hk : Returns (fun fuel => s₀.heap.kmalloc fuel 168) (n, h)) :
    ∃ s, Returns (fun fuel => s₀.vfsInit fuel) (decide (n ≠ 0), s) ∧
      (n ≠ 0 → s.root = n ∧ s.heap = h ∧
        s.node n = ⟨[], true, 0, 0, 0, fun _ => 0, 0⟩) := by
  unfold vfsInit ramfsInit
  simp only [hroot, ne_eq, not_true_eq_false, if_false]
  by_cases hn : n = 0
  · have halloc : Returns (fun fuel => s₀.ramfsAllocNode fuel [] true)
        (0, { s₀ with heap := h }) := hk.bind (by simpa [hn] using Returns.const _)
    exact ⟨_, halloc.bind (by simpa [hn] using Returns.const _), fun hc => absurd hn hc⟩
  · have halloc : Returns (fun fuel => s₀.ramfsAllocNode fuel [] true)
        (n, setNode { s₀ with heap := h } n
          ⟨List.take vfsNameMax [], true, 0, 0, 0, fun _ => 0, 0⟩) :=
      hk.bind (by simpa [hn] using Returns.const _)
    refine ⟨_, halloc.bind (.const _), fun _ => ⟨rfl, rfl, ?_⟩⟩
    simp [setNode]

/-- A file system with nothing but its root. -/
theorem inv_init {s : Ramfs} (hs : vfsSystem.init s) : ∃ addr, s.Inv addr ∧ s.Shaped addr := by
  obtain ⟨s₀, hroot, hheap, hret⟩ := hs
  have hh : s₀.heap.Inv :=
    hheap.invariant (fun _ => HeapState.inv_init) fun _ _ _ => HeapState.inv_step
  obtain ⟨⟨n, h⟩, hk⟩ := HeapState.kmalloc_returns hh 168
  obtain ⟨s', hret', hspec⟩ := vfsInit_returns hroot hk
  obtain ⟨hn, rfl⟩ : true = decide (n ≠ 0) ∧ s = s' := by simpa using hret.unique hret'
  have hn : n ≠ 0 := of_decide_eq_true hn.symm
  obtain ⟨hsroot, hsheap, hnode⟩ := hspec hn
  obtain ⟨fuel, hfuel⟩ := hk
  obtain ⟨hhi, -, hlive⟩ := HeapState.kmalloc_client hh (hfuel fuel le_rfl)
  obtain ⟨-, -, hlive⟩ := hlive.resolve_left fun hc => hn hc.1
  let addr : List Name → ℕ := fun p => if p = [] then n else 0
  have hroot' : addr [] = n := rfl
  have hne : ∀ p, addr p ≠ 0 → p = [] := by
    intro p hp
    by_contra hc
    exact hp (if_neg hc)
  have hcons : ∀ p a, addr (p ++ [a]) = 0 := fun p a => if_neg (by simp)
  refine ⟨addr, ⟨⟨hroot'.trans hsroot.symm, ⟨hn, ?_⟩, ?_, ?_, ?_, ?_⟩, ?_, ?_, ?_, ?_, ?_, ?_⟩,
    fun p a hp => absurd (hcons p a) hp, fun p hp => ?_, 0, fun p hp => ?_⟩
  · rw [hroot', hnode]
  · intro p q heq hp
    rw [hne p hp, hne q (heq ▸ hp)]
  · exact fun p a hp => absurd (hcons p a) hp
  · exact fun p a hp => absurd (hcons p a) hp
  · intro p hp
    refine ⟨[], ?_, fun c => ?_⟩
    · rw [hne p hp.1, hroot', hnode]
      rfl
    · simp [hcons]
  · rw [hsheap]
    exact hhi
  · intro p hp
    rw [hne p hp, hroot', hsheap, hlive, Function.update_self]
  · intro p hp
    rw [hne p hp, hroot', hnode]
    exact Nat.zero_le _
  · intro p hp
    rw [hne p hp, hroot', hnode]
    exact Nat.zero_le _
  · intro p i hp hi
    rw [hne p hp, hroot', hnode] at hi
    exact absurd hi (Nat.not_lt_zero _)
  · intro p q i j hp _ hi
    rw [hne p hp, hroot', hnode] at hi
    exact absurd hi (Nat.not_lt_zero _)
  · rw [hne p hp, hroot', hnode]
    exact fun _ => rfl
  · rw [hne p hp]
    exact le_rfl

/-- A fresh machine has room for the root. -/
theorem exists_init : ∃ s, vfsSystem.init s := by
  have hk : ((HeapState.sixteenMiB.kmalloc 1 168).map fun r => decide (r.1 ≠ 0)) = some true := by
    decide
  obtain ⟨⟨n, h⟩, hk, hn⟩ := Option.map_eq_some_iff.mp hk
  let s₀ : Ramfs := ⟨HeapState.sixteenMiB, 0, fun _ => ⟨[], false, 0, 0, 0, fun _ => 0, 0⟩⟩
  have hret : Returns (fun fuel => s₀.heap.kmalloc fuel 168) (n, h) :=
    ⟨1, fun fuel hf => HeapState.kmalloc_mono hk hf⟩
  obtain ⟨s, hs, -⟩ := vfsInit_returns (show s₀.root = 0 from rfl) hret
  rw [hn] at hs
  exact ⟨s, s₀, rfl, HeapState.sixteenMiB_reachable, hs⟩

end Ramfs

end Nyvela
