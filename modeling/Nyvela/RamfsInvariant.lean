import Nyvela.Lib.Lines
import Nyvela.Lib.Siblings
import Nyvela.Vfs

/-!
# The directory tree over whole runs

Whatever the calls are and whichever of their allocations fail, the nodes from the root form a
finite tree with well-formed names, and the pages of the files are frames of their own.
-/

namespace Nyvela

namespace Ramfs

/-- The nodes that the pointers lead to from the root. -/
inductive Reached (s : Ramfs) : ℕ → Prop
  | root : Reached s s.root
  | child {n c : ℕ} {l : List ℕ} : Reached s n →
    IsChain 0 (fun c => (s.node c).sibling) (s.node n).child l → c ∈ l → Reached s c

/-- A call, or an operation of another client of the heap. -/
inductive Call
  | create (path : List Char) (isDir : Bool)
  | write (path : List Char) (buf : List (BitVec 8)) (offset : ℕ)
  | read (path : List Char) (len offset : ℕ)
  | list (path : List Char) (len : ℕ)
  | size (path : List Char)
  | others (op : HeapOp)

/-- A buffer is no longer than a file, as every caller of `vfs_write` makes sure. The rest of the
kernel may use the heap and the frames between two calls, so any allocation may fail, but it frees
no node and no page of a file. -/
inductive CallStep : Ramfs → Call → Ramfs → Prop
  | create {s s' : Ramfs} {path : List Char} {isDir : Bool} {r : Except VfsErr Unit} :
    Returns (fun fuel => s.vfsCreate fuel path isDir) (r, s') → CallStep s (.create path isDir) s'
  | write {s s' : Ramfs} {path : List Char} {buf : List (BitVec 8)} {offset : ℕ}
    {r : Except VfsErr ℕ} :
    buf.length ≤ vfsMaxFileSize → Returns (fun fuel => s.vfsWrite fuel path buf offset) (r, s') →
    CallStep s (.write path buf offset) s'
  | read {s : Ramfs} {path : List Char} {len offset : ℕ} {r : Except VfsErr (List (BitVec 8))} :
    Returns (fun fuel => s.vfsRead fuel path len offset) r → CallStep s (.read path len offset) s
  | list {s : Ramfs} {path : List Char} {len : ℕ} {r : Except VfsErr (List Char)} :
    Returns (fun fuel => s.vfsList fuel path len) r → CallStep s (.list path len) s
  | size {s : Ramfs} {path : List Char} {r : Except VfsErr ℕ} :
    Returns (fun fuel => s.vfsSize fuel path) r → CallStep s (.size path) s
  | others {s : Ramfs} {h : HeapState} {op : HeapOp} :
    HeapState.Step s.heap op h → ¬Reached s op.target →
    (∀ n i f, Reached s n → i < (s.node n).pageCount → (s.node n).pages i = f * 4096 →
      h.heap.pmm.bitmap.test f = false) →
    CallStep s (.others op) { s with heap := h }

end Ramfs

/-- The file system from `vfs_init` on, over a heap that was used before. -/
def ramfsSystem : System Ramfs Ramfs.Call where
  init := vfsSystem.init
  step := Ramfs.CallStep

namespace Ramfs

variable {s : Ramfs} {addr : List Name → ℕ}

theorem Tree.reached (ht : s.Tree addr) (p : List Name) (hp : addr p ≠ 0) : Reached s (addr p) := by
  induction p using List.reverseRecOn with
  | nil =>
    rw [ht.root]
    exact .root
  | append_singleton p a ih =>
    have hdir := ht.parent p a hp
    obtain ⟨l, hl, hmem⟩ := ht.children p hdir
    exact .child (ih hdir.1) hl ((hmem _).mpr ⟨hp, a, rfl⟩)

theorem Inv.others (hi : s.Inv addr) {h : HeapState} {op : HeapOp}
    (hstep : HeapState.Step s.heap op h) (htarget : ¬Reached s op.target)
    (hused : ∀ n i f, Reached s n → i < (s.node n).pageCount → (s.node n).pages i = f * 4096 →
      h.heap.pmm.bitmap.test f = false) : Inv { s with heap := h } addr := by
  have hreached := hi.toTree.reached
  refine hi.of_heap (HeapState.inv_step hi.heap hstep) (fun p hp => ?_)
    fun p i f hp => hused _ i f (hreached p hp)
  refine (HeapState.step_keeps hi.heap hstep (hi.live p hp) fun he => htarget ?_).1
  rw [← he]
  exact hreached p hp

theorem callStep_inv {s' : Ramfs} {c : Call} (hi : s.Inv addr) (hs : s.Shaped addr)
    (hstep : CallStep s c s') : ∃ addr', s'.Inv addr' ∧ s'.Shaped addr' := by
  cases hstep with
  | create hret =>
    obtain ⟨r, t, addr', hret', hi', hs', -⟩ := vfsCreate_returns hi _ _
    obtain rfl : s' = t := congrArg Prod.snd (hret.unique hret')
    exact ⟨addr', hi', hs' hs⟩
  | write hlen hret =>
    obtain ⟨r, t, hret', hi', hs', -⟩ := vfsWrite_returns hi _ _ hlen
    obtain rfl : s' = t := congrArg Prod.snd (hret.unique hret')
    exact ⟨addr, hi', hs' hs⟩
  | read => exact ⟨addr, hi, hs⟩
  | list => exact ⟨addr, hi, hs⟩
  | size => exact ⟨addr, hi, hs⟩
  | others hop htarget hused =>
    exact ⟨addr, hi.others hop htarget hused, hs.congr (fun _ => rfl) fun _ => rfl⟩

/-! ## The calls return -/

def names (s : Ramfs) (l : List ℕ) : List Name := l.map fun c => (s.node c).name

/-- The loop of `ramfs_list` writes a line for each child, if all of them fit. -/
theorem listLoop_returns {c : ℕ} {l : List ℕ} (h : IsChain 0 (fun c => (s.node c).sibling) c l)
    {len : ℕ} {out : List Char} (hout : out.length + 1 ≤ len) :
    Returns (fun fuel => s.listLoop len fuel c out)
      (if out.length + (unlines '\n' (s.names l)).length + 1 ≤ len
        then .ok (out ++ unlines '\n' (s.names l)) else .error .nospace) := by
  induction l generalizing c out with
  | nil =>
    obtain rfl : c = 0 := h
    refine .succ (fun fuel => ?_) (.const _)
    simp [listLoop, names, hout]
  | cons d l ih =>
    obtain ⟨rfl, h0, hrest⟩ := h
    have hlen : (unlines '\n' (s.names (c :: l))).length =
        (s.node c).name.length + 1 + (unlines '\n' (s.names l)).length := by
      simp only [names, List.map_cons, unlines_cons, List.length_append, List.length_singleton]
    rw [hlen]
    by_cases hfull : len < out.length + (s.node c).name.length + 1 + 1
    · rw [if_neg (by omega)]
      refine .succ (fun fuel => ?_) (.const _)
      simp only [listLoop, h0, hfull, if_true, if_false]
    · have hnext := ih hrest (show (out ++ (s.node c).name ++ ['\n']).length + 1 ≤ len by
        simp only [List.length_append, List.length_singleton]; omega)
      refine .succ (fun fuel => ?_) (by simpa [names, Nat.add_assoc, Nat.add_left_comm] using hnext)
      simp only [listLoop, h0, hfull, if_false, List.append_assoc]

theorem vfsList_returns (hi : s.Inv addr) (path : List Char) (len : ℕ) :
    ∃ r, Returns (fun fuel => s.vfsList fuel path len) r := by
  unfold vfsList ramfsList
  cases vfsPathOk path with
  | false => exact ⟨_, .const _⟩
  | true =>
    have hroot : s.root ≠ 0 := hi.root ▸ hi.rootDir.1
    have hlookup := hi.toTree.ramfsLookup path
    simp only [hroot, false_or, if_true]
    by_cases hlen : len = 0
    · simp only [hlen, if_true]
      exact ⟨_, .const _⟩
    simp only [hlen, if_false]
    rcases resolve_find s addr path with ⟨hr, -⟩ | ⟨p, -, hr, hp, -⟩
    · exact ⟨_, hlookup.bind (by simpa [hr] using Returns.const _)⟩
    rw [hr] at hlookup
    cases hd : (s.node (addr p)).isDir with
    | false => exact ⟨_, hlookup.bind (by simpa [hp, hd] using Returns.const _)⟩
    | true =>
      obtain ⟨l, hl, -⟩ := hi.children p ⟨hp, hd⟩
      have hret := listLoop_returns hl (show ([] : List Char).length + 1 ≤ len by
        simp only [List.length_nil]; omega)
      exact ⟨_, hlookup.bind (by simpa only [hp, hd, if_false, Bool.true_eq_false] using hret)⟩

/-! ## The tree -/

/-- A node as it should be: the children of a directory have distinct names of 1 to 63 characters
other than the separator, a file has none, and its pages hold its size. -/
structure GoodNode (s : Ramfs) (n : ℕ) : Prop where
  children : ∃ l, IsChain 0 (fun c => (s.node c).sibling) (s.node n).child l ∧
    (l.map fun c => (s.node c).name).Nodup ∧
    ∀ c ∈ l, 1 ≤ (s.node c).name.length ∧ (s.node c).name.length ≤ 63 ∧ '/' ∉ (s.node c).name
  file : (s.node n).isDir = false → (s.node n).child = 0
  size : ((s.node n).size + 4095) / 4096 ≤ (s.node n).pageCount ∧ (s.node n).pageCount ≤ 8 ∧
    (s.node n).size ≤ vfsMaxFileSize
  used : ∀ i < (s.node n).pageCount, ∃ f, (s.node n).pages i = f * 4096 ∧
    s.heap.heap.pmm.bitmap.test f = false

/-- The list of the children, also of a file. -/
theorem Inv.children_of (hi : s.Inv addr) (hs : s.Shaped addr) {p : List Name} (hp : addr p ≠ 0) :
    ∃ l, IsChain 0 (fun c => (s.node c).sibling) (s.node (addr p)).child l ∧
      ∀ c ∈ l, c ≠ 0 ∧ ∃ a, c = addr (p ++ [a]) := by
  cases hd : (s.node (addr p)).isDir with
  | false => exact ⟨[], hs.leaf p hp hd, by simp⟩
  | true =>
    obtain ⟨l, hl, hmem⟩ := hi.children p ⟨hp, hd⟩
    exact ⟨l, hl, fun c hc => (hmem c).mp hc⟩

theorem Inv.goodNode (hi : s.Inv addr) (hs : s.Shaped addr) {p : List Name} (hp : addr p ≠ 0) :
    GoodNode s (addr p) := by
  obtain ⟨l, hl, hmem⟩ := hi.children_of hs hp
  have hcount := hi.count_le p hp
  have hsize := hi.size_le p hp
  unfold ramfsPagesPerFile at hcount
  refine ⟨⟨l, hl, ?_, fun c hc => ?_⟩, hs.leaf p hp, ⟨by omega, hcount, ?_⟩, fun i hip => ?_⟩
  · refine List.Nodup.map_on (fun c hc d hd heq => ?_) hl.nodup
    obtain ⟨hc0, a, rfl⟩ := hmem c hc
    obtain ⟨hd0, b, rfl⟩ := hmem d hd
    rw [hi.name p a hc0, hi.name p b hd0] at heq
    rw [heq]
  · obtain ⟨hc0, a, rfl⟩ := hmem c hc
    obtain ⟨⟨hne, hlen⟩, hslash⟩ := hs.names p a hc0
    rw [hi.name p a hc0]
    exact ⟨List.length_pos_iff.mpr hne, hlen, hslash⟩
  · exact hsize.trans (Nat.mul_le_mul_right 4096 hcount)
  · obtain ⟨f, -, hf, hused⟩ := hi.page p i hp hip
    exact ⟨f, hf, hused⟩

/-- The paths of the nodes lay them out as a tree. -/
theorem Inv.layout (hi : s.Inv addr) (hs : s.Shaped addr) {path : ℕ → List Name}
    (hpath : ∀ n, n ≠ 0 → (∃ p, addr p = n) → addr (path n) = n) :
    Siblings.Layout 0 (fun n => (s.node n).child) (fun n => (s.node n).sibling)
      (fun n => n ≠ 0 ∧ ∃ p, addr p = n) path := by
  refine ⟨fun m n hm hn heq => ?_, ?_⟩
  · rw [← hpath m hm.1 hm.2, ← hpath n hn.1 hn.2, heq]
  · rintro n ⟨hn, p, rfl⟩
    obtain ⟨l, hl, hmem⟩ := hi.children_of hs hn
    refine ⟨l, hl, fun c hc => ?_⟩
    obtain ⟨hc0, a, rfl⟩ := hmem c hc
    have hp := hi.inj _ _ (hpath _ hn ⟨p, rfl⟩) (by rw [hpath _ hn ⟨p, rfl⟩]; exact hn)
    have hpa := hi.inj _ _ (hpath _ hc0 ⟨_, rfl⟩) (by rw [hpath _ hc0 ⟨_, rfl⟩]; exact hc0)
    exact ⟨⟨hc0, _, rfl⟩, a, by rw [hpa, hp]⟩

theorem Inv.exists_tree (hi : s.Inv addr) (hs : s.Shaped addr) :
    ∃ t : Siblings ℕ, t.Shows 0 (fun n => (s.node n).child) (fun n => (s.node n).sibling)
        (s.node s.root).child ∧
      (s.root :: t.nodes).Nodup ∧ ∀ n ∈ s.root :: t.nodes, n ≠ 0 ∧ ∃ p, addr p = n := by
  classical
  obtain ⟨path, hpath⟩ : ∃ path : ℕ → List Name,
      ∀ n, n ≠ 0 → (∃ p, addr p = n) → addr (path n) = n :=
    ⟨fun n => if h : ∃ p, addr p = n then h.choose else [], fun n _ h => by
      simp only [dif_pos h]
      exact h.choose_spec⟩
  have hroot : s.root ≠ 0 := hi.root ▸ hi.rootDir.1
  have hlay := hi.layout hs hpath
  obtain ⟨k, hdeep⟩ := hs.deep
  obtain ⟨l, hl, hmem⟩ := hlay.kids s.root ⟨hroot, [], hi.root⟩
  have hnil : path s.root = [] :=
    hi.inj _ _ (by rw [hpath _ hroot ⟨[], hi.root⟩, hi.root])
      (by rw [hpath _ hroot ⟨[], hi.root⟩]; exact hroot)
  have hone : ∀ c ∈ l, (c ≠ 0 ∧ ∃ p, addr p = c) ∧ (path c).length = 1 := by
    intro c hc
    obtain ⟨hP, b, hb⟩ := hmem c hc
    exact ⟨hP, by rw [hb, hnil]; rfl⟩
  obtain ⟨t, hshow, hnd, hnodes⟩ := hlay.exists_shows (d := k) (k := 1)
    (fun n hn => by
      have := hdeep (path n) (by rw [hpath n hn.1 hn.2]; exact hn.1)
      omega) hl hone
  refine ⟨t, hshow, List.nodup_cons.mpr ⟨fun hm => ?_, hnd⟩, fun n hn => ?_⟩
  · -- the root has the empty path, everything below it a longer one
    obtain ⟨-, c, hc, hpre⟩ := hnodes _ hm
    have hlen := hpre.length_le
    rw [hnil, (hone c hc).2] at hlen
    exact absurd hlen (by decide)
  · rcases List.mem_cons.mp hn with rfl | hn
    · exact ⟨hroot, [], hi.root⟩
    · exact (hnodes n hn).1

/-- In every state that a run reaches, the nodes from the root form a finite tree of well-formed
nodes, and the pages of the files are pairwise distinct; and every call returns there. -/
theorem ramfs_tree_invariant {s : Ramfs} (hs : ramfsSystem.Reachable s) :
    (∃ t : Siblings ℕ,
      t.Shows 0 (fun n => (s.node n).child) (fun n => (s.node n).sibling) (s.node s.root).child ∧
      (s.root :: t.nodes).Nodup ∧ (∀ n ∈ s.root :: t.nodes, GoodNode s n) ∧
      ∀ n ∈ s.root :: t.nodes, ∀ m ∈ s.root :: t.nodes, ∀ i < (s.node n).pageCount,
        ∀ j < (s.node m).pageCount, (s.node n).pages i = (s.node m).pages j → n = m ∧ i = j) ∧
    (∀ path isDir, ∃ r, Returns (fun fuel => s.vfsCreate fuel path isDir) r) ∧
    (∀ path buf offset, buf.length ≤ vfsMaxFileSize →
      ∃ r, Returns (fun fuel => s.vfsWrite fuel path buf offset) r) ∧
    (∀ path len offset, len ≤ vfsMaxFileSize →
      ∃ r, Returns (fun fuel => s.vfsRead fuel path len offset) r) ∧
    (∀ path len, ∃ r, Returns (fun fuel => s.vfsList fuel path len) r) ∧
    ∀ path, ∃ r, Returns (fun fuel => s.vfsSize fuel path) r := by
  obtain ⟨addr, hi, hshape⟩ : ∃ addr, s.Inv addr ∧ s.Shaped addr :=
    hs.invariant (M := ramfsSystem) (fun _ => inv_init)
      fun _ _ _ ⟨_, hi, hshape⟩ => callStep_inv hi hshape
  refine ⟨?_, fun path isDir => ?_, fun path buf offset hlen => ?_, fun path len offset hlen => ?_,
    vfsList_returns hi, fun path => ?_⟩
  · obtain ⟨t, hshow, hnd, hnodes⟩ := hi.exists_tree hshape
    refine ⟨t, hshow, hnd, fun n hn => ?_, fun n hn m hm i hip j hjp heq => ?_⟩
    · obtain ⟨hn0, p, rfl⟩ := hnodes n hn
      exact hi.goodNode hshape hn0
    · obtain ⟨hn0, p, rfl⟩ := hnodes n hn
      obtain ⟨hm0, q, rfl⟩ := hnodes m hm
      obtain ⟨rfl, rfl⟩ := hi.apart p q i j hn0 hm0 hip hjp heq
      exact ⟨rfl, rfl⟩
  · obtain ⟨r, s', _, hret, -⟩ := vfsCreate_returns hi path isDir
    exact ⟨_, hret⟩
  · obtain ⟨r, s', hret, -⟩ := vfsWrite_returns hi path offset hlen
    exact ⟨_, hret⟩
  · unfold vfsRead
    cases vfsPathOk path with
    | false => exact ⟨_, .const _⟩
    | true => exact ⟨_, ramfsRead_returns hi path offset hlen⟩
  · unfold vfsSize
    cases vfsPathOk path with
    | false => exact ⟨_, .const _⟩
    | true => exact ⟨_, ramfsSize_returns hi path⟩

/-- The file system of a fresh machine. -/
theorem ramfs_tree_invariant_fresh : ∃ s, ramfsSystem.Reachable s ∧
    (∃ t : Siblings ℕ, t.Shows 0 (fun n => (s.node n).child) (fun n => (s.node n).sibling)
      (s.node s.root).child ∧ (s.root :: t.nodes).Nodup) ∧
    ∃ r, Returns (fun fuel => s.vfsCreate fuel ['/', 'a'] true) r := by
  obtain ⟨s, hs⟩ := exists_init
  have hreach : ramfsSystem.Reachable s := .init hs
  obtain ⟨⟨t, hshow, hnd, -⟩, hcreate, -⟩ := ramfs_tree_invariant hreach
  exact ⟨s, hreach, ⟨t, hshow, hnd⟩, hcreate _ _⟩

end Ramfs

end Nyvela
