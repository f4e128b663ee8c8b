import Nyvela.RamfsInvariant
import Nyvela.RamfsPath

/-!
# What `vfs_create` does to each path

It succeeds exactly when there is room for a new name in a directory that exists, and no path
but the new one is resolved differently afterwards.
-/

namespace Nyvela

namespace Ramfs

def Resolves (s : Ramfs) (path : List Char) (n : ℕ) : Prop :=
  Returns (fun fuel => s.ramfsLookup fuel path) n

/-- The path resolves to the same node, or still to none, and the node is what it was. -/
def SamePath (s s' : Ramfs) (path : List Char) : Prop :=
  ∃ n, s.Resolves path n ∧ s'.Resolves path n ∧
    (n ≠ 0 → (s'.node n).isDir = (s.node n).isDir ∧
      ((s.node n).isDir = false → s'.content n = s.content n))

/-- The path is written in components, the last one a free name in a directory, and there is
memory for its node. -/
def Creatable (s : Ramfs) (path : List Char) : Prop :=
  path.length ≤ vfsPathMax ∧ ∃ cs a d, Written (cs ++ [a]) path ∧ s.Follows cs d ∧
    (s.node d).isDir = true ∧
    (∀ l, IsChain 0 (fun c => (s.node c).sibling) (s.node d).child l →
      ∀ c ∈ l, (s.node c).name ≠ a) ∧
    ∃ n h, n ≠ 0 ∧ Returns (fun fuel => s.heap.kmalloc fuel 168) (n, h)

/-- The path leads to an empty node of its kind, one that no path led to before. -/
def NewNode (s s' : Ramfs) (path : List Char) (isDir : Bool) : Prop :=
  ∃ n, n ≠ 0 ∧ s'.Resolves path n ∧ (∀ other, ¬s.Resolves other n) ∧
    (s'.node n).isDir = isDir ∧ (s'.node n).size = 0 ∧ (s'.node n).child = 0 ∧
    (s'.node n).pageCount = 0

/-- What `vfs_create` is to do when it returns `r` and leaves `s'`. -/
structure CreateSpec (s : Ramfs) (path : List Char) (isDir : Bool) (r : Except VfsErr Unit)
    (s' : Ramfs) : Prop where
  ok_iff : r = .ok () ↔ s.Creatable path
  created : r = .ok () → NewNode s s' path isDir
  others : r = .ok () → ∀ other, other ≠ path → SamePath s s' other
  failed : r ≠ .ok () → ∀ other, SamePath s s' other

section

variable {s s' : Ramfs} {addr addr' : List Name → ℕ}

theorem vfsPathOk_of_written {cs : List Name} {path : List Char} (h : Written cs path)
    (hlen : path.length ≤ vfsPathMax) : vfsPathOk path = true := by
  simp [vfsPathOk, h.tail_splitOn.1, hlen]

/-- A name is free among the children of a directory exactly when its path has no node. -/
theorem Tree.name_free_iff (ht : s.Tree addr) {q : List Name} (hq : s.DirAt addr q) (a : Name) :
    (∀ l, IsChain 0 (fun c => (s.node c).sibling) (s.node (addr q)).child l →
      ∀ c ∈ l, (s.node c).name ≠ a) ↔ addr (q ++ [a]) = 0 := by
  obtain ⟨l, hchain, hmem⟩ := ht.children q hq
  constructor
  · intro h
    by_contra hne
    exact h l hchain _ ((hmem _).mpr ⟨hne, a, rfl⟩) (ht.name q a hne)
  · rintro h0 l' hchain' c hc rfl
    rw [hchain'.unique hchain] at hc
    obtain ⟨hne, b, rfl⟩ := (hmem c).mp hc
    rw [ht.name q b hne] at h0
    exact hne h0

/-- Whether a node can be created, in terms of the addresses of the tree. -/
theorem Tree.creatable_iff (ht : s.Tree addr) (path : List Char) :
    s.Creatable path ↔ path.length ≤ vfsPathMax ∧ ∃ q a, parsePath path = some (q ++ [a]) ∧
      s.DirAt addr q ∧ addr (q ++ [a]) = 0 ∧
      ∃ n h, n ≠ 0 ∧ Returns (fun fuel => s.heap.kmalloc fuel 168) (n, h) := by
  refine and_congr_right fun _ => exists_congr fun q => exists_congr fun a => ?_
  constructor
  · rintro ⟨d, hw, hf, hdir, hfree, halloc⟩
    obtain ⟨hd, rfl⟩ := ht.follows_iff.mp hf
    exact ⟨(parsePath_eq_some_iff _ _).mpr (Or.inr hw), ⟨hd, hdir⟩,
      (ht.name_free_iff ⟨hd, hdir⟩ a).mp hfree, halloc⟩
  · rintro ⟨hparse, hq, h0, halloc⟩
    have hw := ((parsePath_eq_some_iff _ _).mp hparse).resolve_left fun h => by simp at h
    exact ⟨addr q, hw, ht.follows_iff.mpr ⟨hq.1, rfl⟩, hq.2, (ht.name_free_iff hq a).mpr h0, halloc⟩

/-- Two trees that agree at the components of a path agree at the path. -/
theorem samePath_of_entryAt (ht : s.Tree addr) (ht' : s'.Tree addr') {path : List Char}
    (h : ∀ p, parsePath path = some p → addr' p = addr p ∧
      s'.entryAt addr' p = s.entryAt addr p) : SamePath s s' path := by
  have hlookup' : s'.Resolves path _ := ht'.ramfsLookup path
  refine ⟨_, ht.ramfsLookup path, ?_, ?_⟩
  · cases hparse : parsePath path with
    | none => simpa [resolve, hparse] using hlookup'
    | some p => simpa [resolve, hparse, (h p hparse).1] using hlookup'
  · intro hne
    cases hparse : parsePath path with
    | none => simp [resolve, hparse] at hne
    | some p =>
      obtain ⟨haddr, hentry⟩ := h p hparse
      simp only [resolve, hparse, Option.elim_some] at hne ⊢
      simp only [entryAt, haddr, hne, if_false] at hentry
      cases hd : (s.node (addr p)).isDir <;> cases hd' : (s'.node (addr p)).isDir <;>
        simp_all

theorem samePath_self (ht : s.Tree addr) (path : List Char) : SamePath s s path :=
  samePath_of_entryAt ht ht fun _ _ => ⟨rfl, rfl⟩

theorem samePath_kmalloc_null (hi : s.Inv addr) {fuel : ℕ} {h : HeapState}
    (hk : s.heap.kmalloc fuel 168 = some (0, h)) (path : List Char) :
    SamePath s { s with heap := h } path := by
  obtain ⟨-, hmem, -⟩ := HeapState.kmalloc_client hi.heap hk
  refine samePath_of_entryAt hi.toTree (hi.kmalloc_null hk).toTree fun p _ => ⟨rfl, ?_⟩
  unfold entryAt content byteAt mem
  rw [← hmem]

section created

variable {path : List Char} {q : List Name} {leaf : Name} {isDir : Bool} {fuel n : ℕ}
  {h : HeapState}
  (hi : s.Inv addr) (hparse : parsePath path = some (q ++ [leaf])) (hq : s.DirAt addr q)
  (h0 : addr (q ++ [leaf]) = 0) (hleaf : NameOk leaf)
  (hk : s.heap.kmalloc fuel 168 = some (n, h)) (hn : n ≠ 0)

include hi hparse hq h0 hleaf hk hn in
theorem created_newNode : NewNode s (s.created (addr q) leaf isDir n h) path isDir := by
  have hlookup : (s.created (addr q) leaf isDir n h).Resolves path _ :=
    (created_tree hi hq h0 hleaf hk hn).ramfsLookup path
  simp only [resolve, hparse, Option.elim_some, Function.update_self] at hlookup
  refine ⟨n, hn, hlookup, fun other hother => ?_, ?_⟩
  · have heq : resolve addr other = n := (hi.toTree.ramfsLookup other).unique hother
    cases hp : parsePath other with
    | none =>
      rw [resolve, hp] at heq
      exact hn heq.symm
    | some p =>
      rw [resolve, hp] at heq
      exact created_fresh hi hk hn p heq
  · rw [created_node_new hi hleaf hk hn]
    exact ⟨rfl, rfl, rfl, rfl⟩

include hi hparse hq h0 hleaf hk hn in
theorem created_samePath {other : List Char} (hne : other ≠ path) :
    SamePath s (s.created (addr q) leaf isDir n h) other := by
  refine samePath_of_entryAt hi.toTree (created_tree hi hq h0 hleaf hk hn) fun p hp => ?_
  -- a path can be read back from its components
  have hpq : p ≠ q ++ [leaf] := by
    rintro rfl
    have hw := ((parsePath_eq_some_iff _ _).mp hparse).resolve_left fun h => by simp at h
    have hw' := ((parsePath_eq_some_iff _ _).mp hp).resolve_left fun h => by simp at h
    exact hne (hw'.eq.trans hw.eq.symm)
  rw [created_entryAt hi hleaf hk hn, Function.update_of_ne hpq, Function.update_of_ne hpq]
  exact ⟨rfl, rfl⟩

end created

theorem CreateSpec.of_error {path : List Char} {isDir : Bool} {e : VfsErr}
    (hno : ¬s.Creatable path) (hsame : ∀ other, SamePath s s' other) :
    CreateSpec s path isDir (.error e) s' where
  ok_iff := iff_of_false (by simp) hno
  created h := absurd h (by simp)
  others h := absurd h (by simp)
  failed _ := hsame

/-- `vfs_create` succeeds exactly when it can, makes the path lead to a new empty node and leaves
every other path; when it fails it leaves every path. -/
theorem create_exact_atomic (hi : s.Inv addr) (path : List Char) (isDir : Bool) :
    ∃ r s', Returns (fun fuel => s.vfsCreate fuel path isDir) (r, s') ∧
      CreateSpec s path isDir r s' := by
  have ht := hi.toTree
  unfold vfsCreate
  cases hpath : vfsPathOk path with
  | false =>
    refine ⟨_, s, .const _, .of_error ?_ (samePath_self ht)⟩
    rintro ⟨hlen, cs, a, d, hw, -⟩
    exact absurd ((vfsPathOk_of_written hw hlen).symm.trans hpath) (by simp)
  | true =>
    have hlen : path.length ≤ vfsPathMax := by
      simp only [vfsPathOk, Bool.and_eq_true, decide_eq_true_eq] at hpath
      exact hpath.2
    rcases ramfsCreate_cases hi hpath isDir with
      ⟨q, leaf, hparse, hname, hq, ⟨hne, hret⟩ | ⟨h0, n, h, hk, hcases⟩⟩ | ⟨hnone, hret⟩
    · refine ⟨_, s, hret, .of_error ?_ (samePath_self ht)⟩
      rw [ht.creatable_iff]
      rintro ⟨-, q', a, hparse', -, h0, -⟩
      rw [hparse] at hparse'
      exact hne (Option.some.inj hparse' ▸ h0)
    · obtain ⟨fuel, hfuel⟩ := hk.exists_fuel
      rcases hcases with ⟨rfl, hret⟩ | ⟨hn, hret⟩
      · refine ⟨_, _, hret, .of_error ?_ (samePath_kmalloc_null hi hfuel)⟩
        rintro ⟨-, -, -, -, -, -, -, -, n', h', hn', hk'⟩
        exact hn' (congrArg Prod.fst (hk.unique hk')).symm
      · have hcan : s.Creatable path :=
          (ht.creatable_iff path).mpr ⟨hlen, q, leaf, hparse, hq, h0, n, h, hn, hk⟩
        refine ⟨_, _, hret, iff_of_true rfl hcan, fun _ => ?_, fun _ other hne => ?_,
          fun h => absurd rfl h⟩
        · exact created_newNode hi hparse hq h0 hname hfuel hn
        · exact created_samePath hi hparse hq h0 hname hfuel hn hne
    · refine ⟨_, s, hret, .of_error ?_ (samePath_self ht)⟩
      rw [ht.creatable_iff]
      rintro ⟨-, q, a, hparse, hq, -⟩
      exact hnone q a hparse hq

end

theorem create_exact_atomic_fresh : ∃ (s : Ramfs) (addr : List Name → ℕ), s.Inv addr ∧
    ∃ (r : Except VfsErr Unit) (s' : Ramfs),
      Returns (fun fuel => s.vfsCreate fuel "/a".toList true) (r, s') ∧
      CreateSpec s "/a".toList true r s' := by
  obtain ⟨s, hs⟩ := exists_init
  obtain ⟨addr, hi, -⟩ := inv_init hs
  exact ⟨s, addr, hi, create_exact_atomic hi "/a".toList true⟩

/-! ## A file system with one file -/

/-- A fresh machine has room for the root and one more node, and a frame behind them. -/
theorem exists_init_room : ∃ s, vfsSystem.init s ∧ (s.node s.root).child = 0 ∧
    ∃ n h, n ≠ 0 ∧ Returns (fun fuel => s.heap.kmalloc fuel 168) (n, h) ∧
      h.heap.pmm.kpalloc.1 ≠ 0 := by
  have hk : ((HeapState.sixteenMiB.kmalloc 1 168).bind fun r =>
      (r.2.kmalloc 2 168).map fun q =>
        decide (r.1 ≠ 0 ∧ q.1 ≠ 0 ∧ q.2.heap.pmm.kpalloc.1 ≠ 0)) = some true := by
    decide
  obtain ⟨⟨n, h⟩, hk, hk'⟩ := Option.bind_eq_some_iff.mp hk
  obtain ⟨⟨n', h'⟩, hk', hn⟩ := Option.map_eq_some_iff.mp hk'
  obtain ⟨hn, hn', hframe⟩ := of_decide_eq_true hn
  let s₀ : Ramfs := ⟨HeapState.sixteenMiB, 0, fun _ => ⟨[], false, 0, 0, 0, fun _ => 0, 0⟩⟩
  have hret : Returns (fun fuel => s₀.heap.kmalloc fuel 168) (n, h) :=
    ⟨1, fun fuel hf => HeapState.kmalloc_mono hk hf⟩
  obtain ⟨s, hs, hspec⟩ := vfsInit_returns (show s₀.root = 0 from rfl) hret
  obtain ⟨hroot, hheap, hnode⟩ := hspec hn
  rw [decide_eq_true hn] at hs
  refine ⟨s, ⟨s₀, rfl, HeapState.sixteenMiB_reachable, hs⟩, by rw [hroot, hnode], n', h', hn', ?_,
    hframe⟩
  rw [hheap]
  exact ⟨2, fun fuel hf => HeapState.kmalloc_mono hk' hf⟩

/-- The root has one child, an empty file. -/
structure OnlyChild (s : Ramfs) (addr : List Name → ℕ) (leaf : Name) (n : ℕ) : Prop where
  reachable : ramfsSystem.Reachable s
  inv : s.Inv addr
  addr_eq : addr [leaf] = n
  ne_zero : n ≠ 0
  child : (s.node s.root).child = n
  node : s.node n = ⟨leaf, false, 0, 0, 0, fun _ => 0, 0⟩
  path : parsePath ('/' :: leaf) = some [leaf]
  pathOk : vfsPathOk ('/' :: leaf) = true
  frame : s.heap.heap.pmm.kpalloc.1 ≠ 0

namespace OnlyChild

variable {s : Ramfs} {addr : List Name → ℕ} {leaf : Name} {n : ℕ} (h : s.OnlyChild addr leaf n)
include h

theorem root_ne_zero : s.root ≠ 0 := h.inv.root ▸ h.inv.rootDir.1

theorem root_isDir : (s.node s.root).isDir = true := h.inv.root ▸ h.inv.rootDir.2

theorem resolves_root : s.Resolves ['/'] s.root := h.inv.root ▸ h.inv.toTree.ramfsLookup ['/']

theorem resolves : s.Resolves ('/' :: leaf) n := by
  have hlookup := h.inv.toTree.ramfsLookup ('/' :: leaf)
  rwa [resolve, h.path, Option.elim_some, h.addr_eq] at hlookup

theorem chain : IsChain 0 (fun c => (s.node c).sibling) (s.node s.root).child [n] := by
  refine ⟨h.child, h.ne_zero, ?_⟩
  change (s.node n).sibling = 0
  rw [h.node]

theorem names : s.names [n] = [leaf] := by
  rw [Ramfs.names, List.map_singleton, h.node]

end OnlyChild

theorem exists_onlyChild {leaf : Name} (hleaf : NameOk leaf) (hslash : '/' ∉ leaf) :
    ∃ s addr n, OnlyChild s addr leaf n := by
  obtain ⟨s, hs, hchild, n, h, hn, hk, hframe⟩ := exists_init_room
  obtain ⟨addr, hi, -⟩ := inv_init hs
  have hw : Written [leaf] ('/' :: leaf) := by
    refine ⟨by simp, ?_, by simp⟩
    intro c hc
    obtain rfl := List.mem_singleton.mp hc
    obtain ⟨hpos, hle⟩ := (nameOk_iff c).mp hleaf
    exact ⟨hpos, hle, hslash⟩
  have hparse : parsePath ('/' :: leaf) = some ([] ++ [leaf]) :=
    (parsePath_eq_some_iff _ _).mpr (Or.inr hw)
  have hpath : vfsPathOk ('/' :: leaf) = true := by
    refine vfsPathOk_of_written hw ?_
    have hle : leaf.length ≤ 63 := hleaf.2
    rw [List.length_cons, vfsPathMax]
    omega
  -- the root has no children, so the name is free
  have h0 : addr ([] ++ [leaf]) = 0 := by
    refine (hi.toTree.name_free_iff hi.rootDir leaf).mp fun l hl c hc => ?_
    rw [hi.root, hchild] at hl
    rw [hl.unique (show IsChain 0 _ 0 [] from rfl)] at hc
    exact absurd hc (by simp)
  rcases ramfsCreate_cases hi hpath false with
    ⟨q, leaf', hparse', -, -, ⟨hne, -⟩ | ⟨-, n', h', hk', hcases⟩⟩ | ⟨hnone, -⟩
  · rw [hparse] at hparse'
    rw [← Option.some.inj hparse'] at hne
    exact absurd h0 hne
  · obtain ⟨rfl, rfl⟩ := Prod.mk.inj (hk.unique hk')
    obtain ⟨-, hret⟩ := hcases.resolve_left fun hc => hn hc.1
    rw [hparse] at hparse'
    obtain ⟨rfl, hleaf'⟩ := List.append_inj' (Option.some.inj hparse') rfl
    obtain rfl := List.singleton_inj.mp hleaf'
    obtain ⟨fuel, hfuel⟩ := hk.exists_fuel
    have hnew : (s.created (addr []) leaf false n h).node n = _ := created_node_new hi hleaf hfuel hn
    have hold : (s.created (addr []) leaf false n h).node (addr []) = _ :=
      created_node_old hi hleaf hfuel hn hi.rootDir.1
    have hroot : (s.created (addr []) leaf false n h).root = addr [] := hi.root.symm
    have hstep : CallStep s (.create ('/' :: leaf) false) (s.created (addr []) leaf false n h) := by
      refine .create (r := .ok ()) ?_
      simpa only [vfsCreate, hpath, if_true] using hret
    refine ⟨s.created (addr []) leaf false n h, Function.update addr ([] ++ [leaf]) n, n,
      .step (.init hs) hstep, created_inv hi hi.rootDir h0 hleaf hfuel hn,
      Function.update_self .., hn, ?_, ?_, hparse, hpath, hframe⟩
    · rw [hroot, hold]
      simp
    · rw [hnew, hi.root, hchild]
  · exact absurd hi.rootDir (hnone [] leaf hparse)

end Ramfs

end Nyvela
