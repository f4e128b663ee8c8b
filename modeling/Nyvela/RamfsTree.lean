import Mathlib.Data.List.Induction
import Nyvela.FileMap

/-!
# The directory tree

`addr` gives the node of each path, `0` where there is none. The linked lists of
the nodes agree with it, so looking up a path is applying `addr` to its components.
-/

namespace Nyvela

namespace Ramfs

def DirAt (s : Ramfs) (addr : List Name → ℕ) (p : List Name) : Prop :=
  addr p ≠ 0 ∧ (s.node (addr p)).isDir = true

instance (s : Ramfs) (addr : List Name → ℕ) (p : List Name) : Decidable (s.DirAt addr p) :=
  inferInstanceAs (Decidable (_ ∧ _))

structure Tree (s : Ramfs) (addr : List Name → ℕ) : Prop where
  root : addr [] = s.root
  rootDir : s.DirAt addr []
  inj : ∀ p q, addr p = addr q → addr p ≠ 0 → p = q
  name : ∀ p a, addr (p ++ [a]) ≠ 0 → (s.node (addr (p ++ [a]))).name = a
  parent : ∀ p a, addr (p ++ [a]) ≠ 0 → s.DirAt addr p
  children : ∀ p, s.DirAt addr p →
    ∃ l, IsChain 0 (fun c => (s.node c).sibling) (s.node (addr p)).child l ∧
      ∀ c, c ∈ l ↔ c ≠ 0 ∧ ∃ a, c = addr (p ++ [a])

/-- The names are those of path components, only directories have children, and the tree is not
infinitely deep. -/
structure Shaped (s : Ramfs) (addr : List Name → ℕ) : Prop where
  names : ∀ p a, addr (p ++ [a]) ≠ 0 → NameOk a ∧ '/' ∉ a
  leaf : ∀ p, addr p ≠ 0 → (s.node (addr p)).isDir = false → (s.node (addr p)).child = 0
  deep : ∃ k, ∀ p, addr p ≠ 0 → p.length ≤ k

/-! ## Looking up -/

theorem findChildLoop_returns {s : Ramfs} {c : ℕ} {l : List ℕ} (name : Name)
    (h : IsChain 0 (fun c => (s.node c).sibling) c l) :
    ∃ r, Returns (fun fuel => s.findChildLoop name fuel c) r ∧
      ((r ∈ l ∧ (s.node r).name = name) ∨ (r = 0 ∧ ∀ d ∈ l, (s.node d).name ≠ name)) := by
  induction l generalizing c with
  | nil =>
    obtain rfl : c = 0 := h
    refine ⟨0, .succ (fun fuel => ?_) (.const 0), Or.inr ⟨rfl, by simp⟩⟩
    simp [findChildLoop]
  | cons d l ih =>
    obtain ⟨rfl, h0, hrest⟩ := h
    by_cases hn : (s.node c).name = name
    · refine ⟨c, .succ (fun fuel => ?_) (.const c), Or.inl ⟨by simp, hn⟩⟩
      simp [findChildLoop, h0, hn]
    · obtain ⟨r, hr, hspec⟩ := ih hrest
      refine ⟨r, .succ (fun fuel => ?_) hr, ?_⟩
      · simp [findChildLoop, h0, hn]
      · rcases hspec with ⟨hmem, hname⟩ | ⟨hr0, hnone⟩
        · exact Or.inl ⟨by simp [hmem], hname⟩
        · exact Or.inr ⟨hr0, by simpa [hn] using hnone⟩

theorem Tree.findChild {s : Ramfs} {addr : List Name → ℕ} (ht : s.Tree addr) {p : List Name}
    (hp : addr p ≠ 0) (a : Name) :
    Returns (fun fuel => s.ramfsFindChild fuel (addr p) a) (addr (p ++ [a])) := by
  unfold ramfsFindChild
  cases hd : (s.node (addr p)).isDir with
  | false =>
    have h0 : addr (p ++ [a]) = 0 := by
      by_contra hne
      exact absurd (ht.parent p a hne).2 (by simp [hd])
    simpa [h0] using Returns.const 0
  | true =>
    obtain ⟨l, hchain, hmem⟩ := ht.children p ⟨hp, hd⟩
    obtain ⟨r, hr, hspec⟩ := findChildLoop_returns a hchain
    have heq : r = addr (p ++ [a]) := by
      rcases hspec with ⟨hrl, hname⟩ | ⟨rfl, hnone⟩
      · obtain ⟨h0, b, rfl⟩ := (hmem r).mp hrl
        rw [← ht.name p b h0, hname]
      · by_contra hne
        have hne' : addr (p ++ [a]) ≠ 0 := fun h => hne h.symm
        exact hnone _ ((hmem _).mpr ⟨hne', a, rfl⟩) (ht.name p a hne')
    simpa [hp, heq] using hr

theorem Tree.dirAt_of_append {s : Ramfs} {addr : List Name → ℕ} (ht : s.Tree addr)
    {p q : List Name} (h : s.DirAt addr (p ++ q)) : s.DirAt addr p := by
  induction q using List.reverseRecOn with
  | nil => simpa using h
  | append_singleton q a ih =>
    rw [← List.append_assoc] at h
    exact ih (ht.parent _ a h.1)

/-- What `ramfs_parent_of` finds when `cs` are the components behind the directory `p`. -/
def ParentIs (s : Ramfs) (addr : List Name → ℕ) (p cs : List Name) (r : ℕ × Name) : Prop :=
  if (∀ c ∈ cs, NameOk c) ∧ s.DirAt addr (p ++ cs.dropLast) then
    r = (addr (p ++ cs.dropLast), cs.getLastD [])
  else r.1 = 0

theorem splitOn_eq_cons (l : List Char) : ∃ c cs, l.splitOn '/' = c :: cs := by
  cases h : l.splitOn '/' with
  | nil => exact absurd h (List.splitOn_ne_nil _ _)
  | cons c cs => exact ⟨c, cs, rfl⟩

theorem not_mem_of_mem_splitOn {l c : List Char} (h : c ∈ l.splitOn '/') : '/' ∉ c := by
  induction l generalizing c with
  | nil =>
    obtain rfl : c = [] := by simpa using h
    simp
  | cons x l ih =>
    obtain ⟨d, ds, hsplit⟩ := splitOn_eq_cons l
    rw [hsplit] at ih
    rw [List.splitOn_cons_eq_if_modifyHead, hsplit] at h
    by_cases hx : x = '/'
    · rcases List.mem_cons.mp (by simpa [hx] using h : c ∈ [] :: d :: ds) with rfl | hc
      · simp
      · exact ih hc
    · rcases List.mem_cons.mp (by simpa [hx] using h : c ∈ (x :: d) :: ds) with rfl | hc
      · simpa [Ne.symm hx] using ih (c := d) (by simp)
      · exact ih (List.mem_cons_of_mem _ hc)

theorem parsePath_no_slash {path : List Char} {p : List Name} (h : parsePath path = some p) :
    ∀ a ∈ p, '/' ∉ a := by
  unfold parsePath at h
  split_ifs at h
  · obtain rfl := Option.some.inj h
    simp
  · obtain rfl := Option.some.inj h
    exact fun a => not_mem_of_mem_splitOn

theorem Tree.parentOfLoop {s : Ramfs} {addr : List Name → ℕ} (ht : s.Tree addr) {p : List Name}
    (hp : s.DirAt addr p) (comp : Name) (hc : comp.length ≤ vfsNameMax) (rest : List Char) :
    ∃ r, Returns (fun fuel => s.parentOfLoop fuel (addr p) comp rest) r ∧
      s.ParentIs addr p ((rest.splitOn '/').modifyHead (comp ++ ·)) r := by
  induction rest generalizing p comp with
  | nil =>
    by_cases hnil : comp = []
    · refine ⟨(0, []), (Returns.const _).congr fun fuel => ?_, ?_⟩
      · simp [Ramfs.parentOfLoop, hnil]
      · simp [ParentIs, hnil, NameOk]
    · refine ⟨(addr p, comp), (Returns.const _).congr fun fuel => ?_, ?_⟩
      · simp [Ramfs.parentOfLoop, hnil, List.take_of_length_le hc]
      · simp [ParentIs, hnil, NameOk, hc, hp]
  | cons c rest ih =>
    obtain ⟨d, ds, hsplit⟩ := splitOn_eq_cons rest
    unfold Ramfs.parentOfLoop
    rw [List.splitOn_cons_eq_if_modifyHead, hsplit]
    by_cases hslash : c = '/'
    · simp only [hslash, beq_self_eq_true, if_true, List.modifyHead_cons, List.append_nil]
      by_cases hnil : comp = []
      · exact ⟨(0, []), by simpa [hnil] using Returns.const _, by simp [ParentIs, hnil, NameOk]⟩
      · simp only [hnil, if_false]
        have hfind := ht.findChild hp.1 comp
        by_cases hdir : s.DirAt addr (p ++ [comp])
        · obtain ⟨r, hr, hspec⟩ := ih hdir [] (Nat.zero_le _)
          refine ⟨r, hfind.bind ?_, ?_⟩
          · simpa [hdir.1, hdir.2] using hr
          · simpa [ParentIs, hsplit, NameOk, hnil, hc] using hspec
        · refine ⟨(0, []), hfind.bind ?_, ?_⟩
          · have hno : addr (p ++ [comp]) = 0 ∨ (s.node (addr (p ++ [comp]))).isDir = false := by
              by_contra h
              simp only [not_or, Bool.not_eq_false] at h
              exact hdir h
            simpa only [if_pos hno] using Returns.const _
          · rw [ParentIs, if_neg]
            rintro ⟨-, h⟩
            have h' : s.DirAt addr (p ++ [comp] ++ (d :: ds).dropLast) := by simpa using h
            exact hdir (ht.dirAt_of_append h')
    · simp only [hslash, beq_iff_eq, if_false, List.modifyHead_cons]
      by_cases hlong : vfsNameMax ≤ comp.length
      · refine ⟨(0, []), by simpa [hlong] using Returns.const _, ?_⟩
        rw [ParentIs, if_neg]
        rintro ⟨h, -⟩
        have := (h (comp ++ c :: d) (by simp)).2
        simp only [List.length_append, List.length_cons] at this
        omega
      · obtain ⟨r, hr, hspec⟩ := ih hp (comp ++ [c]) (by simp; omega)
        refine ⟨r, by simpa only [hlong, if_false] using hr, ?_⟩
        simpa [hsplit] using hspec

/-- The directory part of a path is found exactly when it is a directory. -/
theorem Tree.ramfsParentOf {s : Ramfs} {addr : List Name → ℕ} (ht : s.Tree addr)
    (path : List Char) :
    ∃ r, Returns (fun fuel => s.ramfsParentOf fuel path) r ∧
      ((∃ q, parsePath path = some (q ++ [r.2]) ∧ NameOk r.2 ∧ s.DirAt addr q ∧ r.1 = addr q) ∨
        (r.1 = 0 ∧ ∀ q a, parsePath path = some (q ++ [a]) → ¬s.DirAt addr q)) := by
  unfold Ramfs.ramfsParentOf parsePath
  by_cases hhead : path.head? ≠ some '/'
  · exact ⟨(0, []), by simpa [hhead] using Returns.const _, Or.inr ⟨rfl, by simp [hhead]⟩⟩
  by_cases hroot : path = ['/']
  · refine ⟨(0, []), by simpa [hroot] using Returns.const _, Or.inr ⟨rfl, ?_⟩⟩
    simp [hroot]
  simp only [hhead, hroot, if_false]
  obtain ⟨c, cs, hsplit⟩ := splitOn_eq_cons path.tail
  obtain ⟨r, hr, hspec⟩ := ht.parentOfLoop ht.rootDir [] (Nat.zero_le _) path.tail
  refine ⟨r, by simpa only [ht.root] using hr, ?_⟩
  simp only [hsplit, List.modifyHead_cons, List.nil_append, ParentIs] at hspec
  have hlast : (c :: cs).dropLast ++ [(c :: cs).getLastD []] = c :: cs := by
    rw [List.getLastD_cons, ← List.getLast_eq_getLastD]
    exact List.dropLast_append_getLast (by simp)
  rw [hsplit]
  split_ifs at hspec with hok
  · have hname : NameOk ((c :: cs).getLastD []) := by
      apply hok.1
      rw [← hlast]
      simp
    refine Or.inl ⟨(c :: cs).dropLast, ?_, ?_, hok.2, ?_⟩
    · rw [hspec, hlast, if_pos hok.1]
    · rw [hspec]
      exact hname
    · rw [hspec]
  · refine Or.inr ⟨hspec, fun q a heq hdir => hok ?_⟩
    split_ifs at heq with hall
    obtain heq := Option.some.inj heq
    refine ⟨hall, ?_⟩
    rw [heq, List.dropLast_concat]
    exact hdir

/-- The node of a path, `0` when it has none. -/
def resolve (addr : List Name → ℕ) (path : List Char) : ℕ := (parsePath path).elim 0 addr

theorem Tree.ramfsLookup {s : Ramfs} {addr : List Name → ℕ} (ht : s.Tree addr)
    (path : List Char) :
    Returns (fun fuel => s.ramfsLookup fuel path) (resolve addr path) := by
  unfold Ramfs.ramfsLookup
  by_cases hhead : path.head? ≠ some '/'
  · have h0 : resolve addr path = 0 := by simp [resolve, parsePath, hhead]
    simpa [h0, hhead] using Returns.const 0
  by_cases hroot : path = ['/']
  · have h0 : resolve addr path = s.root := by simp [resolve, parsePath, hroot, ht.root]
    rw [h0]
    simpa [hroot] using Returns.const s.root
  simp only [hhead, hroot, if_false]
  obtain ⟨r, hr, ⟨q, hparse, -, hdir, hrq⟩ | ⟨hr0, hnone⟩⟩ := ht.ramfsParentOf path
  · refine hr.bind ?_
    rw [resolve, hparse]
    simpa [hrq, hdir.1] using ht.findChild hdir.1 r.2
  · have h0 : resolve addr path = 0 := by
      unfold resolve
      cases hparse : parsePath path with
      | none => rfl
      | some p =>
        cases p using List.reverseRecOn with
        | nil => simp [parsePath, hhead, hroot] at hparse
        | append_singleton q a =>
          by_contra hne
          exact hnone q a hparse (ht.parent q a hne)
    refine hr.bind ?_
    simpa [hr0, h0] using Returns.const 0

/-! ## Storage -/

/-- The tree, its nodes on the heap, and the pages of its files in frames of their own. -/
structure Inv (s : Ramfs) (addr : List Name → ℕ) : Prop extends Tree s addr where
  heap : s.heap.Inv
  live : ∀ p, addr p ≠ 0 → s.heap.live (addr p) = some 168
  count_le : ∀ p, addr p ≠ 0 → (s.node (addr p)).pageCount ≤ ramfsPagesPerFile
  size_le : ∀ p, addr p ≠ 0 → (s.node (addr p)).size ≤ (s.node (addr p)).pageCount * 4096
  page : ∀ p i, addr p ≠ 0 → i < (s.node (addr p)).pageCount →
    ∃ f, 0 < f ∧ (s.node (addr p)).pages i = f * 4096 ∧
      s.heap.heap.pmm.bitmap.test f = false
  apart : ∀ p q i j, addr p ≠ 0 → addr q ≠ 0 → i < (s.node (addr p)).pageCount →
    j < (s.node (addr q)).pageCount →
    (s.node (addr p)).pages i = (s.node (addr q)).pages j → p = q ∧ i = j

/-- Byte `k` of the pages of a file. -/
def byteAt (s : Ramfs) (f k : ℕ) : BitVec 8 := s.mem ((s.node f).pages (k / 4096) + k % 4096)

def content (s : Ramfs) (f : ℕ) : List (BitVec 8) := (List.range (s.node f).size).map (s.byteAt f)

def entryAt (s : Ramfs) (addr : List Name → ℕ) (p : List Name) : Option Entry :=
  if addr p = 0 then none
  else if (s.node (addr p)).isDir then some .dir
  else some (.file (s.content (addr p)))

/-! ## Creating -/

/-- The new node and its parent are the only ones that change. -/
theorem link_node {s : Ramfs} {parent n c : ℕ} (hne : n ≠ parent) :
    (s.link parent n).node c =
      if c = parent then { s.node parent with child := n }
      else if c = n then { s.node n with sibling := (s.node parent).child }
      else s.node c := by
  simp only [link, setNode, Function.update_apply, hne.symm, if_false]

section create

variable {s : Ramfs} {addr : List Name → ℕ} {q : List Name} {leaf : Name} {isDir : Bool}
  {fuel n : ℕ} {h : HeapState}

/-- The state after a successful `ramfs_create`. -/
def created (s : Ramfs) (parent : ℕ) (leaf : Name) (isDir : Bool) (n : ℕ) (h : HeapState) :
    Ramfs :=
  link (setNode { s with heap := h } n
    ⟨leaf.take vfsNameMax, isDir, 0, 0, 0, fun _ => 0, 0⟩) parent n

theorem created_node (hne : n ≠ addr q) (hleaf : leaf.length ≤ vfsNameMax) (c : ℕ) :
    (s.created (addr q) leaf isDir n h).node c =
      if c = addr q then { s.node (addr q) with child := n }
      else if c = n then ⟨leaf, isDir, 0, 0, (s.node (addr q)).child, fun _ => 0, 0⟩
      else s.node c := by
  rw [created, link_node hne]
  simp only [setNode, Function.update_of_ne hne.symm, Function.update_self,
    List.take_of_length_le hleaf]
  split_ifs with h1 h2
  · rfl
  · rfl
  · rw [Function.update_of_ne h2]

variable (hi : s.Inv addr) (hq : s.DirAt addr q) (h0 : addr (q ++ [leaf]) = 0)
  (hleaf : NameOk leaf) (hk : s.heap.kmalloc fuel 168 = some (n, h)) (hn : n ≠ 0)

include hi hk hn in
theorem created_fresh (p : List Name) : addr p ≠ n := by
  rintro rfl
  obtain ⟨-, -, ⟨hzero, -⟩ | ⟨-, hnone, -⟩⟩ := HeapState.kmalloc_client hi.heap hk
  · exact hn hzero
  · exact absurd ((hi.live p hn).symm.trans hnone) (by simp)

include hi hk hn hleaf in
theorem created_node_new : (s.created (addr q) leaf isDir n h).node n =
    ⟨leaf, isDir, 0, 0, (s.node (addr q)).child, fun _ => 0, 0⟩ := by
  have hne := (created_fresh hi hk hn q).symm
  rw [created_node hne hleaf.2, if_neg hne, if_pos rfl]

include hi hk hn hleaf in
/-- An old node keeps everything but, if it is the directory, its first child. -/
theorem created_node_old {p : List Name} (hp : addr p ≠ 0) :
    (s.created (addr q) leaf isDir n h).node (addr p) =
      { s.node (addr p) with child := if p = q then n else (s.node (addr p)).child } := by
  rw [created_node (created_fresh hi hk hn q).symm hleaf.2]
  by_cases hpq : p = q
  · simp [hpq]
  · have hne : addr p ≠ addr q := fun he => hpq (hi.inj p q he hp)
    simp [hpq, hne, created_fresh hi hk hn p]

include hi h0 hleaf hk hn in
theorem created_dirAt {p : List Name} (hp : s.DirAt addr p) :
    (s.created (addr q) leaf isDir n h).DirAt (Function.update addr (q ++ [leaf]) n) p := by
  have hpq : p ≠ q ++ [leaf] := fun he => hp.1 (he ▸ h0)
  rw [DirAt, Function.update_of_ne hpq, created_node_old hi hleaf hk hn hp.1]
  exact hp

include hi hk hn hleaf in
/-- Old children stay linked as they were. -/
theorem created_chain {p : List Name} {l : List ℕ} {c : ℕ}
    (hl : IsChain 0 (fun c => (s.node c).sibling) c l)
    (hmem : ∀ c, c ∈ l ↔ c ≠ 0 ∧ ∃ a, c = addr (p ++ [a])) :
    IsChain 0 (fun c => ((s.created (addr q) leaf isDir n h).node c).sibling) c l := by
  apply hl.congr
  intro c hc
  obtain ⟨hne, a, rfl⟩ := (hmem c).mp hc
  simp only [created_node_old hi hleaf hk hn hne]

include hi hq h0 hleaf hk hn in
theorem created_children (p : List Name)
    (hp : (s.created (addr q) leaf isDir n h).DirAt (Function.update addr (q ++ [leaf]) n) p) :
    ∃ l, IsChain 0 (fun c => ((s.created (addr q) leaf isDir n h).node c).sibling)
        ((s.created (addr q) leaf isDir n h).node
          (Function.update addr (q ++ [leaf]) n p)).child l ∧
      ∀ c, c ∈ l ↔ c ≠ 0 ∧ ∃ a, c = Function.update addr (q ++ [leaf]) n (p ++ [a]) := by
  by_cases hnew : p = q ++ [leaf]
  · -- the new node has no children yet
    subst hnew
    refine ⟨[], ?_, fun c => ?_⟩
    · rw [Function.update_self, created_node_new hi hleaf hk hn]
      rfl
    · simp only [List.not_mem_nil, false_iff, not_and, not_exists]
      intro hc a hca
      rw [Function.update_of_ne (by simp)] at hca
      exact (hi.parent _ a (hca ▸ hc)).1 h0
  obtain ⟨hp0, hpd⟩ := hp
  rw [Function.update_of_ne hnew] at hp0 hpd ⊢
  rw [created_node_old hi hleaf hk hn hp0] at hpd ⊢
  obtain ⟨l, hl, hmem⟩ := hi.children p ⟨hp0, hpd⟩
  by_cases hpq : p = q
  · subst hpq
    have hsib : ((s.created (addr p) leaf isDir n h).node n).sibling = (s.node (addr p)).child := by
      rw [created_node_new hi hleaf hk hn]
    refine ⟨n :: l, ?_, fun c => ?_⟩
    · refine ⟨if_pos rfl, hn, ?_⟩
      simp only [hsib]
      exact created_chain hi hleaf hk hn hl hmem
    · rw [List.mem_cons, hmem c]
      constructor
      · rintro (rfl | ⟨hc, a, rfl⟩)
        · exact ⟨hn, leaf, by rw [Function.update_self]⟩
        · refine ⟨hc, a, ?_⟩
          rw [Function.update_of_ne]
          intro he
          exact hc (he ▸ h0)
      · rintro ⟨hc, a, rfl⟩
        rw [Function.update_apply] at hc ⊢
        split_ifs at hc ⊢ with h1
        · exact Or.inl rfl
        · exact Or.inr ⟨hc, a, rfl⟩
  · refine ⟨l, ?_, fun c => ?_⟩
    · simp only [if_neg hpq]
      exact created_chain hi hleaf hk hn hl hmem
    · have hsame : ∀ a, Function.update addr (q ++ [leaf]) n (p ++ [a]) = addr (p ++ [a]) := by
        intro a
        apply Function.update_of_ne
        intro he
        exact hpq (List.append_inj_left' he rfl)
      simp only [hmem c, hsame]

include hi hq h0 hleaf hk hn in
theorem created_tree :
    (s.created (addr q) leaf isDir n h).Tree (Function.update addr (q ++ [leaf]) n) := by
  constructor
  case root => rw [Function.update_of_ne (by simp)]; exact hi.root
  case rootDir => exact created_dirAt hi h0 hleaf hk hn hi.rootDir
  case inj =>
    intro p p' heq hne
    rw [Function.update_apply, Function.update_apply] at heq
    rw [Function.update_apply] at hne
    split_ifs at heq hne with h1 h2 h2
    · rw [h1, h2]
    · exact absurd heq.symm (created_fresh hi hk hn p')
    · exact absurd heq (created_fresh hi hk hn p)
    · exact hi.inj p p' heq hne
  case name =>
    intro p a hne
    rw [Function.update_apply] at hne ⊢
    split_ifs at hne ⊢ with h1
    · rw [created_node_new hi hleaf hk hn]
      exact (List.singleton_inj.mp (List.append_inj_right' h1 rfl)).symm
    · rw [created_node_old hi hleaf hk hn hne]
      exact hi.name p a hne
  case parent =>
    intro p a hne
    rw [Function.update_apply] at hne
    split_ifs at hne with h1
    · rw [List.append_inj_left' h1 rfl]
      exact created_dirAt hi h0 hleaf hk hn hq
    · exact created_dirAt hi h0 hleaf hk hn (hi.parent p a hne)
  case children => exact created_children hi hq h0 hleaf hk hn

include hi hq h0 hleaf hk hn in
theorem created_inv :
    (s.created (addr q) leaf isDir n h).Inv (Function.update addr (q ++ [leaf]) n) := by
  obtain ⟨hh, -, hlive⟩ := HeapState.kmalloc_client hi.heap hk
  obtain ⟨-, -, hlive⟩ := hlive.resolve_left fun hc => hn hc.1
  have hnew : (s.created (addr q) leaf isDir n h).node n = _ := created_node_new hi hleaf hk hn
  refine ⟨created_tree hi hq h0 hleaf hk hn, hh, ?_, ?_, ?_, ?_, ?_⟩
  · intro p hp
    change h.live _ = _
    rw [Function.update_apply] at hp ⊢
    split_ifs at hp ⊢ with h1
    · rw [hlive, Function.update_self]
    · rw [hlive, Function.update_of_ne (created_fresh hi hk hn p)]
      exact hi.live p hp
  · intro p hp
    rw [Function.update_apply] at hp ⊢
    split_ifs at hp ⊢ with h1
    · rw [hnew]
      exact Nat.zero_le _
    · rw [created_node_old hi hleaf hk hn hp]
      exact hi.count_le p hp
  · intro p hp
    rw [Function.update_apply] at hp ⊢
    split_ifs at hp ⊢ with h1
    · rw [hnew]
      exact Nat.zero_le _
    · rw [created_node_old hi hleaf hk hn hp]
      exact hi.size_le p hp
  · intro p i hp hpi
    rw [Function.update_apply] at hp hpi ⊢
    split_ifs at hp hpi ⊢ with h1
    · rw [hnew] at hpi
      exact absurd hpi (Nat.not_lt_zero _)
    · rw [created_node_old hi hleaf hk hn hp] at hpi ⊢
      obtain ⟨f, hf, hpage, hused⟩ := hi.page p i hp hpi
      exact ⟨f, hf, hpage, HeapState.kmalloc_used hk hused⟩
  · intro p p' i j hp hp' hpi hpj heq
    rw [Function.update_apply] at hp hpi hp' hpj heq
    rw [Function.update_apply] at heq
    split_ifs at hp hpi hp' hpj heq with h1 h2 h2
    · rw [hnew] at hpi
      exact absurd hpi (Nat.not_lt_zero _)
    · rw [hnew] at hpi
      exact absurd hpi (Nat.not_lt_zero _)
    · rw [hnew] at hpj
      exact absurd hpj (Nat.not_lt_zero _)
    · rw [created_node_old hi hleaf hk hn hp] at hpi heq
      rw [created_node_old hi hleaf hk hn hp'] at hpj heq
      exact hi.apart p p' i j hp hp' hpi hpj heq

include hi hq hleaf hk hn in
theorem created_shaped (hs : s.Shaped addr) (hslash : '/' ∉ leaf) :
    (s.created (addr q) leaf isDir n h).Shaped (Function.update addr (q ++ [leaf]) n) := by
  constructor
  case names =>
    intro p a hne
    rw [Function.update_apply] at hne
    split_ifs at hne with h1
    · obtain rfl : a = leaf := List.singleton_inj.mp (List.append_inj_right' h1 rfl)
      exact ⟨hleaf, hslash⟩
    · exact hs.names p a hne
  case leaf =>
    intro p hp
    rw [Function.update_apply] at hp ⊢
    split_ifs at hp ⊢ with h1
    · rw [created_node_new hi hleaf hk hn]
      exact fun _ => rfl
    · rw [created_node_old hi hleaf hk hn hp]
      intro hfile
      have hpq : p ≠ q := by
        rintro rfl
        exact absurd (hq.2.symm.trans hfile) (by decide)
      rw [if_neg hpq]
      exact hs.leaf p hp hfile
  case deep =>
    obtain ⟨k, hdeep⟩ := hs.deep
    refine ⟨max k (q.length + 1), fun p hp => ?_⟩
    rw [Function.update_apply] at hp
    split_ifs at hp with h1
    · rw [h1, List.length_append]
      exact le_max_right ..
    · exact (hdeep p hp).trans (le_max_left ..)

include hi hleaf hk hn in
theorem created_entryAt :
    (s.created (addr q) leaf isDir n h).entryAt (Function.update addr (q ++ [leaf]) n) =
      Function.update (s.entryAt addr) (q ++ [leaf])
        (some (if isDir then .dir else .file [])) := by
  obtain ⟨-, hmem, -⟩ := HeapState.kmalloc_client hi.heap hk
  funext p
  unfold entryAt
  by_cases hp : p = q ++ [leaf]
  · rw [hp, Function.update_self, Function.update_self, if_neg hn, content,
      created_node_new hi hleaf hk hn]
    cases isDir <;> rfl
  · rw [Function.update_of_ne hp, Function.update_of_ne hp]
    by_cases h0p : addr p = 0
    · rw [if_pos h0p, if_pos h0p]
    · have hold : (s.created (addr q) leaf isDir n h).node (addr p) = _ :=
        created_node_old hi hleaf hk hn h0p
      have hcontent : (s.created (addr q) leaf isDir n h).content (addr p) =
          s.content (addr p) := by
        unfold content byteAt
        rw [hold]
        change List.map (fun k => h.heap.mem _) _ = _
        rw [hmem]
        rfl
      rw [if_neg h0p, if_neg h0p, hcontent, hold]

end create

end Ramfs

end Nyvela
