import Nyvela.Vfs

/-!
# Which paths name a node

The grammar of paths and the walk along the linked children, said without the parser,
and `ramfs_parent_of` with the two arrays of 64 bytes that it fills.
-/

namespace Nyvela

/-- `path` spells the components `cs`, each behind a slash. -/
structure Written (cs : List Name) (path : List Char) : Prop where
  ne_nil : cs ≠ []
  comps : ∀ c ∈ cs, 1 ≤ c.length ∧ c.length ≤ vfsNameMax ∧ '/' ∉ c
  eq : path = cs.flatMap ('/' :: ·)

theorem flatMap_slash (c : Name) (cs : List Name) :
    (c :: cs).flatMap ('/' :: ·) = '/' :: ['/'].intercalate (c :: cs) := by
  induction cs generalizing c with
  | nil => simp
  | cons d ds ih => rw [List.flatMap_cons, ih, List.intercalate_cons_cons, List.cons_append,
      List.append_assoc, List.singleton_append]

theorem nameOk_iff (c : Name) : NameOk c ↔ 1 ≤ c.length ∧ c.length ≤ vfsNameMax := by
  rw [NameOk, ← List.length_pos_iff]
  rfl

theorem Written.tail_splitOn {cs : List Name} {path : List Char} (h : Written cs path) :
    path.head? = some '/' ∧ path ≠ ['/'] ∧ path.tail.splitOn '/' = cs := by
  obtain ⟨hne, hcomps, rfl⟩ := h
  have hsplit := List.splitOn_intercalate '/' (fun c hc => (hcomps c hc).2.2) hne
  cases cs with
  | nil => exact absurd rfl hne
  | cons c cs =>
    rw [flatMap_slash]
    refine ⟨rfl, fun hroot => ?_, hsplit⟩
    -- `/` alone would have one empty component
    have hnil : ['/'].intercalate (c :: cs) = [] := by simpa using hroot
    rw [hnil] at hsplit
    have hc : c = [] := by simpa using (List.cons.inj hsplit).1.symm
    exact absurd (hcomps c (by simp)).1 (by simp [hc])

theorem Written.getLast_ne {cs : List Name} {path : List Char} (h : Written cs path) :
    path.getLast? ≠ some '/' := by
  obtain ⟨hne, hcomps, rfl⟩ := h
  cases cs using List.reverseRecOn with
  | nil => exact absurd rfl hne
  | append_singleton cs c =>
    obtain ⟨hpos, -, hslash⟩ := hcomps c (by simp)
    have hc : c ≠ [] := List.length_pos_iff.mp hpos
    rw [List.flatMap_append, List.flatMap_singleton, List.getLast?_append, List.getLast?_cons,
      List.getLast?_eq_getLast_of_ne_nil hc]
    simp only [Option.getD_some, Option.some_or, ne_eq, Option.some.injEq]
    exact fun he => hslash (he ▸ List.getLast_mem hc)

/-- The parser of paths accepts the root and what is written in components. -/
theorem parsePath_eq_some_iff (path : List Char) (cs : List Name) :
    parsePath path = some cs ↔ (path = ['/'] ∧ cs = []) ∨ Written cs path := by
  constructor
  · intro h
    unfold parsePath at h
    split_ifs at h with hhead hroot hall
    · exact Or.inl ⟨hroot, (Option.some.inj h).symm⟩
    · obtain rfl := Option.some.inj h
      obtain ⟨c, cs, hsplit⟩ := Ramfs.splitOn_eq_cons path.tail
      refine Or.inr ⟨by simp [hsplit], fun c hc => ?_, ?_⟩
      · obtain ⟨hpos, hle⟩ := (nameOk_iff c).mp (hall c hc)
        exact ⟨hpos, hle, Ramfs.not_mem_of_mem_splitOn hc⟩
      · rw [hsplit, flatMap_slash, ← hsplit, List.intercalate_splitOn]
        exact List.eq_cons_of_mem_head? (by simpa using hhead)
  · rintro (⟨rfl, rfl⟩ | h)
    · rfl
    · obtain ⟨hhead, hroot, hsplit⟩ := h.tail_splitOn
      have hall : ∀ c ∈ cs, NameOk c := fun c hc =>
        (nameOk_iff c).mpr ⟨(h.comps c hc).1, (h.comps c hc).2.1⟩
      rw [parsePath, if_neg (by simpa using hhead), if_neg hroot, hsplit, if_pos hall]

namespace Ramfs

/-- The node at the end of the components, each one looked for among the children of the
directory before it. -/
inductive Follows (s : Ramfs) : List Name → ℕ → Prop
  | root : Follows s [] s.root
  | child {cs : List Name} {d c : ℕ} {l : List ℕ} : Follows s cs d → (s.node d).isDir = true →
      IsChain 0 (fun c => (s.node c).sibling) (s.node d).child l → c ∈ l →
      Follows s (cs ++ [(s.node c).name]) c

theorem Tree.follows_iff {s : Ramfs} {addr : List Name → ℕ} (ht : s.Tree addr) {cs : List Name}
    {m : ℕ} : s.Follows cs m ↔ m ≠ 0 ∧ addr cs = m := by
  constructor
  · intro h
    induction h with
    | root => exact ⟨ht.root ▸ ht.rootDir.1, ht.root⟩
    | @child cs d c l _ hdir hchain hc ih =>
      obtain ⟨hd, rfl⟩ := ih
      obtain ⟨l', hchain', hmem⟩ := ht.children cs ⟨hd, hdir⟩
      rw [hchain.unique hchain'] at hc
      obtain ⟨hc0, a, rfl⟩ := (hmem c).mp hc
      rw [ht.name cs a hc0]
      exact ⟨hc0, rfl⟩
  · rintro ⟨hm, rfl⟩
    induction cs using List.reverseRecOn with
    | nil => exact ht.root ▸ .root
    | append_singleton cs a ih =>
      have hdir := ht.parent cs a hm
      obtain ⟨l, hchain, hmem⟩ := ht.children cs hdir
      have h := (ih hdir.1).child hdir.2 hchain ((hmem _).mpr ⟨hm, a, rfl⟩)
      rwa [ht.name cs a hm] at h

/-! ## The arrays -/

/-- What stands at the addresses from `comp` and from `leaf` on. -/
structure Buffers where
  comp : ℕ → Char
  leaf : ℕ → Char

/-- The string in an array of `VFS_NAME_MAX + 1` bytes. -/
def cString (b : ℕ → Char) : List Char :=
  ((List.range (vfsNameMax + 1)).map b).takeWhile (· ≠ '\x00')

/-- `src` up to its first zero, then zeros, `n` bytes in all. -/
def kstrncpy (dst src : ℕ → Char) (n : ℕ) : ℕ → Char := fun i =>
  if n ≤ i then dst i else if ∀ j ≤ i, src j ≠ '\x00' then src i else '\x00'

namespace Buffers

def setComp (b : Buffers) (i : ℕ) (c : Char) : Buffers :=
  { b with comp := Function.update b.comp i c }

/-- `kstrncpy(leaf_out, comp, VFS_NAME_MAX); leaf_out[VFS_NAME_MAX] = '\0'`. -/
def copyLeaf (b : Buffers) : Buffers :=
  { b with leaf := Function.update (kstrncpy b.leaf b.comp vfsNameMax) vfsNameMax '\x00' }

/-- Nothing behind the two arrays differs. -/
def SameBehind (b b' : Buffers) : Prop :=
  ∀ i, vfsNameMax + 1 ≤ i → b'.comp i = b.comp i ∧ b'.leaf i = b.leaf i

end Buffers

/-- `parentOfLoop` with `comp[0 .. clen)` in place of the component read so far. -/
def parentOfLoopIn (s : Ramfs) (fuel cur : ℕ) (b : Buffers) (clen : ℕ) :
    List Char → Option (ℕ × Buffers)
  | [] =>
    let b := b.setComp clen '\x00'
    some (if clen = 0 then (0, b) else (cur, b.copyLeaf))
  | c :: rest =>
    if c = '/' then
      let b := b.setComp clen '\x00'
      if clen = 0 then some (0, b)
      else
        (s.ramfsFindChild fuel cur (cString b.comp)).bind fun next =>
          if next = 0 ∨ (s.node next).isDir = false then some (0, b)
          else parentOfLoopIn s fuel next b 0 rest
    else if vfsNameMax ≤ clen then some (0, b)
    else parentOfLoopIn s fuel cur (b.setComp clen c) (clen + 1) rest

def ramfsParentOfIn (s : Ramfs) (fuel : ℕ) (b : Buffers) (path : List Char) :
    Option (ℕ × Buffers) :=
  if path.head? ≠ some '/' then some (0, b)
  else if path = ['/'] then some (0, { b with leaf := Function.update b.leaf 0 '\x00' })
  else s.parentOfLoopIn fuel s.root b 0 path.tail

def ramfsLookupIn (s : Ramfs) (fuel : ℕ) (b : Buffers) (path : List Char) :
    Option (ℕ × Buffers) :=
  if path.head? ≠ some '/' then some (0, b)
  else if path = ['/'] then some (s.root, b)
  else
    (s.ramfsParentOfIn fuel b path).bind fun (parent, b) =>
      if parent = 0 then some (0, b)
      else (s.ramfsFindChild fuel parent (cString b.leaf)).map fun n => (n, b)

/-- The array starts with the characters of `l`. -/
def Holds (b : ℕ → Char) (l : List Char) : Prop := ∀ i (h : i < l.length), b i = l[i]

theorem Holds.update {b : ℕ → Char} {l : List Char} (h : Holds b l) (c : Char) :
    Holds (Function.update b l.length c) (l ++ [c]) := by
  intro i hi
  rw [List.length_append, List.length_singleton] at hi
  by_cases heq : i = l.length
  · subst heq
    rw [Function.update_self, List.getElem_concat_length rfl]
  · rw [Function.update_of_ne heq, List.getElem_append_left (by omega)]
    exact h i (by omega)

theorem Holds.cString_eq {b : ℕ → Char} {l : List Char} (h : Holds b (l ++ ['\x00']))
    (hl : l.length ≤ vfsNameMax) (h0 : '\x00' ∉ l) : cString b = l := by
  have hsplit : (List.range (vfsNameMax + 1)).map b =
      l ++ '\x00' :: ((List.range (vfsNameMax + 1)).map b).drop (l.length + 1) := by
    have htake : ((List.range (vfsNameMax + 1)).map b).take (l.length + 1) = l ++ ['\x00'] := by
      apply List.ext_getElem
      · simp
        omega
      · intro i hi hi'
        simpa using h i hi'
    rw [← List.singleton_append, ← List.append_assoc, ← htake, List.take_append_drop]
  have hpos : ∀ c ∈ l, decide (c ≠ '\x00') = true := by
    intro c hc
    simpa using fun he : c = '\x00' => h0 (he ▸ hc)
  rw [cString, hsplit, List.takeWhile_append_of_pos hpos]
  simp

/-- The copied leaf is the component. -/
theorem Holds.kstrncpy {dst src : ℕ → Char} {l : List Char} (h : Holds src (l ++ ['\x00']))
    (hl : l.length ≤ vfsNameMax) (h0 : '\x00' ∉ l) :
    Holds (Function.update (Ramfs.kstrncpy dst src vfsNameMax) vfsNameMax '\x00')
      (l ++ ['\x00']) := by
  have hsrc : ∀ i (hi : i < l.length), src i = l[i] := fun i hi => by
    rw [h i (by simp; omega), List.getElem_append_left hi]
  have hend : src l.length = '\x00' := by
    rw [h l.length (by simp), List.getElem_concat_length rfl]
  intro i hi
  rw [List.length_append, List.length_singleton] at hi
  by_cases heq : i = l.length
  · subst heq
    rw [List.getElem_concat_length rfl]
    by_cases hfull : l.length = vfsNameMax
    · rw [hfull, Function.update_self]
    · rw [Function.update_of_ne hfull, Ramfs.kstrncpy, if_neg (by omega), if_neg]
      exact fun hall => hall _ le_rfl hend
  · have hlt : i < l.length := by omega
    have hall : ∀ j ≤ i, src j ≠ '\x00' := by
      intro j hj he
      rw [hsrc j (by omega)] at he
      exact h0 (he ▸ List.getElem_mem _)
    rw [Function.update_of_ne (by omega), Ramfs.kstrncpy, if_neg (by omega), if_pos hall,
      List.getElem_append_left hlt]
    exact hsrc i hlt

namespace Buffers

theorem SameBehind.refl (b : Buffers) : b.SameBehind b := fun _ _ => ⟨rfl, rfl⟩

theorem SameBehind.trans {b b' b'' : Buffers} (h : b.SameBehind b') (h' : b'.SameBehind b'') :
    b.SameBehind b'' := fun i hi =>
  ⟨(h' i hi).1.trans (h i hi).1, (h' i hi).2.trans (h i hi).2⟩

theorem sameBehind_setComp (b : Buffers) {i : ℕ} (hi : i ≤ vfsNameMax) (c : Char) :
    b.SameBehind (b.setComp i c) := fun j hj =>
  ⟨Function.update_of_ne (by omega) .., rfl⟩

theorem sameBehind_copyLeaf (b : Buffers) : b.SameBehind b.copyLeaf := fun j hj => by
  refine ⟨rfl, ?_⟩
  dsimp only [copyLeaf]
  rw [Function.update_of_ne (by omega), kstrncpy, if_pos (by omega)]

end Buffers

section buffers

variable {s : Ramfs} {addr : List Name → ℕ}

/-- The loop over the arrays returns what the loop over components does, with the leaf in
its array, and writes nothing behind either. -/
theorem Tree.parentOfLoopIn (ht : s.Tree addr) {p : List Name} (hp : s.DirAt addr p)
    {comp : Name} (hc : comp.length ≤ vfsNameMax) {rest : List Char} (h0 : '\x00' ∉ comp ++ rest)
    {b : Buffers} (hb : Holds b.comp comp) {r : ℕ × Name}
    (hr : Returns (fun fuel => s.parentOfLoop fuel (addr p) comp rest) r) :
    ∃ b', Returns (fun fuel => s.parentOfLoopIn fuel (addr p) b comp.length rest) (r.1, b') ∧
      b.SameBehind b' ∧ (r.1 ≠ 0 → cString b'.leaf = r.2) := by
  -- over the characters still to be read, for every directory, component and array
  induction rest generalizing p comp b with
  | nil =>
    have hcomp : '\x00' ∉ comp := by simpa using h0
    have hend := b.sameBehind_setComp hc '\x00'
    unfold Ramfs.parentOfLoop at hr
    obtain rfl := hr.unique (.const _)
    by_cases hnil : comp = []
    · subst hnil
      exact ⟨_, .const _, hend, fun h => absurd rfl h⟩
    · have hpos : comp.length ≠ 0 := by simpa using hnil
      refine ⟨_, (Returns.const _).congr fun fuel => ?_,
        hend.trans (Buffers.sameBehind_copyLeaf _), fun _ => ?_⟩
      · simp [Ramfs.parentOfLoopIn, hpos, hnil]
      · rw [if_neg hnil, List.take_of_length_le hc]
        exact ((hb.update '\x00').kstrncpy hc hcomp).cString_eq hc hcomp
  | cons c rest ih =>
    unfold Ramfs.parentOfLoop at hr
    unfold Ramfs.parentOfLoopIn
    by_cases hslash : c = '/'
    · subst hslash
      have hcomp : '\x00' ∉ comp := fun h => h0 (List.mem_append_left _ h)
      have hend := b.sameBehind_setComp hc '\x00'
      by_cases hnil : comp = []
      · subst hnil
        obtain rfl := hr.unique (.const _)
        exact ⟨_, .const _, hend, fun h => absurd rfl h⟩
      have hpos : comp.length ≠ 0 := by simpa using hnil
      have hstr : cString (b.setComp comp.length '\x00').comp = comp :=
        (hb.update '\x00').cString_eq hc hcomp
      simp only [if_true, hnil, hpos, if_false, hstr] at hr ⊢
      have hfind := ht.findChild hp.1 comp
      have hnext := hfind.of_bind hr
      by_cases hdir : s.DirAt addr (p ++ [comp])
      · have hyes : ¬(addr (p ++ [comp]) = 0 ∨ (s.node (addr (p ++ [comp]))).isDir = false) := by
          simpa [DirAt] using hdir
        simp only [hyes, if_false] at hnext
        obtain ⟨b', hb', hsame, hleaf⟩ := ih hdir (Nat.zero_le _)
          (fun h => h0 (by simp at h; simp [h])) (b := b.setComp comp.length '\x00')
          (fun i hi => absurd hi (Nat.not_lt_zero _)) hnext
        refine ⟨b', hfind.bind ?_, hend.trans hsame, hleaf⟩
        simpa only [hyes, if_false, List.length_nil] using hb'
      · have hno : addr (p ++ [comp]) = 0 ∨ (s.node (addr (p ++ [comp]))).isDir = false := by
          by_contra h
          simp only [not_or, Bool.not_eq_false] at h
          exact hdir h
        simp only [hno, if_true] at hnext
        obtain rfl := hnext.unique (.const _)
        refine ⟨_, hfind.bind ?_, hend, fun h => absurd rfl h⟩
        simpa only [hno, if_true] using Returns.const _
    · simp only [hslash, if_false] at hr ⊢
      by_cases hlong : vfsNameMax ≤ comp.length
      · simp only [hlong, if_true] at hr ⊢
        obtain rfl := hr.unique (.const _)
        exact ⟨_, .const _, .refl b, fun h => absurd rfl h⟩
      · simp only [hlong, if_false] at hr ⊢
        obtain ⟨b', hb', hsame, hleaf⟩ := ih hp
          (by rw [List.length_append, List.length_singleton]; omega : (comp ++ [c]).length ≤ _)
          (by simpa using h0) (b := b.setComp comp.length c) (hb.update c) hr
        refine ⟨b', ?_, (b.sameBehind_setComp (by omega) c).trans hsame, hleaf⟩
        simpa using hb'

theorem Tree.ramfsLookupIn (ht : s.Tree addr) {path : List Char} (h0 : '\x00' ∉ path)
    (b : Buffers) :
    ∃ b', Returns (fun fuel => s.ramfsLookupIn fuel b path) (resolve addr path, b') ∧
      b.SameBehind b' := by
  have hlookup := ht.ramfsLookup path
  unfold Ramfs.ramfsLookup at hlookup
  unfold Ramfs.ramfsLookupIn Ramfs.ramfsParentOfIn
  by_cases hhead : path.head? ≠ some '/'
  · simp only [if_pos hhead] at hlookup ⊢
    rw [hlookup.unique (.const 0)]
    exact ⟨b, .const _, .refl b⟩
  by_cases hroot : path = ['/']
  · simp only [if_neg hhead, if_pos hroot] at hlookup ⊢
    rw [hlookup.unique (.const s.root)]
    exact ⟨b, .const _, .refl b⟩
  obtain ⟨r, hr, -⟩ := ht.ramfsParentOf path
  have hnext := hr.of_bind (by simpa only [if_neg hhead, if_neg hroot] using hlookup)
  unfold Ramfs.ramfsParentOf at hr
  simp only [if_neg hhead, if_neg hroot, ← ht.root] at hr ⊢
  obtain ⟨b', hb', hsame, hleaf⟩ := ht.parentOfLoopIn ht.rootDir (Nat.zero_le _)
    (fun h => h0 (List.mem_of_mem_tail (by simpa using h))) (b := b)
    (fun i hi => absurd hi (Nat.not_lt_zero _)) hr
  refine ⟨b', hb'.bind ?_, hsame⟩
  by_cases hr0 : r.1 = 0
  · simp only [if_pos hr0] at hnext ⊢
    rw [hnext.unique (.const 0)]
    exact .const _
  · simp only [if_neg hr0, hleaf hr0] at hnext ⊢
    exact hnext.map fun n => (n, b')

end buffers

/-! ## Resolution -/

theorem Tree.resolve_iff {s : Ramfs} {addr : List Name → ℕ} (ht : s.Tree addr) {path : List Char}
    (hroot : path ≠ ['/']) (m : ℕ) :
    m ≠ 0 ∧ resolve addr path = m ↔ ∃ cs, Written cs path ∧ s.Follows cs m := by
  constructor
  · rintro ⟨hm, hres⟩
    unfold resolve at hres
    cases hparse : parsePath path with
    | none =>
      rw [hparse] at hres
      exact absurd hres.symm hm
    | some cs =>
      rw [hparse] at hres
      have hw := ((parsePath_eq_some_iff path cs).mp hparse).resolve_left fun h => hroot h.1
      exact ⟨cs, hw, ht.follows_iff.mpr ⟨hm, hres⟩⟩
  · rintro ⟨cs, hw, hf⟩
    obtain ⟨hm, haddr⟩ := ht.follows_iff.mp hf
    refine ⟨hm, ?_⟩
    rw [resolve, (parsePath_eq_some_iff path cs).mpr (Or.inr hw)]
    exact haddr

/-- `/` is the root. Any other string names a node exactly when it is written in components and
they lead there; a relative path, an empty or over-long component and a slash at the end name
none. Whatever the arrays held before, nothing behind their 64 bytes is written. -/
theorem lookup_accepts_grammar {s : Ramfs} {addr : List Name → ℕ} (ht : s.Tree addr)
    (path : List Char) (h0 : '\x00' ∉ path) (b : Buffers) :
    ∃ n b', Returns (fun fuel => s.ramfsLookup fuel path) n ∧
      Returns (fun fuel => s.ramfsLookupIn fuel b path) (n, b') ∧ b.SameBehind b' ∧
      (path = ['/'] → n = s.root) ∧
      (path ≠ ['/'] → ∀ m, m ≠ 0 ∧ n = m ↔ ∃ cs, Written cs path ∧ s.Follows cs m) ∧
      (path.head? ≠ some '/' → n = 0) ∧
      (path ≠ ['/'] → path.getLast? = some '/' → n = 0) ∧
      (path ≠ ['/'] → ∀ c ∈ path.tail.splitOn '/', c = [] ∨ vfsNameMax < c.length → n = 0) := by
  obtain ⟨b', hb', hsame⟩ := ht.ramfsLookupIn h0 b
  refine ⟨_, b', ht.ramfsLookup path, hb', hsame, ?_, ht.resolve_iff, ?_, ?_, ?_⟩
  · rintro rfl
    exact ht.root
  · intro hhead
    rw [resolve, parsePath, if_pos hhead]
    rfl
  · intro hroot hlast
    by_contra hne
    obtain ⟨cs, hw, -⟩ := (ht.resolve_iff hroot _).mp ⟨hne, rfl⟩
    exact hw.getLast_ne hlast
  · intro hroot c hc hbad
    by_contra hne
    obtain ⟨cs, hw, -⟩ := (ht.resolve_iff hroot _).mp ⟨hne, rfl⟩
    rw [hw.tail_splitOn.2.2] at hc
    obtain ⟨hpos, hle, -⟩ := hw.comps c hc
    rcases hbad with rfl | hlong
    · exact absurd hpos (by simp)
    · omega

theorem lookup_accepts_grammar_fresh : ∃ (s : Ramfs) (addr : List Name → ℕ), s.Tree addr ∧
    ∃ (n : ℕ) (b' : Buffers), Returns (fun fuel => s.ramfsLookup fuel "/a//b".toList) n ∧
      Returns (fun fuel => s.ramfsLookupIn fuel ⟨fun _ => 'x', fun _ => 'x'⟩ "/a//b".toList)
        (n, b') ∧ n = 0 ∧ b'.comp 64 = 'x' := by
  obtain ⟨s, hs⟩ := exists_init
  obtain ⟨addr, hi, -⟩ := inv_init hs
  obtain ⟨n, b', hn, hb', hsame, -, -, -, -, hbad⟩ := lookup_accepts_grammar hi.toTree
    "/a//b".toList (by decide) ⟨fun _ => 'x', fun _ => 'x'⟩
  exact ⟨s, addr, hi.toTree, n, b', hn, hb', hbad (by decide) [] (by decide) (Or.inl rfl),
    (hsame 64 le_rfl).1⟩

end Ramfs

end Nyvela
