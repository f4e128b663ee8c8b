import Nyvela.Ramfs

/-!
# The file system as a map

What `vfs_create`, `vfs_write`, `vfs_read` and `vfs_size` are for: a map from
paths, as lists of components, to directories and byte strings. Nothing here
knows about nodes, pages or allocation.
-/

namespace Nyvela

def NameOk (c : Name) : Prop := c ≠ [] ∧ c.length ≤ vfsNameMax

instance (c : Name) : Decidable (NameOk c) := inferInstanceAs (Decidable (_ ∧ _))

/-- The components of an absolute path. -/
def parsePath (path : List Char) : Option (List Name) :=
  if path.head? ≠ some '/' then none
  else if path = ['/'] then some []
  else if ∀ c ∈ path.tail.splitOn '/', NameOk c then some (path.tail.splitOn '/')
  else none

/-- What a path can name. -/
inductive Entry
  | dir
  | file (content : List (BitVec 8))
  deriving DecidableEq

/-- `c` with `d` in place of the bytes from `offset` on. -/
def splice (c d : List (BitVec 8)) (offset : ℕ) : List (BitVec 8) :=
  c.take offset ++ d ++ c.drop (offset + d.length)

theorem splice_getElem? {b d : List (BitVec 8)} {offset k : ℕ} (h : offset ≤ b.length) :
    (splice b d offset)[k]? =
      if offset ≤ k ∧ k < offset + d.length then d[k - offset]? else b[k]? := by
  have hlen : (b.take offset).length = offset := by rw [List.length_take]; omega
  have hlen' : (b.take offset ++ d).length = offset + d.length := by
    rw [List.length_append, hlen]
  unfold splice
  by_cases h1 : k < offset
  · rw [List.append_assoc, List.getElem?_append_left (by omega), List.getElem?_take_of_lt h1,
      if_neg (by omega)]
  by_cases h2 : k < offset + d.length
  · rw [List.getElem?_append_left (by omega), List.getElem?_append_right (by omega), hlen,
      if_pos (by omega)]
  · rw [List.getElem?_append_right (by omega), hlen', List.getElem?_drop, if_neg (by omega)]
    congr 1
    omega

abbrev FileMap := List Name → Option Entry

namespace FileMap

def create (m : FileMap) (path : List Char) (isDir : Bool) : Except VfsErr Unit × FileMap :=
  match parsePath path with
  | none => (.error .badpath, m)
  | some p =>
    if p = [] ∨ m p.dropLast ≠ some .dir then (.error .badpath, m)
    else if m p ≠ none then (.error .exists_, m)
    else (.ok (), Function.update m p (some (if isDir then .dir else .file [])))

def find (m : FileMap) (path : List Char) : Option (List Name × Entry) :=
  (parsePath path).bind fun p => (m p).map fun e => (p, e)

/-- A write that succeeds puts `d` into the content at `offset`. -/
def write (m : FileMap) (path : List Char) (d : List (BitVec 8)) (offset : ℕ) :
    Except VfsErr ℕ × FileMap :=
  match m.find path with
  | none => (.error .notfound, m)
  | some (_, .dir) => (.error .isdir, m)
  | some (p, .file c) =>
    if d = [] then (.ok 0, m)
    else if c.length < offset then (.error .inval, m)
    else if vfsMaxFileSize < offset + d.length then (.error .nospace, m)
    else (.ok d.length, Function.update m p (some (.file (splice c d offset))))

/-- The bytes of the content from `offset` on, at most `len` of them. -/
def read (m : FileMap) (path : List Char) (len offset : ℕ) : Except VfsErr (List (BitVec 8)) :=
  match m.find path with
  | none => .error .notfound
  | some (_, .dir) => .error .isdir
  | some (_, .file c) => .ok ((c.drop offset).take len)

def size (m : FileMap) (path : List Char) : Except VfsErr ℕ :=
  match m.find path with
  | none => .error .notfound
  | some (_, .dir) => .error .isdir
  | some (_, .file c) => .ok c.length

end FileMap

end Nyvela
