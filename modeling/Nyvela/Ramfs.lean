import Nyvela.HeapClient
import Nyvela.Lib.Fuel

/-!
# The file system in memory (`src/fs/ramfs.c`)

A node is a heap block of 168 bytes, kept here as a record at its address. The
children of a directory are linked through `sibling`; the content of a file is
in up to eight pages from `kpalloc`, which the kernel reads and writes at their
physical addresses. A path or a name is the characters before the final zero.
-/

namespace Nyvela

abbrev Name := List Char

/-- `VFS_ERR_INVAL` to `VFS_ERR_BADPATH`, in the order of their codes `-1` to `-7`. -/
inductive VfsErr
  | inval | notfound | exists_ | notdir | isdir | nospace | badpath
  deriving DecidableEq

/-- The return values `-1` to `-7`. -/
def VfsErr.code : VfsErr → ℤ
  | .inval => -1
  | .notfound => -2
  | .exists_ => -3
  | .notdir => -4
  | .isdir => -5
  | .nospace => -6
  | .badpath => -7

def vfsNameMax : ℕ := 63
def vfsPathMax : ℕ := 256
def vfsMaxFileSize : ℕ := 8 * 4096
def ramfsPagesPerFile : ℕ := 8

/-- `ramfs_node_t`. -/
structure RamfsNode where
  name : Name
  isDir : Bool
  size : ℕ
  child : ℕ
  sibling : ℕ
  pages : ℕ → ℕ
  pageCount : ℕ

structure Ramfs where
  heap : HeapState
  root : ℕ
  node : ℕ → RamfsNode

/-- The next `k` calls of `kpalloc` succeed. -/
def Pmm.canTake : ℕ → Pmm → Bool
  | 0, _ => true
  | k + 1, p => decide (p.kpalloc.1 ≠ 0) && canTake k p.kpalloc.2

namespace Ramfs

def mem (s : Ramfs) : Memory := s.heap.heap.mem

def setNode (s : Ramfs) (n : ℕ) (v : RamfsNode) : Ramfs :=
  { s with node := Function.update s.node n v }

def ramfsAllocNode (s : Ramfs) (fuel : ℕ) (name : Name) (isDir : Bool) : Option (ℕ × Ramfs) :=
  (s.heap.kmalloc fuel 168).bind fun (n, h) =>
    if n = 0 then some (0, { s with heap := h })
    else some (n, { s with heap := h }.setNode n
      ⟨name.take vfsNameMax, isDir, 0, 0, 0, fun _ => 0, 0⟩)

def findChildLoop (s : Ramfs) (name : Name) : ℕ → ℕ → Option ℕ
  | 0, _ => none
  | fuel + 1, c =>
    if c = 0 then some 0
    else if (s.node c).name = name then some c
    else findChildLoop s name fuel (s.node c).sibling

def ramfsFindChild (s : Ramfs) (fuel dir : ℕ) (name : Name) : Option ℕ :=
  if dir = 0 ∨ (s.node dir).isDir = false then some 0
  else s.findChildLoop name fuel (s.node dir).child

/-- Both loops of `ramfs_parent_of`, character by character: `comp` is what the
inner one has read of the current component. -/
def parentOfLoop (s : Ramfs) (fuel cur : ℕ) (comp : Name) : List Char → Option (ℕ × Name)
  | [] => some (if comp = [] then (0, []) else (cur, comp.take vfsNameMax))
  | c :: rest =>
    if c = '/' then
      if comp = [] then some (0, [])
      else
        (s.ramfsFindChild fuel cur comp).bind fun next =>
          if next = 0 ∨ (s.node next).isDir = false then some (0, [])
          else parentOfLoop s fuel next [] rest
    else if vfsNameMax ≤ comp.length then some (0, [])
    else parentOfLoop s fuel cur (comp ++ [c]) rest

/-- The directory of a path and its last component, with `0` for `NULL`. -/
def ramfsParentOf (s : Ramfs) (fuel : ℕ) (path : List Char) : Option (ℕ × Name) :=
  if path.head? ≠ some '/' then some (0, [])
  else if path = ['/'] then some (0, [])
  else s.parentOfLoop fuel s.root [] path.tail

def ramfsLookup (s : Ramfs) (fuel : ℕ) (path : List Char) : Option ℕ :=
  if path.head? ≠ some '/' then some 0
  else if path = ['/'] then some s.root
  else
    (s.ramfsParentOf fuel path).bind fun r =>
      if r.1 = 0 then some 0 else s.ramfsFindChild fuel r.1 r.2

def ramfsInit (s : Ramfs) (fuel : ℕ) : Option (Bool × Ramfs) :=
  if s.root ≠ 0 then some (true, s)
  else
    (s.ramfsAllocNode fuel [] true).bind fun r =>
      some (decide (r.1 ≠ 0), { r.2 with root := r.1 })

/-- Put a new node at the head of its directory's children. -/
def link (s : Ramfs) (parent n : ℕ) : Ramfs :=
  let s := s.setNode n { s.node n with sibling := (s.node parent).child }
  s.setNode parent { s.node parent with child := n }

/-- The part of `ramfs_create` behind the call of `ramfs_parent_of`. -/
def createAt (s : Ramfs) (fuel parent : ℕ) (leaf : Name) (isDir : Bool) :
    Option (Except VfsErr Unit × Ramfs) :=
  if parent = 0 ∨ leaf = [] then some (.error .badpath, s)
  else if (s.node parent).isDir = false then some (.error .notdir, s)
  else
    (s.ramfsFindChild fuel parent leaf).bind fun c =>
      if c ≠ 0 then some (.error .exists_, s)
      else
        (s.ramfsAllocNode fuel leaf isDir).bind fun (n, s) =>
          if n = 0 then some (.error .nospace, s) else some (.ok (), s.link parent n)

def ramfsCreate (s : Ramfs) (fuel : ℕ) (path : List Char) (isDir : Bool) :
    Option (Except VfsErr Unit × Ramfs) :=
  if s.root = 0 ∨ path.head? ≠ some '/' ∨ path = ['/'] then some (.error .badpath, s)
  else if vfsPathMax < path.length then some (.error .badpath, s)
  else
    (s.ramfsParentOf fuel path).bind fun (parent, leaf) => s.createAt fuel parent leaf isDir

/-- A zeroed page at the end of a file's pages. -/
def addPage (s : Ramfs) (f page : ℕ) (pmm : Pmm) : Ramfs :=
  let h := (s.heap.setPmm pmm).setMem (s.mem.memset page 0 4096)
  { s with heap := h }.setNode f
    { s.node f with
      pages := Function.update (s.node f).pages (s.node f).pageCount page
      pageCount := (s.node f).pageCount + 1 }

def ramfsEnsurePage (f pageIdx : ℕ) : ℕ → Ramfs → Option (ℕ × Ramfs)
  | 0, _ => none
  | fuel + 1, s =>
    if (s.node f).pageCount ≤ pageIdx then
      if ramfsPagesPerFile ≤ (s.node f).pageCount then some (0, s)
      else
        let r := s.heap.heap.pmm.kpalloc
        if r.1 = 0 then some (0, { s with heap := s.heap.setPmm r.2 })
        else ramfsEnsurePage f pageIdx fuel (s.addPage f r.1.toNat r.2)
    else some ((s.node f).pages pageIdx, s)

/-- The number of bytes that a round of the read and write loops moves. -/
def chunkAt (off left : ℕ) : ℕ := min (4096 - off % 4096) left

def copyIn (s : Ramfs) (dest : ℕ) (l : List (BitVec 8)) : Ramfs :=
  { s with heap := s.heap.setMem (s.mem.write dest l) }

def writeLoop (f offset : ℕ) (src : List (BitVec 8)) :
    ℕ → Ramfs → ℕ → Option (Except VfsErr ℕ × Ramfs)
  | 0, _, _ => none
  | fuel + 1, s, written =>
    if written < src.length then
      let off := offset + written
      let chunk := chunkAt off (src.length - written)
      (ramfsEnsurePage f (off / 4096) fuel s).bind fun (page, s) =>
        if page = 0 then some (.error .nospace, s)
        else
          let s := s.copyIn (page + off % 4096) ((src.drop written).take chunk)
          writeLoop f offset src fuel s (written + chunk)
    else some (.ok written, s)

/-- The end of `ramfs_write`. -/
def growSize (s : Ramfs) (f last : ℕ) : Ramfs :=
  if (s.node f).size < last then s.setNode f { s.node f with size := last } else s

def ramfsWrite (s : Ramfs) (fuel : ℕ) (path : List Char) (buf : List (BitVec 8)) (offset : ℕ) :
    Option (Except VfsErr ℕ × Ramfs) :=
  if s.root = 0 then some (.error .inval, s)
  else
    (s.ramfsLookup fuel path).bind fun f =>
      if f = 0 then some (.error .notfound, s)
      else if (s.node f).isDir then some (.error .isdir, s)
      else if buf.length = 0 then some (.ok 0, s)
      else if (s.node f).size < offset then some (.error .inval, s)
      else if vfsMaxFileSize < (offset + buf.length) % 2 ^ 64 then some (.error .nospace, s)
      else
        (writeLoop f offset buf fuel s 0).bind fun
          | (.error e, s) => some (.error e, s)
          | (.ok written, s) => some (.ok written, s.growSize f (offset + written))

/-- `dst` is what the loop has copied out so far. -/
def readLoop (s : Ramfs) (f offset len : ℕ) :
    ℕ → List (BitVec 8) → Option (List (BitVec 8))
  | 0, _ => none
  | fuel + 1, dst =>
    if dst.length < len then
      let off := offset + dst.length
      let chunk := chunkAt off (len - dst.length)
      if (s.node f).pageCount ≤ off / 4096 then some dst
      else
        readLoop s f offset len fuel
          (dst ++ s.mem.read ((s.node f).pages (off / 4096) + off % 4096) chunk)
    else some dst

/-- The bytes that `ramfs_read` leaves in the buffer; it returns their number. -/
def ramfsRead (s : Ramfs) (fuel : ℕ) (path : List Char) (len offset : ℕ) :
    Option (Except VfsErr (List (BitVec 8))) :=
  if s.root = 0 then some (.error .inval)
  else
    (s.ramfsLookup fuel path).bind fun f =>
      if f = 0 then some (.error .notfound)
      else if (s.node f).isDir then some (.error .isdir)
      else if len = 0 then some (.ok [])
      else if (s.node f).size ≤ offset then some (.ok [])
      else
        let len :=
          if (s.node f).size < (offset + len) % 2 ^ 64 then (s.node f).size - offset else len
        (s.readLoop f offset len fuel []).map .ok

/-- `out` is what the loop has put in the buffer of `len` bytes so far. -/
def listLoop (s : Ramfs) (len : ℕ) : ℕ → ℕ → List Char → Option (Except VfsErr (List Char))
  | 0, _, _ => none
  | fuel + 1, c, out =>
    if c = 0 then some (.ok out)
    else if len < out.length + (s.node c).name.length + 1 + 1 then some (.error .nospace)
    else listLoop s len fuel (s.node c).sibling (out ++ (s.node c).name ++ ['\n'])

def ramfsList (s : Ramfs) (fuel : ℕ) (path : List Char) (len : ℕ) :
    Option (Except VfsErr (List Char)) :=
  if s.root = 0 ∨ len = 0 then some (.error .inval)
  else
    (s.ramfsLookup fuel path).bind fun d =>
      if d = 0 then some (.error .notfound)
      else if (s.node d).isDir = false then some (.error .notdir)
      else s.listLoop len fuel (s.node d).child []

def ramfsSize (s : Ramfs) (fuel : ℕ) (path : List Char) : Option (Except VfsErr ℕ) :=
  if s.root = 0 then some (.error .inval)
  else
    (s.ramfsLookup fuel path).bind fun f =>
      if f = 0 then some (.error .notfound)
      else if (s.node f).isDir then some (.error .isdir)
      else some (.ok (s.node f).size)

end Ramfs

end Nyvela
