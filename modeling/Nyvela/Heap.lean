import Nyvela.Pmm
import Nyvela.Lib.Chain
import Nyvela.Lib.Memory
import Nyvela.Lib.System

/-!
# The kernel heap (`src/mm/heap.c`)

A list of blocks cut from 4 KiB pages. A header `block_t` takes 24 bytes (a
size, a flag padded to eight bytes, a pointer) and stands right before its
payload, so the largest payload of a page is `4096 - 24 = 4072`. Addresses and
sizes are numbers, `0` for `NULL`: every size the allocator computes with has
passed the check against 4072, and a block never leaves its page.
-/

namespace Nyvela

/-- `block_t`. -/
structure Block where
  size : ℕ
  isUsed : Bool
  next : ℕ
  deriving DecidableEq

/-- The headers at their addresses, the payload bytes, and the frames. The list
`pages` only records what `kpalloc` gave to the heap; no function reads it. -/
structure Heap where
  current : ℕ
  hdr : ℕ → Block
  mem : Memory
  pmm : Pmm
  pages : List ℕ

namespace Heap

/-- `(size + 15) & ~15`. -/
def align (size : ℕ) : ℕ := (size + 15) / 16 * 16

def kmallocInit (h : Heap) : Bool × Heap :=
  let r := h.pmm.kpalloc
  if r.1 = 0 then (false, { h with pmm := r.2 })
  else (true, { h with
    pmm := r.2
    current := r.1.toNat
    hdr := Function.update h.hdr r.1.toNat ⟨4072, false, 0⟩
    pages := h.pages ++ [r.1.toNat] })

/-- Splice a fresh page in behind `block`, all of it one used block. -/
def grow (h : Heap) (block page : ℕ) (pmm : Pmm) : Heap :=
  let hdr := Function.update h.hdr page ⟨4072, true, (h.hdr block).next⟩
  { h with
    pmm := pmm
    hdr := Function.update hdr block { hdr block with next := page }
    pages := h.pages ++ [page] }

/-- Hand out the whole of `block`. -/
def take (h : Heap) (block : ℕ) : Heap :=
  { h with hdr := Function.update h.hdr block { h.hdr block with isUsed := true } }

/-- Hand out the first `aligned` bytes of `block` and head the rest as a block. -/
def split (h : Heap) (block aligned : ℕ) : Heap :=
  let rest := block + aligned + 24
  let hdr := Function.update h.hdr rest
    ⟨(h.hdr block).size - 24 - aligned, false, (h.hdr block).next⟩
  { h with
    hdr := Function.update hdr block
      { hdr block with size := aligned, next := rest, isUsed := true } }

/-- The walk over the list; `none` when the fuel ends before the list does. -/
def kmallocLoop (h : Heap) (aligned : ℕ) : ℕ → ℕ → Option (ℕ × Heap)
  | 0, _ => none
  | fuel + 1, block =>
    if block = 0 then some (0, h)
    else if (h.hdr block).isUsed then kmallocLoop h aligned fuel (h.hdr block).next
    else if (h.hdr block).size < aligned then
      let r := h.pmm.kpalloc
      if r.1 = 0 then some (0, { h with pmm := r.2 })
      else some (r.1.toNat + 24, h.grow block r.1.toNat r.2)
    else if (h.hdr block).size < aligned + 24 + 16 then some (block + 24, h.take block)
    else some (block + 24, h.split block aligned)

def kmalloc (h : Heap) (fuel size : ℕ) : Option (ℕ × Heap) :=
  if size = 0 ∨ 4072 ≤ size then some (0, h)
  else h.kmallocLoop (align size) fuel h.current

def kfree (h : Heap) (ptr : ℕ) : Heap :=
  if ptr = 0 then h
  else
    let block := ptr - 24
    { h with hdr := Function.update h.hdr block { h.hdr block with isUsed := false } }

def krealloc (h : Heap) (fuel ptr newSize : ℕ) : Option (ℕ × Heap) :=
  if ptr = 0 then h.kmalloc fuel newSize
  else if newSize = 0 then some (0, h.kfree ptr)
  else if 4072 ≤ newSize then some (0, h)
  else
    let oldSize := (h.hdr (ptr - 24)).size
    if align newSize ≤ oldSize then some (ptr, h)
    else
      match h.kmalloc fuel newSize with
      | none => none
      | some (newPtr, h') =>
        if newPtr = 0 then some (0, h')
        else some (newPtr, kfree { h' with mem := h'.mem.memcpy newPtr ptr oldSize } ptr)

end Heap

/-! ## Runs -/

/-- A heap together with the size asked for at each live pointer. -/
structure HeapState where
  heap : Heap
  live : ℕ → Option ℕ

inductive HeapOp
  | kmalloc (size : ℕ)
  | krealloc (ptr size : ℕ)
  | kfree (ptr : ℕ)
  | frames (bitmap : Bitmap)

/-- The pointer that an operation is called on. -/
def HeapOp.target : HeapOp → ℕ
  | .kmalloc _ => 0
  | .krealloc ptr _ => ptr
  | .kfree ptr => ptr
  | .frames _ => 0

namespace HeapState

def kmalloc (s : HeapState) (fuel size : ℕ) : Option (ℕ × HeapState) :=
  (s.heap.kmalloc fuel size).map fun r =>
    (r.1, ⟨r.2, if r.1 = 0 then s.live else Function.update s.live r.1 (some size)⟩)

def kfree (s : HeapState) (ptr : ℕ) : HeapState :=
  ⟨s.heap.kfree ptr, Function.update s.live ptr none⟩

/-- What a `krealloc(ptr, size)` that returned `q` leaves live. -/
def liveAfterRealloc (live : ℕ → Option ℕ) (ptr size q : ℕ) : ℕ → Option ℕ :=
  if q = 0 then if size = 0 then Function.update live ptr none else live
  else Function.update (Function.update live ptr none) q (some size)

def krealloc (s : HeapState) (fuel ptr size : ℕ) : Option (ℕ × HeapState) :=
  (s.heap.krealloc fuel ptr size).map fun r =>
    (r.1, ⟨r.2, liveAfterRealloc s.live ptr size r.1⟩)

/-- `kfree` and `krealloc` get `NULL` or a live pointer. Between two calls the rest
of the kernel may take and free frames in any way that leaves the heap its pages,
so any call of `kpalloc` may fail. -/
inductive Step : HeapState → HeapOp → HeapState → Prop
  | kmalloc {s s' : HeapState} {size fuel ptr : ℕ} :
    s.kmalloc fuel size = some (ptr, s') → Step s (.kmalloc size) s'
  | krealloc {s s' : HeapState} {ptr size fuel q : ℕ} :
    ptr = 0 ∨ (s.live ptr).isSome → s.krealloc fuel ptr size = some (q, s') →
    Step s (.krealloc ptr size) s'
  | kfree {s : HeapState} {ptr : ℕ} :
    ptr = 0 ∨ (s.live ptr).isSome → Step s (.kfree ptr) (s.kfree ptr)
  | frames {s : HeapState} {bitmap : Bitmap} :
    (∀ page ∈ s.heap.pages, bitmap.test (page / 4096) = false) →
    Step s (.frames bitmap)
      { s with heap := { s.heap with pmm := { s.heap.pmm with bitmap := bitmap } } }

end HeapState

/-- The heap from `kmalloc_init` on, over any memory and any frames. -/
def heapSystem : System HeapState HeapOp where
  init s := (∃ h : Heap, h.pages = [] ∧ h.kmallocInit = (true, s.heap)) ∧ s.live = fun _ => none
  step := HeapState.Step

end Nyvela
