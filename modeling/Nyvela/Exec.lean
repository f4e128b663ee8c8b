import Nyvela.SpaceConservation
import Nyvela.ThreadTable
import Nyvela.UserMemory
import Nyvela.Vfs

/-!
# Starting a program (`sys_exec` in `src/syscall/syscall.c`)

Threads, files and page tables over one heap and one memory. The call runs with interrupts
off up to the point where the child may run. The kernel reaches the pages of a file at
their physical addresses, in the address space of the child too; the image is written
where that address space maps it. `none` is the halted kernel, or a loop that was given
too little fuel.
-/

namespace Nyvela

structure Kernel where
  threads : Threads
  root : ℕ
  node : ℕ → RamfsNode
  codePageCount : ℕ
  mmapEntries : List E820Entry

/-- Page `i` of the 16 pages at `PROG_BASE`. -/
def progPage (i : ℕ) : Word := BitVec.ofNat 64 (progBase + i * 4096)

namespace Vmm

/-- `kvmunmap_and_free_at` for the pages `0` to `n - 1`. -/
def unmapProgPages (cr3 : Word) : ℕ → Vmm → Option Vmm
  | 0, v => some v
  | n + 1, v =>
    (unmapProgPages cr3 n v).bind fun v =>
      (v.kvmunmapAndFreeAt cr3 (progPage n)).map Prod.snd

/-- Zeroed frames at the pages `0` to `n - 1`. An `error` is the page that `kpalloc` had no frame
for. -/
def mapProgPages (cr3 : Word) : ℕ → Vmm → Option (Except ℕ Unit × Vmm)
  | 0, v => some (.ok (), v)
  | n + 1, v =>
    (mapProgPages cr3 n v).bind fun
      | (.error i, v) => some (.error i, v)
      | (.ok _, v) =>
        let (phys, v) := v.kpalloc
        if phys = 0 then some (.error n, v)
        else ((v.setMem (v.mem.zeroFrame (Pte.frame phys))).kvmmapAt cr3 (progPage n) phys
          0x07).map fun v => (.ok (), v)

/-- `memcpy` to `dest` in the address space `cr3`. A page fault in kernel mode halts. -/
def writeAt (cr3 dest : Word) : List (BitVec 8) → Vmm → Option Vmm
  | [], v => some v
  | b :: l, v =>
    (v.translate cr3 dest).bind fun q => writeAt cr3 (dest + 1) l (v.setMem (v.mem.store q b))

end Vmm

namespace Ramfs

/-- `readLoop` with its buffer in the address space `cr3`. -/
def readLoopAt (s : Ramfs) (f : ℕ) (cr3 buf : Word) (offset len : ℕ) :
    ℕ → ℕ → Vmm → Option (ℕ × Vmm)
  | 0, _, _ => none
  | fuel + 1, done, v =>
    if done < len then
      let off := offset + done
      let chunk := chunkAt off (len - done)
      if (s.node f).pageCount ≤ off / 4096 then some (done, v)
      else
        (Vmm.writeAt cr3 (buf + BitVec.ofNat 64 done)
          (v.mem.read ((s.node f).pages (off / 4096) + off % 4096) chunk) v).bind fun v =>
            readLoopAt s f cr3 buf offset len fuel (done + chunk) v
    else some (done, v)

end Ramfs

namespace Kernel

def vmm (k : Kernel) : Vmm :=
  ⟨k.threads.heap.heap.pmm, k.threads.heap.heap.mem, k.codePageCount, k.mmapEntries⟩

def setVmm (k : Kernel) (v : Vmm) : Kernel :=
  { k with threads := { k.threads with heap := (k.threads.heap.setPmm v.pmm).setMem v.mem } }

def setThreads (k : Kernel) (s : Threads) : Kernel := { k with threads := s }

def ramfs (k : Kernel) : Ramfs := ⟨k.threads.heap, k.root, k.node⟩

/-- `child->context->cr3`. -/
def cr3Of (k : Kernel) (child : ℕ) : Word :=
  (k.threads.context (k.threads.thread child).context).cr3

/-- The address space `cr3` is the one that is loaded. -/
def execReap (k : Kernel) (cr3 : Word) (child : ℕ) : Option Kernel :=
  let k := k.setThreads (k.threads.removeEntry child)
  (k.vmm.kvmmFreeUserPml4 cr3 (k.cr3Of child)).bind fun v =>
    let k := k.setVmm v
    (k.threads.freeThread child).map k.setThreads

end Kernel

end Nyvela
