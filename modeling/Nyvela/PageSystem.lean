import Nyvela.Lib.PageTree
import Nyvela.UserMemory

/-!
# Runs of everything that edits page tables

The calls of user programs and what the kernel does itself: its own mappings, the pages
of a new program, frames for the heap, for stacks and for files, and stores to memory.
Address spaces are created and none is freed.
-/

namespace Nyvela

open PageTree

/-- `addrspaces` is the kernel's table of the address spaces that `sys_as_create` has made, and
`kernel` records the frames that the kernel has taken for itself. -/
structure PageState extends VmState where
  addrspaces : List AddrSpace
  kernel : List ℕ

inductive PageOp
  | call (op : VmOp)
  | sysAsCreate (cr3 : Word)
  | sysAsMap (cr3 : Word) (id : ℕ) (virt src flags : Word)
  | sysMapMmio (cr3 virt phys pages : Word)
  | kvmmapAt (cr3 virt phys flags : Word)
  | kvmunmapAt (cr3 virt : Word)
  | mapPage (cr3 virt : Word)
  | take (f : ℕ)
  | give (f : ℕ)
  | store (f i : ℕ) (b : BitVec 8)

/-- The address space that a step copies. -/
def PageOp.source : PageOp → Option Word
  | .call (.kvmmCreateUserPml4 cr3) => some cr3
  | .sysAsCreate cr3 => some cr3
  | _ => none

/-- A call with which a program in `cr3` edits its window `[0x400000, 0x700000)`. -/
def VmOp.Window (cr3 : Word) : VmOp → Prop
  | .kvmmCreateUserPml4 _ => False
  | .sysAllocPage c => c = cr3
  | .sysMmap c _ _ _ => c = cr3
  | .sysUnmmap c _ => c = cr3
  | .sysFreePage c _ => c = cr3
  | .sysUnmmapAndFree c _ => c = cr3

namespace PageState

def setVmm (s : PageState) (v : Vmm) : PageState := { s with vmm := v }

def findAs (s : PageState) (id : ℕ) : Option AddrSpace := s.addrspaces.find? fun as => as.id = id

/-- A new address space is entered in the table. -/
def addSpace (s : PageState) (v : Vmm) (pml4 : Word) : PageState where
  vmm := v
  roots := pml4 :: s.roots
  addrspaces := s.addrspaces ++ [⟨pml4, s.addrspaces.length + 1⟩]
  kernel := s.kernel

/-- What `mapPage` does is in `kuserspace_init` and in `sys_exec`. In `take` any free frame
that an allocator could return goes to the kernel. -/
inductive Step : PageState → PageOp → PageState → Prop
  | call {s : PageState} {op : VmOp} {t : VmState} :
    VmState.Step s.toVmState op t → Step s (.call op) { s with toVmState := t }
  | sysAsCreate {s : PageState} {cr3 pml4 : Word} {v : Vmm} :
    cr3 ∈ s.roots → s.vmm.kvmmCreateUserPml4 cr3 = some (pml4, v) →
    Step s (.sysAsCreate cr3) (if pml4 = 0 then s.setVmm v else s.addSpace v pml4)
  | sysAsMap {s : PageState} {cr3 virt src flags r : Word} {id : ℕ} {v : Vmm} :
    cr3 ∈ s.roots → s.vmm.sysAsMap cr3 (s.findAs id) virt src flags = some (r, v) →
    Step s (.sysAsMap cr3 id virt src flags) (s.setVmm v)
  | sysMapMmio {s : PageState} {cr3 virt phys pages r : Word} {v : Vmm} :
    cr3 ∈ s.roots → s.vmm.sysMapMmio cr3 virt phys pages = some (r, v) →
    Step s (.sysMapMmio cr3 virt phys pages) (s.setVmm v)
  | kvmmapAt {s : PageState} {cr3 virt phys flags : Word} {v : Vmm} :
    cr3 ∈ s.roots → s.vmm.kvmmapAt cr3 virt phys flags = some v →
    Step s (.kvmmapAt cr3 virt phys flags) (s.setVmm v)
  | kvmunmapAt {s : PageState} {cr3 virt : Word} :
    cr3 ∈ s.roots → Step s (.kvmunmapAt cr3 virt) (s.setVmm (s.vmm.kvmunmapAt cr3 virt).2)
  | mapPage {s : PageState} {cr3 virt : Word} {v : Vmm} :
    cr3 ∈ s.roots → s.vmm.kpalloc.1 ≠ 0 →
    s.vmm.kpalloc.2.kvmmapAt cr3 virt s.vmm.kpalloc.1 0x07 = some v →
    Step s (.mapPage cr3 virt) (s.setVmm v)
  | take {s : PageState} {f : ℕ} : f ∈ s.vmm.pmm.allocatable →
    Step s (.take f) { s with
      vmm := { s.vmm with pmm := { s.vmm.pmm with bitmap := s.vmm.pmm.bitmap.clear f } }
      kernel := f :: s.kernel }
  | give {s : PageState} {f : ℕ} {v : Vmm} : f ∈ s.kernel →
    s.vmm.kpfree (Pte.ofFrame f) = some v →
    Step s (.give f) { s with vmm := v, kernel := s.kernel.erase f }
  | store {s : PageState} {f i : ℕ} {b : BitVec 8} : i < 4096 →
    Step s (.store f i b) (s.setVmm (s.vmm.setMem (s.vmm.mem.store (f * 4096 + i) b)))

/-- Frame `f` is a page table of some address space, or of the kernel. -/
def IsTable (s : PageState) (f : ℕ) : Prop :=
  ∃ r ∈ s.roots, ∃ p : List ℕ, (∀ i ∈ p, i < 512) ∧ p.length ≤ 3 ∧
    descend s.vmm.mem (Pte.frame r) p = some f

/-- The step frees no frame in use as a page table and stores to none. -/
def SparesTables (s : PageState) (op : PageOp) : Prop :=
  (∀ s', Step s op s' → ∀ f, s.IsTable f → s'.vmm.pmm.bitmap.test f = false) ∧
    ∀ f i b, op = .store f i b → ¬s.IsTable f

end PageState

/-- The tables of the boot loader map through the entries that `kvmm_init` follows. -/
structure Vmm.BootTables (v : Vmm) (cr3 : Word) : Prop extends v.Booted cr3 where
  pml4 : ∀ i < 512, i ≠ 0 → Pte.present (v.mem.entry (Pte.frame cr3) i) = false
  pdpt : ∀ i < 512, i ≠ 0 →
    Pte.present (v.mem.entry (Pte.frame (v.mem.entry (Pte.frame cr3) 0)) i) = false

/-- From a successful `kvmm_init` on. -/
def pageSystem : System PageState PageOp where
  init s := ∃ (v : Vmm) (cr3 : Word), v.BootTables cr3 ∧ v.kvmmInit cr3 = (true, s.vmm) ∧
    s.roots = [cr3] ∧ s.addrspaces = [] ∧ s.kernel = []
  step := PageState.Step

end Nyvela
