import Nyvela.Vmm

/-!
# System calls on user memory (`src/syscall/syscall.c`)

The calls that edit the address space of their caller, `cr3` being the one in
the context of `current_thread`. A result of `0` is a refusal.
-/

namespace Nyvela

/-- `addrspace_t`. -/
structure AddrSpace where
  cr3 : Word
  id : ℕ

def userMmioMin : ℕ := 0x40000000
def userMmioMax : ℕ := 0x80000000
def syscallMaxBuf : ℕ := 2048
def syscallMaxPath : ℕ := 256

/-- `[0x400000, 0x700000)`, with the sum in 64 bits. -/
def userRangeOk (addr len : Word) : Bool :=
  if syscallMaxBuf + syscallMaxPath < len.toNat then false
  else if addr.toNat < userAreaBase then false
  else if len = 0 then decide (addr.toNat < userAreaEnd)
  else if addr + len < addr then false
  else if userAreaEnd < (addr + len).toNat then false
  else true

namespace Vmm

def userPageOk (v : Vmm) (virt : Word) : Bool :=
  userRangeOk virt 0 && !v.isSharedUserPage virt.toNat

/-- `BITMAP` is at `0x10000`. -/
def kisNormalRam (v : Vmm) (phys : Word) : Bool :=
  if phys &&& 0xFFF ≠ 0 then false
  else if phys.toNat < v.pmm.kernelEnd then false
  else if 0x10000 ≤ phys.toNat ∧ phys.toNat < 0x10000 + (v.pmm.frameCount + 7) / 8 then false
  else v.mmapEntries.any fun e =>
    e.usable && decide (e.baseAddr ≤ phys.toNat) && decide (phys.toNat < e.endAddr)

/-- The first page of the heap area that no user entry maps, `0` if there is none. -/
def userFindFreePage (v : Vmm) (cr3 : Word) : Word :=
  let taken (virt : Word) : Bool :=
    match v.kgetPteAddrAt cr3 virt with
    | none => false
    | some (pt, i) => Pte.present (v.mem.entry pt i) && Pte.user (v.mem.entry pt i)
  let pages := (List.range ((userAreaEnd - userHeapBase) / 4096)).map fun i =>
    BitVec.ofNat 64 (userHeapBase + i * 4096)
  (pages.find? fun virt => !taken virt).getD 0

def sysAllocPage (v : Vmm) (cr3 : Word) : Option (Word × Vmm) :=
  let virt := v.userFindFreePage cr3
  if virt = 0 then some (0, v)
  else
    let (page, v) := v.kpalloc
    if page = 0 then some (0, v)
    else (v.kvmmapAt cr3 virt page 0x07).map fun v => (virt, v)

def sysMmap (v : Vmm) (cr3 virt phys flags : Word) : Option (Word × Vmm) :=
  if (virt ||| phys) &&& 0xFFF ≠ 0 ∨ v.kisNormalRam phys = false then some (0, v)
  else if v.userPageOk virt = false then some (0, v)
  else (v.kvmmapAt cr3 virt phys (flags &&& 0x07)).map fun v => (1, v)

def sysUnmmap (v : Vmm) (cr3 virt : Word) : Word × Vmm :=
  if virt = 0 ∨ v.userPageOk virt = false then (0, v) else (1, (v.kvmunmapAt cr3 virt).2)

/-- The body that `sys_free_page` and `sys_unmmap_and_free` share. -/
def unmapAndFreeUserPage (v : Vmm) (cr3 virt : Word) : Option (Word × Vmm) :=
  if virt = 0 ∨ v.userPageOk virt = false then some (0, v)
  else (v.kvmunmapAndFreeAt cr3 virt).map fun r => (if r.1 then 1 else 0, r.2)

def sysFreePage (v : Vmm) (cr3 virt : Word) : Option (Word × Vmm) := v.unmapAndFreeUserPage cr3 virt

def sysUnmmapAndFree (v : Vmm) (cr3 virt : Word) : Option (Word × Vmm) :=
  v.unmapAndFreeUserPage cr3 virt

/-- `as` is the address space found for the caller's `as_id`. -/
def sysAsMap (v : Vmm) (cr3 : Word) (as : Option AddrSpace) (virt src flags : Word) :
    Option (Word × Vmm) :=
  match as with
  | none => some (0, v)
  | some as =>
    if as.cr3 = cr3 then some (0, v)
    else
      let phys := v.kgetPhysPageAddrAt cr3 src
      if phys = 0 then some (0, v)
      else (v.kvmmapAt as.cr3 virt phys (flags &&& 0x07)).map fun v => (1, v)

/-- The address of page `i` of a range. -/
def pageAddr (start : Word) (i : ℕ) : Word := start + BitVec.ofNat 64 i * 0x1000

/-- The second loop of `sys_map_mmio`, up to page `n`. -/
def mapMmioPages (cr3 virt phys : Word) : ℕ → Vmm → Option Vmm
  | 0, v => some v
  | n + 1, v =>
    (mapMmioPages cr3 virt phys n v).bind fun v =>
      v.kvmmapAt cr3 (pageAddr virt n) (pageAddr phys n) 0x1F

/-- All sums are in 64 bits. -/
def sysMapMmio (v : Vmm) (cr3 virt phys pages : Word) : Option (Word × Vmm) :=
  let mapped (i : ℕ) : Bool :=
    match v.kgetPteAddrAt cr3 (pageAddr virt i) with
    | none => false
    | some (pt, j) => Pte.present (v.mem.entry pt j)
  if pages = 0 ∨ 256 < pages.toNat ∨ (virt ||| phys) &&& 0xFFF ≠ 0 then some (0, v)
  else if virt.toNat < userMmioMin ∨ virt + pages * 0x1000 < virt ∨
      userMmioMax < (virt + pages * 0x1000).toNat ∨ phys + pages * 0x1000 < phys then some (0, v)
  else if (List.range pages.toNat).any fun i => v.kisNormalRam (pageAddr phys i) || mapped i then
    some (0, v)
  else (mapMmioPages cr3 virt phys pages.toNat v).map fun v => (virt, v)

/-! ## What the processor sees -/

/-- The physical address of a virtual one, when every level is present. -/
def translate (v : Vmm) (cr3 virt : Word) : Option ℕ :=
  match v.kgetPteAddrAt cr3 virt with
  | none => none
  | some (pt, i) =>
    if Pte.present (v.mem.entry pt i) then
      some (Pte.frame (v.mem.entry pt i) * 4096 + virt.toNat % 4096)
    else none

/-- The frame that user code reaches at `virt`: present and open at every level. -/
def userFrame (v : Vmm) (cr3 virt : Word) : Option ℕ :=
  let open_ (e : Word) : Bool := Pte.present e && Pte.user e
  let pml4e := v.mem.entry (Pte.frame cr3) (Pte.pml4Index virt)
  let pdpte := v.mem.entry (Pte.frame pml4e) (Pte.pdptIndex virt)
  let pde := v.mem.entry (Pte.frame pdpte) (Pte.pdIndex virt)
  let pte := v.mem.entry (Pte.frame pde) (Pte.ptIndex virt)
  if open_ pml4e && open_ pdpte && open_ pde && open_ pte then some (Pte.frame pte) else none

end Vmm

/-! ## Runs -/

/-- The machine with the address spaces that are in use: the kernel's own and those made
by `kvmm_create_user_pml4`. -/
structure VmState where
  vmm : Vmm
  roots : List Word

/-- Each call with the address space it is made in. -/
inductive VmOp
  | kvmmCreateUserPml4 (cr3 : Word)
  | sysAllocPage (cr3 : Word)
  | sysMmap (cr3 virt phys flags : Word)
  | sysUnmmap (cr3 virt : Word)
  | sysFreePage (cr3 virt : Word)
  | sysUnmmapAndFree (cr3 virt : Word)

inductive VmState.Step : VmState → VmOp → VmState → Prop
  | kvmmCreateUserPml4 {s : VmState} {cr3 pml4 : Word} {v : Vmm} :
    cr3 ∈ s.roots → s.vmm.kvmmCreateUserPml4 cr3 = some (pml4, v) →
    Step s (.kvmmCreateUserPml4 cr3) ⟨v, if pml4 = 0 then s.roots else pml4 :: s.roots⟩
  | sysAllocPage {s : VmState} {cr3 r : Word} {v : Vmm} :
    cr3 ∈ s.roots → s.vmm.sysAllocPage cr3 = some (r, v) →
    Step s (.sysAllocPage cr3) ⟨v, s.roots⟩
  | sysMmap {s : VmState} {cr3 virt phys flags r : Word} {v : Vmm} :
    cr3 ∈ s.roots → s.vmm.sysMmap cr3 virt phys flags = some (r, v) →
    Step s (.sysMmap cr3 virt phys flags) ⟨v, s.roots⟩
  | sysUnmmap {s : VmState} {cr3 virt : Word} :
    cr3 ∈ s.roots → Step s (.sysUnmmap cr3 virt) ⟨(s.vmm.sysUnmmap cr3 virt).2, s.roots⟩
  | sysFreePage {s : VmState} {cr3 virt r : Word} {v : Vmm} :
    cr3 ∈ s.roots → s.vmm.sysFreePage cr3 virt = some (r, v) →
    Step s (.sysFreePage cr3 virt) ⟨v, s.roots⟩
  | sysUnmmapAndFree {s : VmState} {cr3 virt r : Word} {v : Vmm} :
    cr3 ∈ s.roots → s.vmm.sysUnmmapAndFree cr3 virt = some (r, v) →
    Step s (.sysUnmmapAndFree cr3 virt) ⟨v, s.roots⟩

/-- The three tables that the boot loader leaves at `cr3`, in memory below the end of the
kernel image, which `kpmm_init` has marked used. -/
structure Vmm.Booted (v : Vmm) (cr3 : Word) : Prop where
  aligned : Pte.addr cr3 = cr3
  pml4e : Pte.present (v.mem.entry (Pte.frame cr3) 0) = true
  pdpte : Pte.present (v.mem.entry (Pte.frame (v.mem.entry (Pte.frame cr3) 0)) 0) = true
  distinct : [Pte.frame cr3, Pte.frame (v.mem.entry (Pte.frame cr3) 0),
    Pte.frame (v.mem.entry (Pte.frame (v.mem.entry (Pte.frame cr3) 0)) 0)].Nodup
  below : ∀ f ∈ [Pte.frame cr3, Pte.frame (v.mem.entry (Pte.frame cr3) 0),
    Pte.frame (v.mem.entry (Pte.frame (v.mem.entry (Pte.frame cr3) 0)) 0)], f < v.pmm.firstPage
  reserved : ∀ f < v.pmm.firstPage, v.pmm.bitmap.test f = false

/-- From a successful `kvmm_init` on. -/
def vmSystem : System VmState VmOp where
  init s := ∃ (v : Vmm) (cr3 : Word), v.Booted cr3 ∧ v.kvmmInit cr3 = (true, s.vmm) ∧
    s.roots = [cr3]
  step := VmState.Step

end Nyvela
