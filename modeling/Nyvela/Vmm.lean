import Nyvela.Lib.Fuel
import Nyvela.Lib.PageMemory
import Nyvela.Lib.Pte
import Nyvela.Lib.System
import Nyvela.Pmm

/-!
# Virtual memory (`src/mm/vmm.c`)

Page tables are frames of physical memory, which the kernel reaches at their
physical addresses: below 1 GiB its own map is the identity. A table is named
by its frame. `cr3` stands for the register where the code calls `read_cr3`,
and `none` is the halted kernel.
-/

namespace Nyvela

/-- An entry of the memory map that the firmware reports. -/
structure E820Entry where
  baseAddr : ℕ
  lengthInBytes : ℕ
  usable : Bool

/-- A 64-bit sum. -/
def E820Entry.endAddr (e : E820Entry) : ℕ := (e.baseAddr + e.lengthInBytes) % 2 ^ 64

/-- The frames, physical memory, the size of the init image in pages, and the
memory map. -/
structure Vmm where
  pmm : Pmm
  mem : Memory
  codePageCount : ℕ
  mmapEntries : List E820Entry

def userCodeVirt : ℕ := 0x400000
def userHeapBase : ℕ := 0x410000
def userStackPage : ℕ := 0x44F000
def userStackTop : ℕ := 0x450000
def progBase : ℕ := 0x500000
def progStackTop : ℕ := 0x600000
def userAreaBase : ℕ := 0x400000
def userAreaEnd : ℕ := 0x700000

namespace Vmm

def setMem (v : Vmm) (mem : Memory) : Vmm := { v with mem := mem }

def setEntry (v : Vmm) (t i : ℕ) (e : Word) : Vmm := v.setMem (v.mem.setEntry t i e)

def orEntry (v : Vmm) (t i : ℕ) (flags : Word) : Vmm := v.setEntry t i (v.mem.entry t i ||| flags)

def kpalloc (v : Vmm) : Word × Vmm := (v.pmm.kpalloc.1, { v with pmm := v.pmm.kpalloc.2 })

def kpfree (v : Vmm) (page : Word) : Option Vmm :=
  (v.pmm.kpfree page).map fun p => { v with pmm := p }

/-! ## The identity map -/

def identityEntry (i j : ℕ) : Word := BitVec.ofNat 64 (i * 0x200000 + j * 0x1000) ||| 0x03

/-- The inner loop of `kvmm_init`, up to entry `n`. -/
def fillTable (pt i : ℕ) : ℕ → Memory → Memory
  | 0, m => m
  | n + 1, m => (fillTable pt i n m).setEntry pt n (identityEntry i n)

/-- The outer loop of `kvmm_init`, up to table `n`; `false` when `kpalloc` fails. -/
def initTables (pd : ℕ) : ℕ → Vmm → Bool × Vmm
  | 0, v => (true, v)
  | n + 1, v =>
    match initTables pd n v with
    | (false, v) => (false, v)
    | (true, v) =>
      let (pt, v) := v.kpalloc
      if pt = 0 then (false, v)
      else (true, (v.setMem (fillTable (Pte.frame pt) n 512 v.mem)).setEntry pd n (pt ||| 0x03))

def kvmmInit (v : Vmm) (cr3 : Word) : Bool × Vmm :=
  let pdpt := Pte.frame (v.mem.entry (Pte.frame cr3) 0)
  let pd := Pte.frame (v.mem.entry pdpt 0)
  initTables pd 512 v

/-! ## Walking and editing -/

/-- The table and index of the last-level entry of `virt`; `none` for `NULL`. -/
def kgetPteAddrAt (v : Vmm) (cr3 virt : Word) : Option (ℕ × ℕ) :=
  let pml4e := v.mem.entry (Pte.frame cr3) (Pte.pml4Index virt)
  if !Pte.present pml4e then none
  else
    let pdpte := v.mem.entry (Pte.frame pml4e) (Pte.pdptIndex virt)
    if !Pte.present pdpte then none
    else
      let pde := v.mem.entry (Pte.frame pdpte) (Pte.pdIndex virt)
      if !Pte.present pde then none else some (Pte.frame pde, Pte.ptIndex virt)

def kgetPhysPageAddrAt (v : Vmm) (cr3 virt : Word) : Word :=
  match v.kgetPteAddrAt cr3 virt with
  | none => 0
  | some (pt, i) => Pte.addr (v.mem.entry pt i)

def kvmunmapAt (v : Vmm) (cr3 virt : Word) : Bool × Vmm :=
  match v.kgetPteAddrAt cr3 virt with
  | none => (false, v)
  | some (pt, i) =>
    if !Pte.present (v.mem.entry pt i) then (false, v) else (true, v.setEntry pt i 0)

/-- The entry is not looked at before its frame is freed. -/
def kvmunmapAndFreeAt (v : Vmm) (cr3 virt : Word) : Option (Bool × Vmm) :=
  match v.kgetPteAddrAt cr3 virt with
  | none => some (false, v)
  | some (pt, i) =>
    (v.kpfree (Pte.addr (v.mem.entry pt i))).map fun v => (true, v.setEntry pt i 0)

/-- One level of `kvmmap_at`: the table that entry `i` of `t` leads to, made if missing. -/
def ensureTable (v : Vmm) (t i : ℕ) (tableFlags : Word) : Option (ℕ × Vmm) :=
  let e := v.mem.entry t i
  if Pte.present e then some (Pte.frame e, v)
  else
    let (page, v) := v.kpalloc
    if page = 0 then none
    else
      some (Pte.frame page,
        (v.setMem (v.mem.zeroFrame (Pte.frame page))).setEntry t i (page ||| tableFlags))

/-- It returns `true` whenever it returns. -/
def kvmmapAt (v : Vmm) (cr3 virt phys flags : Word) : Option Vmm :=
  let tableFlags : Word := if Pte.user flags then 0x07 else 0x03
  let pml4 := Pte.frame cr3
  (v.ensureTable pml4 (Pte.pml4Index virt) tableFlags).bind fun (pdpt, v) =>
    (v.ensureTable pdpt (Pte.pdptIndex virt) tableFlags).bind fun (pd, v) =>
      (v.ensureTable pd (Pte.pdIndex virt) tableFlags).bind fun (pt, v) =>
        let v :=
          if Pte.user flags then
            ((v.orEntry pml4 (Pte.pml4Index virt) 0x04).orEntry pdpt (Pte.pdptIndex virt)
              0x04).orEntry pd (Pte.pdIndex virt) 0x04
          else v
        some (v.setEntry pt (Pte.ptIndex virt) (Pte.addr phys ||| flags))

/-! ## Address spaces -/

/-- The first bound adds a number of pages to an address. -/
def isSharedUserPage (v : Vmm) (virt : ℕ) : Bool :=
  (decide (userCodeVirt ≤ virt) && decide (virt < userCodeVirt + v.codePageCount)) ||
    (decide (userStackPage ≤ virt) && decide (virt < userStackTop))

/-- What a step of `kvmm_create_user_pml4` does when `kpalloc` fails is the `error`
side: the state after the clean-up, itself `none` if `kpfree` halts. -/
abbrev Creating (α : Type) := Except (Option Vmm) α

def freeAll (pages : List Word) (v : Vmm) : Option Vmm := pages.foldlM kpfree v

def allocOr (v : Vmm) (cleanup : Vmm → Option Vmm) : Creating (Word × Vmm) :=
  if v.kpalloc.1 = 0 then .error (cleanup v.kpalloc.2) else .ok v.kpalloc

/-- `kpfree` of the frames of the entries `0` to `n - 1` of table `t` that `sel` picks. -/
def freeEntries (t : ℕ) (sel : ℕ → Word → Bool) : ℕ → Vmm → Option Vmm
  | 0, v => some v
  | n + 1, v =>
    (freeEntries t sel n v).bind fun v =>
      if sel n (v.mem.entry t n) then v.kpfree (Pte.addr (v.mem.entry t n)) else some v

/-- One round of the copy loops: entry `i` of the old table, for the address `virt`. -/
def copyEntry (old new virt i : ℕ) (v : Vmm) (cleanup : Vmm → Option Vmm) : Creating Vmm :=
  let e := v.mem.entry old i
  if !Pte.present e then .ok v
  else if v.isSharedUserPage virt then .ok (v.setEntry new i e)
  else if Pte.user e then
    (v.allocOr cleanup).bind fun (np, v) =>
      .ok ((v.setMem (v.mem.copyFrame (Pte.frame np) (Pte.frame e))).setEntry new i
        (Pte.addr np ||| (e &&& 0xFFF)))
  else .ok (v.setEntry new i e)

/-- The copy loop over the entries `0` to `n - 1` of a table that maps the addresses
from `base` on. When it fails at entry `i` it frees, with `cleanup i`, what it has made. -/
def copyEntries (old new base : ℕ) (cleanup : ℕ → Vmm → Option Vmm) :
    ℕ → Vmm → Creating Vmm
  | 0, v => .ok v
  | n + 1, v =>
    (copyEntries old new base cleanup n v).bind fun v =>
      copyEntry old new (base + n * 4096) n v (cleanup n)

def userPresent (_ : ℕ) (e : Word) : Bool := Pte.present e && Pte.user e

/-- A private copy of the table that entry `slot` of a page directory leads to. The
result is the frame address of the copy, `0` when there is nothing to copy. -/
def copyTable (v : Vmm) (oldPd newPd slot base : ℕ) (cleanup : Vmm → Option Vmm)
    (cleanupAt : Word → ℕ → Vmm → Option Vmm) : Creating (Word × Vmm) :=
  let pde := v.mem.entry oldPd slot
  if Pte.present pde then
    (v.allocOr cleanup).bind fun (pt, v) =>
      (copyEntries (Pte.frame pde) (Pte.frame pt) base (cleanupAt pt) 512
        (v.setMem (v.mem.zeroFrame (Pte.frame pt)))).bind fun v =>
          .ok (pt, v.setEntry newPd slot (Pte.addr pt ||| 0x03 ||| (v.mem.entry newPd slot &&& 0x04)))
  else .ok (0, v.setEntry newPd slot 0)

def createUserPml4 (v : Vmm) (cr3 : Word) : Creating (Word × Vmm) :=
  (v.allocOr some).bind fun (pml4, v) =>
    let oldPml4 := Pte.frame cr3
    let newPml4 := Pte.frame pml4
    -- all entries but the first
    let v := v.setMem ((v.mem.copyFrame newPml4 oldPml4).setEntry newPml4 0 0)
    (v.allocOr (freeAll [pml4])).bind fun (pdpt, v) =>
      let oldPdpt := Pte.frame (v.mem.entry oldPml4 0)
      let newPdpt := Pte.frame pdpt
      let v := v.setMem (v.mem.copyFrame newPdpt oldPdpt)
      (v.allocOr (freeAll [pml4, pdpt])).bind fun (pd, v) =>
        let oldPd := Pte.frame (v.mem.entry oldPdpt 0)
        let newPd := Pte.frame pd
        let v := v.setMem (v.mem.copyFrame newPd oldPd)
        (v.copyTable oldPd newPd 2 userCodeVirt (freeAll [pml4, pdpt, pd]) fun pt2 i v =>
          (freeEntries (Pte.frame pt2) userPresent i v).bind
            (freeAll [pml4, pdpt, pd, pt2])).bind fun (pt2, v) =>
          (v.copyTable oldPd newPd 3 progStackTop
            -- here even entries that are not open to users are freed
            (fun v => (freeEntries (Pte.frame pt2) (fun _ e => Pte.present e) 512 v).bind
              (freeAll [pml4, pdpt, pd, pt2]))
            fun pt3 i v =>
              (freeEntries (Pte.frame pt3) userPresent i v).bind fun v =>
                (freeEntries (Pte.frame pt2) userPresent 512 v).bind
                  (freeAll [pml4, pdpt, pd, pt2, pt3])).bind fun (_, v) =>
            let v := v.setEntry newPml4 0
              (Pte.addr pdpt ||| 0x03 ||| (v.mem.entry oldPml4 0 &&& 0x04))
            let v := v.setEntry newPdpt 0
              (Pte.addr pd ||| 0x03 ||| (v.mem.entry oldPdpt 0 &&& 0x04))
            .ok (pml4, v)

/-- `0` when it fails. -/
def kvmmCreateUserPml4 (v : Vmm) (cr3 : Word) : Option (Word × Vmm) :=
  match v.createUserPml4 cr3 with
  | .ok r => some r
  | .error v => v.map fun v => (0, v)

/-- The user pages that entry `slot` of a page directory leads to, and their table. -/
def freeTable (v : Vmm) (pd slot base : ℕ) : Option Vmm :=
  let pde := v.mem.entry pd slot
  if Pte.present pde then
    (freeEntries (Pte.frame pde)
      (fun i e => Pte.present e && Pte.user e && !v.isSharedUserPage (base + i * 4096)) 512
      v).bind fun v => v.kpfree (Pte.addr pde)
  else some v

def kvmmFreeUserPml4 (v : Vmm) (cr3 pml4 : Word) : Option Vmm :=
  if pml4 = 0 then some v
  else if Pte.addr pml4 = Pte.addr cr3 then some v
  else
    let pml4e := v.mem.entry (Pte.frame pml4) 0
    if !Pte.present pml4e then v.kpfree pml4
    else
      let pdpt := Pte.addr pml4e
      let pdpte := v.mem.entry (Pte.frame pdpt) 0
      if !Pte.present pdpte then freeAll [pdpt, pml4] v
      else
        let pd := Pte.addr pdpte
        (v.freeTable (Pte.frame pd) 2 userCodeVirt).bind fun v =>
          (v.freeTable (Pte.frame pd) 3 progStackTop).bind (freeAll [pd, pdpt, pml4])

end Vmm

end Nyvela
