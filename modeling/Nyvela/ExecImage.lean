import Nyvela.ExecFailure
import Nyvela.HeapReuse
import Nyvela.PageProgress

/-!
# The image of a program

If no allocation fails then `sys_exec` gets as far as the child that may run. The pages at
`PROG_BASE` of its address space hold the file, with zeros behind it.
-/

namespace Nyvela

/-! ## Loops that do not halt -/

namespace Vmm

variable {v w u : Vmm} {h : Held} {loose : List ℕ} {i m n : ℕ} {page : ℕ → ℕ}

/-- The frames that `kvmmap_at` takes for itself in the window. -/
def Held.missing (h : Held) (s : ℕ) : ℕ := if (h.table s).isSome then 0 else 1

theorem Holds.exists_kvmmapAt (hh : Holds v w h loose) (hi : i < 1024)
    (hroom : w.pmm.Plenty (m + h.missing (2 + i / 512))) (phys : Word) :
    ∃ u, w.kvmmapAt (Pte.ofFrame h.pml4) (windowPage i) phys 0x07 = some u ∧ u.pmm.Plenty m := by
  obtain ⟨h4, h3, h2, h1⟩ := window_indices hi
  rw [Vmm.kvmmapAt, h4, h3, h2, h1, hh.frame_root]
  simp only [if_pos (show Pte.user 0x07 = true from by decide), ensureTable_present hh.pml4e.1,
    hh.pml4e.2, Option.bind_some, ensureTable_present hh.pdpte.1, hh.pdpte.2]
  cases ht : h.table (2 + i / 512) with
  | some t =>
    have hlink := (hh.slot (2 + i / 512) (by omega)).link t ht
    rw [Held.missing, ht, Option.isSome_some, if_pos rfl] at hroom
    rw [ensureTable_present hlink.1, Option.bind_some]
    exact ⟨_, rfl, hroom⟩
  | none =>
    rw [Held.missing, ht, if_neg (by simp)] at hroom
    obtain ⟨⟨t, w'⟩, htable⟩ := exists_ensureTable (Plenty.mono hroom (by omega)) h.pd (2 + i / 512) 0x07
    obtain ⟨taken, htook, hlen⟩ := ensureTable_took htable
    rw [htable, Option.bind_some]
    exact ⟨_, rfl, htook.plenty (Plenty.mono hroom (by omega))⟩

/-- The first `d` bytes of the image are `byte`, the others are zero, and the rest of memory is
`rest`. -/
structure ReadUpTo (w : Vmm) (rest : Memory) (byte : ℕ → BitVec 8) (page : ℕ → ℕ) (n d : ℕ) : Prop where
  image : ∀ k < n * 4096, w.mem (imageAddr page k) = if k < d then byte k else 0
  beside : ∀ a, (∀ k < n * 4096, a ≠ imageAddr page k) → w.mem a = rest a

/-- One round of the loop in `ramfs_read`. -/
theorem ReadUpTo.chunk {rest : Memory} {byte : ℕ → BitVec 8} {d : ℕ} (hl : Loaded v w h n page)
    (hf : ReadUpTo w rest byte page n d) {l : List (BitVec 8)} (hd : d + l.length ≤ n * 4096)
    (hbyte : ∀ k (hk : k < l.length), l[k] = byte (d + k)) :
    ∃ u, Vmm.writeAt (Pte.ofFrame h.pml4) (progPage 0 + BitVec.ofNat 64 d) l w = some u ∧
      Loaded v u h n page ∧ ReadUpTo u rest byte page n (d + l.length) := by
  obtain ⟨mem, hcall, hin, hout⟩ := hl.writeAt l hd
  refine ⟨w.setMem mem, hcall, hl.setMem fun a ha => hout a ?_, ⟨fun k hk => ?_, fun a ha => ?_⟩⟩
  · rintro k hk rfl
    exact hl.imageAddr_notMem (by omega) ha
  · rw [setMem_mem]
    by_cases hnew : d ≤ k ∧ k < d + l.length
    · have hval := hin (k - d) (by omega)
      rw [hbyte _ (by omega), show d + (k - d) = k by omega] at hval
      rw [hval, if_pos hnew.2]
    · rw [hout _ fun j hj heq => hnew ?_, hf.image k hk]
      · by_cases hlt : k < d
        · rw [if_pos hlt, if_pos (by omega)]
        · rw [if_neg hlt, if_neg (by omega)]
      · have := hl.imageAddr_inj hk (by omega) heq
        omega
  · rw [setMem_mem, hout a fun k hk => ha _ (by omega), hf.beside a ha]

/-- Where byte `k` of a file is in memory. -/
def fileAddr (s : Ramfs) (f k : ℕ) : ℕ := (s.node f).pages (k / 4096) + k % 4096

end Vmm

namespace Ramfs

variable {s : Ramfs} {path : List Char} {f size : ℕ}

end Ramfs

namespace Kernel

variable {k k₂ : Kernel} {cr3 : Word} {new : Vmm.NewSpace} {child : ℕ} {blocks frames : Set ℕ}

section launch

variable {addr : List Name → ℕ} {path : List Char} {p : List Name} {bytes : List (BitVec 8)}

/-- A file that is found by its path. -/
structure FileAt (k : Kernel) (addr : List Name → ℕ) (path : List Char) (bytes : List (BitVec 8))
    (f : ℕ) : Prop where
  inv : k.ramfs.Inv addr
  pathOk : vfsPathOk path = true
  lookup : Ramfs.resolve addr path = f
  ne : f ≠ 0
  file : (k.node f).isDir = false
  size : (k.node f).size = bytes.length
  content : ∀ i < bytes.length, bytes.getD i 0 = k.vmm.mem (Vmm.fileAddr k.ramfs f i)
  used : ∀ i < bytes.length, Vmm.fileAddr k.ramfs f i / 4096 ∉ k.vmm.pmm.allocatable
  count : bytes.length ≤ (k.node f).pageCount * 4096
  le : bytes.length ≤ vfsMaxFileSize

/-- The size of the file is the one that `sys_exec` asks for first. -/
theorem FileAt.vfsSize {f : ℕ} (hf : FileAt k addr path bytes f) :
    Returns (fun fuel => k.ramfs.vfsSize fuel path) (.ok bytes.length) := by
  have hroot : k.ramfs.root ≠ 0 := hf.inv.root ▸ hf.inv.rootDir.1
  simp only [Ramfs.vfsSize, hf.pathOk, if_true, Ramfs.ramfsSize, hroot, if_false]
  refine (hf.inv.toTree.ramfsLookup path).bind ?_
  rw [hf.lookup, if_neg hf.ne, show (k.ramfs.node f).isDir = false from hf.file,
    show (k.ramfs.node f).size = bytes.length from hf.size]
  exact .const _

end launch

end Kernel

/-! ## Room for a thread -/

namespace Threads

variable {s : Threads} {n : ℕ}

end Threads

namespace Kernel

end Kernel

end Nyvela
