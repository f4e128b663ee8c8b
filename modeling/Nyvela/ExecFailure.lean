import Nyvela.ExecPages

/-!
# When `sys_exec` fails

Behind `kvmm_create_user_pml4` there are three ways to fail: `spawn_thread` returns `NULL`,
`kpalloc` has no frame for a page of the program, or the file cannot be read. The last two
undo everything, but for frames of the caller that are freed with the pages. The first one
undoes nothing.
-/

namespace Nyvela

/-! ## A read that fails keeps the pages -/

namespace Vmm

variable {v w u : Vmm} {h : Held} {n : ℕ} {page : ℕ → ℕ} {s : Ramfs}

theorem Loaded.readLoopAt (hl : Loaded v w h n page) {f offset len fuel done r : ℕ}
    (hlen : len ≤ n * 4096)
    (hcall : s.readLoopAt f (Pte.ofFrame h.pml4) (progPage 0) offset len fuel done w = some (r, u)) :
    Loaded v u h n page := by
  induction fuel generalizing done w with
  | zero => cases hcall
  | succ fuel ih =>
    rw [Ramfs.readLoopAt] at hcall
    dsimp only at hcall
    split_ifs at hcall with hlt hcount
    · obtain ⟨-, rfl⟩ := Prod.mk.inj (Option.some.inj hcall)
      exact hl
    · obtain ⟨l, hl'⟩ : ∃ l, l = w.mem.read ((s.node f).pages ((offset + done) / 4096) +
        (offset + done) % 4096) (Ramfs.chunkAt (offset + done) (len - done)) := ⟨_, rfl⟩
      have hlength : l.length ≤ len - done := by
        rw [hl', Memory.read, List.length_map, List.length_range]
        exact Nat.min_le_right ..
      rw [← hl'] at hcall
      obtain ⟨m, hwrite, -, hrest⟩ := hl.writeAt l (d := done) (by omega)
      rw [hwrite, Option.bind_some] at hcall
      refine ih (hl.setMem fun a ha => hrest a ?_) hcall
      rintro k hk rfl
      exact hl.imageAddr_notMem (by omega) ha
    · obtain ⟨-, rfl⟩ := Prod.mk.inj (Option.some.inj hcall)
      exact hl

end Vmm

/-! ## The books, when frames change hands -/

namespace Threads

variable {s : Threads} {blocks frames : Set ℕ} {bs fs l : List ℕ} {pmm : Pmm}

end Threads

namespace Kernel

variable {k k' : Kernel} {cr3 : Word} {child n : ℕ} {blocks frames : Set ℕ}

/-! ## Undoing -/

/-- From `k` to `k'` the child is gone. Others lost the frames `S`. -/
structure Undone (k k' : Kernel) (child : ℕ) (blocks frames : Set ℕ) (S : List ℕ) : Prop where
  accounts : k'.threads.Accounts blocks (frames \ {f | f ∈ S}) [] []
  entries : k'.threads.entries = k.threads.entries.erase child
  thread : k'.threads.thread = k.threads.thread
  queue : k'.threads.queue = k.threads.queue
  pages : k'.threads.heap.heap.pages = k.threads.heap.heap.pages

end Kernel

/-! ## Strays -/

namespace Vmm

variable {v w : Vmm} {cr3 : Word} {new : NewSpace} {i : ℕ}

end Vmm

/-! ## What is left of a call -/

namespace Threads

variable {s : Threads} {blocks frames : Set ℕ} {fs : List ℕ}

end Threads

namespace Kernel

variable {k k' : Kernel} {cr3 pml4 : Word} {v : Vmm}

section spawned

variable {k₂ : Kernel} {new : Vmm.NewSpace} {child : ℕ} {blocks frames : Set ℕ}

end spawned

end Kernel

end Nyvela
