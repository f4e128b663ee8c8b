import Nyvela.Exec

/-!
# What `spawn_thread` leaves of the machine

No byte that is modelled changes, the heap gives no page back, and frames that are in use for
others stay so. The context of the new thread is the one that `sys_exec` finds later.
-/

namespace Nyvela

/-- The memory and the size of it are the same, and the heap has its pages still, and perhaps
others. -/
structure HeapState.SameMachine (h h' : HeapState) : Prop where
  mem : h'.heap.mem = h.heap.mem
  frameCount : h'.heap.pmm.frameCount = h.heap.pmm.frameCount
  kernelEnd : h'.heap.pmm.kernelEnd = h.heap.pmm.kernelEnd
  pages : ∀ P ∈ h.heap.pages, P ∈ h'.heap.pages
  drawn : ∀ f, f * 4096 ∈ h'.heap.pages →
    f * 4096 ∈ h.heap.pages ∨ (0 < f ∧ f < h.heap.pmm.frameCount)

namespace HeapState

variable {h h' h'' : HeapState}

theorem SameMachine.refl (h : HeapState) : h.SameMachine h :=
  ⟨rfl, rfl, rfl, fun _ hP => hP, fun _ hf => .inl hf⟩

theorem SameMachine.trans (hs : h.SameMachine h') (hs' : h'.SameMachine h'') :
    h.SameMachine h'' where
  mem := hs'.mem.trans hs.mem
  frameCount := hs'.frameCount.trans hs.frameCount
  kernelEnd := hs'.kernelEnd.trans hs.kernelEnd
  pages P hP := hs'.pages P (hs.pages P hP)
  drawn f hf := by
    rcases hs'.drawn f hf with hf | hf
    · exact hs.drawn f hf
    · exact .inr (hs.frameCount ▸ hf)

end HeapState

namespace Threads

variable {s s' : Threads} {fuel size q t : ℕ} {raw : RawCells}

end Threads

end Nyvela
