import Nyvela.HeapClient

/-!
# What `krealloc` keeps

The copy has the length of the old block, whatever was asked for. It fits the new block because
that one was chosen for a larger size, or is a whole page.
-/

namespace Nyvela

theorem Heap.kfree_hdr_size (h : Heap) (ptr b : ℕ) :
    ((h.kfree ptr).hdr b).size = (h.hdr b).size := by
  unfold kfree
  split_ifs
  · rfl
  · by_cases hb : b = ptr - 24
    · simp [hb]
    · simp [hb]

namespace HeapState

/-- The bytes of the block behind a pointer, at least as many as were asked for. -/
def payload (s : HeapState) (p : ℕ) : ℕ := (s.heap.hdr (p - 24)).size

/-- The block at `p` is live for the same request and has the same bytes. -/
structure SameBlock (s s' : HeapState) (p : ℕ) : Prop where
  live : s'.live p = s.live p
  payload : s'.payload p = s.payload p
  bytes : ∀ i < s.payload p, s'.heap.mem (p + i) = s.heap.mem (p + i)

/-- The data of `ptr` has gone to `q`, and nothing but the payload of `q` was written. -/
structure Reallocates (s s' : HeapState) (ptr size q : ℕ) : Prop where
  live : (s'.live q).isSome
  size_le : size ≤ s'.payload q
  bytes : ∀ i < min (s.payload ptr) size, s'.heap.mem (q + i) = s.heap.mem (ptr + i)
  inside : ∀ a, a < q ∨ q + s'.payload q ≤ a → s'.heap.mem a = s.heap.mem a
  gone : q ≠ ptr → s'.live ptr = none

theorem krealloc_returns {s : HeapState} (hi : s.Inv) (ptr size : ℕ) :
    ∃ r, Returns (fun fuel => s.krealloc fuel ptr size) r := by
  obtain ⟨⟨q, h⟩, n, hk⟩ := kmalloc_returns hi size
  have hk : ∀ fuel, n ≤ fuel → s.heap.kmalloc fuel size = some (q, h.heap) := by
    intro fuel hf
    obtain ⟨h', hh', heq⟩ := kmalloc_eq_some (hk fuel hf)
    rw [hh', heq]
  refine Returns.exists_map ?_ _
  -- from the fuel on that `kmalloc` needs, the call is the same
  refine ⟨(s.heap.krealloc n ptr size).getD (0, s.heap), n, fun fuel hf => ?_⟩
  unfold Heap.krealloc
  dsimp only
  rw [hk fuel hf, hk n le_rfl]
  dsimp only
  split_ifs <;> rfl

section

variable {s s' : HeapState} {bs bs' : List ℕ} {p ptr size fuel q n : ℕ} {h : Heap}

/-- A call that leaves used blocks in place and the bytes alone. -/
theorem sameBlock_of_keeps (hl : s.heap.Denotes bs p n)
    (hkeep : Heap.KeepsUsed s.heap bs s'.heap bs') (hmem : s'.heap.mem = s.heap.mem)
    (hlive : s'.live p = s.live p) : SameBlock s s' p := by
  obtain ⟨b, hb, rfl, hu, -⟩ := hl
  refine ⟨hlive, ?_, fun i _ => by rw [hmem]⟩
  rw [payload, payload, Nat.add_sub_cancel]
  exact (hkeep b hb hu).2.2

/-- The new block has room for the whole of the old one. -/
theorem payload_le_of_move (hw : s.heap.Wf bs) (hl : s.heap.Denotes bs ptr n)
    (hgrow : s.payload ptr < Heap.align size)
    (hgive : h.Denotes bs' q (min (Heap.align size) 4072)) :
    s.payload ptr ≤ (h.hdr (q - 24)).size := by
  obtain ⟨o, ho, rfl, -⟩ := hl
  obtain ⟨c, -, rfl, -, hc⟩ := hgive
  obtain ⟨P, -, hPo, hoP⟩ := hw.inPage o ho
  unfold Heap.last at hoP
  rw [payload, Nat.add_sub_cancel] at hgrow ⊢
  rw [Nat.add_sub_cancel]
  omega

/-- Blocks that were in use lie apart from the new one. -/
theorem apart_of_move (hw' : h.Wf bs') (hkeep : Heap.KeepsUsed s.heap bs h bs')
    (hl : s.heap.Denotes bs p n) (hgive : h.Denotes bs' q size) (hne : p ≠ q) :
    p + s.payload p ≤ q ∨ q + (h.hdr (q - 24)).size ≤ p := by
  obtain ⟨b, hb, rfl, hu, -⟩ := hl
  obtain ⟨c, hc, rfl, -⟩ := hgive
  obtain ⟨hb', -, hsize⟩ := hkeep b hb hu
  have hbc := hw'.apart b hb' c hc (by omega)
  unfold Heap.last at hbc
  rw [payload, Nat.add_sub_cancel, Nat.add_sub_cancel]
  omega

end

/-- What one call does. -/
theorem krealloc_effect {s s' : HeapState} (hi : s.Inv) {fuel ptr n size q : ℕ}
    (hlive : s.live ptr = some n) (hsize : 0 < size)
    (hr : s.krealloc fuel ptr size = some (q, s')) :
    (q ≠ 0 → Reallocates s s' ptr size q) ∧ (q = 0 → SameBlock s s' ptr) ∧
      ∀ p, (s.live p).isSome → p ≠ ptr → SameBlock s s' p := by
  obtain ⟨h, hh, rfl⟩ := krealloc_eq_some hr
  obtain ⟨bs, hw, hl⟩ := hi
  have hptr : ptr ≠ 0 := by
    have := denotes_ge (hl ptr n hlive)
    omega
  have hsize0 : size ≠ 0 := by omega
  cases Heap.krealloc_outcome hh with
  | null hnull => exact absurd hnull hptr
  | free _ hzero => exact absurd hzero hsize0
  | tooBig =>
    have hkeeps : ∀ p, SameBlock s ⟨s.heap, liveAfterRealloc s.live ptr size 0⟩ p := fun p =>
      ⟨by simp [liveAfterRealloc, hsize0], rfl, fun _ _ => rfl⟩
    exact ⟨fun h => absurd rfl h, fun _ => hkeeps ptr, fun p _ _ => hkeeps p⟩
  | stay _ _ hfit =>
    refine ⟨fun _ => ⟨?_, (Heap.le_align size).trans hfit, fun _ _ => rfl, fun _ _ => rfl,
      fun h => absurd rfl h⟩, fun h => absurd h hptr, fun p _ hp => ⟨?_, rfl, fun _ _ => rfl⟩⟩
    · simp [liveAfterRealloc, hptr]
    · simp [liveAfterRealloc, hptr, hp]
  | noRoom _ _ hk =>
    obtain ⟨bs', -, hmem, hkeep, -⟩ := Heap.kmalloc_spec hw hk
    have hkeeps : ∀ p, (s.live p).isSome → SameBlock s ⟨h, liveAfterRealloc s.live ptr size 0⟩ p := by
      intro p hp
      obtain ⟨m, hm⟩ := Option.isSome_iff_exists.mp hp
      exact sameBlock_of_keeps (hl p m hm) hkeep hmem (by simp [liveAfterRealloc, hsize0])
    exact ⟨fun h => absurd rfl h, fun _ => hkeeps ptr (by simp [hlive]), fun p hp _ => hkeeps p hp⟩
  | @move q h' _ _ hgrow hk hq =>
    obtain ⟨bs', hw', hmem, hkeep, hgive⟩ := Heap.kmalloc_spec hw hk
    obtain ⟨hden, hmax, hfree⟩ := hgive hq
    have hroom := payload_le_of_move hw (hl ptr n hlive) hgrow hden
    obtain ⟨g, hg⟩ : ∃ g, g = Heap.kfree
      { h' with mem := h'.mem.memcpy q ptr (s.heap.hdr (ptr - 24)).size } ptr := ⟨_, rfl⟩
    have hgsize : ∀ b, (g.hdr b).size = (h'.hdr b).size := fun b => by
      rw [hg, Heap.kfree_hdr_size]
    have hgmem : g.mem = s.heap.mem.memcpy q ptr (s.payload ptr) := by
      rw [hg, kfree_mem, ← hmem]
      rfl
    have hne : ∀ {p m}, s.live p = some m → p ≠ q := fun hp =>
      not_live_of_wasFree hfree (hl _ _ hp)
    rw [← hg]
    refine ⟨fun _ => ⟨?_, ?_, fun i hi => ?_, fun a ha => ?_, fun _ => ?_⟩,
      fun h => absurd h hq, fun p hp hpptr => ?_⟩
    · simp [liveAfterRealloc, hq]
    · obtain ⟨c, -, rfl, -, hc⟩ := hden
      have := Heap.le_align size
      rw [payload, hgsize, Nat.add_sub_cancel]
      omega
    · have hapart := apart_of_move hw' hkeep (hl ptr n hlive) hden (hne hlive)
      rw [hgmem]
      exact Memory.memcpy_inside _ (by omega) (by omega)
    · rw [payload, hgsize] at ha
      rw [hgmem]
      exact Memory.memcpy_outside _ _ _ _ (by omega)
    · simp [liveAfterRealloc, hq, hne hlive]
    · obtain ⟨m, hm⟩ := Option.isSome_iff_exists.mp hp
      have hapart := apart_of_move hw' hkeep (hl p m hm) hden (hne hm)
      refine ⟨?_, ?_, fun i hi => ?_⟩
      · simp [liveAfterRealloc, hq, hne hm, hpptr]
      · have hsame : SameBlock s ⟨h', s.live⟩ p := sameBlock_of_keeps (hl p m hm) hkeep hmem rfl
        rw [payload, hgsize]
        exact hsame.payload
      · rw [hgmem]
        exact Memory.memcpy_outside _ _ _ _ (by omega)

/-- For a live pointer and a size above zero, `krealloc` moves the data or leaves it, and touches
no other block. -/
theorem krealloc_preserves {s : HeapState} (hs : heapSystem.Reachable s) {ptr n : ℕ}
    (hlive : s.live ptr = some n) {size : ℕ} (hsize : 0 < size) :
    ∃ q s', Returns (fun fuel => s.krealloc fuel ptr size) (q, s') ∧
      (q ≠ 0 → Reallocates s s' ptr size q) ∧ (q = 0 → SameBlock s s' ptr) ∧
      ∀ p, (s.live p).isSome → p ≠ ptr → SameBlock s s' p := by
  have hi : s.Inv := hs.invariant (fun _ => inv_init) fun _ _ _ => inv_step
  obtain ⟨⟨q, s'⟩, hret⟩ := krealloc_returns hi ptr size
  obtain ⟨fuel, hfuel⟩ := hret.exists_fuel
  exact ⟨q, s', hret, krealloc_effect hi hlive hsize hfuel⟩

/-- The first block of a fresh machine, made larger. -/
theorem krealloc_preserves_first : ∃ s, heapSystem.Reachable s ∧ s.live 0x200018 = some 64 ∧
    ∃ q s', Returns (fun fuel => s.krealloc fuel 0x200018 100) (q, s') ∧
      (q ≠ 0 → Reallocates s s' 0x200018 100 q) ∧ (q = 0 → SameBlock s s' 0x200018) := by
  have hr : (sixteenMiB.kmalloc 1 64).map (fun r => r.2.live 0x200018) = some (some 64) := by decide
  obtain ⟨r, hr, hlive⟩ := Option.map_eq_some_iff.mp hr
  have hs := sixteenMiB_reachable.step (Step.kmalloc hr)
  obtain ⟨q, s', hret, hmoves, hstays, -⟩ :=
    krealloc_preserves hs hlive (show 0 < 100 by decide)
  exact ⟨_, hs, hlive, q, s', hret, hmoves, hstays⟩

end HeapState

end Nyvela
