import Nyvela.Lib.RoundRobin
import Nyvela.ThreadConservation

/-!
# The scheduler

`scheduler_next` searches the table from behind the current thread on, around to it, for the
first thread that is `READY`.
-/

namespace Nyvela

namespace Threads

def isReady (s : Threads) (t : ℕ) : Bool := decide ((s.thread t).state = .ready)

/-- The threads of the table that may run. -/
def ready (s : Threads) : List ℕ := s.entries.filter s.isReady

variable {s : Threads}

/-- The loop visits the table as it is rotated. -/
theorem map_range'_eq_rotate (s : Threads) (i : ℕ) :
    (List.range' 1 s.length).map (fun k => s.cells ((i + k) % s.length)) =
      s.entries.rotate (i + 1) := by
  apply List.ext_getElem
  · simp [entries]
  intro k hk hk'
  simp only [entries, List.getElem_map, List.getElem_range', List.getElem_rotate,
    List.getElem_range, List.length_map, List.length_range]
  congr 2
  omega

theorem schedulerNext_eq_find (s : Threads) (hlen : s.length ≠ 0) :
    ∃ i, (s.currentThread ≠ 0 → s.currentThread ∈ s.entries →
        i = s.entries.idxOf s.currentThread) ∧
      s.schedulerNext = ((s.entries.rotate (i + 1)).find? s.isReady).getD s.currentThread := by
  refine ⟨if s.currentThread = 0 then 0 else (s.indexOf s.currentThread).getD 0, ?_, ?_⟩
  · intro h0 hmem
    rw [if_neg h0, indexOf_eq, List.idxOf_eq_getD_idxOf?]
    cases hidx : s.entries.idxOf? s.currentThread with
    | none => exact absurd hmem (List.idxOf?_eq_none_iff.mp hidx)
    | some i => rfl
  · rw [schedulerNext, if_neg hlen, ← map_range'_eq_rotate, List.find?_map]
    dsimp only
    generalize (if s.currentThread = 0 then 0 else (s.indexOf s.currentThread).getD 0) = i
    have hpred : (fun k => decide ((s.thread (s.cells ((i + k) % s.length))).state = .ready)) =
      s.isReady ∘ fun k => s.cells ((i + k) % s.length) := rfl
    rw [hpred]
    cases (List.range' 1 s.length).find? (s.isReady ∘ fun k => s.cells ((i + k) % s.length)) with
    | none => rfl
    | some k => rfl

/-- For a thread of the table the search goes around to that thread. -/
theorem schedulerNext_eq_next (h0 : 0 ∉ s.entries) (hc : s.currentThread ∈ s.entries) :
    s.schedulerNext = RoundRobin.next s.isReady s.entries s.currentThread := by
  have hlen : s.length ≠ 0 := by
    rw [← length_entries]
    exact Nat.ne_of_gt (List.length_pos_of_mem hc)
  obtain ⟨i, hi, hnext⟩ := schedulerNext_eq_find s hlen
  rw [hnext, hi (by rintro he; exact h0 (he ▸ hc)) hc]
  rfl

/-- The current thread changes and nothing else does. -/
def pick (s : Threads) : Threads := { s with currentThread := s.schedulerNext }

/-- The threads that get the processor next. -/
def picks (s : Threads) : ℕ → List ℕ
  | 0 => []
  | n + 1 => s.schedulerNext :: s.pick.picks n

theorem next_mem (hc : s.currentThread ∈ s.entries) :
    RoundRobin.next s.isReady s.entries s.currentThread ∈ s.entries := by
  unfold RoundRobin.next
  cases hfind : (RoundRobin.after s.entries s.currentThread).find? s.isReady with
  | none => exact hc
  | some t => exact (RoundRobin.after_perm ..).mem_iff.mp (List.mem_of_find?_eq_some hfind)

theorem picks_eq_turns (h0 : 0 ∉ s.entries) (hc : s.currentThread ∈ s.entries) (n : ℕ) :
    s.picks n = RoundRobin.turns s.isReady s.entries s.currentThread n := by
  induction n generalizing s with
  | zero => rfl
  | succ n ih =>
    have hnext := schedulerNext_eq_next h0 hc
    have hmem : s.schedulerNext ∈ s.entries := hnext ▸ next_mem hc
    rw [picks, RoundRobin.turns, ih (s := s.pick) h0 hmem, ← hnext]
    rfl

theorem pick_iterate (h0 : 0 ∉ s.entries) (hc : s.currentThread ∈ s.entries) (k : ℕ) :
    ∃ c ∈ s.entries, pick^[k] s = { s with currentThread := c } := by
  induction k with
  | zero => exact ⟨s.currentThread, hc, rfl⟩
  | succ k ih =>
    obtain ⟨c, hc, hk⟩ := ih
    rw [Function.iterate_succ_apply', hk]
    refine ⟨_, ?_, rfl⟩
    rw [schedulerNext_eq_next (s := { s with currentThread := c }) h0 hc]
    exact next_mem (s := { s with currentThread := c }) hc

/-- Of as many switches in a row as there are `READY` threads, each of them gets one, and no
other thread gets any. -/
theorem round_robin_covers (h0 : 0 ∉ s.entries) (hdistinct : s.entries.Nodup)
    (hc : s.currentThread ∈ s.entries) (k t : ℕ) :
    ((pick^[k] s).picks s.ready.length).count t =
      if t ∈ s.entries ∧ (s.thread t).state = .ready then 1 else 0 := by
  obtain ⟨c, hmem, hk⟩ := pick_iterate h0 hc k
  have hpicks := picks_eq_turns (s := { s with currentThread := c }) h0 hmem s.ready.length
  have hperm := RoundRobin.turns_perm (p := s.isReady) (c := c) hdistinct
  rw [hk, hpicks]
  refine (hperm.count_eq t).trans ?_
  rw [(hdistinct.filter _).count]
  simp [isReady]

/-- Three threads at the addresses 1, 2 and 3; the second one exits. -/
def threeThreads : Threads :=
  { ThreadWorld.sixteenMiB.threads with
    thread := fun t => ⟨t, 0, 0, if t = 2 then .dead else .ready, 0, 0⟩
    cells := fun i => i + 1, length := 3, cap := 8, currentThread := 2 }

theorem round_robin_covers_three :
    threeThreads.picks 2 = [3, 1] ∧ (threeThreads.picks threeThreads.ready.length).count 1 = 1 :=
  ⟨by decide, (round_robin_covers (by decide) (by decide) (by decide) 0 1).trans (by decide)⟩

end Threads

end Nyvela
