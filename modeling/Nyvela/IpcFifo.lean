import Nyvela.Ipc

/-!
# The queues deliver in order and exactly once

The records of a ring are a window of it, and each payload is a live heap block
that nobody else writes to. What is sent to a thread is at all times what it has
received followed by what is pending.
-/

namespace Nyvela

structure IpcQueue.Wf (q : IpcQueue) : Prop where
  pos : 0 < q.capacity
  head_lt : q.head < q.capacity
  count_le : q.count ≤ q.capacity
  tail_eq : q.tail = (q.head + q.count) % q.capacity

/-! ## Making room -/

theorem foldl_update_apply {α : Type*} (f : ℕ → α) (raw : ℕ → α) (n k : ℕ) :
    (List.range n).foldl (fun c i => Function.update c i (f i)) raw k =
      if k < n then f k else raw k := by
  induction n with
  | zero => rfl
  | succ n ih =>
    rw [List.range_succ, List.foldl_append, List.foldl_cons, List.foldl_nil, Function.update_apply,
      ih]
    by_cases hk : k = n
    · simp [hk]
    · simp only [hk, if_false]
      congr 1
      simp only [eq_iff_iff]
      omega

/-- What holds once there is room in the ring: it moved to a new block or it did not. -/
structure HasRoom (h : HeapState) (q : IpcQueue) (h' : HeapState) (q' : IpcQueue) : Prop where
  wf : q'.Wf
  room : q'.count < q'.capacity
  pending : q'.pending = q.pending
  live : h'.live q'.queue = some (q'.capacity * 32)
  others : ∀ p n, h.live p = some n → p ≠ q.queue → h'.live p = some n ∧ p ≠ q'.queue

/-- No room, or a ring twice as long in a block of its own. -/
theorem ipcGrowQueue_cases {fuel : ℕ} {raw : ℕ → IpcMsg} {h h' : HeapState} {q q' : IpcQueue}
    {ok : Bool} (hq : q.Wf) (hr : ipcGrowQueue fuel raw h q = some (ok, h', q')) :
    ∃ p h₁, h.kmalloc fuel (q.capacity * 2 * 32) = some (p, h₁) ∧
      ((p = 0 ∧ ok = false ∧ h' = h₁ ∧ q' = q) ∨
        (p ≠ 0 ∧ ok = true ∧ h' = h₁.kfree q.queue ∧ q'.queue = p ∧
          q'.capacity = q.capacity * 2 ∧ q'.Wf ∧ q'.count < q'.capacity ∧
          q'.pending = q.pending)) := by
  obtain ⟨⟨p, h₁⟩, hk, hr⟩ := Option.bind_eq_some_iff.mp hr
  refine ⟨p, h₁, hk, ?_⟩
  by_cases hp : p = 0
  · obtain ⟨rfl, rfl, rfl⟩ : false = ok ∧ h₁ = h' ∧ q = q' := by simpa [hp] using hr
    exact .inl ⟨hp, rfl, rfl, rfl⟩
  · obtain ⟨rfl, rfl, rfl⟩ : true = ok ∧ h₁.kfree q.queue = h' ∧ _ = q' := by simpa [hp] using hr
    have hpos := hq.pos
    have hcount := hq.count_le
    refine .inr ⟨hp, rfl, rfl, rfl, rfl, ⟨?_, ?_, ?_, ?_⟩, ?_, ?_⟩
    · simp only; omega
    · simp only; omega
    · simp only; omega
    · simp only
      rw [Nat.zero_add, Nat.mod_eq_of_lt (by omega)]
    · simp only; omega
    · refine Ring.window_copy (by simp only; omega) fun k hk => ?_
      simp only
      rw [foldl_update_apply (fun i => q.cells ((q.head + i) % q.capacity)), if_pos hk]

theorem ipcGrowQueue_spec {fuel : ℕ} {raw : ℕ → IpcMsg} {h h' : HeapState} {q q' : IpcQueue}
    {ok : Bool} (hi : h.Inv) (hq : q.Wf) (hlive : h.live q.queue = some (q.capacity * 32))
    (hr : ipcGrowQueue fuel raw h q = some (ok, h', q')) :
    h'.Inv ∧ h'.heap.mem = h.heap.mem ∧
      ((ok = false ∧ h'.live = h.live) ∨ (ok = true ∧ HasRoom h q h' q')) := by
  obtain ⟨p, h₁, hk, hcases⟩ := ipcGrowQueue_cases hq hr
  obtain ⟨hi₁, hmem, hl₁⟩ := HeapState.kmalloc_client hi hk
  rcases hcases with ⟨hp, rfl, rfl, rfl⟩ | ⟨hp, rfl, rfl, rfl, hcap, hwf, hroom, hpending⟩
  · exact ⟨hi₁, hmem, Or.inl ⟨rfl, by simpa [hp] using hl₁⟩⟩
  · obtain ⟨-, hfresh, hl₁⟩ : _ ∧ _ := hl₁.resolve_left fun hc => hp hc.1
    have hpq : q'.queue ≠ q.queue := fun hc => by simp [← hc, hfresh] at hlive
    have hold : h₁.live q.queue = some (q.capacity * 32) := by
      rw [hl₁, Function.update_of_ne hpq.symm, hlive]
    refine ⟨HeapState.inv_kfree hi₁ (Or.inr (by simp [hold])), ?_,
      Or.inr ⟨rfl, hwf, hroom, hpending, ?_, ?_⟩⟩
    · rw [HeapState.kfree, HeapState.kfree_mem, hmem]
    · simp [HeapState.kfree, hl₁, hpq, hcap]
    · intro a n ha hne
      have hap : a ≠ q'.queue := fun hc => by simp [hc, hfresh] at ha
      exact ⟨by simp [HeapState.kfree, hl₁, hne, hap, ha], hap⟩

theorem ipcMakeRoom_spec {fuel : ℕ} {raw : ℕ → IpcMsg} {h h' : HeapState} {q q' : IpcQueue}
    {ok : Bool} (hi : h.Inv) (hq : q.Wf) (hlive : h.live q.queue = some (q.capacity * 32))
    (hr : ipcMakeRoom fuel raw h q = some (ok, h', q')) :
    h'.Inv ∧ h'.heap.mem = h.heap.mem ∧
      ((ok = false ∧ h'.live = h.live) ∨ (ok = true ∧ HasRoom h q h' q')) := by
  unfold ipcMakeRoom at hr
  split_ifs at hr with hfull
  · exact ipcGrowQueue_spec hi hq hlive hr
  · obtain ⟨rfl, rfl, rfl⟩ : true = ok ∧ h = h' ∧ q = q' := by simpa using hr
    exact ⟨hi, rfl,
      Or.inr ⟨rfl, hq, Nat.lt_of_not_le hfull, rfl, hlive, fun _ _ hp hne => ⟨hp, hne⟩⟩⟩

/-! ## One record -/

theorem IpcQueue.Wf.push {q : IpcQueue} (hq : q.Wf) (hroom : q.count < q.capacity) (m : IpcMsg) :
    IpcQueue.Wf { q with
        cells := Function.update q.cells q.tail m
        tail := (q.tail + 1) % q.capacity
        count := q.count + 1 } ∧
      IpcQueue.pending { q with
        cells := Function.update q.cells q.tail m
        tail := (q.tail + 1) % q.capacity
        count := q.count + 1 } = q.pending ++ [m] := by
  refine ⟨⟨hq.pos, hq.head_lt, hroom, ?_⟩, ?_⟩
  · simp only
    rw [hq.tail_eq, Nat.mod_add_mod]
    congr 1
  · simp only [IpcQueue.pending, hq.tail_eq]
    exact Ring.window_push q.cells _ hroom

theorem IpcQueue.Wf.pop {q : IpcQueue} (hq : q.Wf) (h0 : q.count ≠ 0) :
    IpcQueue.Wf { q with head := (q.head + 1) % q.capacity, count := q.count - 1 } ∧
      q.pending = q.cells q.head ::
        IpcQueue.pending { q with head := (q.head + 1) % q.capacity, count := q.count - 1 } := by
  refine ⟨⟨hq.pos, Nat.mod_lt _ hq.pos, (Nat.sub_le ..).trans hq.count_le, ?_⟩, ?_⟩
  · simp only
    rw [hq.tail_eq, Nat.mod_add_mod]
    congr 1
    omega
  · have hpop := Ring.window_pop q.cells q.capacity q.head (q.count - 1)
    rwa [Nat.sub_add_cancel (by omega), Nat.mod_eq_of_lt hq.head_lt] at hpop

namespace Ipc

/-! ## The table -/

theorem queueAt_setQueue {s : Ipc} {i : ℕ} {q : IpcQueue} (h : s.queueAt i = some q)
    (q' : IpcQueue) (j : ℕ) :
    (s.setQueue i q').queueAt j = if j = i then some q' else s.queueAt j := by
  unfold queueAt setQueue at *
  simp only [List.getElem?_modify]
  by_cases hij : i = j
  · subst hij
    obtain ⟨t, ht, -⟩ := Option.bind_eq_some_iff.mp h
    simp [ht]
  · simp [hij, Ne.symm hij]

theorem records_of_queueAt {s : Ipc} {i : ℕ} {q : IpcQueue} (h : s.queueAt i = some q) :
    s.records i = q.pending := by
  rw [records, h]

theorem records_setQueue {s : Ipc} {i : ℕ} {q : IpcQueue} (h : s.queueAt i = some q)
    (q' : IpcQueue) (j : ℕ) :
    (s.setQueue i q').records j = if j = i then q'.pending else s.records j := by
  unfold records
  rw [queueAt_setQueue h]
  split_ifs <;> rfl

theorem setQueue_tids (s : Ipc) (i : ℕ) (q : IpcQueue) :
    (s.setQueue i q).threads.map IpcThread.tid = s.threads.map IpcThread.tid := by
  apply List.ext_getElem?
  intro j
  simp only [setQueue, List.getElem?_map, List.getElem?_modify]
  cases s.threads[j]? with
  | none => rfl
  | some t => by_cases hij : i = j <;> simp [hij]

theorem find_eq_findIdx (s : Ipc) (target : ℕ) :
    s.find target = (s.threads.map IpcThread.tid).findIdx? (· == target) := by
  rw [find, List.findIdx?_map]
  rfl

/-! ## The invariant -/

/-- Rings and pending payloads are live blocks, and no ring is another ring or a payload. -/
structure Inv (s : Ipc) : Prop where
  heap : s.heap.Inv
  wf : ∀ i q, s.queueAt i = some q → q.Wf
  ring : ∀ i q, s.queueAt i = some q → s.heap.live q.queue = some (q.capacity * 32)
  payload : ∀ i, ∀ m ∈ s.records i, s.heap.live m.msg = some m.size
  rings : ∀ i j q r, s.queueAt i = some q → s.queueAt j = some r → i ≠ j → q.queue ≠ r.queue
  apart : ∀ i j q, s.queueAt i = some q → ∀ m ∈ s.records j, m.msg ≠ q.queue

theorem records_init {s : Ipc} (h : ipcSystem.init s) (i : ℕ) : s.records i = [] := by
  cases hq : s.queueAt i with
  | none => simp [records, hq]
  | some q =>
    obtain ⟨-, -, -, hcount, -⟩ := h.2.1 i q hq
    rw [records_of_queueAt hq, IpcQueue.pending, hcount, Ring.window_zero]

theorem inv_init {s : Ipc} (h : ipcSystem.init s) : s.Inv := by
  have hempty := records_init h
  obtain ⟨hreach, hqueues, hrings⟩ := h
  refine ⟨hreach.invariant (fun _ => HeapState.inv_init) fun _ _ _ => HeapState.inv_step,
    ?_, ?_, ?_, hrings, ?_⟩
  · intro i q hq
    obtain ⟨hcap, hhead, htail, hcount, -⟩ := hqueues i q hq
    constructor <;> simp [hcap, hhead, htail, hcount]
  · intro i q hq
    obtain ⟨hcap, -, -, -, hlive⟩ := hqueues i q hq
    rw [hlive, hcap]
  · simp [hempty]
  · simp [hempty]

/-- A change of the heap that keeps the blocks of the queues. -/
theorem Inv.withHeap {s : Ipc} (hi : s.Inv) {h : HeapState} (hh : h.Inv)
    (hlive : ∀ p n, s.Owns p → s.heap.live p = some n → h.live p = some n) :
    Inv { s with heap := h } where
  heap := hh
  wf := hi.wf
  ring i q hq := hlive _ _ (Or.inl ⟨i, q, hq, rfl⟩) (hi.ring i q hq)
  payload i m hm := hlive _ _ (Or.inr ⟨i, m, hm, rfl⟩) (hi.payload i m hm)
  rings := hi.rings
  apart := hi.apart

/-- The queue of one thread moves to another block or takes in a payload. -/
theorem Inv.setQueue {s : Ipc} (hi : s.Inv) {i : ℕ} {q q' : IpcQueue} {h : HeapState}
    (hq : s.queueAt i = some q) (hh : h.Inv) (hwf : q'.Wf)
    (hring : h.live q'.queue = some (q'.capacity * 32))
    (hothers : ∀ p n, s.heap.live p = some n → p ≠ q.queue → h.live p = some n ∧ p ≠ q'.queue)
    (hpayload : ∀ m ∈ q'.pending, h.live m.msg = some m.size ∧ m.msg ≠ q'.queue ∧
      ∀ j r, s.queueAt j = some r → j ≠ i → m.msg ≠ r.queue) :
    Inv (Ipc.setQueue { s with heap := h } i q') := by
  have hat := queueAt_setQueue (s := { s with heap := h }) hq q'
  have hrec := records_setQueue (s := { s with heap := h }) hq q'
  refine ⟨hh, fun j r hr => ?_, fun j r hr => ?_, fun j m hm => ?_, fun j k r t hr ht hjk => ?_,
    fun j k r hr m hm => ?_⟩
  · rw [hat] at hr
    split_ifs at hr
    · exact Option.some.inj hr ▸ hwf
    · exact hi.wf j r hr
  · rw [hat] at hr
    split_ifs at hr with hji
    · exact Option.some.inj hr ▸ hring
    · exact (hothers _ _ (hi.ring j r hr) (hi.rings j i r q hr hq hji)).1
  · rw [hrec] at hm
    split_ifs at hm with hji
    · exact (hpayload m hm).1
    · exact (hothers _ _ (hi.payload j m hm) (hi.apart i j q hq m hm)).1
  · rw [hat] at hr ht
    split_ifs at hr ht with h1 h2 h2
    · exact absurd (h1.trans h2.symm) hjk
    · obtain rfl := Option.some.inj hr
      exact (hothers _ _ (hi.ring k t ht) (hi.rings k i t q ht hq h2)).2.symm
    · obtain rfl := Option.some.inj ht
      exact (hothers _ _ (hi.ring j r hr) (hi.rings j i r q hr hq h1)).2
    · exact hi.rings j k r t hr ht hjk
  · rw [hat] at hr
    rw [hrec] at hm
    split_ifs at hr hm with h1 h2 h2
    · exact Option.some.inj hr ▸ (hpayload m hm).2.1
    · obtain rfl := Option.some.inj hr
      exact (hothers _ _ (hi.payload k m hm) (hi.apart i k q hq m hm)).2
    · exact (hpayload m hm).2.2 j r hr h1
    · exact hi.apart j k r hr m hm

theorem pending_congr {s s' : Ipc} {i : ℕ} (hrec : s'.records i = s.records i)
    (hmem : ∀ m ∈ s.records i, ∀ k < m.size,
      s'.heap.heap.mem (m.msg + k) = s.heap.heap.mem (m.msg + k)) :
    s'.pending i = s.pending i := by
  rw [pending, hrec]
  apply List.map_congr_left
  intro m hm
  rw [message, message, Memory.read_congr (hmem m hm)]

/-! ## Sending -/

theorem enqueue_spec {s : Ipc} (hi : s.Inv) (sender target : ℕ) {i copied : ℕ} {q : IpcQueue}
    {msg : List (BitVec 8)} (hq : s.queueAt i = some q) (hroom : q.count < q.capacity)
    (hlive : s.heap.live copied = some msg.length)
    (hring : ∀ j r, s.queueAt j = some r → copied ≠ r.queue)
    (hnew : ∀ j, ∀ m ∈ s.records j, m.msg ≠ copied) :
    (s.enqueue i q sender target copied msg).Inv ∧
      ∀ j, (s.enqueue i q sender target copied msg).pending j =
        s.pending j ++ if j = i then [⟨sender, msg.length, msg⟩] else [] := by
  set mem := s.heap.heap.mem.write copied msg with hmem
  set s₁ : Ipc := { s with heap := { s.heap with heap := { s.heap.heap with mem := mem } } }
    with hs₁
  set q' : IpcQueue := { q with
    cells := Function.update q.cells q.tail ⟨target, sender, copied, msg.length⟩
    tail := (q.tail + 1) % q.capacity
    count := q.count + 1 } with hq'
  have hdef : s.enqueue i q sender target copied msg = s₁.setQueue i q' := rfl
  obtain ⟨hwf', hpend⟩ := (hi.wf i q hq).push hroom ⟨target, sender, copied, msg.length⟩
  rw [← hq'] at hwf' hpend
  rw [hdef]
  constructor
  · refine hi.setQueue hq (HeapState.inv_mem hi.heap mem) hwf' (hi.ring i q hq)
      (fun p n hp hne => ⟨hp, hne⟩) fun m hm => ?_
    rw [hpend, List.mem_append, List.mem_singleton] at hm
    rcases hm with hm | rfl
    · rw [← records_of_queueAt hq] at hm
      exact ⟨hi.payload i m hm, hi.apart i i q hq m hm, fun j r hr _ => hi.apart j i r hr m hm⟩
    · exact ⟨hlive, hring i q hq, fun j r hr _ => hring j r hr⟩
  · intro j
    -- the copy goes to a block that no pending message has its payload in
    have hsame : ∀ j, (s.records j).map s₁.message = s.pending j := by
      intro j
      apply List.map_congr_left
      intro m hm
      rw [message, message, Memory.read_congr]
      intro k hk
      have := HeapState.live_disjoint hi.heap (hi.payload j m hm) hlive (hnew j m hm)
      exact Memory.write_outside _ _ _ (by omega)
    have hgoal : (s₁.setQueue i q').pending j = ((s₁.setQueue i q').records j).map s₁.message := rfl
    rw [hgoal, records_setQueue (s := s₁) hq]
    split_ifs with hji
    · subst hji
      rw [hpend, List.map_append, ← records_of_queueAt hq, hsame, List.map_singleton, message]
      simp only [hs₁, hmem, Memory.read_write]
    · rw [List.append_nil]
      exact hsame j

/-- Everything `kipc_send` can do. -/
theorem kipcSend_spec {s s' : Ipc} (hi : s.Inv) {fuel sender target : ℕ} {raw : ℕ → IpcMsg}
    {msg : List (BitVec 8)} {ok : Bool}
    (hr : s.kipcSend fuel raw sender target msg = some (ok, s')) :
    s'.Inv ∧ s'.threads.map IpcThread.tid = s.threads.map IpcThread.tid ∧
      ((ok = false ∧ ∀ j, s'.pending j = s.pending j) ∨
        ∃ i, s.find target = some i ∧ ok = true ∧ ∀ j, s'.pending j =
          s.pending j ++ if j = i then [⟨sender, msg.length, msg⟩] else []) := by
  unfold kipcSend at hr
  split at hr
  · obtain ⟨rfl, rfl⟩ : false = ok ∧ s = s' := by simpa using hr
    exact ⟨hi, rfl, Or.inl ⟨rfl, fun _ => rfl⟩⟩
  rename_i i hfind
  split at hr
  · obtain ⟨rfl, rfl⟩ : false = ok ∧ s = s' := by simpa using hr
    exact ⟨hi, rfl, Or.inl ⟨rfl, fun _ => rfl⟩⟩
  rename_i q hq
  obtain ⟨⟨room, h₁, q₁⟩, hgrow, hr⟩ := Option.bind_eq_some_iff.mp hr
  obtain ⟨hh₁, hmem₁, ⟨rfl, hl₁⟩ | ⟨rfl, hroom⟩⟩ :=
    ipcMakeRoom_spec hi.heap (hi.wf i q hq) (hi.ring i q hq) hgrow
  · obtain ⟨rfl, rfl⟩ : false = ok ∧ { s with heap := h₁ } = s' := by simpa using hr
    refine ⟨hi.withHeap hh₁ fun p n _ hp => by rw [hl₁, hp], rfl, Or.inl ⟨rfl, fun j => ?_⟩⟩
    exact pending_congr rfl fun m _ k _ => congrFun hmem₁ _
  set s₁ := Ipc.setQueue { s with heap := h₁ } i q₁ with hs₁
  have hi₁ : s₁.Inv := by
    refine hi.setQueue hq hh₁ hroom.wf hroom.live hroom.others fun m hm => ?_
    rw [hroom.pending, ← records_of_queueAt hq] at hm
    obtain ⟨h1, h2⟩ := hroom.others _ _ (hi.payload i m hm) (hi.apart i i q hq m hm)
    exact ⟨h1, h2, fun j r hr _ => hi.apart j i r hr m hm⟩
  have hp₁ : ∀ j, s₁.pending j = s.pending j := by
    intro j
    refine pending_congr ?_ fun m _ k _ => congrFun hmem₁ _
    rw [hs₁, records_setQueue (s := { s with heap := h₁ }) hq]
    split_ifs with hji
    · rw [hroom.pending, hji, records_of_queueAt hq]
    · rfl
  have htids : s₁.threads.map IpcThread.tid = s.threads.map IpcThread.tid :=
    setQueue_tids { s with heap := h₁ } i q₁
  have hq₁ : s₁.queueAt i = some q₁ := by
    rw [hs₁, queueAt_setQueue (s := { s with heap := h₁ }) hq, if_pos rfl]
  obtain ⟨⟨copied, h₂⟩, hk, hr⟩ := Option.bind_eq_some_iff.mp hr
  obtain ⟨hh₂, hmem₂, hl₂⟩ := HeapState.kmalloc_client hh₁ hk
  -- the second allocation, too, leaves the queues alone
  have hi₂ : Inv { s₁ with heap := h₂ } := by
    refine hi₁.withHeap hh₂ fun p n _ hp => ?_
    have hp' : h₁.live p = some n := hp
    rcases hl₂ with ⟨-, hl₂⟩ | ⟨-, hfresh, hl₂⟩
    · rw [hl₂, hp']
    · rw [hl₂, Function.update_of_ne (fun hc => by simp [hc, hfresh] at hp'), hp']
  have hp₂ : ∀ j, Ipc.pending { s₁ with heap := h₂ } j = s.pending j := by
    intro j
    rw [← hp₁]
    exact pending_congr rfl fun m _ k _ => congrFun hmem₂ _
  by_cases hc : copied = 0
  · obtain ⟨rfl, rfl⟩ : false = ok ∧ { s₁ with heap := h₂ } = s' := by simpa [hc] using hr
    exact ⟨hi₂, htids, Or.inl ⟨rfl, hp₂⟩⟩
  · obtain ⟨-, hfresh, hl₂⟩ : _ ∧ _ := hl₂.resolve_left fun h => hc h.1
    obtain ⟨rfl, rfl⟩ :
        true = ok ∧ Ipc.enqueue { s₁ with heap := h₂ } i q₁ sender target copied msg = s' := by
      simpa [hc] using hr
    have hlive : h₂.live copied = some msg.length := by simp [hl₂]
    have hne : ∀ p n, s₁.heap.live p = some n → p ≠ copied := by
      rintro p n hp rfl
      exact absurd (hp.symm.trans hfresh) (by simp)
    obtain ⟨hinv, hpend⟩ := enqueue_spec hi₂ sender target hq₁ hroom.room hlive
      (fun j r hr => (hne _ _ (hi₁.ring j r hr)).symm)
      fun j m hm => hne _ _ (hi₁.payload j m hm)
    refine ⟨hinv, ?_, Or.inr ⟨i, hfind, rfl, fun j => ?_⟩⟩
    · rw [← htids]
      exact setQueue_tids _ i _
    · rw [hpend, hp₂]

theorem ipcMakeRoom_mono {fuel fuel' : ℕ} {raw : ℕ → IpcMsg} {h : HeapState} {q : IpcQueue}
    {r : Bool × HeapState × IpcQueue} (hr : ipcMakeRoom fuel raw h q = some r)
    (hf : fuel ≤ fuel') : ipcMakeRoom fuel' raw h q = some r := by
  unfold ipcMakeRoom at hr ⊢
  split_ifs at hr ⊢
  · obtain ⟨a, ha, hr⟩ := Option.bind_eq_some_iff.mp hr
    exact Option.bind_eq_some_iff.mpr ⟨a, HeapState.kmalloc_mono ha hf, hr⟩
  · exact hr

theorem ipcMakeRoom_total {h : HeapState} (hi : h.Inv) (raw : ℕ → IpcMsg) (q : IpcQueue) :
    ∃ fuel r, ipcMakeRoom fuel raw h q = some r := by
  unfold ipcMakeRoom
  split_ifs
  · obtain ⟨fuel, ⟨p, h'⟩, hk⟩ := HeapState.kmalloc_total hi (q.capacity * 2 * 32)
    refine ⟨fuel, ?_⟩
    simp only [ipcGrowQueue, hk, Option.bind_eq_bind, Option.bind_some]
    split_ifs <;> exact ⟨_, rfl⟩
  · exact ⟨0, _, rfl⟩

/-- `kipc_send` always returns. -/
theorem kipcSend_total {s : Ipc} (hi : s.Inv) (raw : ℕ → IpcMsg) (sender target : ℕ)
    (msg : List (BitVec 8)) : ∃ fuel r, s.kipcSend fuel raw sender target msg = some r := by
  unfold kipcSend
  cases s.find target with
  | none => exact ⟨0, _, rfl⟩
  | some i =>
    simp only
    cases hq : s.queueAt i with
    | none => exact ⟨0, _, rfl⟩
    | some q =>
      obtain ⟨fuel₁, ⟨room, h₁, q₁⟩, hr⟩ := ipcMakeRoom_total hi.heap raw q
      obtain ⟨hh₁, -⟩ := ipcMakeRoom_spec hi.heap (hi.wf i q hq) (hi.ring i q hq) hr
      obtain ⟨fuel₂, ⟨copied, h₂⟩, hk⟩ := HeapState.kmalloc_total hh₁ msg.length
      refine ⟨max fuel₁ fuel₂, ?_⟩
      simp only [ipcMakeRoom_mono hr (Nat.le_max_left ..), Option.bind_eq_bind, Option.bind_some,
        HeapState.kmalloc_mono hk (Nat.le_max_right ..)]
      split_ifs <;> exact ⟨_, rfl⟩

/-! ## Polling -/

theorem kipcPoll_spec {s s' : Ipc} (hi : s.Inv) {i : ℕ} {m : Option IpcMsg}
    (hr : s.kipcPoll i = some (m, s')) :
    s'.Inv ∧ s'.threads.map IpcThread.tid = s.threads.map IpcThread.tid ∧
      (∀ j, s.pending j = (if j = i then (m.map s'.message).toList else []) ++ s'.pending j) ∧
      (m = none → s.pending i = []) := by
  obtain ⟨q, hq, hr⟩ := Option.bind_eq_some_iff.mp hr
  by_cases hc : q.count = 0
  · obtain ⟨rfl, rfl⟩ : none = m ∧ s = s' := by simpa [hc] using hr
    refine ⟨hi, rfl, fun j => by simp, fun _ => ?_⟩
    rw [pending, records_of_queueAt hq, IpcQueue.pending, hc]
    rfl
  · set q' : IpcQueue :=
      { q with head := (q.head + 1) % q.capacity, count := q.count - 1 } with hq'
    obtain ⟨rfl, rfl⟩ : some (q.cells q.head) = m ∧ s.setQueue i q' = s' := by
      simpa [hc] using hr
    obtain ⟨hwf', hpend⟩ := (hi.wf i q hq).pop hc
    rw [← hq'] at hwf' hpend
    refine ⟨?_, setQueue_tids s i q', fun j => ?_, by simp⟩
    · refine hi.setQueue hq hi.heap hwf' (hi.ring i q hq) (fun p n hp hne => ⟨hp, hne⟩)
        fun m hm => ?_
      have hm' : m ∈ s.records i := by
        rw [records_of_queueAt hq, hpend]
        exact List.mem_cons_of_mem _ hm
      exact ⟨hi.payload i m hm', hi.apart i i q hq m hm', fun j r hr _ => hi.apart j i r hr m hm'⟩
    · rw [pending, pending, records_setQueue hq]
      split_ifs with hji
      · rw [hji, records_of_queueAt hq, hpend]
        rfl
      · rfl

/-! ## Runs -/

theorem sentTo_concat (tids : List ℕ) (i : ℕ) (l : List IpcEvent) (e : IpcEvent) :
    sentTo tids i (l ++ [e]) = sentTo tids i l ++ (e.sent tids i).toList := by
  rw [sentTo, List.filterMap_append, List.filterMap_cons, List.filterMap_nil]
  cases e.sent tids i <;> rfl

theorem receivedBy_concat (i : ℕ) (l : List IpcEvent) (e : IpcEvent) :
    receivedBy i (l ++ [e]) = receivedBy i l ++ (e.received i).toList := by
  rw [receivedBy, List.filterMap_append, List.filterMap_cons, List.filterMap_nil]
  cases e.received i <;> rfl

/-- One step: what it sends is what it delivers and what it adds to the queue. -/
theorem step_spec {s s' : Ipc} {e : IpcEvent} (hi : s.Inv) (hs : Step s e s') :
    s'.Inv ∧ s'.threads.map IpcThread.tid = s.threads.map IpcThread.tid ∧
      ∀ i, s.pending i ++ (e.sent (s.threads.map IpcThread.tid) i).toList =
        (e.received i).toList ++ s'.pending i := by
  cases hs with
  | send hr =>
    obtain ⟨hi', ht, ⟨rfl, hp⟩ | ⟨j, hfind, rfl, hp⟩⟩ := kipcSend_spec hi hr
    · exact ⟨hi', ht, fun i => by simp [IpcEvent.sent, IpcEvent.received, hp]⟩
    · refine ⟨hi', ht, fun i => ?_⟩
      rw [find_eq_findIdx] at hfind
      simp only [IpcEvent.sent, IpcEvent.received, hp, hfind, Option.some.injEq, eq_comm (a := j)]
      split_ifs <;> simp
  | poll hr =>
    obtain ⟨hi', ht, hp, -⟩ := kipcPoll_spec hi hr
    refine ⟨hi', ht, fun i => ?_⟩
    rw [hp i]
    simp only [IpcEvent.sent, IpcEvent.received, eq_comm (a := i)]
    split_ifs <;> simp
  | @heap op h hown hop =>
    have hkeep : ∀ p n, s.Owns p → s.heap.live p = some n → h.live p = some n ∧
        ∀ k < n, h.heap.mem (p + k) = s.heap.heap.mem (p + k) := by
      intro p n hp hl
      exact HeapState.step_keeps hi.heap hop hl fun hc => hown (hc ▸ hp)
    refine ⟨hi.withHeap (HeapState.inv_step hi.heap hop) fun p n hp hl => (hkeep p n hp hl).1, rfl,
      fun i => ?_⟩
    have hpend : Ipc.pending { s with heap := h } i = s.pending i :=
      pending_congr rfl fun m hm => (hkeep _ _ (Or.inr ⟨i, m, hm, rfl⟩) (hi.payload i m hm)).2
    simp [IpcEvent.sent, IpcEvent.received, hpend]
  | @memory mem hmem =>
    refine ⟨hi.withHeap (HeapState.inv_mem hi.heap mem) fun p n _ hl => hl, rfl, fun i => ?_⟩
    have hpend : Ipc.pending
        { s with heap := { s.heap with heap := { s.heap.heap with mem := mem } } } i =
          s.pending i :=
      pending_congr rfl fun m hm =>
        hmem _ _ (Or.inr ⟨i, m, hm, rfl⟩) (hi.payload i m hm)
    simp [IpcEvent.sent, IpcEvent.received, hpend]

/-- What holds after any run. -/
theorem run_spec {s₀ s : Ipc} {l : List IpcEvent} (h₀ : ipcSystem.init s₀)
    (h : ipcSystem.Run s₀ l s) :
    s.Inv ∧ s.threads.map IpcThread.tid = s₀.threads.map IpcThread.tid ∧
      ∀ i, sentTo (s₀.threads.map IpcThread.tid) i l = receivedBy i l ++ s.pending i := by
  refine h.invariant (p := fun l s => s.Inv ∧
    s.threads.map IpcThread.tid = s₀.threads.map IpcThread.tid ∧
      ∀ i, sentTo (s₀.threads.map IpcThread.tid) i l = receivedBy i l ++ s.pending i) ?_ ?_
  · exact ⟨inv_init h₀, rfl, fun i => by simp [sentTo, receivedBy, pending, records_init h₀]⟩
  · rintro l s e s' ⟨hi, ht, hsum⟩ hs
    obtain ⟨hi', ht', hstep⟩ := step_spec hi hs
    refine ⟨hi', ht'.trans ht, fun i => ?_⟩
    rw [sentTo_concat, receivedBy_concat, hsum, List.append_assoc, List.append_assoc, ← ht,
      hstep i]

/-- In every run, what was sent to a thread with success is what the thread has
received followed by what is pending for it; it has received everything when
`kipc_poll` finds nothing; and a failed `kipc_send`, which like every other one
returns, changes nothing that is pending. -/
theorem fifo_exactly_once {s₀ s : Ipc} {l : List IpcEvent} (h₀ : ipcSystem.init s₀)
    (h : ipcSystem.Run s₀ l s) :
    (∀ i, sentTo (s₀.threads.map IpcThread.tid) i l = receivedBy i l ++ s.pending i) ∧
    (∀ i s', s.kipcPoll i = some (none, s') →
      sentTo (s₀.threads.map IpcThread.tid) i l = receivedBy i l) ∧
    (∀ fuel raw sender target msg s', s.kipcSend fuel raw sender target msg = some (false, s') →
      ∀ i, s'.pending i = s.pending i) ∧
    ∀ raw sender target msg, ∃ fuel r, s.kipcSend fuel raw sender target msg = some r := by
  obtain ⟨hi, -, hsum⟩ := run_spec h₀ h
  refine ⟨hsum, fun i s' hr => ?_, fun fuel raw sender target msg s' hr => ?_, kipcSend_total hi⟩
  · rw [hsum, (kipcPoll_spec hi hr).2.2.2 rfl, List.append_nil]
  · obtain ⟨-, -, ⟨-, hp⟩ | ⟨i, -, hok, -⟩⟩ := kipcSend_spec hi hr
    · exact hp
    · exact absurd hok (by simp)

/-- A thread that sends three bytes to itself has them pending. -/
theorem fifo_exactly_once_self : ∃ s₀ s, ipcSystem.init s₀ ∧
    ipcSystem.Run s₀ [.send 7 7 [1, 2, 3] true] s ∧ s.pending 0 = [⟨7, 3, [1, 2, 3]⟩] := by
  let q : IpcQueue := ⟨0x200018, fun _ => ⟨0, 0, 0, 0⟩, 4, 0, 0, 0⟩
  have hk : ((HeapState.sixteenMiB.kmalloc 1 128).bind fun r =>
      (kipcSend ⟨r.2, [⟨7, some q⟩]⟩ 2 q.cells 7 7 [1, 2, 3]).bind fun t =>
        some (r.2.live 0x200018, t.1)) = some (some 128, true) := by decide
  obtain ⟨⟨p, h⟩, hk, hsend⟩ := Option.bind_eq_some_iff.mp hk
  obtain ⟨⟨ok, s⟩, hsend, hr⟩ := Option.bind_eq_some_iff.mp hsend
  obtain ⟨hlive, rfl⟩ : h.live 0x200018 = some 128 ∧ ok = true := by simpa using hr
  have hat : ∀ i r, queueAt ⟨h, [⟨7, some q⟩]⟩ i = some r → i = 0 ∧ r = q := by
    intro i r hr
    cases i with
    | zero => exact ⟨rfl, (Option.some.inj hr).symm⟩
    | succ i => simp [queueAt] at hr
  have h₀ : ipcSystem.init ⟨h, [⟨7, some q⟩]⟩ := by
    refine ⟨HeapState.sixteenMiB_reachable.step (HeapState.Step.kmalloc hk), ?_, ?_⟩
    · intro i r hr
      obtain ⟨rfl, rfl⟩ := hat i r hr
      exact ⟨rfl, rfl, rfl, rfl, hlive⟩
    · intro i j r t hr ht hij
      exact absurd ((hat i r hr).1.trans (hat j t ht).1.symm) hij
  have hrun : ipcSystem.Run ⟨h, [⟨7, some q⟩]⟩ [.send 7 7 [1, 2, 3] true] s :=
    .snoc .nil (Step.send hsend)
  exact ⟨_, s, h₀, hrun, ((fifo_exactly_once h₀ hrun).1 0).symm⟩

end Ipc

end Nyvela
