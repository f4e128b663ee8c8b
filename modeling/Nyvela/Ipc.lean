import Nyvela.HeapClient
import Nyvela.Lib.Ring

/-!
# Message queues (`src/ipc/ipc.c`)

Each thread has a ring of message records; a payload is a heap block of its own.
A record takes 32 bytes. `kmalloc` does not clear a block, so a fresh ring starts
with whatever `raw` says is there.
-/

namespace Nyvela

/-- `ipc_msg_t`: `msg` is the address of the payload. -/
structure IpcMsg where
  target : ℕ
  sender : ℕ
  msg : ℕ
  size : ℕ

/-- `ipc_queue_t`, with the address and the cells of the array it points to. -/
structure IpcQueue where
  queue : ℕ
  cells : ℕ → IpcMsg
  capacity : ℕ
  head : ℕ
  tail : ℕ
  count : ℕ

/-- The part of `thread_t` that messages go through. -/
structure IpcThread where
  tid : ℕ
  queue : Option IpcQueue

/-- The heap and the `threads` table. -/
structure Ipc where
  heap : HeapState
  threads : List IpcThread

def ipcGrowQueue (fuel : ℕ) (raw : ℕ → IpcMsg) (h : HeapState) (q : IpcQueue) :
    Option (Bool × HeapState × IpcQueue) := do
  let newCap := q.capacity * 2
  let (newQueue, h) ← h.kmalloc fuel (newCap * 32)
  if newQueue = 0 then return (false, h, q)
  let cells := (List.range q.count).foldl
    (fun c i => Function.update c i (q.cells ((q.head + i) % q.capacity))) raw
  return (true, h.kfree q.queue,
    { queue := newQueue, cells := cells, capacity := newCap, head := 0, tail := q.count,
      count := q.count })

/-- The test for a full ring in `kipc_send`. -/
def ipcMakeRoom (fuel : ℕ) (raw : ℕ → IpcMsg) (h : HeapState) (q : IpcQueue) :
    Option (Bool × HeapState × IpcQueue) :=
  if q.capacity ≤ q.count then ipcGrowQueue fuel raw h q else some (true, h, q)

/-- The part of `kipc_send` on the queue of the target. -/
def ipcSendTo (fuel : ℕ) (raw : ℕ → IpcMsg) (h : HeapState) (q : IpcQueue) (sender target : ℕ)
    (msg : List (BitVec 8)) : Option (Bool × HeapState × IpcQueue) := do
  let (room, h, q) ← ipcMakeRoom fuel raw h q
  if !room then return (false, h, q)
  let (copied, h) ← h.kmalloc fuel msg.length
  if copied = 0 then return (false, h, q)
  return (true, h.setMem (h.heap.mem.write copied msg),
    { q with
      cells := Function.update q.cells q.tail ⟨target, sender, copied, msg.length⟩
      tail := (q.tail + 1) % q.capacity
      count := q.count + 1 })

/-- The part of `kipc_poll` on the queue of the caller. -/
def ipcPollFrom (q : IpcQueue) : Option IpcMsg × IpcQueue :=
  if q.count = 0 then (none, q)
  else (some (q.cells q.head),
    { q with head := (q.head + 1) % q.capacity, count := q.count - 1 })

namespace Ipc

/-- The first entry of the table with a given `tid`. -/
def find (s : Ipc) (target : ℕ) : Option ℕ := s.threads.findIdx? fun t => t.tid == target

def queueAt (s : Ipc) (i : ℕ) : Option IpcQueue := s.threads[i]?.bind IpcThread.queue

def setQueue (s : Ipc) (i : ℕ) (q : IpcQueue) : Ipc :=
  { s with threads := s.threads.modify i fun t => { t with queue := some q } }

/-- The payload copy and the new record at the tail of the ring. -/
def enqueue (s : Ipc) (i : ℕ) (q : IpcQueue) (sender target copied : ℕ)
    (msg : List (BitVec 8)) : Ipc :=
  let h := s.heap.heap
  let s := { s with heap := { s.heap with heap := { h with mem := h.mem.write copied msg } } }
  s.setQueue i
    { q with
      cells := Function.update q.cells q.tail ⟨target, sender, copied, msg.length⟩
      tail := (q.tail + 1) % q.capacity
      count := q.count + 1 }

/-- `kipc_send` by the thread `sender`; `msg` is the content of the caller's buffer. -/
def kipcSend (s : Ipc) (fuel : ℕ) (raw : ℕ → IpcMsg) (sender target : ℕ)
    (msg : List (BitVec 8)) : Option (Bool × Ipc) :=
  match s.find target with
  | none => some (false, s)
  | some i =>
    match s.queueAt i with
    | none => some (false, s)
    | some q => do
      let (room, h, q) ← ipcMakeRoom fuel raw s.heap q
      if !room then return (false, { s with heap := h })
      let s := { s with heap := h }.setQueue i q
      let (copied, h) ← h.kmalloc fuel msg.length
      let s := { s with heap := h }
      if copied = 0 then return (false, s)
      return (true, s.enqueue i q sender target copied msg)

/-- `kipc_poll` by the thread at index `i` of the table; `none` when that thread
has no queue to look at. -/
def kipcPoll (s : Ipc) (i : ℕ) : Option (Option IpcMsg × Ipc) := do
  let q ← s.queueAt i
  if q.count = 0 then return (none, s)
  return (some (q.cells q.head),
    s.setQueue i { q with head := (q.head + 1) % q.capacity, count := q.count - 1 })

theorem ipcMakeRoom_full {fuel : ℕ} {raw : ℕ → IpcMsg} {h h' : HeapState} {q q' : IpcQueue}
    (hr : ipcMakeRoom fuel raw h q = some (false, h', q')) : q' = q := by
  unfold ipcMakeRoom ipcGrowQueue at hr
  split_ifs at hr with hfull
  · obtain ⟨⟨p, h₁⟩, -, hr⟩ := Option.bind_eq_some_iff.mp hr
    by_cases hp : p = 0
    · simp only [hp, if_true] at hr
      exact (congrArg (fun r => r.2.2) (Option.some.inj hr)).symm
    · simp [hp] at hr
  · simp at hr

theorem setQueue_self {s : Ipc} {i : ℕ} {q : IpcQueue} (h : s.queueAt i = some q) :
    s.setQueue i q = s := by
  have hmod : s.threads.modify i (fun t => { t with queue := some q }) = s.threads := by
    apply List.ext_getElem?
    intro j
    rw [List.getElem?_modify]
    split_ifs with hij
    · subst hij
      obtain ⟨t, ht, hq⟩ := Option.bind_eq_some_iff.mp h
      simp [ht, ← hq]
    · simp
  rw [setQueue, hmod]

/-- A send is a send to one queue. -/
theorem kipcSend_eq (s : Ipc) (fuel : ℕ) (raw : ℕ → IpcMsg) (sender target : ℕ)
    (msg : List (BitVec 8)) : s.kipcSend fuel raw sender target msg =
      match s.find target with
      | none => some (false, s)
      | some i =>
        match s.queueAt i with
        | none => some (false, s)
        | some q => (ipcSendTo fuel raw s.heap q sender target msg).map fun r =>
          (r.1, { s with heap := r.2.1 }.setQueue i r.2.2) := by
  unfold kipcSend
  cases s.find target with
  | none => rfl
  | some i =>
    dsimp only
    cases hq : s.queueAt i with
    | none => rfl
    | some q =>
      dsimp only
      simp only [ipcSendTo, Option.map_bind, Option.bind_eq_bind]
      cases hroom : ipcMakeRoom fuel raw s.heap q with
      | none => rfl
      | some r =>
        obtain ⟨room, h, q'⟩ := r
        simp only [Option.bind_some, Function.comp_apply]
        cases room with
        | false =>
          obtain rfl := ipcMakeRoom_full hroom
          have hself : { s with heap := h }.setQueue i q' = { s with heap := h } := setQueue_self hq
          simp [hself]
        | true =>
          cases h.kmalloc fuel msg.length with
          | none => simp
          | some r =>
            obtain ⟨copied, h'⟩ := r
            by_cases h0 : copied = 0
            · simp [h0, setQueue]
            · simp [h0, enqueue, setQueue, HeapState.setMem, List.modify_modify_eq,
                Function.comp_def]

/-- A poll is a poll of one queue. -/
theorem kipcPoll_eq (s : Ipc) (i : ℕ) : s.kipcPoll i = (s.queueAt i).map fun q =>
    ((ipcPollFrom q).1, s.setQueue i (ipcPollFrom q).2) := by
  unfold kipcPoll
  cases hq : s.queueAt i with
  | none => rfl
  | some q =>
    by_cases h0 : q.count = 0
    · simp [ipcPollFrom, h0, setQueue_self hq]
    · simp [ipcPollFrom, h0]

end Ipc

/-! ## Runs -/

/-- What a receiver gets to see. -/
structure Message where
  sender : ℕ
  size : ℕ
  content : List (BitVec 8)

inductive IpcEvent
  | send (sender target : ℕ) (msg : List (BitVec 8)) (ok : Bool)
  | poll (i : ℕ) (result : Option Message)
  | other

def IpcQueue.pending (q : IpcQueue) : List IpcMsg :=
  Ring.window q.cells q.capacity q.head q.count

namespace Ipc

def message (s : Ipc) (m : IpcMsg) : Message :=
  ⟨m.sender, m.size, s.heap.heap.mem.read m.msg m.size⟩

def records (s : Ipc) (i : ℕ) : List IpcMsg :=
  match s.queueAt i with
  | none => []
  | some q => q.pending

/-- The messages waiting for the thread at index `i`. -/
def pending (s : Ipc) (i : ℕ) : List Message := (s.records i).map s.message

/-- The blocks that the queues hold: the rings and the payloads in them. -/
def Owns (s : Ipc) (ptr : ℕ) : Prop :=
  (∃ i q, s.queueAt i = some q ∧ ptr = q.queue) ∨ ∃ i, ∃ m ∈ s.records i, ptr = m.msg

/-- Between the calls the rest of the kernel uses the heap as it likes, except for
the blocks that the queues hold. -/
inductive Step : Ipc → IpcEvent → Ipc → Prop
  | send {s s' : Ipc} {fuel sender target : ℕ} {raw : ℕ → IpcMsg} {msg : List (BitVec 8)}
    {ok : Bool} :
    s.kipcSend fuel raw sender target msg = some (ok, s') →
    Step s (.send sender target msg ok) s'
  | poll {s s' : Ipc} {i : ℕ} {m : Option IpcMsg} :
    s.kipcPoll i = some (m, s') → Step s (.poll i (m.map s'.message)) s'
  | heap {s : Ipc} {op : HeapOp} {h : HeapState} :
    ¬s.Owns op.target → HeapState.Step s.heap op h → Step s .other { s with heap := h }
  | memory {s : Ipc} {mem : Memory} :
    (∀ ptr n, s.Owns ptr → s.heap.live ptr = some n →
      ∀ i < n, mem (ptr + i) = s.heap.heap.mem (ptr + i)) →
    Step s .other { s with heap := { s.heap with heap := { s.heap.heap with mem := mem } } }

end Ipc

/-- The message that an event puts into the queue of entry `i` of the table. -/
def IpcEvent.sent (tids : List ℕ) (i : ℕ) : IpcEvent → Option Message
  | .send sender target msg true =>
    if tids.findIdx? (· == target) = some i then some ⟨sender, msg.length, msg⟩ else none
  | _ => none

/-- The message that an event returns to entry `i` of the table. -/
def IpcEvent.received (i : ℕ) : IpcEvent → Option Message
  | .poll j result => if j = i then result else none
  | _ => none

def sentTo (tids : List ℕ) (i : ℕ) (l : List IpcEvent) : List Message :=
  l.filterMap (IpcEvent.sent tids i)

def receivedBy (i : ℕ) (l : List IpcEvent) : List Message := l.filterMap (IpcEvent.received i)

/-- Any number of threads with the empty rings of four that `allocate_thread`
gives them, each ring a live block of its own in a heap that was used before. -/
def ipcSystem : System Ipc IpcEvent where
  init s := heapSystem.Reachable s.heap ∧
    (∀ i q, s.queueAt i = some q → q.capacity = 4 ∧ q.head = 0 ∧ q.tail = 0 ∧ q.count = 0 ∧
      s.heap.live q.queue = some (4 * 32)) ∧
    ∀ i j q r, s.queueAt i = some q → s.queueAt j = some r → i ≠ j → q.queue ≠ r.queue
  step := Ipc.Step

end Nyvela
