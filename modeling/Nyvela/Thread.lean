import Nyvela.Ipc

/-!
# Threads (`src/thread/thread.c`, `src/scheduler/scheduler.c`)

A `thread_t`, a `context_t` and an `ipc_queue_t` are heap blocks, kept here as records at
their addresses; what was in a block before is still there after `kfree`. The table
`threads` is an array of addresses. `none` is the halted kernel, or a heap walk that was
given too little fuel.
-/

namespace Nyvela

inductive ThreadState
  | ready | running | blocked | dead
  deriving DecidableEq

/-- The fields of `context_t` that are set from C; `memset` clears the others. -/
structure ThreadContext where
  rsp : Word
  rip : Word
  rflags : Word
  cs : Word
  ss : Word
  cr3 : Word

structure Thread where
  tid : ℕ
  context : ℕ
  kernelStack : Word
  state : ThreadState
  queue : ℕ
  exitCode : Word

/-- `cells` are the cells of the array at `threads`, and `rsp0` is that of the TSS. -/
structure Threads where
  heap : HeapState
  thread : ℕ → Thread
  context : ℕ → ThreadContext
  queue : ℕ → IpcQueue
  threads : ℕ
  cells : ℕ → ℕ
  length : ℕ
  cap : ℕ
  nextThreadId : ℕ
  currentThread : ℕ
  rsp0 : Word

/-- What is in fresh arrays, of threads and of messages. -/
structure RawCells where
  threads : ℕ → ℕ
  msgs : ℕ → IpcMsg

namespace Threads

def setThread (s : Threads) (t : ℕ) (th : Thread) : Threads :=
  { s with thread := Function.update s.thread t th }

def setContext (s : Threads) (c : ℕ) (ctx : ThreadContext) : Threads :=
  { s with context := Function.update s.context c ctx }

def setQueue (s : Threads) (q : ℕ) (queue : IpcQueue) : Threads :=
  { s with queue := Function.update s.queue q queue }

def kmalloc (s : Threads) (fuel size : ℕ) : Option (ℕ × Threads) :=
  (s.heap.kmalloc fuel size).map fun r => (r.1, { s with heap := r.2 })

def kfree (s : Threads) (ptr : ℕ) : Threads := { s with heap := s.heap.kfree ptr }

def setPmm (s : Threads) (pmm : Pmm) : Threads := { s with heap := s.heap.setPmm pmm }

/-- The kernel stack of a thread: two pages. -/
def kpallocStack (s : Threads) : Word × Threads :=
  ((s.heap.heap.pmm.kpallocContiguous 2).1, s.setPmm (s.heap.heap.pmm.kpallocContiguous 2).2)

def kpfreeStack (s : Threads) (stack : Word) : Option Threads :=
  (s.heap.heap.pmm.kpfreeContiguous stack 2).map s.setPmm

/-- The entries of the table, in order. -/
def entries (s : Threads) : List ℕ := (List.range s.length).map s.cells

/-! ## Creation and destruction -/

/-- The first call allocates the table; `false` when that fails. -/
def allocateTable (s : Threads) (fuel : ℕ) (raw : RawCells) : Option (Bool × Threads) :=
  if s.cap = 0 then
    (s.kmalloc fuel (8 * 8)).map fun (p, s) =>
      if p = 0 then (false, { s with threads := p })
      else (true, { s with threads := p, cells := raw.threads, cap := 8 })
  else some (true, s)

/-- What a failed `allocate_thread` gives back: blocks in the order of the source, and the
stack. -/
def giveBack (s : Threads) (blocks : List ℕ) (stack : Word) : Option (ℕ × Threads) :=
  ((blocks.foldl kfree s).kpfreeStack stack).map fun s => (0, s)

/-- The last part of `allocate_thread`: the queue and its ring. -/
def allocateQueue (s : Threads) (fuel : ℕ) (raw : RawCells) (thread context : ℕ) (stack : Word) :
    Option (ℕ × Threads) :=
  (s.kmalloc fuel 40).bind fun (queue, s) =>
    if queue = 0 then s.giveBack [thread, context] stack
    else
      (s.kmalloc fuel (32 * 4)).bind fun (ring, s) =>
        if ring = 0 then s.giveBack [queue, thread, context] stack
        else
          let s := s.setQueue queue
            { queue := ring, cells := raw.msgs, capacity := 4, head := 0, tail := 0, count := 0 }
          some (thread, s.setThread thread
            { s.thread thread with context := context, kernelStack := stack, queue := queue })

def allocateThread (s : Threads) (fuel : ℕ) (raw : RawCells) : Option (ℕ × Threads) :=
  (s.allocateTable fuel raw).bind fun (ok, s) =>
    if !ok then some (0, s)
    else
      (s.kmalloc fuel 48).bind fun (thread, s) =>
        if thread = 0 then some (0, s)
        else
          let (stack, s) := s.kpallocStack
          if stack = 0 then some (0, s.kfree thread)
          else
            (s.kmalloc fuel 168).bind fun (context, s) =>
              if context = 0 then s.giveBack [thread] stack
              else
                let s := s.setContext context
                  { rsp := stack + 4096 * 2, rip := 0, rflags := 0, cs := 0, ss := 0, cr3 := 0 }
                s.allocateQueue fuel raw thread context stack

/-- The messages that wait in a queue, its ring, and the queue itself. -/
def freeQueue (s : Threads) (queue : ℕ) : Threads :=
  let q := s.queue queue
  let s := (List.range q.count).foldl
    (fun s i => s.kfree (q.cells ((q.head + i) % q.capacity)).msg) s
  let s := if q.queue = 0 then s else s.kfree q.queue
  s.kfree queue

def freeThread (s : Threads) (t : ℕ) : Option Threads :=
  if t = 0 then some s
  else
    let th := s.thread t
    (if th.kernelStack = 0 then some s else s.kpfreeStack th.kernelStack).map fun s =>
      let s := if th.context = 0 then s else s.kfree th.context
      let s := if th.queue = 0 then s else s.freeQueue th.queue
      s.kfree t

/-- `threads[threads_length++] = thread`, with the copy to an array twice as long when the
table is full. -/
def enterThread (s : Threads) (fuel : ℕ) (raw : RawCells) (t : ℕ) : Option (ℕ × Threads) :=
  if s.cap ≤ s.length then
    (s.kmalloc fuel (8 * (s.cap * 2))).bind fun (tmp, s) =>
      if tmp = 0 then (s.freeThread t).map fun s => (0, s)
      else
        let cells := (List.range s.length).foldl (fun c i => Function.update c i (s.cells i))
          raw.threads
        let s := s.kfree s.threads
        some (t, { s with
          threads := tmp, cap := s.cap * 2
          cells := Function.update cells s.length t, length := s.length + 1 })
  else some (t, { s with cells := Function.update s.cells s.length t, length := s.length + 1 })

/-- The code segment is `GDT_KCODE_LM_SEGMENT`, the other one `GDT_KDATA_SEGMENT`. -/
def spawnThread (s : Threads) (fuel : ℕ) (raw : RawCells) (entry cr3 : Word) :
    Option (ℕ × Threads) :=
  if entry = 0 then some (0, s)
  else
    (s.allocateThread fuel raw).bind fun (t, s) =>
      if t = 0 then some (0, s)
      else
        let c := (s.thread t).context
        let s := s.setContext c { s.context c with
          rip := entry, rflags := 0x202, cs := 0x28, ss := 0x10, cr3 := cr3 }
        let s := s.setThread t { s.thread t with
          tid := s.nextThreadId, state := .ready, exitCode := 0 }
        { s with nextThreadId := (s.nextThreadId + 1) % 2 ^ 64 }.enterThread fuel raw t

/-! ## Removal

The loops of `exec_reap`, `sys_free_thread` and `fault_recovery` are the same. -/

/-- The first cell of the table that holds `t`. -/
def indexOf (s : Threads) (t : ℕ) : Option ℕ :=
  (List.range s.length).find? fun i => decide (s.cells i = t)

/-- The cells behind `i` move down by one. -/
def shiftDown (cells : ℕ → ℕ) (i length : ℕ) : ℕ → ℕ :=
  (List.range' i (length - 1 - i)).foldl (fun c j => Function.update c j (c (j + 1))) cells

def removeEntry (s : Threads) (t : ℕ) : Threads :=
  match s.indexOf t with
  | none => s
  | some i => { s with cells := shiftDown s.cells i s.length, length := s.length - 1 }

/-- The first thread of the table with this number. -/
def findThread (s : Threads) (tid : ℕ) : Option ℕ :=
  s.entries.find? fun t => decide ((s.thread t).tid = tid)

/-- With the code that it returns: `-1` is `VFS_ERR_INVAL`. -/
def sysFreeThread (s : Threads) (tid : ℕ) : Option (ℤ × Threads) :=
  if tid = 0 ∨ s.currentThread = 0 ∨ tid = (s.thread s.currentThread).tid then some (-1, s)
  else
    match s.findThread tid with
    | none => some (-1, s)
    | some t => ((s.removeEntry t).freeThread t).map fun s => (0, s)

/-- `bitmap` is what `kvmm_free_user_pml4` leaves of the frames. -/
def execReap (s : Threads) (child : ℕ) (bitmap : Bitmap) : Option Threads :=
  let s := s.removeEntry child
  (s.setPmm { s.heap.heap.pmm with bitmap := bitmap }).freeThread child

/-! ## The scheduler -/

def schedulerNext (s : Threads) : ℕ :=
  if s.length = 0 then 0
  else
    let currentIndex := if s.currentThread = 0 then 0 else (s.indexOf s.currentThread).getD 0
    match (List.range' 1 s.length).find? fun i =>
      decide ((s.thread (s.cells ((currentIndex + i) % s.length))).state = .ready) with
    | some i => s.cells ((currentIndex + i) % s.length)
    | none => s.currentThread

/-- The context that `switch_context` is called with. -/
def schedulerTick (s : Threads) : ℕ × Threads :=
  let next := s.schedulerNext
  let s := if next = s.currentThread then s else { s with currentThread := next }
  let th := s.thread s.currentThread
  (th.context, { s with rsp0 := th.kernelStack + 4096 * 2 })

/-- The call of `scheduler_tick` for a `NULL` thread does not return. -/
def faultRecovery (s : Threads) : Option (ℕ × Threads) :=
  let t := s.currentThread
  if t = 0 then some s.schedulerTick
  else ((s.removeEntry t).freeThread t).map schedulerTick

/-- Is there another thread to switch to? -/
def canSwitch (s : Threads) (next : ℕ) : Bool :=
  !(decide (next = 0) || decide (next = s.currentThread) ||
    decide ((s.thread next).state ≠ .ready))

def switchTo (s : Threads) (next : ℕ) : ℕ × Threads :=
  let th := s.thread next
  (th.context, { s with
    currentThread := next
    rsp0 := if th.kernelStack = 0 then s.rsp0 else th.kernelStack + 4096 * 2 })

def sysExit (s : Threads) (code : Word) : Option (ℕ × Threads) :=
  if s.currentThread = 0 then none
  else
    let s := s.setThread s.currentThread
      { s.thread s.currentThread with exitCode := code, state := .dead }
    if s.canSwitch s.schedulerNext then some (s.switchTo s.schedulerNext) else none

/-- `f` is the address of the frame of the call and `ret` that of `syscall_return`. Without
a thread to switch to the call returns. -/
def sysYield (s : Threads) (f ret flags : Word) : Option ℕ × Threads :=
  if s.canSwitch s.schedulerNext then
    let c := (s.thread s.currentThread).context
    let r := (s.setContext c { s.context c with
      rsp := f, rip := ret, rflags := flags, cs := 0x28, ss := 0x10 }).switchTo s.schedulerNext
    (some r.1, r.2)
  else (none, s)

/-! ## Messages -/

/-- The sender is the current thread. -/
def kipcSend (s : Threads) (fuel : ℕ) (raw : RawCells) (target : ℕ) (msg : List (BitVec 8)) :
    Option (Bool × Threads) :=
  match s.findThread target with
  | none => some (false, s)
  | some t =>
    let queue := (s.thread t).queue
    if queue = 0 then some (false, s)
    else
      (ipcSendTo fuel raw.msgs s.heap (s.queue queue) (s.thread s.currentThread).tid target
        msg).map fun (ok, h, q) => (ok, { s with heap := h }.setQueue queue q)

def kipcPoll (s : Threads) : Option IpcMsg × Threads :=
  let queue := (s.thread s.currentThread).queue
  let r := ipcPollFrom (s.queue queue)
  (r.1, s.setQueue queue r.2)

def syscallMaxBuf : ℕ := 2048

/-- `msg` are the bytes of the caller's buffer, and `readable` is whether `copy_from_user`
gets them. The result is the one in `rax`: `-1` is `VFS_ERR_INVAL`, `-6` is
`VFS_ERR_NOSPACE`. -/
def sysIpcSend (s : Threads) (fuel : ℕ) (raw : RawCells) (target : ℕ) (msg : List (BitVec 8))
    (readable : Bool) : Option (ℤ × Threads) :=
  if msg.length = 0 ∨ syscallMaxBuf < msg.length then some (-1, s)
  else
    (s.kmalloc fuel msg.length).bind fun (kbuf, s) =>
      if kbuf = 0 then some (-6, s)
      else if !readable then some (-1, s.kfree kbuf)
      else
        let s := { s with heap := s.heap.setMem (s.heap.heap.mem.write kbuf msg) }
        (s.kipcSend fuel raw target msg).map fun (ok, s) => (if ok then 1 else 0, s.kfree kbuf)

/-- `writable` and `senderWritable` are whether `copy_to_user_at` puts the message and the
number of the sender where the caller wants them. -/
def sysIpcPoll (s : Threads) (capacity : ℕ) (writable : Bool) (senderOut : ℕ)
    (senderWritable : Bool) : ℕ × Threads :=
  match s.kipcPoll with
  | (none, s) => (0, s)
  | (some m, s) =>
    if capacity < m.size then (0, s.kfree m.msg)
    else if !writable then (0, s.kfree m.msg)
    else if decide (senderOut ≠ 0) && !senderWritable then (0, s.kfree m.msg)
    else (m.size, s.kfree m.msg)

end Threads

end Nyvela
