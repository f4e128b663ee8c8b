import Nyvela.CopyOut
import Nyvela.FileCalls
import Nyvela.Receive

/-!
# Messages between programs (`sys_ipc_send` and `sys_ipc_poll` in `src/syscall/syscall.c`)

A message goes from the memory of the sender into a buffer, from there into a block of its own
that waits in a ring, and from that block, page by page, into the memory of the receiver. However
the scheduler switches between the threads, what they see of this is one mailbox for each of
them, beside their memory.
-/

namespace Nyvela

/-- The calls with their registers, a store by the program itself, and a switch to the thread
`t`. -/
inductive MailOp
  | send (rdi rsi rdx : Word)
  | poll (rdi rsi rdx : Word)
  | store (virt : Word) (b : BitVec 8)
  | switch (t : ℕ)

/-- Without memory for it a message is not sent: the call says so, or it returns `0`. -/
def MailOp.Excuse : MailOp → ℤ → Prop
  | .send .., rax => rax = VfsErr.nospace.code ∨ rax = 0
  | .poll .., _ | .store .., _ | .switch .., _ => False

/-- Eight bytes, the low one first. -/
def wordBytes (n : ℕ) : List (BitVec 8) := (List.range 8).map fun i => BitVec.ofNat 8 (n / 256 ^ i)

/-- `ipc_msg_t` in memory. -/
def IpcMsg.bytes (m : IpcMsg) : List (BitVec 8) :=
  wordBytes m.target ++ wordBytes m.sender ++ wordBytes m.msg ++ wordBytes m.size

namespace Kernel

/-- The address space of the thread that runs. -/
abbrev currentCr3 (k : Kernel) : Word := k.cr3Of k.threads.currentThread

/-! ## The calls -/

def sysIpcSend (k : Kernel) (fuel : ℕ) (raw : RawCells) (rdi rsi rdx : Word) :
    Option (ℤ × Kernel) :=
  if rdx = 0 ∨ syscallMaxBuf < rdx.toNat then some (VfsErr.inval.code, k)
  else
    k.withBuffer fuel rdx.toNat fun k kbuf => k.fromUser k.currentCr3 rsi rdx kbuf fun k =>
      (k.threads.kipcSend fuel raw rdi.toNat (k.vmm.mem.read kbuf rdx.toNat)).map fun (ok, s) =>
        (if ok then 1 else 0, k.setThreads s)

/-- The memory once `kipc_poll` has put a record at `out`, on the kernel stack. -/
def polled (k : Kernel) (out : ℕ) : Memory :=
  match k.threads.kipcPoll.1 with
  | none => k.vmm.mem
  | some m => k.vmm.mem.write out m.bytes

/-- The number of the sender is the second word of the record. -/
def sysIpcPoll (k : Kernel) (out : ℕ) (rdi rsi rdx : Word) : Option (ℤ × Kernel) :=
  (k.threads.sysIpcPollAt (k.vmm.setMem (k.polled out)) rdi rsi rdx (out + 8)).map
    fun (r, s, v) => (r, (k.setThreads s).setVmm v)

def runMail (k : Kernel) (fuel : ℕ) (raw : RawCells) (out : ℕ) : MailOp → Option (ℤ × Kernel)
  | .send rdi rsi rdx => k.sysIpcSend fuel raw rdi rsi rdx
  | .poll rdi rsi rdx => k.sysIpcPoll out rdi rsi rdx
  | .store virt b =>
    (put (k.vmm.translate k.currentCr3) virt [b] k.vmm.mem).map fun m =>
      (0, k.setVmm (k.vmm.setMem m))
  | .switch t => some (0, k.setThreads { k.threads with currentThread := t })

/-! ## Runs -/

/-- A program sends from memory of its own, which does not hide the kernel's buffer, and stores to
pages of its own, and the scheduler picks threads of the table. -/
def MayRun (k : Kernel) (user : Set ℕ) : MailOp → Prop
  | .send _ rsi rdx => k.vmm.OwnedBuf user k.currentCr3 rsi rdx.toNat ∧
      k.BufferSeen k.currentCr3 rdx.toNat
  | .poll .. => True
  | .store virt _ => userAreaBase ≤ virt.toNat ∧ virt.toNat < userAreaEnd ∧
      k.vmm.UserWritable k.currentCr3 virt
  | .switch t => t ∈ k.threads.entries

/-- There is room for a record at `out`, on the stack of the current thread. -/
def OnStack (k : Kernel) (out : ℕ) : Prop :=
  ∀ i < 32, (out + i) / 4096 ∈ k.threads.stackFrames k.threads.currentThread

end Kernel

/-- What happens, and what a call leaves in `rax`. -/
abbrev MailEvent := MailOp × ℤ

/-- The threads take turns in any order. Rings that grow and the records on the stack may be
anywhere, with anything in them before. -/
def mailSystem (user : Set ℕ) : System Kernel MailEvent where
  init _ := True
  step k e k' := k.MayRun user e.1 ∧ ∃ raw out, k.OnStack out ∧
    Returns (fun fuel => k.runMail fuel raw out e.1) (e.2, k')

/-! ## What the programs see -/

/-- The threads of the table, their numbers, and where their addresses are in memory: those that
the kernel reads, and those that it writes for them. -/
structure MailSite where
  threads : List ℕ
  tid : ℕ → ℕ
  view : ℕ → Word → Option ℕ
  writable : ℕ → Word → Option ℕ

/-- A mailbox for each thread, with the senders' numbers, and memory. -/
structure MailWorld where
  current : ℕ
  mail : ℕ → List (ℕ × List (BitVec 8))
  mem : Memory

namespace MailWorld

def load (w : MailWorld) (site : MailSite) (virt : Word) : Option (BitVec 8) :=
  (site.view w.current virt).map w.mem

/-- The message goes to the end of the mailbox; `none` is a page fault. -/
def send (w : MailWorld) (site : MailSite) (rdi rsi rdx : Word) : Option (ℤ × MailWorld) :=
  if rdx = 0 ∨ syscallMaxBuf < rdx.toNat then some (VfsErr.inval.code, w)
  else
    fetch (w.load site) rsi rdx (VfsErr.inval.code, w) fun data =>
      match site.threads.find? fun t => decide (site.tid t = rdi.toNat) with
      | none => (0, w)
      | some t =>
        (1, { w with
          mail := Function.update w.mail t (w.mail t ++ [(site.tid w.current, data)]) })

/-- The message and the number of its sender, as far as there is a place for them. -/
def deliver (w : MailWorld) (site : MailSite) (sender : ℕ) (data : List (BitVec 8))
    (rdi rsi rdx : Word) : ℤ × MailWorld :=
  if rsi.toNat < data.length then (0, w)
  else
    let r := copyOut (site.writable w.current) rdi data w.mem
    if r.1 = false then (0, { w with mem := r.2 })
    else if rdx = 0 then (data.length, { w with mem := r.2 })
    else
      let r := copyOut (site.writable w.current) rdx (wordBytes sender) r.2
      (if r.1 then data.length else 0, { w with mem := r.2 })

/-- The first message leaves the mailbox, whether or not there is a place for it. -/
def poll (w : MailWorld) (site : MailSite) (rdi rsi rdx : Word) : ℤ × MailWorld :=
  match w.mail w.current with
  | [] => (0, w)
  | (sender, data) :: rest =>
    { w with mail := Function.update w.mail w.current rest }.deliver site sender data rdi rsi rdx

def run (w : MailWorld) (site : MailSite) : MailOp → Option (ℤ × MailWorld)
  | .send rdi rsi rdx => w.send site rdi rsi rdx
  | .poll rdi rsi rdx => some (w.poll site rdi rsi rdx)
  | .store virt b =>
    (put (site.view w.current) virt [b] w.mem).map fun m => (0, { w with mem := m })
  | .switch t => some (0, { w with current := t })

def system (site : MailSite) : System MailWorld MailEvent where
  init _ := True
  step w e w' := w.run site e.1 = some (e.2, w') ∨ e.1.Excuse e.2 ∧ w' = w

end MailWorld

namespace Kernel

/-- The messages that wait for `t`. -/
def mailOf (k : Kernel) (t : ℕ) : List (ℕ × List (BitVec 8)) :=
  (k.threads.queue (k.threads.thread t).queue).pending.map fun m =>
    (m.sender, k.vmm.mem.read m.msg m.size)

def site (k : Kernel) : MailSite where
  threads := k.threads.entries
  tid t := (k.threads.thread t).tid
  view t := k.vmm.translate (k.cr3Of t)
  writable t := k.vmm.userView (k.cr3Of t)

end Kernel

/-! ## A message on the heap -/

section heap

variable {h h' : HeapState} {q q' : IpcQueue} {fuel sender target : ℕ} {raw : ℕ → IpcMsg}
  {msg : List (BitVec 8)} {ok : Bool}

/-- From `h` to `h'` the blocks besides `p` stay. -/
def HeapState.Spares (h h' : HeapState) (p : ℕ) : Prop :=
  ∀ a n, h.live a = some n → a ≠ p → h'.live a = some n

theorem HeapState.kmalloc_live {size p a n : ℕ} (hi : h.Inv)
    (hk : h.kmalloc fuel size = some (p, h')) (ha : h.live a = some n) : h'.live a = some n := by
  obtain ⟨-, -, ⟨-, hlive⟩ | ⟨-, hnone, hlive⟩⟩ := kmalloc_client hi hk
  · rw [hlive, ha]
  · have hne : a ≠ p := by
      intro heq
      rw [heq, hnone] at ha
      cases ha
    rw [hlive, Function.update_of_ne hne, ha]

/-- What the ring has to do with the heap when it grows. -/
theorem ipcMakeRoom_client (hi : h.Inv) (hq : q.Wf) (hring : (h.live q.queue).isSome)
    (hr : ipcMakeRoom fuel raw h q = some (ok, h', q')) :
    h'.Inv ∧ h.Within h' ∧ h'.heap.mem = h.heap.mem ∧ h.Spares h' q.queue ∧
      q'.pending = q.pending ∧ (ok = true → q'.Wf ∧ q'.count < q'.capacity) := by
  unfold ipcMakeRoom at hr
  split_ifs at hr with hfull
  · obtain ⟨p, h₁, hk, hcases⟩ := ipcGrowQueue_cases hq hr
    obtain ⟨hi₁, hmem, -⟩ := HeapState.kmalloc_client hi hk
    have hwithin := HeapState.within_kmalloc hk
    have hkeep : ∀ a n, h.live a = some n → h₁.live a = some n :=
      fun a n ha => HeapState.kmalloc_live hi hk ha
    obtain ⟨hp, rfl, rfl, rfl⟩ | ⟨hp, rfl, rfl, -, -, hwf, hroom, hpending⟩ := hcases
    · exact ⟨hi₁, hwithin, hmem, fun a n ha _ => hkeep a n ha, rfl, fun hc => Bool.noConfusion hc⟩
    · have hold : (h₁.live q.queue).isSome := by
        obtain ⟨n, hn⟩ := Option.isSome_iff_exists.mp hring
        rw [hkeep _ n hn]
        rfl
      refine ⟨HeapState.inv_kfree hi₁ (Or.inr hold), hwithin.trans (h₁.within_kfree _), ?_,
        fun a n ha hne => ?_, hpending, fun _ => ⟨hwf, hroom⟩⟩
      · rw [← hmem]
        exact HeapState.kfree_mem h₁.heap q.queue
      · change Function.update h₁.live q.queue none a = some n
        rw [Function.update_of_ne hne]
        exact hkeep a n ha
  · obtain ⟨rfl, rfl, rfl⟩ : true = ok ∧ h = h' ∧ q = q' := by simpa using hr
    exact ⟨hi, .refl h, rfl, fun a n ha _ => ha, rfl, fun _ => ⟨hq, Nat.lt_of_not_le hfull⟩⟩

/-- A message that is sent has a block of its own; one that is not leaves no trace. -/
theorem ipcSendTo_client (hi : h.Inv) (hq : q.Wf) (hring : (h.live q.queue).isSome)
    (hr : ipcSendTo fuel raw h q sender target msg = some (ok, h', q')) :
    h.Within h' ∧ h.Spares h' q.queue ∧
      (ok = false ∧ h'.heap.mem = h.heap.mem ∧ q'.pending = q.pending ∨
        ok = true ∧ ∃ copied, h'.Inv ∧ h'.live copied = some msg.length ∧
          (∀ a n, h.live a = some n → a ≠ q.queue → a ≠ copied) ∧
          h'.heap.mem = h.heap.mem.write copied msg ∧
          q'.pending = q.pending ++ [⟨target, sender, copied, msg.length⟩]) := by
  obtain ⟨⟨room, h₁, q₁⟩, hroom, hr⟩ := Option.bind_eq_some_iff.mp hr
  obtain ⟨hi₁, hwithin, hmem, hspares, hpending, hlt⟩ := ipcMakeRoom_client hi hq hring hroom
  cases room with
  | false =>
    obtain ⟨rfl, rfl, rfl⟩ : false = ok ∧ h₁ = h' ∧ q₁ = q' := by simpa using hr
    exact ⟨hwithin, hspares, Or.inl ⟨rfl, hmem, hpending⟩⟩
  | true =>
    obtain ⟨hq₁, hlt⟩ := hlt rfl
    obtain ⟨⟨copied, h₂⟩, hk, hr⟩ := Option.bind_eq_some_iff.mp hr
    obtain ⟨hi₂, hmem₂, hlive⟩ := HeapState.kmalloc_client hi₁ hk
    have hwithin₂ := hwithin.trans (HeapState.within_kmalloc hk)
    have hspares₂ : h.Spares h₂ q.queue := fun a n ha hne =>
      HeapState.kmalloc_live hi₁ hk (hspares a n ha hne)
    by_cases h0 : copied = 0
    · obtain ⟨rfl, rfl, rfl⟩ : false = ok ∧ h₂ = h' ∧ q₁ = q' := by simpa [h0] using hr
      exact ⟨hwithin₂, hspares₂, Or.inl ⟨rfl, hmem₂.trans hmem, hpending⟩⟩
    · obtain ⟨rfl, rfl, rfl⟩ :
          true = ok ∧ h₂.setMem (h₂.heap.mem.write copied msg) = h' ∧ _ = q' := by
        simpa [h0] using hr
      obtain ⟨-, hnone, hlive⟩ := hlive.resolve_left fun hc => h0 hc.1
      obtain ⟨-, hpush⟩ := hq₁.push hlt ⟨target, sender, copied, msg.length⟩
      refine ⟨hwithin₂.trans (h₂.within_setMem _), hspares₂, Or.inr ⟨rfl, copied,
        HeapState.inv_mem hi₂ _, ?_, fun a n ha hne heq => ?_, ?_, ?_⟩⟩
      · change h₂.live copied = some msg.length
        rw [hlive, Function.update_self]
      · have hstill := hspares a n ha hne
        rw [heq, hnone] at hstill
        cases hstill
      · change h₂.heap.mem.write copied msg = _
        rw [hmem₂, hmem]
      · rw [hpush, hpending]

end heap

/-- No message is in a ring. -/
theorem Threads.Accounts.payload_ne_ring {s : Threads} {blocks frames : Set ℕ} {bs fs : List ℕ}
    (ha : s.Accounts blocks frames bs fs) {t u : ℕ} (ht : t ∈ s.entries) (hu : u ∈ s.entries)
    {m : IpcMsg} (hm : m ∈ (s.queue (s.thread u).queue).pending) :
    m.msg ≠ (s.queue (s.thread t).queue).queue := by
  have hnodup := (perm_besides ht bs).nodup_iff.mp ha.held.block.nodup
  obtain ⟨hring, -, hapart⟩ := List.nodup_append.mp hnodup
  have hmsg : m.msg ∈ (s.queue (s.thread u).queue).pending.map IpcMsg.msg :=
    List.mem_map_of_mem hm
  intro heq
  by_cases hut : u = t
  · rw [hut, heq] at hmsg
    exact (List.nodup_cons.mp hring).1 hmsg
  · apply hapart _ List.mem_cons_self m.msg _ heq.symm
    have howned : m.msg ∈ s.owned u := by
      simp only [owned, IpcQueue.blocks, List.mem_cons]
      exact Or.inr (Or.inr (Or.inr (Or.inr hmsg)))
    have hrest : m.msg ∈ (s.entries.erase t).flatMap s.owned :=
      List.mem_flatMap.mpr ⟨u, (List.mem_erase_of_ne hut).mpr hu, howned⟩
    simp only [besides, List.mem_cons, List.mem_append]
    exact Or.inr (Or.inr (Or.inr (Or.inr (Or.inr hrest))))

theorem Threads.mem_blocks_of_pending {s : Threads} {t : ℕ} (ht : t ∈ s.entries) {m : IpcMsg}
    (hm : m ∈ (s.queue (s.thread t).queue).pending) : m.msg ∈ s.blocks := by
  apply mem_blocks_of_owned ht
  have hmsg : m.msg ∈ (s.queue (s.thread t).queue).pending.map IpcMsg.msg :=
    List.mem_map_of_mem hm
  simp only [owned, IpcQueue.blocks, List.mem_cons]
  exact Or.inr (Or.inr (Or.inr (Or.inr hmsg)))

/-! ## What the calls rely on -/

namespace Kernel

/-- The page tables and the memory of the programs are nobody else's, what a program may write to is
memory of the programs, and every message that waits is in a block of its size. -/
structure Posting (user blocks frames : Set ℕ) (bs : List ℕ) (k : Kernel) : Prop where
  accounts : k.threads.Accounts blocks frames bs []
  current : k.threads.currentThread ∈ k.threads.entries
  payload : ∀ t ∈ k.threads.entries, ∀ m ∈ (k.threads.queue (k.threads.thread t).queue).pending,
    k.threads.heap.live m.msg = some m.size
  tables : ∀ t ∈ k.threads.entries, ∀ f ∈ k.vmm.tableFrames (k.cr3Of t),
    k.threads.heap.Outside f ∧ f ∉ k.threads.kernelStacks ∧ f ∉ user
  own : ∀ g ∈ user, k.threads.heap.Outside g ∧ g ∉ k.threads.kernelStacks
  window : ∀ t ∈ k.threads.entries, ∀ virt : Word, userAreaBase ≤ virt.toNat →
    virt.toNat < userAreaEnd → ∀ q, k.vmm.userView (k.cr3Of t) virt = some q → q / 4096 ∈ user

/-- The kernel's state stands for what the programs see. -/
structure Posts (site : MailSite) (user blocks frames : Set ℕ) (bs : List ℕ) (k : Kernel)
    (w : MailWorld) : Prop extends Posting user blocks frames bs k where
  entries : k.threads.entries = site.threads
  tid : ∀ t, (k.threads.thread t).tid = site.tid t
  shows : ∀ t ∈ k.threads.entries, k.vmm.Shows user (k.cr3Of t) (site.view t) w.mem
  writable : ∀ t ∈ k.threads.entries, ∀ virt : Word, virt.toNat < 2 ^ 30 →
    k.vmm.userView (k.cr3Of t) virt = site.writable t virt
  running : k.threads.currentThread = w.current
  mail : ∀ t ∈ k.threads.entries, k.mailOf t = w.mail t
  mem : ∀ a, a / 4096 ∈ user → k.vmm.mem a = w.mem a

section

variable {site : MailSite} {user blocks frames : Set ℕ} {bs bs' : List ℕ} {k : Kernel}
  {w w' : MailWorld}

/-- Other contents of the heap and the queues, with the tables as they were. -/
theorem Posts.change (h : Posts site user blocks frames bs k w) {heap : HeapState}
    {Q : ℕ → IpcQueue} {c : ℕ}
    (hacc : Threads.Accounts { k.threads with heap := heap, queue := Q, currentThread := c }
      blocks frames bs' [])
    (hwithin : k.threads.heap.Within heap)
    (htables : ∀ t ∈ k.threads.entries, ∀ a, a / 4096 ∈ k.vmm.tableFrames (k.cr3Of t) →
      heap.heap.mem a = k.vmm.mem a)
    (hc : c ∈ k.threads.entries) (hcw : c = w'.current)
    (hpayload : ∀ t ∈ k.threads.entries, ∀ m ∈ (Q (k.threads.thread t).queue).pending,
      heap.live m.msg = some m.size)
    (hmail : ∀ t ∈ k.threads.entries, ((Q (k.threads.thread t).queue).pending.map fun m =>
      (m.sender, heap.heap.mem.read m.msg m.size)) = w'.mail t)
    (hmem : ∀ a, a / 4096 ∈ user → heap.heap.mem a = w'.mem a) :
    Posts site user blocks frames bs'
      (k.setThreads { k.threads with heap := heap, queue := Q, currentThread := c }) w' := by
  have hview : ∀ t ∈ k.threads.entries, ∀ virt : Word, virt.toNat < 2 ^ 30 →
      (k.vmm.setMem heap.heap.mem).userView (k.cr3Of t) virt = k.vmm.userView (k.cr3Of t) virt :=
    fun t ht virt hvirt => Vmm.userView_of_frames hvirt (htables t ht)
  refine ⟨⟨hacc, hc, hpayload, fun t ht f hf => ?_, fun g hg => ?_,
      fun t ht virt hlo hhi q hq => ?_⟩, h.entries, h.tid,
    fun t ht => (h.shows t ht).of_frames (htables t ht) hmem,
    fun t ht virt hvirt => (hview t ht virt hvirt).trans (h.writable t ht virt hvirt), hcw, hmail,
    hmem⟩
  · have hframes : (k.vmm.setMem heap.heap.mem).tableFrames (k.cr3Of t) =
        k.vmm.tableFrames (k.cr3Of t) := Vmm.tableFrames_of_frames (htables t ht)
    have hf : f ∈ (k.vmm.setMem heap.heap.mem).tableFrames (k.cr3Of t) := hf
    rw [hframes] at hf
    obtain ⟨hout, hrest⟩ := h.tables t ht f hf
    exact ⟨hwithin f hout, hrest⟩
  · obtain ⟨hout, hstack⟩ := h.own g hg
    exact ⟨hwithin g hout, hstack⟩
  · have hsame := hview t ht virt (hhi.trans (by decide))
    exact h.window t ht virt hlo hhi q (hsame.symm.trans hq)

/-! ### Where things are -/

theorem Posting.stack_not_page (h : Posting user blocks frames bs k) {g : ℕ}
    (hg : g ∈ k.threads.kernelStacks) : g * 4096 ∉ k.threads.heap.heap.pages := by
  intro hpage
  exact h.accounts.held.frame.apart g (List.mem_append_right _ hg) (Or.inl hpage)

/-- The messages that wait do not change with memory that is not the heap's. -/
theorem Posting.mailOf_of_mem (h : Posting user blocks frames bs k) {mem : Memory}
    (hmem : ∀ a, a / 4096 * 4096 ∈ k.threads.heap.heap.pages → mem a = k.vmm.mem a) {t : ℕ}
    (ht : t ∈ k.threads.entries) :
    ((k.threads.queue (k.threads.thread t).queue).pending.map fun m =>
      (m.sender, mem.read m.msg m.size)) = k.mailOf t := by
  apply List.map_congr_left
  intro m hm
  have hread : mem.read m.msg m.size = k.vmm.mem.read m.msg m.size := by
    apply Memory.read_congr
    intro i hi
    obtain ⟨f, hpage, hlo, hhi⟩ :=
      HeapState.live_page h.accounts.held.inv (h.payload t ht m hm)
    apply hmem
    rwa [show (m.msg + i) / 4096 = f by omega]
  rw [hread]

/-! ### Memory -/

theorem Posts.setMem (h : Posts site user blocks frames bs k w) {mem mem' : Memory}
    (htables : ∀ t ∈ k.threads.entries, ∀ a, a / 4096 ∈ k.vmm.tableFrames (k.cr3Of t) →
      mem a = k.vmm.mem a)
    (hmail : ∀ t ∈ k.threads.entries, ((k.threads.queue (k.threads.thread t).queue).pending.map
      fun m => (m.sender, mem.read m.msg m.size)) = k.mailOf t)
    (hmem : ∀ a, a / 4096 ∈ user → mem a = mem' a) :
    Posts site user blocks frames bs (k.setVmm (k.vmm.setMem mem)) { w with mem := mem' } := by
  have hacc : Threads.Accounts { k.threads with
      heap := k.threads.heap.setMem mem
      queue := k.threads.queue
      currentThread := k.threads.currentThread } blocks frames bs [] :=
    ⟨h.accounts.held.setMem mem, h.accounts.room, h.accounts.whole⟩
  exact h.change hacc (HeapState.within_setMem _ _) htables h.current h.running h.payload
    (fun t ht => (hmail t ht).trans (h.mail t ht)) hmem

/-- Memory of the programs, which is not the heap's. -/
theorem Posts.setUser (h : Posts site user blocks frames bs k w) {mem mem' : Memory}
    (hout : ∀ a, a / 4096 ∉ user → mem a = k.vmm.mem a)
    (hmem : ∀ a, a / 4096 ∈ user → mem a = mem' a) :
    Posts site user blocks frames bs (k.setVmm (k.vmm.setMem mem)) { w with mem := mem' } := by
  apply h.setMem _ _ hmem
  · intro t ht a ha
    apply hout
    exact (h.tables t ht _ ha).2.2
  · intro t ht
    apply h.mailOf_of_mem _ ht
    intro a ha
    apply hout
    intro huser
    exact (h.own _ huser).1.heap ha

/-- A record on a kernel stack. -/
theorem Posts.setStack (h : Posts site user blocks frames bs k w) {mem : Memory}
    (hout : ∀ a, a / 4096 ∉ k.threads.kernelStacks → mem a = k.vmm.mem a) :
    Posts site user blocks frames bs (k.setVmm (k.vmm.setMem mem)) w := by
  apply h.setMem
  · intro t ht a ha
    exact hout a (h.tables t ht _ ha).2.1
  · intro t ht
    apply h.mailOf_of_mem _ ht
    intro a ha
    apply hout
    intro hstack
    exact h.stack_not_page hstack ha
  · intro a ha
    rw [hout a (h.own _ ha).2]
    exact h.mem a ha

/-! ### Blocks -/

/-- The heap serves other purposes, with memory as it was. -/
theorem Posts.setHeap (h : Posts site user blocks frames bs k w) {heap : HeapState}
    (hacc : Threads.Accounts { k.threads with heap := heap } blocks frames bs' [])
    (hwithin : k.threads.heap.Within heap) (hmem : heap.heap.mem = k.vmm.mem)
    (hlive : ∀ p n, p ∈ k.threads.blocks → k.threads.heap.live p = some n → heap.live p = some n) :
    Posts site user blocks frames bs' (k.setHeap heap) w := by
  have hacc' : Threads.Accounts { k.threads with
      heap := heap
      queue := k.threads.queue
      currentThread := k.threads.currentThread } blocks frames bs' [] := hacc
  refine h.change hacc' hwithin (fun t _ a _ => congrFun hmem a) h.current h.running
    (fun t ht m hm => hlive _ _ (Threads.mem_blocks_of_pending ht hm) (h.payload t ht m hm)) (fun t ht => ?_)
    fun a ha => ?_
  · rw [hmem]
    exact h.mail t ht
  · rw [hmem]
    exact h.mem a ha

theorem Posts.kmalloc (h : Posts site user blocks frames bs k w) {fuel size p : ℕ}
    {heap : HeapState} (hk : k.threads.heap.kmalloc fuel size = some (p, heap)) :
    Posts site user blocks frames (if p = 0 then bs else p :: bs) (k.setHeap heap) w ∧
      (p ≠ 0 → heap.live p = some size) := by
  have hinv := h.accounts.held.inv
  obtain ⟨-, hmem, hlive⟩ := HeapState.kmalloc_client hinv hk
  have hcall : k.threads.kmalloc fuel size = some (p, { k.threads with heap := heap }) := by
    rw [Threads.kmalloc, hk]
    rfl
  obtain ⟨h', heq, hacc⟩ := h.accounts.kmalloc hcall
  refine ⟨h.setHeap hacc (HeapState.within_kmalloc hk) hmem
    fun a n _ ha => HeapState.kmalloc_live hinv hk ha, fun h0 => ?_⟩
  obtain ⟨-, -, hlive⟩ := hlive.resolve_left fun hc => h0 hc.1
  rw [hlive, Function.update_self]

theorem Posts.kfree {p : ℕ} (h : Posts site user blocks frames (p :: bs) k w) :
    Posts site user blocks frames bs (k.setHeap (k.threads.heap.kfree p)) w := by
  apply h.setHeap h.accounts.kfree (HeapState.within_kfree _ p) (HeapState.kfree_mem _ p)
  intro a n ha hlive
  have hne : a ≠ p := by
    intro heq
    rw [heq] at ha
    exact h.accounts.not_mem_blocks List.mem_cons_self ha
  change Function.update k.threads.heap.live p none a = some n
  rw [Function.update_of_ne hne, hlive]

/-- Bytes for a block that no message is in. -/
theorem Posts.fill {p n : ℕ} (h : Posts site user blocks frames (p :: bs) k w)
    (hlive : k.threads.heap.live p = some n) {l : List (BitVec 8)} (hl : l.length ≤ n) :
    Posts site user blocks frames (p :: bs)
      (k.setVmm (k.vmm.setMem (k.vmm.mem.write p l))) w := by
  have hout : ∀ a, (a < p ∨ p + n ≤ a) → k.vmm.mem.write p l a = k.vmm.mem a := by
    intro a ha
    apply Memory.write_outside
    omega
  apply h.setMem
  · intro t ht a ha
    exact hout a (HeapState.live_apart h.accounts.held.inv hlive (h.tables t ht _ ha).1.heap)
  · intro t ht
    apply List.map_congr_left
    intro m hm
    have hne : m.msg ≠ p := by
      intro heq
      exact h.accounts.not_mem_blocks List.mem_cons_self (heq ▸ Threads.mem_blocks_of_pending ht hm)
    have hapart := HeapState.live_disjoint h.accounts.held.inv (h.payload t ht m hm) hlive hne
    have hread : (k.vmm.mem.write p l).read m.msg m.size = k.vmm.mem.read m.msg m.size := by
      apply Memory.read_congr
      intro i hi
      apply hout
      omega
    rw [hread]
  · intro a ha
    rw [hout a (HeapState.live_apart h.accounts.held.inv hlive (h.own _ ha).1.heap)]
    exact h.mem a ha

/-! ## Sending -/

theorem Posts.shown (h : Posts site user blocks frames bs k w) :
    k.vmm.Shows user k.currentCr3 (site.view w.current) w.mem := by
  rw [← h.running]
  exact h.shows _ h.current

theorem Posts.hidden (h : Posts site user blocks frames bs k w) {p n : ℕ}
    (hlive : k.threads.heap.live p = some n) : k.vmm.Hidden user k.currentCr3 p n := by
  obtain ⟨f, hpage, hlo, hhi⟩ := HeapState.live_page h.accounts.held.inv hlive
  refine ⟨by omega, fun i hi => ?_⟩
  rw [show (p + i) / 4096 = f by omega]
  exact ⟨fun htab => (h.tables _ h.current f htab).1.heap hpage,
    fun huser => (h.own f huser).1.heap hpage⟩

/-- The thread that a number stands for. -/
theorem Posts.findThread (h : Posts site user blocks frames bs k w) (target : ℕ) :
    site.threads.find? (fun t => decide (site.tid t = target)) = k.threads.findThread target := by
  unfold Threads.findThread
  rw [h.entries]
  congr 1
  funext t
  rw [h.tid]

/-- The queues behind a call that puts `q` in the place of the queue of `t`. -/
theorem Posts.queue_update (h : Posts site user blocks frames bs k w) {t u : ℕ}
    (ht : t ∈ k.threads.entries) (hu : u ∈ k.threads.entries) (q : IpcQueue) :
    Function.update k.threads.queue (k.threads.thread t).queue q (k.threads.thread u).queue =
      if u = t then q else k.threads.queue (k.threads.thread u).queue := by
  by_cases hut : u = t
  · rw [hut, Function.update_self, if_pos rfl]
  · rw [Function.update_of_ne (h.accounts.queue_ne ht hu hut), if_neg hut]

theorem Posts.kipcSend (h : Posts site user blocks frames bs k w) {fuel target : ℕ}
    {raw : RawCells} {msg : List (BitVec 8)} {ok : Bool} {s : Threads} {t : ℕ}
    (hfind : k.threads.findThread target = some t)
    (hr : k.threads.kipcSend fuel raw target msg = some (ok, s)) :
    (ok = false ∧ Posts site user blocks frames bs (k.setThreads s) w) ∨
      (ok = true ∧ Posts site user blocks frames bs (k.setThreads s)
        { w with mail := Function.update w.mail t (w.mail t ++ [(site.tid w.current, msg)]) }) := by
  obtain ⟨ht, -⟩ := Threads.mem_of_findThread hfind
  obtain ⟨hacc, -, -⟩ := h.accounts.kipcSend hr
  have hheld := h.accounts.held.perm (Threads.perm_besides ht bs) (.refl _)
  have hring := hheld.live (List.mem_append_left _ List.mem_cons_self)
  have hqueue : (k.threads.thread t).queue ≠ 0 := by
    apply hheld.ne_zero
    apply List.mem_append_right
    simp only [Threads.besides, List.mem_cons, true_or, or_true]
  simp only [Threads.kipcSend, hfind, if_neg hqueue] at hr
  obtain ⟨⟨ok', heap, q⟩, hsend, heq⟩ := Option.map_eq_some_iff.mp hr
  obtain ⟨rfl, rfl⟩ := Prod.mk.inj heq
  obtain ⟨hwithin, hspares, hcases⟩ :=
    ipcSendTo_client h.accounts.held.inv (h.accounts.whole t ht).1 hring hsend
  have hkeep : ∀ u ∈ k.threads.entries, ∀ m ∈ (k.threads.queue (k.threads.thread u).queue).pending,
      heap.live m.msg = some m.size := by
    intro u hu m hm
    exact hspares _ _ (h.payload u hu m hm) (h.accounts.payload_ne_ring ht hu hm)
  obtain ⟨rfl, hmem, hpending⟩ | ⟨rfl, copied, hinv, hlive, hfresh, hmem, hpending⟩ := hcases
  · have hsame : ∀ u ∈ k.threads.entries,
        (Function.update k.threads.queue (k.threads.thread t).queue q
          (k.threads.thread u).queue).pending =
        (k.threads.queue (k.threads.thread u).queue).pending := by
      intro u hu
      rw [h.queue_update ht hu]
      split_ifs with hut
      · rw [hpending, hut]
      · rfl
    refine Or.inl ⟨rfl, h.change hacc hwithin (fun u _ a _ => congrFun hmem a) h.current h.running
      (fun u hu m hm => ?_) (fun u hu => ?_) fun a ha => ?_⟩
    · rw [hsame u hu] at hm
      exact hkeep u hu m hm
    · rw [hsame u hu, hmem]
      exact h.mail u hu
    · rw [hmem]
      exact h.mem a ha
  · -- the copy is in a block that no message was in
    have hout : ∀ a, a / 4096 * 4096 ∉ heap.heap.pages → heap.heap.mem a = k.vmm.mem a := by
      intro a ha
      have hapart := HeapState.live_apart hinv hlive ha
      rw [hmem]
      exact Memory.write_outside _ _ _ hapart
    have hread : ∀ u ∈ k.threads.entries,
        ∀ m ∈ (k.threads.queue (k.threads.thread u).queue).pending,
        heap.heap.mem.read m.msg m.size = k.vmm.mem.read m.msg m.size := by
      intro u hu m hm
      have hne := hfresh _ _ (h.payload u hu m hm) (h.accounts.payload_ne_ring ht hu hm)
      have hapart := HeapState.live_disjoint hinv (hkeep u hu m hm) hlive hne
      apply Memory.read_congr
      intro i hi
      rw [hmem]
      apply Memory.write_outside
      omega
    have hold : ∀ u ∈ k.threads.entries, ((k.threads.queue (k.threads.thread u).queue).pending.map
        fun m => (m.sender, heap.heap.mem.read m.msg m.size)) = w.mail u := by
      intro u hu
      rw [← h.mail u hu]
      apply List.map_congr_left
      intro m hm
      rw [hread u hu m hm]
    refine Or.inr ⟨rfl, h.change hacc hwithin (fun u hu a ha => ?_) h.current h.running
      (fun u hu m hm => ?_) (fun u hu => ?_) fun a ha => ?_⟩
    · exact hout a (hwithin _ (h.tables u hu _ ha).1).heap
    · rw [h.queue_update ht hu] at hm
      split_ifs at hm with hut
      · rw [hpending, List.mem_append, List.mem_singleton] at hm
        obtain hm | rfl := hm
        · exact hkeep t ht m hm
        · exact hlive
      · exact hkeep u hu m hm
    · rw [h.queue_update ht hu]
      by_cases hut : u = t
      · rw [if_pos hut, hpending, List.map_append, hold t ht, hut]
        simp only [List.map_cons, List.map_nil, hmem, Memory.read_write, Function.update_self,
          h.tid, h.running]
      · rw [if_neg hut, hold u hu]
        simp only [Function.update_of_ne hut]
    · rw [hout a (hwithin _ (h.own _ ha).1).heap]
      exact h.mem a ha

/-- From the buffer to the mailbox. -/
theorem Posts.sendBuf {kbuf : ℕ} (h : Posts site user blocks frames [kbuf] k w) (raw : RawCells)
    (rdi rsi rdx : Word) (msg : List (BitVec 8)) :
    Answers (fun k' w' => Posts site user blocks frames []
        (k'.setHeap (k'.threads.heap.kfree kbuf)) w') w (MailOp.send rdi rsi rdx).Excuse
      (fun fuel => (k.threads.kipcSend fuel raw rdi.toNat msg).map fun (ok, s) =>
        (if ok then 1 else 0, k.setThreads s))
      (some (match site.threads.find? fun t => decide (site.tid t = rdi.toNat) with
        | none => (0, w)
        | some t =>
          (1, { w with
            mail := Function.update w.mail t (w.mail t ++ [(site.tid w.current, msg)]) }))) := by
  rw [h.findThread]
  obtain ⟨⟨ok, s⟩, hsend⟩ := h.accounts.kipcSend_returns raw rdi.toNat msg
  obtain ⟨fuel, hfuel⟩ := hsend.exists_fuel
  have hcall := hsend.map fun r : Bool × Threads =>
    ((if r.1 then 1 else 0 : ℤ), k.setThreads r.2)
  cases hfind : k.threads.findThread rdi.toNat with
  | none =>
    have hnone : k.threads.kipcSend fuel raw rdi.toNat msg = some (false, k.threads) := by
      rw [Threads.kipcSend, hfind]
    obtain ⟨rfl, rfl⟩ := Prod.mk.inj (Option.some.inj (hfuel.symm.trans hnone))
    exact .done hcall h.kfree
  | some t =>
    obtain ⟨rfl, h'⟩ | ⟨rfl, h'⟩ := h.kipcSend hfind hfuel
    · exact .excused (Or.inr rfl) hcall h'.kfree
    · exact .done hcall h'.kfree

theorem Posts.sysIpcSend (h : Posts site user blocks frames [] k w) (raw : RawCells)
    {rdi rsi rdx : Word} (hp : k.MayRun user (.send rdi rsi rdx)) :
    Answers (Posts site user blocks frames []) w (MailOp.send rdi rsi rdx).Excuse
      (fun fuel => k.sysIpcSend fuel raw rdi rsi rdx) (w.send site rdi rsi rdx) := by
  unfold Kernel.sysIpcSend MailWorld.send
  by_cases hsize : rdx = 0 ∨ syscallMaxBuf < rdx.toNat
  · simp only [if_pos hsize]
    exact .done (.const _) h
  simp only [if_neg hsize]
  apply answers_withBuffer h.accounts.held.inv (Or.inl rfl)
  intro kbuf heap hk
  obtain ⟨fuel, hkf⟩ := hk.exists_fuel
  obtain ⟨h₁, hlive⟩ := h.kmalloc hkf
  by_cases hnull : kbuf = 0
  · rw [if_pos hnull] at h₁ ⊢
    exact h₁
  rw [if_neg hnull] at h₁ ⊢
  apply answers_fromUser h₁.shown (h.shown.seen h₁.shown (hp.2 kbuf heap hk hnull))
    (h₁.hidden (hlive hnull)) (fun hlt => h.shown.ownedBuf h₁.shown hlt hp.1)
    (fun hc => hsize (Or.inl hc)) h₁.kfree
  intro data hlen
  have hread : ((k.setHeap heap).setVmm ((k.setHeap heap).vmm.setMem
      ((k.setHeap heap).vmm.mem.write kbuf data))).vmm.mem.read kbuf rdx.toNat = data := by
    rw [← hlen]
    exact Memory.read_write _ _ _
  simp only [hread]
  exact (h₁.fill (hlive hnull) hlen.le).sendBuf raw rdi rsi rdx data

/-! ## Receiving -/

/-- The first message, or none. -/
theorem Posts.kipcPoll (h : Posts site user blocks frames [] k w) :
    (k.threads.kipcPoll = (none, k.threads) ∧ w.mail w.current = []) ∨
      ∃ m q rest, k.threads.kipcPoll =
          (some m, k.threads.setQueue (k.threads.thread k.threads.currentThread).queue q) ∧
        k.threads.heap.live m.msg = some m.size ∧
        w.mail w.current = (m.sender, k.vmm.mem.read m.msg m.size) :: rest ∧
        Posts site user blocks frames [m.msg]
          (k.setThreads (k.threads.setQueue (k.threads.thread k.threads.currentThread).queue q))
          { w with mail := Function.update w.mail w.current rest } := by
  have hmail := h.mail _ h.current
  rw [h.running] at hmail
  by_cases h0 : k.threads.inbox.count = 0
  · refine Or.inl ⟨Threads.kipcPoll_empty h0, ?_⟩
    have hnone : k.threads.inbox.pending = [] := by
      rw [IpcQueue.pending, h0]
      rfl
    rw [← hmail, mailOf, ← h.running]
    exact congrArg (List.map _) hnone
  · obtain ⟨q, hq⟩ : ∃ q : IpcQueue, q = { k.threads.inbox with
      head := (k.threads.inbox.head + 1) % k.threads.inbox.capacity
      count := k.threads.inbox.count - 1 } := ⟨_, rfl⟩
    obtain ⟨m, hm⟩ : ∃ m, m = k.threads.inbox.cells k.threads.inbox.head := ⟨_, rfl⟩
    have hpoll := Threads.kipcPoll_some h0
    have hpending : k.threads.inbox.pending = m :: q.pending := by
      rw [hm, hq]
      exact ((h.accounts.whole _ h.current).1.pop h0).2
    obtain ⟨-, hacc⟩ := h.accounts.kipcPoll h.current
    rw [hpoll, ← hq, ← hm] at hacc
    rw [← hq, ← hm] at hpoll
    have hfirst : m ∈ k.threads.inbox.pending := by
      rw [hpending]
      exact List.mem_cons_self
    refine Or.inr ⟨m, q, q.pending.map fun m => (m.sender, k.vmm.mem.read m.msg m.size), hpoll,
      h.payload _ h.current m hfirst, ?_, h.change hacc (.refl _)
      (fun _ _ _ _ => rfl) h.current h.running (fun u hu m' hm' => ?_) (fun u hu => ?_) h.mem⟩
    · rw [← hmail, mailOf, ← h.running]
      exact congrArg (List.map _) hpending
    · rw [h.queue_update h.current hu] at hm'
      split_ifs at hm' with hut
      · apply h.payload _ h.current m'
        change m' ∈ k.threads.inbox.pending
        rw [hpending]
        exact List.mem_cons_of_mem m hm'
      · exact h.payload u hu m' hm'
    · rw [h.queue_update h.current hu]
      by_cases hut : u = k.threads.currentThread
      · rw [if_pos hut, hut, h.running]
        symm
        exact Function.update_self ..
      · have hne : u ≠ w.current := by rwa [← h.running]
        simp only [if_neg hut, Function.update_of_ne hne]
        exact h.mail u hu

/-- Into the memory of the current thread. -/
theorem Posts.copyOut (h : Posts site user blocks frames bs k w) {src n : ℕ} (rdi : Word)
    (hsrc : src ≠ 0) (hn : n < 2 ^ 64) (hapart : ∀ a, a / 4096 ∈ user → a < src ∨ src + n ≤ a) :
    ∃ mem, k.vmm.copyToUserAt k.currentCr3 rdi src n =
        some (if (Nyvela.copyOut (site.writable w.current) rdi (k.vmm.mem.read src n) w.mem).1 then 0
          else -1, k.vmm.setMem mem) ∧
      (∀ a, a / 4096 ∉ user → mem a = k.vmm.mem a) ∧
      Posts site user blocks frames bs (k.setVmm (k.vmm.setMem mem)) { w with
        mem := (Nyvela.copyOut (site.writable w.current) rdi (k.vmm.mem.read src n) w.mem).2 } := by
  have hlen := k.vmm.mem.read_length src n
  have huser := h.window _ h.current
  have hclear : rdi.toNat + n ≤ userAreaEnd → userAreaBase ≤ rdi.toNat →
      k.vmm.Clear k.currentCr3 rdi src n := by
    intro hend hstart i hi q hq
    rw [userAreaEnd] at hend
    have hnat : (rdi + BitVec.ofNat 64 i).toNat = rdi.toNat + i :=
      Vmm.toNat_add_ofNat (n := n) (by omega) hi
    have hmem := huser _ (by omega) (by rw [userAreaEnd]; omega) q hq
    exact ⟨fun htab => (h.tables _ h.current _ htab).2.2 hmem, hapart q hmem⟩
  rw [Vmm.copyToUserAt_eq hsrc hn hclear]
  unfold Nyvela.copyOut
  by_cases hok : k.vmm.mem.read src n ≠ [] ∧
      userRangeOk rdi (BitVec.ofNat 64 (k.vmm.mem.read src n).length) = false
  · simp only [if_pos hok]
    exact ⟨_, rfl, fun _ _ => rfl, h⟩
  simp only [if_neg hok]
  have hrange := fun i (hi : i < (k.vmm.mem.read src n).length) =>
    copyOut_range_byte (show (k.vmm.mem.read src n).length < 2 ^ 64 by rwa [hlen]) hok hi
  have hview : putUntil (site.writable w.current) rdi (k.vmm.mem.read src n) w.mem =
      putUntil (k.vmm.userView k.currentCr3) rdi (k.vmm.mem.read src n)
        w.mem := by
    apply putUntil_congr
    intro i hi
    rw [← h.running]
    exact (h.writable _ h.current _ ((hrange i hi).2.trans (by decide))).symm
  rw [hview]
  obtain ⟨hflag, hagree⟩ := putUntil_agree (k.vmm.userView k.currentCr3) rdi
    (k.vmm.mem.read src n) w.mem k.vmm.mem
  have hout : ∀ a, a / 4096 ∉ user → (putUntil (k.vmm.userView
      k.currentCr3) rdi (k.vmm.mem.read src n) k.vmm.mem).2 a =
      k.vmm.mem a := by
    intro a ha
    apply putUntil_frame
    intro i hi hq
    exact ha (huser _ (hrange i hi).1 (hrange i hi).2 a hq)
  refine ⟨_, by rw [hflag], hout, h.setUser hout fun a ha => ?_⟩
  exact hagree a (h.mem a ha)

theorem wordBytes_length (n : ℕ) : (wordBytes n).length = 8 := rfl

theorem bytes_length (m : IpcMsg) : m.bytes.length = 32 := rfl

theorem read_sender (mem : Memory) (out : ℕ) (m : IpcMsg) :
    (mem.write out m.bytes).read (out + 8) 8 = wordBytes m.sender := by
  have hread : (mem.write out m.bytes).read out 32 = m.bytes := Memory.read_write mem out m.bytes
  rw [show 32 = 8 + (8 + 16) from rfl, Memory.read_add, Memory.read_add, IpcMsg.bytes,
    List.append_assoc, List.append_assoc] at hread
  obtain ⟨-, hrest⟩ := List.append_inj hread (by rw [Memory.read_length, wordBytes_length])
  exact (List.append_inj hrest (by rw [Memory.read_length, wordBytes_length])).1

/-- The block of a message that was received is free again. -/
theorem Posts.release {p : ℕ} {mem : Memory}
    (h : Posts site user blocks frames [p] (k.setVmm (k.vmm.setMem mem)) w) :
    Posts site user blocks frames []
      ((k.setThreads (k.threads.kfree p)).setVmm (k.vmm.setMem mem)) w := by
  have hheap : (k.setVmm (k.vmm.setMem mem)).threads.heap.kfree p =
      (k.threads.heap.kfree p).setMem mem := HeapState.kfree_setMem k.threads.heap p mem
  have hpmm : (k.threads.heap.kfree p).setPmm k.threads.heap.heap.pmm =
      k.threads.heap.kfree p := by
    have hframes := (k.threads.heap.heap.kfree_frames p).1
    have hsame : (k.threads.heap.kfree p).heap.pmm = k.threads.heap.heap.pmm := hframes
    rw [← hsame]
    rfl
  have hk : (k.setThreads (k.threads.kfree p)).setVmm (k.vmm.setMem mem) =
      (k.setVmm (k.vmm.setMem mem)).setHeap
        ((k.setVmm (k.vmm.setMem mem)).threads.heap.kfree p) := by
    rw [hheap, ← hpmm]
    rfl
  rw [hk]
  exact h.kfree

/-- What `sys_ipc_poll` does once a message has left the queue. -/
theorem Posts.deliver {m : IpcMsg} (h : Posts site user blocks frames [m.msg] k w)
    (hlive : k.threads.heap.live m.msg = some m.size) {out : ℕ} (hout : k.OnStack out)
    (rdi rsi rdx : Word) :
    ∃ k' w', w.deliver site m.sender (k.vmm.mem.read m.msg m.size) rdi rsi rdx = w' ∧
      ((if rsi.toNat < m.size then
          some (0, k.threads.kfree m.msg, k.vmm.setMem (k.vmm.mem.write out m.bytes))
        else
          ((k.vmm.setMem (k.vmm.mem.write out m.bytes)).copyToUserAt
              k.currentCr3 rdi m.msg m.size).bind fun (r, v) =>
            if r ≠ 0 then some (0, k.threads.kfree m.msg, v)
            else if rdx ≠ 0 then
              (v.copyToUserAt k.currentCr3 rdx (out + 8) 8).bind fun (r, v) =>
                if r ≠ 0 then some (0, k.threads.kfree m.msg, v)
                else some (m.size, k.threads.kfree m.msg, v)
            else some (m.size, k.threads.kfree m.msg, v)).map
        fun (r : ℕ × Threads × Vmm) => ((r.1 : ℤ), (k.setThreads r.2.1).setVmm r.2.2)) =
          some (w'.1, k') ∧ Posts site user blocks frames [] k' w'.2 := by
  obtain ⟨mem, hmem⟩ : ∃ mem, mem = k.vmm.mem.write out m.bytes := ⟨_, rfl⟩
  have hstack : ∀ i < 32, (out + i) / 4096 ∈ k.threads.kernelStacks := fun i hi =>
    List.mem_flatMap.mpr ⟨_, h.current, hout i hi⟩
  have hsame : ∀ a, a / 4096 ∉ k.threads.kernelStacks → mem a = k.vmm.mem a := by
    intro a ha
    rw [hmem]
    apply Memory.write_outside
    rw [bytes_length]
    by_contra hin
    apply ha
    have := hstack (a - out) (by omega)
    rwa [show out + (a - out) = a by omega] at this
  have h₁ : Posts site user blocks frames [m.msg] (k.setVmm (k.vmm.setMem mem)) w :=
    h.setStack hsame
  have hlen := k.vmm.mem.read_length m.msg m.size
  obtain ⟨f, hpage, hlo, hhi⟩ := HeapState.live_page h.accounts.held.inv hlive
  have hread : mem.read m.msg m.size = k.vmm.mem.read m.msg m.size := by
    apply Memory.read_congr
    intro i hi
    apply hsame
    rw [show (m.msg + i) / 4096 = f by omega]
    intro hf
    exact h.stack_not_page hf hpage
  rw [← hmem]
  unfold MailWorld.deliver
  rw [hlen]
  by_cases hfit : rsi.toNat < m.size
  · rw [if_pos hfit, if_pos hfit]
    exact ⟨_, _, rfl, rfl, h₁.release⟩
  rw [if_neg hfit, if_neg hfit]
  obtain ⟨mem₂, hcopy, hout₂, h₂⟩ := h₁.copyOut rdi (show m.msg ≠ 0 by omega)
    (show m.size < 2 ^ 64 by omega) fun a ha =>
      HeapState.live_apart h.accounts.held.inv hlive (h.own _ ha).1.heap
  change (k.vmm.setMem mem).copyToUserAt k.currentCr3 rdi m.msg m.size =
    some (if (Nyvela.copyOut (site.writable w.current) rdi (mem.read m.msg m.size) w.mem).1 then 0
      else -1, k.vmm.setMem mem₂) at hcopy
  change Posts site user blocks frames [m.msg] (k.setVmm (k.vmm.setMem mem₂)) { w with
    mem := (Nyvela.copyOut (site.writable w.current) rdi (mem.read m.msg m.size) w.mem).2 } at h₂
  rw [hread] at hcopy h₂
  generalize Nyvela.copyOut (site.writable w.current) rdi (k.vmm.mem.read m.msg m.size) w.mem = r
    at hcopy h₂ ⊢
  obtain ⟨flag, wmem⟩ := r
  rw [hcopy, Option.bind_some]
  cases flag with
  | false => exact ⟨_, _, rfl, rfl, h₂.release⟩
  | true =>
    simp only [Bool.true_eq_false, if_false, if_true, ne_eq, not_true_eq_false]
    by_cases hrdx : rdx = 0
    · simp only [hrdx, not_true_eq_false, if_false, if_true]
      exact ⟨_, _, rfl, rfl, h₂.release⟩
    simp only [hrdx, not_false_eq_true, if_false, if_true]
    have hsender : mem₂.read (out + 8) 8 = wordBytes m.sender := by
      rw [← read_sender k.vmm.mem out m, ← hmem]
      apply Memory.read_congr
      intro i hi
      apply hout₂
      intro huser
      apply (h.own _ huser).2
      rw [Nat.add_assoc]
      exact hstack (8 + i) (by omega)
    have hclear : ∀ a, a / 4096 ∈ user → a < out + 8 ∨ out + 8 + 8 ≤ a := by
      intro a ha
      by_contra hin
      apply (h.own _ ha).2
      rw [show a = out + (a - out) by omega]
      exact hstack (a - out) (by omega)
    obtain ⟨mem₃, hcopy₃, -, h₃⟩ := h₂.copyOut rdx (show out + 8 ≠ 0 by omega)
      (show 8 < 2 ^ 64 by omega) hclear
    change (k.vmm.setMem mem₂).copyToUserAt k.currentCr3 rdx (out + 8) 8 =
      some (if (Nyvela.copyOut (site.writable w.current) rdx (mem₂.read (out + 8) 8) wmem).1 then 0
        else -1, k.vmm.setMem mem₃) at hcopy₃
    change Posts site user blocks frames [m.msg] (k.setVmm (k.vmm.setMem mem₃)) { w with
      mem := (Nyvela.copyOut (site.writable w.current) rdx (mem₂.read (out + 8) 8) wmem).2 } at h₃
    rw [hsender] at hcopy₃ h₃
    generalize Nyvela.copyOut (site.writable w.current) rdx (wordBytes m.sender) wmem = r
      at hcopy₃ h₃ ⊢
    obtain ⟨flag, wmem₃⟩ := r
    rw [hcopy₃, Option.bind_some]
    cases flag with
    | false => exact ⟨_, _, rfl, rfl, h₃.release⟩
    | true => exact ⟨_, _, rfl, rfl, h₃.release⟩

theorem Posts.sysIpcPoll (h : Posts site user blocks frames [] k w) {out : ℕ} (hout : k.OnStack out)
    (rdi rsi rdx : Word) : ∃ k', k.sysIpcPoll out rdi rsi rdx =
        some ((w.poll site rdi rsi rdx).1, k') ∧
      Posts site user blocks frames [] k' (w.poll site rdi rsi rdx).2 := by
  unfold Kernel.sysIpcPoll MailWorld.poll polled Threads.sysIpcPollAt
  obtain ⟨hpoll, hmail⟩ | ⟨m, q, rest, hpoll, hlive, hmail, h₁⟩ := h.kipcPoll
  · rw [hpoll, hmail]
    exact ⟨_, rfl, h⟩
  rw [hpoll, hmail]
  obtain ⟨k', w', rfl, hcall, h'⟩ := h₁.deliver hlive hout rdi rsi rdx
  exact ⟨k', hcall, h'⟩

/-! ## Runs of calls -/

theorem Posts.store (h : Posts site user blocks frames [] k w) {virt : Word}
    (hlo : userAreaBase ≤ virt.toNat) (hhi : virt.toNat < userAreaEnd)
    (hw : k.vmm.UserWritable k.currentCr3 virt) (b : BitVec 8)
    (raw : RawCells) (out : ℕ) :
    Answers (Posts site user blocks frames []) w (MailOp.store virt b).Excuse
      (fun fuel => k.runMail fuel raw out (.store virt b)) (w.run site (.store virt b)) := by
  have ho : k.vmm.Owned user k.currentCr3 virt := by
    intro q hq
    rw [← Vmm.userView_of_writable hw] at hq
    exact h.window _ h.current virt hlo hhi q hq
  have hvirt : virt.toNat < 2 ^ 30 := hhi.trans (by decide)
  unfold Kernel.runMail MailWorld.run
  obtain ⟨hnone, hnone'⟩ | ⟨m, m', hput, hput', hout, hin⟩ := h.shown.put (l := [b]) hvirt ho.buf
  · simp only [hnone, hnone']
    exact .fault ⟨0, fun _ _ => rfl⟩
  · simp only [hput, hput']
    exact .done (.const _) (h.setUser hout hin)

theorem Posts.switch (h : Posts site user blocks frames [] k w) {t : ℕ}
    (ht : t ∈ k.threads.entries) :
    Posts site user blocks frames [] (k.setThreads { k.threads with currentThread := t })
      { w with current := t } := by
  have hacc : Threads.Accounts { k.threads with
      heap := k.threads.heap
      queue := k.threads.queue
      currentThread := t } blocks frames [] [] :=
    ⟨h.accounts.held, h.accounts.room, h.accounts.whole⟩
  exact h.change hacc (.refl _) (fun _ _ _ _ => rfl) ht rfl h.payload h.mail h.mem

theorem Posts.runMail (h : Posts site user blocks frames [] k w) {op : MailOp}
    (hop : k.MayRun user op) (raw : RawCells) {out : ℕ} (hout : k.OnStack out) :
    Answers (Posts site user blocks frames []) w op.Excuse (fun fuel => k.runMail fuel raw out op)
      (w.run site op) := by
  cases op with
  | send rdi rsi rdx => exact h.sysIpcSend raw hop
  | poll rdi rsi rdx =>
    obtain ⟨k', hcall, h'⟩ := h.sysIpcPoll hout rdi rsi rdx
    exact .done ⟨0, fun _ _ => hcall⟩ h'
  | store virt b => exact h.store hop.1 hop.2.1 hop.2.2 b raw out
  | switch t => exact .done (.const _) (h.switch hop)

theorem Posts.step (h : Posts site user blocks frames [] k w) {e : MailEvent} {k' : Kernel}
    (hstep : (mailSystem user).step k e k') :
    ∃ w', (MailWorld.system site).step w e w' ∧ Posts site user blocks frames [] k' w' := by
  obtain ⟨hop, raw, out, hout, hret⟩ := hstep
  obtain ⟨w', hw', h'⟩ | ⟨hexcuse, h'⟩ := (h.runMail hop raw hout).of_returns hret
  · exact ⟨w', Or.inl hw', h'⟩
  · exact ⟨w, Or.inr ⟨hexcuse, rfl⟩, h'⟩

end

/-! ## A thread that writes to itself -/

end Kernel

end Nyvela
