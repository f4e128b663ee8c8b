import Nyvela.ThreadMemory

/-!
# No thread keeps or loses memory

In any run of `spawn_thread`, `sys_ipc_send`, `sys_ipc_poll` and `free_thread`, whatever the
rest of the kernel does with its own blocks and frames, the threads have exactly their own.
A thread is freed when it is out of the table, as by all callers of `free_thread`.
-/

namespace Nyvela

namespace Threads

/-! ## The calls return -/

section returns

variable {s : Threads} {blocks frames : Set ℕ} {bs fs : List ℕ} {t f : ℕ}

theorem Accounts.kmalloc_returns (ha : s.Accounts blocks frames bs fs) (size : ℕ) :
    ∃ r, Returns (fun fuel => s.kmalloc fuel size) r :=
  Returns.exists_map (HeapState.kmalloc_returns ha.held.inv size) _

theorem exists_returns {α : Type*} {x : Option α} {r : α} (h : x = some r) :
    ∃ r, Returns (fun _ => x) r :=
  ⟨r, 0, fun _ _ => h⟩

theorem Accounts.allocateTable_returns (ha : s.Accounts blocks frames [] fs) (raw : RawCells) :
    ∃ r, Returns (fun fuel => s.allocateTable fuel raw) r := by
  unfold Threads.allocateTable
  split_ifs
  · exact Returns.exists_map (ha.kmalloc_returns _) _
  · exact exists_returns rfl

theorem Accounts.allocateQueue_returns {thread context : ℕ}
    (ha : s.Accounts blocks frames [context, thread] (f :: (f + 1) :: fs)) (raw : RawCells) :
    ∃ r, Returns (fun fuel => s.allocateQueue fuel raw thread context (Pmm.physOf f)) r := by
  refine Returns.exists_bind (ha.kmalloc_returns 40) fun ⟨queue, s₁⟩ fuel hk => ?_
  obtain ⟨h₁, rfl, ha₁⟩ := ha.kmalloc hk
  by_cases hqueue : queue = 0
  · simp only [hqueue, if_true] at ha₁ ⊢
    obtain ⟨h, hcall, -⟩ := Accounts.giveBack (l := [thread, context])
      (ha₁.perm (.swap ..) (.refl _) : Accounts _ _ _ ([thread, context] ++ []) _)
    exact exists_returns hcall
  simp only [hqueue, if_false] at ha₁ ⊢
  refine Returns.exists_bind (ha₁.kmalloc_returns (32 * 4)) fun ⟨ring, s₂⟩ fuel hk => ?_
  obtain ⟨h₂, rfl, ha₂⟩ := ha₁.kmalloc hk
  by_cases hring : ring = 0
  · simp only [hring, if_true] at ha₂ ⊢
    obtain ⟨h, hcall, -⟩ := Accounts.giveBack (l := [queue, thread, context])
      (ha₂.perm (.cons _ (.swap ..)) (.refl _) :
        Accounts _ _ _ ([queue, thread, context] ++ []) _)
    exact exists_returns hcall
  · simp only [hring, if_false]
    exact exists_returns rfl

theorem Accounts.allocateThread_returns (ha : s.Accounts blocks frames [] fs) (raw : RawCells) :
    ∃ r, Returns (fun fuel => s.allocateThread fuel raw) r := by
  refine Returns.exists_bind (ha.allocateTable_returns raw) fun ⟨ok, s₀⟩ fuel htable => ?_
  obtain ⟨-, ha₀, -⟩ := ha.allocateTable htable
  cases ok with
  | false => exact exists_returns rfl
  | true =>
    refine Returns.exists_bind (ha₀.kmalloc_returns 48) fun ⟨thread, s₁⟩ fuel hk => ?_
    obtain ⟨h₁, rfl, ha₁⟩ := ha₀.kmalloc hk
    by_cases hthread : thread = 0
    · simp only [hthread, if_true]
      exact exists_returns rfl
    simp only [hthread, if_false] at ha₁ ⊢
    obtain ⟨h₂, hs₂, hstack⟩ := ha₁.kpallocStack
    rw [hs₂] at hstack
    simp only [hs₂]
    rcases hstack with ⟨hnull, -⟩ | ⟨f, hf, ha₂⟩
    · simp only [hnull, if_true]
      exact exists_returns rfl
    · simp only [hf]
      split_ifs
      · exact exists_returns rfl
      refine Returns.exists_bind (ha₂.kmalloc_returns 168) fun ⟨context, s₃⟩ fuel hk => ?_
      obtain ⟨h₃, rfl, ha₃⟩ := ha₂.kmalloc hk
      by_cases hcontext : context = 0
      · simp only [hcontext, if_true] at ha₃ ⊢
        obtain ⟨h, hcall, -⟩ := Accounts.giveBack (l := [thread]) ha₃
        exact exists_returns hcall
      · simp only [hcontext, if_false] at ha₃ ⊢
        exact (ha₃.setContext context _).allocateQueue_returns raw

theorem Accounts.enterThread_returns
    (ha : s.Accounts blocks frames (s.owned t) (s.stackFrames t ++ fs)) (hw : s.Whole t)
    (raw : RawCells) : ∃ r, Returns (fun fuel => s.enterThread fuel raw t) r := by
  unfold Threads.enterThread
  split_ifs
  · refine Returns.exists_bind (ha.kmalloc_returns _) fun ⟨tmp, s₁⟩ fuel hk => ?_
    obtain ⟨h₁, rfl, ha₁⟩ := ha.kmalloc hk
    by_cases htmp : tmp = 0
    · simp only [htmp, if_true] at ha₁ ⊢
      have hback : ({ s with heap := h₁ } : Threads).Accounts blocks frames
          (owned { s with heap := h₁ } t ++ []) (stackFrames { s with heap := h₁ } t ++ fs) :=
        ha₁.perm (by rw [List.append_nil]; exact .refl _) (.refl _)
      obtain ⟨h₂, hcall, -⟩ := hback.freeThread hw
      exact exists_returns (congrArg (Option.map _) hcall)
    · simp only [htmp, if_false]
      exact exists_returns rfl
  · exact exists_returns rfl

theorem Accounts.spawnThread_returns (ha : s.Accounts blocks frames [] fs) (raw : RawCells)
    (entry cr3 : Word) : ∃ r, Returns (fun fuel => s.spawnThread fuel raw entry cr3) r := by
  unfold Threads.spawnThread
  split_ifs
  · exact exists_returns rfl
  refine Returns.exists_bind (ha.allocateThread_returns raw) fun ⟨t, s₁⟩ fuel halloc => ?_
  obtain ⟨-, ⟨ht, -⟩ | ⟨ht, -, ha₁, hw₁⟩⟩ := ha.allocateThread halloc
  · simp only [ht, if_true]
    exact exists_returns rfl
  · simp only [ht, if_false]
    obtain ⟨ha₂, hw₂⟩ := ha₁.setEntry hw₁ _ _ _ rfl
    exact ha₂.enterThread_returns hw₂ raw

theorem ipcSendTo_returns {h : HeapState} {q : IpcQueue}
    (hh : h.Held blocks frames (q.blocks ++ bs) fs) (hq : q.Wf) (raw : ℕ → IpcMsg)
    (sender target : ℕ) (msg : List (BitVec 8)) :
    ∃ r, Returns (fun fuel => Nyvela.ipcSendTo fuel raw h q sender target msg) r := by
  obtain ⟨n, r, hr⟩ := Ipc.ipcMakeRoom_total hh.inv raw q
  refine Returns.exists_bind ⟨r, n, fun fuel hf => Ipc.ipcMakeRoom_mono hr hf⟩
    fun ⟨room, h₁, q₁⟩ fuel hroom => ?_
  obtain ⟨hh₁, -⟩ := hh.ipcMakeRoom hq hroom
  cases room with
  | false => exact exists_returns rfl
  | true =>
    refine Returns.exists_bind (HeapState.kmalloc_returns hh₁.inv _) fun ⟨copied, h₂⟩ _ _ => ?_
    by_cases h0 : copied = 0
    · simp only [h0, if_true]
      exact exists_returns rfl
    · simp only [h0, if_false]
      exact exists_returns rfl

theorem Accounts.kipcSend_returns (ha : s.Accounts blocks frames bs fs) (raw : RawCells)
    (target : ℕ) (msg : List (BitVec 8)) :
    ∃ r, Returns (fun fuel => s.kipcSend fuel raw target msg) r := by
  unfold Threads.kipcSend
  cases hfind : s.findThread target with
  | none => exact exists_returns rfl
  | some t =>
    obtain ⟨ht, -⟩ := mem_of_findThread hfind
    dsimp only
    split_ifs
    · exact exists_returns rfl
    · have hheld := ha.held.perm (perm_besides ht bs) (.refl _)
      exact Returns.exists_map
        (ipcSendTo_returns hheld (ha.whole t ht).1 raw.msgs _ target msg) _

theorem Accounts.sysIpcSend_returns (ha : s.Accounts blocks frames [] []) (raw : RawCells)
    (target : ℕ) (msg : List (BitVec 8)) (readable : Bool) :
    ∃ r, Returns (fun fuel => s.sysIpcSend fuel raw target msg readable) r := by
  unfold Threads.sysIpcSend
  by_cases hsize : msg.length = 0 ∨ syscallMaxBuf < msg.length
  · simp only [hsize, if_true]
    exact exists_returns rfl
  simp only [hsize, if_false]
  refine Returns.exists_bind (ha.kmalloc_returns _) fun ⟨kbuf, s₁⟩ fuel hk => ?_
  obtain ⟨h₁, rfl, ha₁⟩ := ha.kmalloc hk
  by_cases hkbuf : kbuf = 0
  · simp only [hkbuf, if_true]
    exact exists_returns rfl
  simp only [hkbuf, if_false] at ha₁ ⊢
  cases readable with
  | false => exact exists_returns rfl
  | true =>
    have ha₂ : ({ s with heap := h₁.setMem (h₁.heap.mem.write kbuf msg) } : Threads).Accounts
        blocks frames [kbuf] [] := ⟨ha₁.held.setMem _, ha₁.room, ha₁.whole⟩
    exact Returns.exists_map (ha₂.kipcSend_returns raw target msg) _

end returns

end Threads

/-! ## The rest of the kernel -/

namespace HeapState

/-- The blocks of the others after a step: those they had and did not free, and those that
they took. -/
def othersBlocks (h h' : HeapState) (blocks : Set ℕ) : Set ℕ :=
  {p | (h'.live p).isSome ∧ (p ∈ blocks ∨ ¬(h.live p).isSome)}

/-- Their frames, which do not count the pages of the heap. -/
def othersFrames (h h' : HeapState) (frames : Set ℕ) : Set ℕ :=
  {f | h'.heap.pmm.bitmap.test f = false ∧ f * 4096 ∉ h'.heap.pages ∧
    (f ∈ frames ∨ h.heap.pmm.bitmap.test f = true)}

/-- The heap never gives a page back, and takes only free frames. -/
def PagesGrow (h h' : HeapState) : Prop :=
  (∀ P ∈ h.heap.pages, P ∈ h'.heap.pages) ∧
    (∀ f, f * 4096 ∈ h'.heap.pages → f * 4096 ∈ h.heap.pages ∨ h.heap.pmm.bitmap.test f = true) ∧
    h'.heap.pmm.frameCount = h.heap.pmm.frameCount

theorem pagesGrow_of_draws {h h' : HeapState} (hd : h.heap.Draws h'.heap) : h.PagesGrow h' := by
  rcases hd with ⟨hpmm, hpages⟩ | ⟨g, hg, hpages, hcount, -⟩
  · exact ⟨fun P hP => hpages ▸ hP, fun f hf => .inl (hpages ▸ hf), by rw [hpmm]⟩
  · refine ⟨fun P hP => by simp [hpages, hP], fun f hf => ?_, hcount⟩
    rw [hpages, List.mem_append, List.mem_singleton] at hf
    rcases hf with hf | hf
    · exact .inl hf
    · obtain rfl : f = g := by omega
      exact .inr hg

theorem Step.pagesGrow {h h' : HeapState} {op : HeapOp} (hs : Step h op h') : h.PagesGrow h' := by
  cases hs with
  | kmalloc hr => exact pagesGrow_of_draws (kmalloc_draws hr)
  | krealloc _ hr => exact pagesGrow_of_draws (krealloc_draws hr)
  | @kfree ptr _ => exact pagesGrow_of_draws (.inl (h.heap.kfree_frames ptr))
  | frames _ => exact ⟨fun _ hP => hP, fun _ hf => .inl hf, rfl⟩

theorem Held.others {h h' : HeapState} {blocks frames : Set ℕ} {bs fs : List ℕ} {op : HeapOp}
    (hh : h.Held blocks frames bs fs) (hs : Step h op h') (htarget : op.target ∉ bs)
    (hkeep : ∀ f ∈ fs, h'.heap.pmm.bitmap.test f = false) :
    h'.Held (h.othersBlocks h' blocks) (h.othersFrames h' frames) bs fs := by
  have hinv : h'.Inv := inv_step hh.inv hs
  obtain ⟨hpages, hdrawn, hcount⟩ := hs.pagesGrow
  refine ⟨hinv, hh.block.others fun p hp => ?_, ?_, fun f hf => hcount ▸ hh.bound f hf⟩
  · obtain ⟨n, hn⟩ := Option.isSome_iff_exists.mp (hh.live hp)
    have hlive := (step_keeps hh.inv hs hn (by rintro rfl; exact htarget hp)).1
    exact Option.isSome_iff_exists.mpr ⟨n, hlive⟩
  · have hledger := hh.frame.others
      (show ∀ f ∈ fs, f ∈ {f | h'.heap.pmm.bitmap.test f = false} from hkeep)
    have hrest : {f | f ∈ {f | h'.heap.pmm.bitmap.test f = false} ∧
        (f ∈ {f | f * 4096 ∈ h.heap.pages} ∪ frames ∨
          f ∉ {f | h.heap.pmm.bitmap.test f = false})} =
        {f | f * 4096 ∈ h'.heap.pages} ∪ h.othersFrames h' frames := by
      obtain ⟨bks, hw, -⟩ := hinv
      ext f
      have hin := hpages (f * 4096)
      have hused := hw.pagesUsed (f * 4096)
      rw [Nat.mul_div_cancel f (by decide)] at hused
      have hfrom := hdrawn f
      simp only [othersFrames, Set.mem_union, Set.mem_ofPred_eq, Bool.not_eq_false]
      tauto
    rw [hrest] at hledger
    exact hledger

end HeapState

/-! ## Runs -/

/-- The threads, and what the rest of the kernel has. -/
structure ThreadWorld where
  threads : Threads
  blocks : Set ℕ
  frames : Set ℕ

/-- The calls that leave the threads of the table in it. -/
inductive CallOp
  | spawn (raw : RawCells) (entry cr3 : Word)
  | ipcSend (raw : RawCells) (target : ℕ) (msg : List (BitVec 8)) (readable : Bool)
  | ipcPoll (capacity : ℕ) (writable : Bool) (senderOut : ℕ) (senderWritable : Bool)
  | contexts
  | others (op : HeapOp)

namespace ThreadWorld

/-- The thread that polls is in the table. The rest of the kernel stores contexts, and
allocates and frees on its own behalf. -/
inductive Call : ThreadWorld → CallOp → ThreadWorld → Prop
  | spawn {w : ThreadWorld} {fuel : ℕ} {raw : RawCells} {entry cr3 : Word} {t : ℕ} {s : Threads} :
    w.threads.spawnThread fuel raw entry cr3 = some (t, s) →
    Call w (.spawn raw entry cr3) { w with threads := s }
  | ipcSend {w : ThreadWorld} {fuel : ℕ} {raw : RawCells} {target : ℕ} {msg : List (BitVec 8)}
      {readable : Bool} {r : ℤ} {s : Threads} :
    w.threads.sysIpcSend fuel raw target msg readable = some (r, s) →
    Call w (.ipcSend raw target msg readable) { w with threads := s }
  | ipcPoll {w : ThreadWorld} {capacity : ℕ} {writable : Bool} {senderOut : ℕ}
      {senderWritable : Bool} : w.threads.currentThread ∈ w.threads.entries →
    Call w (.ipcPoll capacity writable senderOut senderWritable)
      { w with threads := (w.threads.sysIpcPoll capacity writable senderOut senderWritable).2 }
  | contexts {w : ThreadWorld} {context : ℕ → ThreadContext} {rsp0 : Word} :
    Call w .contexts { w with threads := { w.threads with context := context, rsp0 := rsp0 } }
  | others {w : ThreadWorld} {op : HeapOp} {h : HeapState} : w.threads.heap.Step op h →
    op.target = 0 ∨ op.target ∈ w.blocks →
    (∀ f ∈ w.threads.kernelStacks, h.heap.pmm.bitmap.test f = false) →
    Call w (.others op)
      { threads := { w.threads with heap := h }
        blocks := w.threads.heap.othersBlocks h w.blocks
        frames := w.threads.heap.othersFrames h w.frames }

/-- The heap is there and no thread is. -/
structure Boots (w : ThreadWorld) : Prop where
  heap : heapSystem.Reachable w.threads.heap
  length : w.threads.length = 0
  cap : w.threads.cap = 0
  next : w.threads.nextThreadId = 1
  current : w.threads.currentThread = 0
  blocks : w.blocks = {p | (w.threads.heap.live p).isSome}
  frames : w.frames = {f | w.threads.heap.heap.pmm.bitmap.test f = false ∧
    f * 4096 ∉ w.threads.heap.heap.pages}

def Inv (w : ThreadWorld) : Prop := w.threads.Accounts w.blocks w.frames [] []

variable {w w' : ThreadWorld}

theorem Boots.inv (hw : w.Boots) : w.Inv := by
  have hinv : w.threads.heap.Inv := hw.heap.invariant (fun _ => HeapState.inv_init)
    fun _ _ _ => HeapState.inv_step
  refine Threads.accounts_of_empty hw.length ?_
  rw [Threads.tableBlock, if_pos hw.cap, hw.blocks, hw.frames]
  exact HeapState.Held.of_inv hinv

/-- Every call keeps the books, and the threads that are in the table. -/
theorem Call.inv {op : CallOp} (hw : w.Inv) (hc : w.Call op w') :
    w'.Inv ∧ ∃ t, w.threads.Grows t w'.threads ∧
      (w'.threads.nextThreadId = w.threads.nextThreadId ∨
        ∃ raw entry cr3, op = .spawn raw entry cr3) := by
  have hsame : ∀ {s : Threads} {q : Prop}, s.entries = w.threads.entries →
      s.thread = w.threads.thread → s.currentThread = w.threads.currentThread →
      s.nextThreadId = w.threads.nextThreadId →
      ∃ t, w.threads.Grows t s ∧ (s.nextThreadId = w.threads.nextThreadId ∨ q) :=
    fun he ht hcur hnext =>
      ⟨0, ⟨he, fun u _ => by rw [ht], hcur, .inl hnext, fun hc => absurd rfl hc⟩, .inl hnext⟩
  cases hc with
  | spawn hr =>
    obtain ⟨hacc, hspawn⟩ := Threads.Accounts.spawnThread hw hr
    exact ⟨hacc, _, hspawn.toGrows, .inr ⟨_, _, _, rfl⟩⟩
  | ipcSend hr =>
    obtain ⟨hacc, ⟨h, Q, rfl⟩, -⟩ := Threads.Accounts.sysIpcSend hw hr
    exact ⟨hacc, hsame rfl rfl rfl rfl⟩
  | ipcPoll hcur =>
    obtain ⟨hacc, h, Q, hs⟩ := Threads.Accounts.sysIpcPoll hw hcur
    refine ⟨hacc, ?_⟩
    rw [hs]
    exact hsame rfl rfl rfl rfl
  | contexts => exact ⟨⟨hw.held, hw.room, hw.whole⟩, hsame rfl rfl rfl rfl⟩
  | others hstep htarget hkeep =>
    refine ⟨⟨hw.held.others hstep ?_ hkeep, hw.room, hw.whole⟩, hsame rfl rfl rfl rfl⟩
    rcases htarget with h0 | hmem
    · exact fun hc => hw.held.ne_zero hc h0
    · exact fun hc => hw.held.block.apart _ hc hmem

/-! ## Freeing -/

/-- What is in use are the blocks and stacks of the threads of the table, the array of them,
and what others have. -/
structure InUse (w : ThreadWorld) : Prop where
  blocks : Ledger {p | (w.threads.heap.live p).isSome} w.blocks w.threads.blocks
  frames : Ledger {f | w.threads.heap.heap.pmm.bitmap.test f = false}
    ({f | f * 4096 ∈ w.threads.heap.heap.pages} ∪ w.frames) w.threads.kernelStacks

theorem Inv.inUse (hw : w.Inv) : w.InUse := ⟨hw.held.block, hw.held.frame⟩

/-- `t` leaves the table and what it has is freed, each block and frame once. -/
structure Frees (s : Threads) (t : ℕ) (s' : Threads) : Prop where
  entries : s'.entries = s.entries.erase t
  thread : s'.thread = s.thread
  queue : s'.queue = s.queue
  distinct : (s.owned t).Nodup ∧ (s.stackFrames t).Nodup
  releases : s.Releases t s'.heap
  live : {p | (s'.heap.live p).isSome} = {p | (s.heap.live p).isSome ∧ p ∉ s.owned t}
  used : {f | s'.heap.heap.pmm.bitmap.test f = false} =
    {f | s.heap.heap.pmm.bitmap.test f = false ∧ f ∉ s.stackFrames t}

theorem foldl_kfree_live (h : HeapState) (l : List ℕ) :
    {p | ((l.foldl HeapState.kfree h).live p).isSome} = {p | (h.live p).isSome ∧ p ∉ l} := by
  induction l generalizing h with
  | nil => simp
  | cons q l ih =>
    rw [List.foldl_cons, ih]
    ext p
    by_cases hp : p = q <;> simp [HeapState.kfree, hp]

theorem foldl_kfree_pmm (h : HeapState) (l : List ℕ) :
    (l.foldl HeapState.kfree h).heap.pmm = h.heap.pmm := by
  induction l generalizing h with
  | nil => rfl
  | cons q l ih => rw [List.foldl_cons, ih, HeapState.kfree, (h.heap.kfree_frames q).1]

/-- A thread of the table can be freed. -/
theorem Inv.free (hw : w.Inv) {t : ℕ} (ht : t ∈ w.threads.entries) :
    ∃ s, (w.threads.removeEntry t).freeThread t = some s ∧ Frees w.threads t s ∧
      Inv { w with threads := s } := by
  have hentries := w.threads.entries_removeEntry t
  have hacc := Threads.Accounts.removeEntry hw ht
  have hwhole : w.threads.Whole t := hw.whole t ht
  obtain ⟨cells, n, hs, -⟩ := w.threads.removeEntry_store t
  rw [hs] at hacc hentries ⊢
  obtain ⟨h, hcall, hacc', hrel⟩ := Threads.Accounts.freeThread hacc hwhole
  have hrel' : w.threads.Releases t h := hrel
  refine ⟨_, hcall, ⟨hentries, rfl, rfl, ?_, hrel', ?_, ?_⟩, hacc'⟩
  · have hblocks := (List.nodup_append.mp hacc.held.block.nodup).1
    have hframes := (List.nodup_append.mp hacc.held.frame.nodup).1
    rw [List.append_nil] at hblocks hframes
    exact ⟨hblocks, hframes⟩
  · obtain ⟨l, pmm, hperm, rfl, -⟩ := hrel'
    simp only [foldl_kfree_live, hperm.mem_iff]
    rfl
  · obtain ⟨l, pmm, -, rfl, htest⟩ := hrel'
    simp only [foldl_kfree_pmm, HeapState.setPmm_pmm, htest, Bool.or_eq_false_iff,
      decide_eq_false_iff_not]

end ThreadWorld

/-- Threads are dispatched and their states change. -/
inductive ThreadOp
  | call (op : CallOp)
  | freeThread (t : ℕ)
  | dispatch

/-- As all its callers do, `free_thread` gets `NULL` or a thread that was taken out of the
table. -/
inductive ThreadWorld.Step : ThreadWorld → ThreadOp → ThreadWorld → Prop
  | call {w w' : ThreadWorld} {op : CallOp} : w.Call op w' → Step w (.call op) w'
  | freeNull {w : ThreadWorld} {s : Threads} : w.threads.freeThread 0 = some s →
    Step w (.freeThread 0) { w with threads := s }
  | freeThread {w : ThreadWorld} {t : ℕ} {s : Threads} : t ∈ w.threads.entries →
    (w.threads.removeEntry t).freeThread t = some s →
    Step w (.freeThread t) { w with threads := s }
  | dispatch {w : ThreadWorld} {current : ℕ} {state : ℕ → ThreadState} {exitCode : ℕ → Word} :
    Step w .dispatch { w with threads := { w.threads with
      currentThread := current
      thread := fun t => { w.threads.thread t with state := state t, exitCode := exitCode t } } }

def threadSystem : System ThreadWorld ThreadOp where
  init := ThreadWorld.Boots
  step := ThreadWorld.Step

namespace ThreadWorld

variable {w w' : ThreadWorld}

theorem Step.inv {op : ThreadOp} (hw : w.Inv) (hs : w.Step op w') : w'.Inv := by
  cases hs with
  | call hc => exact (hc.inv hw).1
  | freeNull hr =>
    obtain rfl := Option.some.inj hr
    exact hw
  | freeThread ht hr =>
    obtain ⟨s, hcall, -, hinv⟩ := hw.free ht
    obtain rfl := Option.some.inj (hr.symm.trans hcall)
    exact hinv
  | dispatch => exact ⟨hw.held, hw.room, hw.whole⟩

theorem inv_of_reachable (hw : threadSystem.Reachable w) : w.Inv :=
  hw.invariant (fun _ => Boots.inv) fun _ _ _ => Step.inv

/-- The threads have exactly their own blocks and stacks in every state of every run; the
calls return; one that fails leaves every thread what it had; and `free_thread` gives back
what the thread has and nothing else. -/
theorem thread_memory_conserved (hw : threadSystem.Reachable w) :
    w.InUse ∧
      (∀ raw entry cr3, ∃ r, Returns (fun fuel => w.threads.spawnThread fuel raw entry cr3) r) ∧
      (∀ raw target msg readable, ∃ r,
        Returns (fun fuel => w.threads.sysIpcSend fuel raw target msg readable) r) ∧
      (∀ fuel raw entry cr3 s, w.threads.spawnThread fuel raw entry cr3 = some (0, s) →
        InUse { w with threads := s } ∧ s.entries = w.threads.entries ∧
          ∀ t ∈ w.threads.entries, s.owned t = w.threads.owned t ∧
            s.stackFrames t = w.threads.stackFrames t) ∧
      (∀ fuel raw target msg readable r s,
        w.threads.sysIpcSend fuel raw target msg readable = some (r, s) → r ≠ 1 →
        InUse { w with threads := s } ∧ s.entries = w.threads.entries ∧
          s.thread = w.threads.thread ∧
          ∀ t ∈ w.threads.entries, (s.queue (s.thread t).queue).pending =
            (w.threads.queue (w.threads.thread t).queue).pending) ∧
      ∀ t ∈ w.threads.entries, ∃ s, (w.threads.removeEntry t).freeThread t = some s ∧
        Frees w.threads t s ∧ InUse { w with threads := s } := by
  have hinv := inv_of_reachable hw
  refine ⟨hinv.inUse, Threads.Accounts.spawnThread_returns hinv,
    Threads.Accounts.sysIpcSend_returns hinv, ?spawn, ?send, ?free⟩
  case spawn =>
    intro fuel raw entry cr3 s hr
    obtain ⟨hacc, hspawn⟩ := Threads.Accounts.spawnThread hinv hr
    refine ⟨⟨hacc.held.block, hacc.held.frame⟩, hspawn.entries, fun t ht => ?_⟩
    rw [Threads.owned, Threads.owned, Threads.stackFrames, Threads.stackFrames,
      hspawn.thread t ht, hspawn.queue t ht]
    exact ⟨rfl, rfl⟩
  case send =>
    intro fuel raw target msg readable r s hr hne
    obtain ⟨hacc, ⟨h, Q, rfl⟩, hpending⟩ := Threads.Accounts.sysIpcSend hinv hr
    exact ⟨⟨hacc.held.block, hacc.held.frame⟩, rfl, rfl, hpending hne⟩
  case free =>
    intro t ht
    obtain ⟨s, hcall, hfrees, hinv'⟩ := hinv.free ht
    exact ⟨s, hcall, hfrees, hinv'.inUse⟩

/-- A machine right after `kmalloc_init`. -/
def sixteenMiB : ThreadWorld where
  threads :=
    { heap := HeapState.sixteenMiB
      thread := fun _ => ⟨0, 0, 0, .dead, 0, 0⟩
      context := fun _ => ⟨0, 0, 0, 0, 0, 0⟩
      queue := fun _ => ⟨0, fun _ => ⟨0, 0, 0, 0⟩, 0, 0, 0, 0⟩
      threads := 0, cells := fun _ => 0, length := 0, cap := 0
      nextThreadId := 1, currentThread := 0, rsp0 := 0 }
  blocks := {p | (HeapState.sixteenMiB.live p).isSome}
  frames := {f | HeapState.sixteenMiB.heap.pmm.bitmap.test f = false ∧
    f * 4096 ∉ HeapState.sixteenMiB.heap.pages}

theorem sixteenMiB_boots : sixteenMiB.Boots :=
  ⟨HeapState.sixteenMiB_reachable, rfl, rfl, rfl, rfl, rfl, rfl⟩

/-- The first thread of that machine. -/
theorem thread_memory_conserved_first : ∃ w, threadSystem.Reachable w ∧
    w.threads.entries = [0x200070] ∧ w.InUse ∧
    ∃ s, (w.threads.removeEntry 0x200070).freeThread 0x200070 = some s ∧
      Frees w.threads 0x200070 s := by
  have hr : (sixteenMiB.threads.spawnThread 8 ⟨fun _ => 0, fun _ => ⟨0, 0, 0, 0⟩⟩ 0x400000
      0x1000).map (fun r => r.2.entries) = some [0x200070] := by decide +kernel
  obtain ⟨r, hr, hentries⟩ := Option.map_eq_some_iff.mp hr
  have hw : threadSystem.Reachable { sixteenMiB with threads := r.2 } :=
    .step (.init sixteenMiB_boots) (.call (.spawn hr))
  obtain ⟨huse, -, -, -, -, hfree⟩ := thread_memory_conserved hw
  obtain ⟨s, hcall, hfrees, -⟩ := hfree 0x200070 (by rw [hentries]; exact List.mem_singleton_self _)
  exact ⟨_, hw, hentries, huse, s, hcall, hfrees⟩

end ThreadWorld

end Nyvela
