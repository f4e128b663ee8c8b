import Nyvela.Scheduler

/-!
# The table of threads

Threads come and go: `spawn_thread` enters one, and `sys_free_thread`, `exec_reap` and
`fault_recovery` take one out. The last two are given a pointer and do not ask whether the
thread is still there. As long as it is, the table lists distinct threads in the order of
their numbers.
-/

namespace Nyvela

inductive LifeOp
  | call (op : CallOp)
  | userspace (t : ℕ)
  | tick
  | yield (f ret flags : Word)
  | exit (code : Word)
  | sysFreeThread (tid : ℕ)
  | execReap (child : ℕ) (bitmap : Bitmap)
  | fault

namespace ThreadWorld

/-- `kuserspace_init` makes the first thread the current one, and from then on there is one.
`exec_reap` frees the pages of the child, which are neither pages of the heap nor stacks. -/
inductive LifeStep : ThreadWorld → LifeOp → ThreadWorld → Prop
  | call {w w' : ThreadWorld} {op : CallOp} : w.Call op w' → LifeStep w (.call op) w'
  | userspace {w : ThreadWorld} {t : ℕ} : w.threads.currentThread = 0 → w.threads.entries = [t] →
    LifeStep w (.userspace t) { w with threads := { w.threads with currentThread := t } }
  | tick {w : ThreadWorld} : w.threads.currentThread ≠ 0 →
    LifeStep w .tick { w with threads := w.threads.schedulerTick.2 }
  | yield {w : ThreadWorld} {f ret flags : Word} : w.threads.currentThread ≠ 0 →
    LifeStep w (.yield f ret flags) { w with threads := (w.threads.sysYield f ret flags).2 }
  | exit {w : ThreadWorld} {code : Word} {c : ℕ} {s : Threads} : w.threads.currentThread ≠ 0 →
    w.threads.sysExit code = some (c, s) → LifeStep w (.exit code) { w with threads := s }
  | sysFreeThread {w : ThreadWorld} {tid : ℕ} {r : ℤ} {s : Threads} :
    w.threads.currentThread ≠ 0 → w.threads.sysFreeThread tid = some (r, s) →
    LifeStep w (.sysFreeThread tid) { w with threads := s }
  | execReap {w : ThreadWorld} {child : ℕ} {bitmap : Bitmap} {s : Threads} :
    w.threads.currentThread ≠ 0 →
    (∀ page ∈ w.threads.heap.heap.pages, bitmap.test (page / 4096) = false) →
    (∀ f ∈ w.threads.kernelStacks, bitmap.test f = false) →
    w.threads.execReap child bitmap = some s →
    LifeStep w (.execReap child bitmap)
      { w with
        threads := s
        frames := w.threads.heap.othersFrames
          (w.threads.heap.setPmm { w.threads.heap.heap.pmm with bitmap := bitmap }) w.frames }
  | fault {w : ThreadWorld} {c : ℕ} {s : Threads} : w.threads.currentThread ≠ 0 →
    w.threads.faultRecovery = some (c, s) → LifeStep w .fault { w with threads := s }

end ThreadWorld

def lifeSystem : System ThreadWorld LifeOp where
  init := ThreadWorld.Boots
  step := ThreadWorld.LifeStep

namespace Threads

variable {s s' : Threads} {blocks frames : Set ℕ} {t : ℕ}

/-- Some threads may have left the table; the numbers of the others are as before. -/
structure Thins (s s' : Threads) : Prop where
  entries : s'.entries.Sublist s.entries
  tid : ∀ t, (s'.thread t).tid = (s.thread t).tid
  next : s'.nextThreadId = s.nextThreadId

/-- The parts of a thread that the scheduler does not write are as before, and so is the table. -/
structure Dispatches (s s' : Threads) : Prop where
  heap : s'.heap = s.heap
  queue : s'.queue = s.queue
  cells : s'.cells = s.cells
  table : s'.threads = s.threads ∧ s'.length = s.length ∧ s'.cap = s.cap
  next : s'.nextThreadId = s.nextThreadId
  thread : ∀ t, (s'.thread t).tid = (s.thread t).tid ∧ (s'.thread t).context = (s.thread t).context ∧
    (s'.thread t).kernelStack = (s.thread t).kernelStack ∧ (s'.thread t).queue = (s.thread t).queue

theorem Dispatches.entries (h : s.Dispatches s') : s'.entries = s.entries := by
  rw [Threads.entries, Threads.entries, h.table.2.1, h.cells]

theorem Dispatches.thins (h : s.Dispatches s') : s.Thins s' :=
  ⟨h.entries ▸ .refl _, fun t => (h.thread t).1, h.next⟩

theorem Accounts.dispatches {bs fs : List ℕ} (ha : s.Accounts blocks frames bs fs)
    (h : s.Dispatches s') : s'.Accounts blocks frames bs fs := by
  have howned : s'.owned = s.owned := by
    funext t
    obtain ⟨-, hcontext, -, hqueue⟩ := h.thread t
    rw [owned, owned, hcontext, hqueue, h.queue]
  have hstack : s'.stackFrames = s.stackFrames := by
    funext t
    rw [stackFrames, stackFrames, (h.thread t).2.2.1]
  refine ⟨?_, ?_, fun t ht => ?_⟩
  · rw [Threads.blocks, kernelStacks, tableBlock, h.entries, howned, hstack, h.heap, h.table.1,
      h.table.2.2]
    exact ha.held
  · rw [h.table.2.1, h.table.2.2]
    exact ha.room
  · obtain ⟨-, -, hk, hq⟩ := h.thread t
    rw [Whole, hk, hq, h.queue]
    exact ha.whole t (h.entries ▸ ht)

theorem Dispatches.trans {s'' : Threads} (h : s.Dispatches s') (h' : s'.Dispatches s'') :
    s.Dispatches s'' where
  heap := h'.heap.trans h.heap
  queue := h'.queue.trans h.queue
  cells := h'.cells.trans h.cells
  table := by rw [h'.table.1, h'.table.2.1, h'.table.2.2]; exact h.table
  next := h'.next.trans h.next
  thread t := by
    obtain ⟨h₁, h₂, h₃, h₄⟩ := h'.thread t
    rw [h₁, h₂, h₃, h₄]
    exact h.thread t

theorem dispatches_current (s : Threads) (t : ℕ) (context : ℕ → ThreadContext) (rsp0 : Word) :
    s.Dispatches { s with currentThread := t, context := context, rsp0 := rsp0 } :=
  ⟨rfl, rfl, rfl, ⟨rfl, rfl, rfl⟩, rfl, fun _ => ⟨rfl, rfl, rfl, rfl⟩⟩

/-- What `scheduler_tick` switches to. -/
theorem schedulerTick_eq (s : Threads) :
    s.schedulerTick = ((s.thread s.schedulerNext).context,
      { s with
        currentThread := s.schedulerNext
        rsp0 := (s.thread s.schedulerNext).kernelStack + 4096 * 2 }) := by
  unfold schedulerTick
  by_cases h : s.schedulerNext = s.currentThread
  · simp only [h, if_true]
  · simp only [h, if_false]

theorem dispatches_schedulerTick (s : Threads) : s.Dispatches s.schedulerTick.2 := by
  rw [schedulerTick_eq]
  exact dispatches_current ..

theorem dispatches_sysYield (s : Threads) (f ret flags : Word) :
    s.Dispatches (s.sysYield f ret flags).2 := by
  unfold sysYield
  split_ifs
  · exact dispatches_current ..
  · exact dispatches_current s s.currentThread s.context s.rsp0

/-- A thread that exits is `DEAD`, and the one that `scheduler_next` names goes on. -/
theorem sysExit_eq {code : Word} {c : ℕ} (hr : s.sysExit code = some (c, s')) :
    ∃ s₁, s₁ = s.setThread s.currentThread
        { s.thread s.currentThread with exitCode := code, state := .dead } ∧
      s₁.canSwitch s₁.schedulerNext = true ∧ (c, s') = s₁.switchTo s₁.schedulerNext := by
  unfold sysExit at hr
  split_ifs at hr with h0
  dsimp only at hr
  split_ifs at hr with hswitch
  exact ⟨_, rfl, hswitch, (Option.some.inj hr).symm⟩

theorem dispatches_sysExit {code : Word} {c : ℕ} (hr : s.sysExit code = some (c, s')) :
    s.Dispatches s' := by
  obtain ⟨s₁, hs₁, -, heq⟩ := sysExit_eq hr
  obtain ⟨-, rfl⟩ := Prod.mk.inj heq
  have hdead : s.Dispatches s₁ := by
    subst hs₁
    refine ⟨rfl, rfl, rfl, ⟨rfl, rfl, rfl⟩, rfl, fun t => ?_⟩
    by_cases ht : t = s.currentThread
    · rw [ht]
      simp only [setThread, Function.update_self, and_self]
    · simp only [setThread, Function.update_of_ne ht, and_self]
  exact hdead.trans (dispatches_current ..)

theorem freeQueue_store (s : Threads) (queue : ℕ) :
    ∃ h, s.freeQueue queue = { s with heap := h } := by
  have hpayloads := foldl_kfree s ((List.range (s.queue queue).count).map fun i =>
    ((s.queue queue).cells (((s.queue queue).head + i) % (s.queue queue).capacity)).msg)
  rw [List.foldl_map] at hpayloads
  rw [freeQueue, hpayloads]
  split_ifs <;> exact ⟨_, rfl⟩

/-- `free_thread` writes nothing but the heap and the frames. -/
theorem freeThread_store (hr : s.freeThread t = some s') : ∃ h, s' = { s with heap := h } := by
  unfold freeThread at hr
  by_cases ht : t = 0
  · rw [if_pos ht] at hr
    exact ⟨s.heap, (Option.some.inj hr).symm⟩
  rw [if_neg ht] at hr
  obtain ⟨s₁, hstack, hs'⟩ := Option.map_eq_some_iff.mp hr
  obtain ⟨h₁, rfl⟩ : ∃ h, s₁ = { s with heap := h } := by
    split_ifs at hstack
    · exact ⟨s.heap, (Option.some.inj hstack).symm⟩
    · obtain ⟨pmm, -, rfl⟩ := Option.map_eq_some_iff.mp hstack
      exact ⟨_, rfl⟩
  obtain ⟨h₂, hcontext⟩ : ∃ h, (if (s.thread t).context = 0 then { s with heap := h₁ } else
      kfree { s with heap := h₁ } (s.thread t).context) = { s with heap := h } := by
    split_ifs <;> exact ⟨_, rfl⟩
  obtain ⟨h₃, hqueue⟩ : ∃ h, (if (s.thread t).queue = 0 then { s with heap := h₂ } else
      freeQueue { s with heap := h₂ } (s.thread t).queue) = { s with heap := h } := by
    split_ifs
    · exact ⟨_, rfl⟩
    · exact freeQueue_store { s with heap := h₂ } _
  simp only [hcontext, hqueue] at hs'
  exact ⟨_, hs'.symm⟩

theorem removeEntry_keeps (s : Threads) (t : ℕ) :
    (s.removeEntry t).thread = s.thread ∧ (s.removeEntry t).nextThreadId = s.nextThreadId ∧
      (s.removeEntry t).currentThread = s.currentThread := by
  obtain ⟨cells, n, hs, -⟩ := s.removeEntry_store t
  rw [hs]
  exact ⟨rfl, rfl, rfl⟩

/-- Only the named entry leaves the table. -/
structure Removes (s : Threads) (t : ℕ) (s' : Threads) : Prop where
  entries : s'.entries = s.entries.erase t
  thread : s'.thread = s.thread
  next : s'.nextThreadId = s.nextThreadId
  current : s'.currentThread = s.currentThread

theorem Removes.thins (h : s.Removes t s') : s.Thins s' :=
  ⟨h.entries ▸ List.erase_sublist, fun u => by rw [h.thread], h.next⟩

/-- Take a thread out of the table and free it. -/
theorem removes_freeThread (hr : (s.removeEntry t).freeThread t = some s') : s.Removes t s' := by
  obtain ⟨h, rfl⟩ := freeThread_store hr
  obtain ⟨hthread, hnext, hcurrent⟩ := removeEntry_keeps s t
  exact ⟨entries_removeEntry s t, hthread, hnext, hcurrent⟩

theorem removes_execReap {bitmap : Bitmap} (hr : s.execReap t bitmap = some s') :
    s.Removes t s' := by
  obtain ⟨h, rfl⟩ := freeThread_store hr
  obtain ⟨hthread, hnext, hcurrent⟩ := removeEntry_keeps s t
  exact ⟨entries_removeEntry s t, hthread, hnext, hcurrent⟩

theorem sysFreeThread_eq {tid : ℕ} {r : ℤ} (hr : s.sysFreeThread tid = some (r, s')) :
    r = -1 ∧ s' = s ∨ r = 0 ∧ ∃ t ∈ s.entries, (s.thread t).tid = tid ∧ t ≠ s.currentThread ∧
      (s.removeEntry t).freeThread t = some s' := by
  unfold sysFreeThread at hr
  split_ifs at hr with hself
  · obtain ⟨rfl, rfl⟩ := Prod.mk.inj (Option.some.inj hr)
    exact .inl ⟨rfl, rfl⟩
  cases hfind : s.findThread tid with
  | none =>
    simp only [hfind] at hr
    obtain ⟨rfl, rfl⟩ := Prod.mk.inj (Option.some.inj hr)
    exact .inl ⟨rfl, rfl⟩
  | some t =>
    simp only [hfind] at hr
    obtain ⟨s₁, hfree, heq⟩ := Option.map_eq_some_iff.mp hr
    obtain ⟨rfl, rfl⟩ := Prod.mk.inj heq
    obtain ⟨ht, htid⟩ := mem_of_findThread hfind
    refine .inr ⟨rfl, t, ht, htid, ?_, hfree⟩
    rintro rfl
    exact hself (.inr (.inr htid.symm))

/-- The fault of a thread: it goes, and the scheduler names the next one. -/
theorem faultRecovery_eq {c : ℕ} (h0 : s.currentThread ≠ 0) (hr : s.faultRecovery = some (c, s')) :
    ∃ s₁, (s.removeEntry s.currentThread).freeThread s.currentThread = some s₁ ∧
      (c, s') = s₁.schedulerTick := by
  unfold faultRecovery at hr
  dsimp only at hr
  rw [if_neg h0] at hr
  obtain ⟨s₁, hfree, heq⟩ := Option.map_eq_some_iff.mp hr
  exact ⟨s₁, hfree, heq.symm⟩

end Threads

/-! ## Runs -/

namespace ThreadWorld

variable {w w' : ThreadWorld}

/-- `exec_reap` and `fault_recovery` name a thread of the table. -/
def NamesEntry (w : ThreadWorld) : LifeOp → Prop
  | .execReap child _ => child ∈ w.threads.entries
  | .fault => w.threads.currentThread ∈ w.threads.entries
  | _ => True

/-- The books of a thread of the table that `exec_reap` frees. -/
theorem Inv.execReap (hw : w.Inv) {child : ℕ} {bitmap : Bitmap} {s : Threads}
    (hchild : child ∈ w.threads.entries)
    (hpages : ∀ page ∈ w.threads.heap.heap.pages, bitmap.test (page / 4096) = false)
    (hstacks : ∀ f ∈ w.threads.kernelStacks, bitmap.test f = false)
    (hr : w.threads.execReap child bitmap = some s) :
    s.Accounts w.blocks (w.threads.heap.othersFrames
      (w.threads.heap.setPmm { w.threads.heap.heap.pmm with bitmap := bitmap }) w.frames) [] [] := by
  have hacc := Threads.Accounts.removeEntry hw hchild
  have hwhole : w.threads.Whole child := hw.whole child hchild
  have hentries := w.threads.entries_removeEntry child
  obtain ⟨cells, n, hs, -⟩ := w.threads.removeEntry_store child
  rw [Threads.execReap, hs] at hr
  rw [hs] at hacc hentries
  -- the stack of the child is still in use when its pages are freed
  have hheld := hacc.held.others (show HeapState.Step _ (.frames bitmap) _ from .frames hpages)
    (fun hc => hacc.held.ne_zero hc rfl) fun f hf => hstacks f ?_
  · have hblocks : w.threads.heap.othersBlocks
        (w.threads.heap.setPmm { w.threads.heap.heap.pmm with bitmap := bitmap }) w.blocks =
        w.blocks := by
      ext p
      have hused := hacc.held.block.mem_used p
      simp only [HeapState.othersBlocks, HeapState.setPmm_live, Set.mem_ofPred_eq] at hused ⊢
      tauto
    have hheld' := hblocks ▸ hheld
    obtain ⟨h, hcall, hfreed, -⟩ := Threads.Accounts.freeThread
      (s := Threads.setPmm { w.threads with cells := cells, length := n }
        { w.threads.heap.heap.pmm with bitmap := bitmap }) ⟨hheld', hacc.room, hacc.whole⟩ hwhole
    obtain rfl := Option.some.inj (hr.symm.trans hcall)
    exact hfreed
  · refine (Threads.perm_kernelStacks hchild).mem_iff.mpr ?_
    rw [Threads.kernelStacks, hentries, List.append_nil] at hf
    exact hf

/-- With that, a step keeps the books, and enters a thread or thins the table out. -/
theorem LifeStep.inv {op : LifeOp} (hw : w.Inv) (hok : w.NamesEntry op) (hs : w.LifeStep op w') :
    w'.Inv ∧ ((∃ t, w.threads.Grows t w'.threads ∧
      (w'.threads.nextThreadId = w.threads.nextThreadId ∨
        ∃ raw entry cr3, op = .call (.spawn raw entry cr3))) ∨ w.threads.Thins w'.threads) := by
  cases hs with
  | call hc =>
    obtain ⟨hinv, t, hgrows, hnext⟩ := hc.inv hw
    refine ⟨hinv, .inl ⟨t, hgrows, hnext.imp_right ?_⟩⟩
    rintro ⟨raw, entry, cr3, rfl⟩
    exact ⟨raw, entry, cr3, rfl⟩
  | @userspace t =>
    have hd := w.threads.dispatches_current t w.threads.context w.threads.rsp0
    exact ⟨Threads.Accounts.dispatches hw hd, .inr hd.thins⟩
  | tick =>
    have hd := w.threads.dispatches_schedulerTick
    exact ⟨Threads.Accounts.dispatches hw hd, .inr hd.thins⟩
  | @yield f ret flags =>
    have hd := w.threads.dispatches_sysYield f ret flags
    exact ⟨Threads.Accounts.dispatches hw hd, .inr hd.thins⟩
  | exit _ hr =>
    have hd := Threads.dispatches_sysExit hr
    exact ⟨Threads.Accounts.dispatches hw hd, .inr hd.thins⟩
  | sysFreeThread _ hr =>
    rcases Threads.sysFreeThread_eq hr with ⟨-, rfl⟩ | ⟨-, t, ht, -, -, hfree⟩
    · exact ⟨hw, .inr ⟨.refl _, fun _ => rfl, rfl⟩⟩
    · obtain ⟨s, hcall, -, hinv⟩ := hw.free ht
      obtain rfl := Option.some.inj (hfree.symm.trans hcall)
      exact ⟨hinv, .inr (Threads.removes_freeThread hfree).thins⟩
  | execReap _ hpages hstacks hr =>
    exact ⟨hw.execReap hok hpages hstacks hr, .inr (Threads.removes_execReap hr).thins⟩
  | fault h0 hr =>
    obtain ⟨s₁, hfree, heq⟩ := Threads.faultRecovery_eq h0 hr
    obtain ⟨s, hcall, -, hinv⟩ := hw.free hok
    obtain rfl := Option.some.inj (hfree.symm.trans hcall)
    obtain ⟨-, rfl⟩ := Prod.mk.inj heq
    have hd := s₁.dispatches_schedulerTick
    refine ⟨Threads.Accounts.dispatches hinv hd, .inr ?_⟩
    have hthin := (Threads.removes_freeThread hfree).thins
    exact ⟨hd.thins.entries.trans hthin.entries,
      fun t => (hd.thins.tid t).trans (hthin.tid t), hd.thins.next.trans hthin.next⟩

/-- Distinct threads in the order of their numbers. -/
structure Ordered (s : Threads) : Prop where
  room : s.length ≤ s.cap
  distinct : s.entries.Nodup
  tid : ∀ t ∈ s.entries, (s.thread t).tid ≠ 0 ∧ (s.thread t).tid < s.nextThreadId
  increasing : (s.entries.map fun t => (s.thread t).tid).Pairwise (· < ·)

/-- The numbers of the threads of the table. -/
def Numbered (s : Threads) : Prop :=
  0 < s.nextThreadId ∧
    (∀ t ∈ s.entries, (s.thread t).tid ≠ 0 ∧ (s.thread t).tid < s.nextThreadId) ∧
    (s.entries.map fun t => (s.thread t).tid).Pairwise (· < ·)

theorem Numbered.ordered (h : Numbered w.threads) (hw : w.Inv) : Ordered w.threads := by
  refine ⟨hw.room, ?_, h.2.1, h.2.2⟩
  exact .of_map _ (h.2.2.imp Nat.ne_of_lt)

theorem Numbered.thins {s s' : Threads} (h : Numbered s) (hs : s.Thins s') : Numbered s' := by
  have htids : (fun t => (s'.thread t).tid) = fun t => (s.thread t).tid := funext hs.tid
  refine ⟨hs.next ▸ h.1, fun t ht => ?_, ?_⟩
  · rw [hs.tid, hs.next]
    exact h.2.1 t (hs.entries.subset ht)
  · rw [htids]
    exact h.2.2.sublist (hs.entries.map _)

theorem Numbered.grows {s s' : Threads} {t : ℕ} (h : Numbered s) (hs : s.Grows t s')
    (hnext : s'.nextThreadId = s.nextThreadId ∨ s.nextThreadId + 1 < 2 ^ 64) : Numbered s' := by
  obtain ⟨hpos, htid, hincr⟩ := h
  have hle : s.nextThreadId ≤ s'.nextThreadId := by
    rcases hnext with hnext | hlt
    · omega
    · rcases hs.next with hn | hn <;> omega
  have hold : s.entries.map (fun u => (s'.thread u).tid) = s.entries.map fun u => (s.thread u).tid :=
    List.map_congr_left fun u hu => by rw [hs.thread u hu]
  have hkept : ∀ u ∈ s.entries, (s'.thread u).tid ≠ 0 ∧ (s'.thread u).tid < s'.nextThreadId := by
    intro u hu
    have := htid u hu
    rw [hs.thread u hu]
    omega
  have hentries := hs.entries
  split_ifs at hentries with h0
  · rw [Numbered, hentries, hold]
    exact ⟨by omega, hkept, hincr⟩
  · obtain ⟨-, hnew, -, hn⟩ := hs.fresh h0
    rw [Numbered, hentries, List.map_append, hold, List.map_singleton, hnew]
    refine ⟨by omega, fun u hu => ?_, ?_⟩
    · rcases List.mem_append.mp hu with hu | hu
      · exact hkept u hu
      · rw [List.mem_singleton.mp hu, hnew]
        omega
    · refine List.pairwise_append.mpr ⟨hincr, List.pairwise_singleton .., ?_⟩
      intro a ha b hb
      obtain ⟨u, hu, rfl⟩ := List.mem_map.mp ha
      rw [List.mem_singleton.mp hb]
      exact (htid u hu).2

/-- The threads that are named are in the table, and `next_thread_id` does not wrap around. -/
def Orderly (w : ThreadWorld) (op : LifeOp) : Prop :=
  w.NamesEntry op ∧
    ∀ raw entry cr3, op = .call (.spawn raw entry cr3) → w.threads.nextThreadId + 1 < 2 ^ 64

theorem numbered_of_reachable (hw : (lifeSystem.restrict Orderly).Reachable w) :
    w.Inv ∧ Numbered w.threads := by
  have hinit : ∀ w, (lifeSystem.restrict Orderly).init w → w.Inv ∧ Numbered w.threads := by
    intro w hb
    have hnil : w.threads.entries = [] := by
      rw [Threads.entries, hb.length, List.range_zero, List.map_nil]
    refine ⟨hb.inv, ?_⟩
    rw [Numbered, hnil, hb.next]
    exact ⟨by decide, by simp, .nil⟩
  have hstep : ∀ w op w', w.Inv ∧ Numbered w.threads →
      (lifeSystem.restrict Orderly).step w op w' → w'.Inv ∧ Numbered w'.threads := by
    rintro w op w' ⟨hinv, hnum⟩ ⟨⟨hnames, hlimit⟩, hstep⟩
    obtain ⟨hinv', ⟨t, hgrows, hnext⟩ | hthins⟩ := LifeStep.inv hinv hnames hstep
    · refine ⟨hinv', hnum.grows hgrows (hnext.imp_right ?_)⟩
      rintro ⟨raw, entry, cr3, hop⟩
      exact hlimit raw entry cr3 hop
    · exact ⟨hinv', hnum.thins hthins⟩
  exact hw.invariant hinit hstep

/-- In every run of such steps the table is in order, what is taken out of it is the named
entry, and a `spawn_thread` that fails leaves it as it was. -/
theorem thread_table_ordered (hw : (lifeSystem.restrict Orderly).Reachable w) :
    Ordered w.threads ∧
      (∀ tid r s, w.threads.sysFreeThread tid = some (r, s) →
        (r = -1 ∧ s.entries = w.threads.entries) ∨
          (r = 0 ∧ ∃ t ∈ w.threads.entries, (w.threads.thread t).tid = tid ∧
            s.entries = w.threads.entries.erase t)) ∧
      (∀ child bitmap s, w.threads.execReap child bitmap = some s →
        s.entries = w.threads.entries.erase child) ∧
      (∀ c s, w.threads.currentThread ≠ 0 → w.threads.faultRecovery = some (c, s) →
        s.entries = w.threads.entries.erase w.threads.currentThread) ∧
      ∀ fuel raw entry cr3 s, w.threads.spawnThread fuel raw entry cr3 = some (0, s) →
        s.entries = w.threads.entries := by
  obtain ⟨hinv, hnum⟩ := numbered_of_reachable hw
  refine ⟨hnum.ordered hinv, fun tid r s hr => ?_, fun child bitmap s hr => ?_, fun c s h0 hr => ?_,
    fun fuel raw entry cr3 s hr => ?_⟩
  · rcases Threads.sysFreeThread_eq hr with ⟨hcode, rfl⟩ | ⟨hcode, t, ht, htid, -, hfree⟩
    · exact .inl ⟨hcode, rfl⟩
    · exact .inr ⟨hcode, t, ht, htid, (Threads.removes_freeThread hfree).entries⟩
  · exact (Threads.removes_execReap hr).entries
  · obtain ⟨s₁, hfree, heq⟩ := Threads.faultRecovery_eq h0 hr
    obtain ⟨-, rfl⟩ := Prod.mk.inj heq
    exact s₁.dispatches_schedulerTick.entries.trans (Threads.removes_freeThread hfree).entries
  · exact (Threads.Accounts.spawnThread hinv hr).2.entries

/-- The other parts of the kernel allocate a block. -/
def kmalloc (w : ThreadWorld) (size : ℕ) : Option ThreadWorld :=
  (w.threads.heap.kmalloc 40 size).bind fun (_, h) =>
    if ∀ f ∈ w.threads.kernelStacks, h.heap.pmm.bitmap.test f = false then
      some { threads := { w.threads with heap := h }
             blocks := w.threads.heap.othersBlocks h w.blocks
             frames := w.threads.heap.othersFrames h w.frames }
    else none

def spawn (w : ThreadWorld) : Option ThreadWorld :=
  (w.threads.spawnThread 40 ⟨fun _ => 0, fun _ => ⟨0, 0, 0, 0⟩⟩ 0x400000 0x1000).map fun r =>
    { w with threads := r.2 }

theorem reachable_kmalloc {size : ℕ} (hw : lifeSystem.Reachable w)
    (hr : w.kmalloc size = some w') : lifeSystem.Reachable w' := by
  obtain ⟨⟨q, h⟩, hk, hr⟩ := Option.bind_eq_some_iff.mp hr
  dsimp only at hr
  split_ifs at hr with hkeep
  obtain rfl := Option.some.inj hr
  exact hw.step (.call (.others (.kmalloc hk) (.inl rfl) hkeep))

theorem reachable_spawn (hw : lifeSystem.Reachable w) (hr : w.spawn = some w') :
    lifeSystem.Reachable w' := by
  obtain ⟨⟨t, s⟩, hcall, rfl⟩ := Option.map_eq_some_iff.mp hr
  exact hw.step (.call (.spawn hcall))

/-- The first thread exits while a second one runs, and that faults. No thread is `READY`, so
the freed one goes on. It makes a thread, whose `thread_t` is where the ring of the freed one
was, and faults again: now the `thread_t` is free too, and the next thread gets it. -/
theorem thread_table_repeats : ∃ w, lifeSystem.Reachable w ∧ ¬w.threads.entries.Nodup := by
  have hrun : (sixteenMiB.spawn.bind fun w₁ =>
      let w₂ := { w₁ with threads := { w₁.threads with currentThread := 0x200070 } }
      (w₂.kmalloc 3440).bind fun w₃ => w₃.spawn.bind fun w₄ => (w₄.kmalloc 16).bind fun w₅ =>
      (w₅.threads.sysExit 0).bind fun r₆ => r₆.2.faultRecovery.bind fun r₇ =>
      (spawn { w₅ with threads := r₇.2 }).bind fun w₈ => w₈.threads.faultRecovery.bind fun r₉ =>
      (spawn { w₈ with threads := r₉.2 }).map fun w =>
        decide (w₁.threads.currentThread = 0 ∧ w₁.threads.entries = [0x200070] ∧
          w₅.threads.currentThread ≠ 0 ∧ r₆.2.currentThread ≠ 0 ∧ w₈.threads.currentThread ≠ 0 ∧
          ¬w.threads.entries.Nodup)) = some true := by decide +kernel
  obtain ⟨w₁, h₁, hrun⟩ := Option.bind_eq_some_iff.mp hrun
  obtain ⟨w₃, h₃, hrun⟩ := Option.bind_eq_some_iff.mp hrun
  obtain ⟨w₄, h₄, hrun⟩ := Option.bind_eq_some_iff.mp hrun
  obtain ⟨w₅, h₅, hrun⟩ := Option.bind_eq_some_iff.mp hrun
  obtain ⟨r₆, h₆, hrun⟩ := Option.bind_eq_some_iff.mp hrun
  obtain ⟨r₇, h₇, hrun⟩ := Option.bind_eq_some_iff.mp hrun
  obtain ⟨w₈, h₈, hrun⟩ := Option.bind_eq_some_iff.mp hrun
  obtain ⟨r₉, h₉, hrun⟩ := Option.bind_eq_some_iff.mp hrun
  obtain ⟨w, hw, hrun⟩ := Option.map_eq_some_iff.mp hrun
  obtain ⟨hnull, hfirst, hcur₅, hcur₆, hcur₈, hdup⟩ := of_decide_eq_true hrun
  refine ⟨w, ?_, hdup⟩
  have hr₁ := reachable_spawn (.init sixteenMiB_boots) h₁
  have hr₅ := reachable_kmalloc (reachable_spawn (reachable_kmalloc
    (hr₁.step (.userspace hnull hfirst)) h₃) h₄) h₅
  have hr₆ := hr₅.step (.exit hcur₅ h₆)
  have hr₈ := reachable_spawn (hr₆.step (.fault hcur₆ h₇)) h₈
  exact reachable_spawn (hr₈.step (.fault hcur₈ h₉)) hw

/-- The first thread, before any fault. -/
theorem thread_table_ordered_first : ∃ w, (lifeSystem.restrict Orderly).Reachable w ∧
    w.threads.entries = [0x200070] ∧ Ordered w.threads := by
  have hr : (sixteenMiB.threads.spawnThread 8 ⟨fun _ => 0, fun _ => ⟨0, 0, 0, 0⟩⟩ 0x400000
      0x1000).map (fun r => r.2.entries) = some [0x200070] := by decide +kernel
  obtain ⟨r, hr, hentries⟩ := Option.map_eq_some_iff.mp hr
  have hok : Orderly sixteenMiB
      (.call (.spawn ⟨fun _ => 0, fun _ => ⟨0, 0, 0, 0⟩⟩ 0x400000 0x1000)) :=
    ⟨trivial, fun _ _ _ _ => show 1 + 1 < 2 ^ 64 by decide⟩
  have hw : (lifeSystem.restrict Orderly).Reachable { sixteenMiB with threads := r.2 } :=
    .step (.init sixteenMiB_boots) ⟨hok, .call (.spawn hr)⟩
  exact ⟨_, hw, hentries, (thread_table_ordered hw).1⟩

end ThreadWorld

end Nyvela
