import Nyvela.IpcFifo
import Nyvela.Lib.Ledger
import Nyvela.Thread

/-!
# The memory of threads

What a thread has of the heap is its `thread_t`, its context, its queue, the ring of it, and
the payloads that wait there; of the frames it has the two of its kernel stack. The heap has
nothing else in use for threads but the table.
-/

namespace Nyvela

/-! ## Blocks and frames -/

/-- `bs` and `fs` are in use besides what the rest of the kernel has, and the pages of the
heap. -/
structure HeapState.Held (h : HeapState) (blocks frames : Set ℕ) (bs fs : List ℕ) : Prop where
  inv : h.Inv
  block : Ledger {p | (h.live p).isSome} blocks bs
  frame : Ledger {f | h.heap.pmm.bitmap.test f = false} ({f | f * 4096 ∈ h.heap.pages} ∪ frames) fs
  bound : ∀ f ∈ fs, 0 < f ∧ f < h.heap.pmm.frameCount

namespace HeapState.Held

variable {h h' : HeapState} {blocks frames : Set ℕ} {bs bs' fs fs' : List ℕ} {fuel size q p f : ℕ}

theorem perm (hh : h.Held blocks frames bs fs) (hb : bs.Perm bs') (hf : fs.Perm fs') :
    h.Held blocks frames bs' fs' :=
  ⟨hh.inv, hh.block.perm hb, hh.frame.perm hf, fun f hmem => hh.bound f (hf.mem_iff.mpr hmem)⟩

/-- At first the rest of the kernel has everything. -/
theorem of_inv (hinv : h.Inv) : h.Held {p | (h.live p).isSome}
    {f | h.heap.pmm.bitmap.test f = false ∧ f * 4096 ∉ h.heap.pages} [] [] := by
  refine ⟨hinv, ⟨List.nodup_nil, by simp, by simp⟩, ⟨List.nodup_nil, by simp, fun f => ?_⟩, by simp⟩
  obtain ⟨bs, hwf, -⟩ := hinv
  have hused := hwf.pagesUsed (f * 4096)
  rw [Nat.mul_div_cancel f (by decide)] at hused
  simp only [Set.mem_union, Set.mem_ofPred_eq, List.not_mem_nil, or_false]
  tauto

theorem live (hh : h.Held blocks frames bs fs) (hp : p ∈ bs) : (h.live p).isSome :=
  hh.block.used_of_held hp

theorem ne_zero (hh : h.Held blocks frames bs fs) (hp : p ∈ bs) : p ≠ 0 := by
  rintro rfl
  have hlive := hh.live hp
  rw [live_zero hh.inv] at hlive
  exact absurd hlive (by simp)

theorem frames_draws (hh : h.Held blocks frames bs fs) (hd : h.heap.Draws h'.heap) :
    Ledger {f | h'.heap.pmm.bitmap.test f = false}
        ({f | f * 4096 ∈ h'.heap.pages} ∪ frames) fs ∧
      ∀ f ∈ fs, 0 < f ∧ f < h'.heap.pmm.frameCount := by
  rcases hd with ⟨hpmm, hpages⟩ | ⟨g, hg, hpages, hcount, htest⟩
  · rw [hpmm, hpages]
    exact ⟨hh.frame, hh.bound⟩
  · rw [hcount]
    refine ⟨hh.frame.restTake (a := g) (by simp [hg]) ?_ ?_, hh.bound⟩
    · ext j
      by_cases hj : j = g <;> simp [htest, hj, hg]
    · ext j
      have hmul : j * 4096 = g * 4096 ↔ j = g := by omega
      simp only [hpages, List.mem_append, List.mem_singleton, Set.mem_union, Set.mem_insert_iff,
        Set.mem_ofPred_eq, hmul]
      rw [or_comm (b := j = g), or_assoc]

theorem kmalloc (hh : h.Held blocks frames bs fs) (hr : h.kmalloc fuel size = some (q, h')) :
    h'.Held blocks frames (if q = 0 then bs else q :: bs) fs := by
  obtain ⟨hinv, -, hlive⟩ := kmalloc_client hh.inv hr
  obtain ⟨hframe, hbound⟩ := hh.frames_draws (kmalloc_draws hr)
  refine ⟨hinv, ?_, hframe, hbound⟩
  rcases hlive with ⟨h0, hlive⟩ | ⟨h0, hnone, hlive⟩
  · rw [if_pos h0, hlive]
    exact hh.block
  · rw [if_neg h0]
    refine hh.block.take (by simp [hnone]) ?_
    ext p
    by_cases hp : p = q <;> simp [hlive, hp]

theorem kfree (hh : h.Held blocks frames (p :: bs) fs) : (h.kfree p).Held blocks frames bs fs := by
  obtain ⟨hframe, hbound⟩ := hh.frames_draws
    (show h.heap.Draws (h.kfree p).heap from .inl (h.heap.kfree_frames p))
  refine ⟨inv_kfree hh.inv (.inr (hh.live List.mem_cons_self)), hh.block.give ?_, hframe, hbound⟩
  ext q
  by_cases hq : q = p <;> simp [HeapState.kfree, hq]

theorem setMem (hh : h.Held blocks frames bs fs) (mem : Memory) :
    (h.setMem mem).Held blocks frames bs fs :=
  ⟨inv_mem hh.inv mem, hh.block, hh.frame, hh.bound⟩

/-- Two frames in a row. -/
theorem kpallocStack (hh : h.Held blocks frames bs fs) :
    ((h.heap.pmm.kpallocContiguous 2).1 = 0 ∧ (h.heap.pmm.kpallocContiguous 2).2 = h.heap.pmm) ∨
      ∃ f, 0 < f ∧ (h.heap.pmm.kpallocContiguous 2).1 = Pmm.physOf f ∧
        (h.setPmm (h.heap.pmm.kpallocContiguous 2).2).Held blocks frames bs (f :: (f + 1) :: fs) := by
  have hfirst := h.heap.pmm.kernelEnd_lt
  have htakes := h.heap.pmm.kpallocContiguous_takes 2 (by decide) (by
    rw [Pmm.firstPage, show BitVec.toNat (2 : Word) = 2 from rfl]
    omega)
  obtain ⟨r, hr⟩ : ∃ r, r = h.heap.pmm.kpallocContiguous 2 := ⟨_, rfl⟩
  rw [← hr] at htakes ⊢
  by_cases h0 : r.1 = 0
  · exact .inl ⟨h0, htakes.unchanged h0⟩
  obtain ⟨f, hf⟩ := not_not.mp (mt htakes.null_iff.mpr h0)
  obtain ⟨hfree, hle, hlt, -⟩ := hf.1 0 (by decide)
  obtain ⟨hfree', -, hlt', -⟩ := hf.1 1 (by decide)
  rw [Nat.add_zero] at hfree hle hlt
  have htest : ∀ g, r.2.bitmap.test g = (h.heap.pmm.bitmap.test g && !decide (g = f ∨ g = f + 1)) := by
    intro g
    have hmem := Set.ext_iff.mp (htakes.removed f hf) g
    rw [Set.mem_sdiff, Set.mem_ofPred_eq, show BitVec.toNat (2 : Word) = 2 from rfl] at hmem
    have hrange : (f ≤ g ∧ g < f + 2) ↔ (g = f ∨ g = f + 1) := by omega
    rw [hrange] at hmem
    rw [Bool.eq_iff_iff, Bool.and_eq_true, Bool.not_eq_true', decide_eq_false_iff_not]
    exact hmem
  have hpos : 0 < f := h.heap.pmm.firstPage_pos.trans_le hle
  refine .inr ⟨f, hpos, Pmm.physOf_of_toNat (htakes.start f hf), ?_⟩
  constructor
  case inv =>
    refine inv_setPmm hh.inv fun g hg => ?_
    rw [htest, hg, Bool.false_and]
  case block => exact hh.block
  case frame =>
    have hfree₁ : h.heap.pmm.bitmap.test (f + 1) = true := hfree'
    have hfree₀ : h.heap.pmm.bitmap.test f = true := hfree
    have hnext := hh.frame.take (a := f + 1) (by simp [hfree₁]) rfl
    refine hnext.take (by simp [hfree₀]) ?_
    ext g
    by_cases hg : g = f
    · simp [htest, hg]
    · by_cases hg' : g = f + 1 <;> simp [htest, hg, hg']
  case bound =>
    intro g hg
    rw [setPmm_pmm, htakes.frameCount]
    rcases List.mem_cons.mp hg with rfl | hg
    · exact ⟨hpos, hlt⟩
    · rcases List.mem_cons.mp hg with rfl | hg
      · exact ⟨by omega, hlt'⟩
      · exact hh.bound g hg

theorem kpfreeStack (hh : h.Held blocks frames bs (f :: (f + 1) :: fs)) :
    ∃ pmm, h.heap.pmm.kpfreeContiguous (Pmm.physOf f) 2 = some pmm ∧
      (h.setPmm pmm).Held blocks frames bs fs ∧
      ∀ g, pmm.bitmap.test g = (h.heap.pmm.bitmap.test g || decide (g = f ∨ g = f + 1)) := by
  obtain ⟨hpos, hlt⟩ := hh.bound f (by simp)
  obtain ⟨-, hlt'⟩ := hh.bound (f + 1) (by simp)
  have hused : h.heap.pmm.bitmap.test f = false := hh.frame.used_of_held (a := f) (by simp)
  have hused' : h.heap.pmm.bitmap.test (f + 1) = false :=
    hh.frame.used_of_held (a := f + 1) (by simp)
  have hbig := h.heap.pmm.frameCount_lt
  have hfree := Pmm.kpfree_used hpos hlt (by simp [Pmm.free, hused])
  have hfree' := Pmm.kpfree_used (p := { h.heap.pmm with bitmap := h.heap.pmm.bitmap.set f })
    (f := f + 1) (by omega) hlt' (by simp [Pmm.free, Bitmap.test_set, hused'])
  have hne : Pmm.physOf f ≠ 0 := Pmm.physOf_ne_zero (by omega) hpos
  have hnext : Pmm.physOf f + BitVec.ofNat 64 (1 * 0x1000) = Pmm.physOf (f + 1) := by
    apply BitVec.eq_of_toNat_eq
    rw [BitVec.toNat_add, Pmm.physOf_toNat (by omega), Pmm.physOf_toNat (by omega),
      BitVec.toNat_ofNat]
    omega
  have hcall : h.heap.pmm.kpfreeContiguous (Pmm.physOf f) 2 =
      some { h.heap.pmm with bitmap := (h.heap.pmm.bitmap.set f).set (f + 1) } := by
    have hzero : ¬(Pmm.physOf f = 0 ∨ (2 : Word) = 0) := by
      rintro (hc | hc)
      · exact hne hc
      · exact absurd hc (by decide)
    rw [Pmm.kpfreeContiguous, if_neg hzero, show List.range (BitVec.toNat (2 : Word)) = [0, 1] from rfl,
      List.foldlM_cons, Nat.zero_mul, BitVec.add_zero, hfree, Option.bind_eq_bind, Option.bind_some,
      List.foldlM_cons, hnext, hfree']
    rfl
  have htest : ∀ g, ((h.heap.pmm.bitmap.set f).set (f + 1)).test g =
      (h.heap.pmm.bitmap.test g || decide (g = f ∨ g = f + 1)) := by
    intro g
    simp only [Bitmap.test_set, Bool.decide_or]
    cases h.heap.pmm.bitmap.test g <;> simp
  refine ⟨_, hcall, ?_, htest⟩
  constructor
  case inv =>
    -- no page of the heap is in the stack
    obtain ⟨bks, hw, -⟩ := id hh.inv
    refine inv_setPmm_pages hh.inv fun P hP => ?_
    have haligned := hw.aligned P hP
    have hapart : ∀ g ∈ f :: (f + 1) :: fs, P / 4096 ≠ g := by
      rintro g hg rfl
      refine hh.frame.apart _ hg (.inl ?_)
      rw [Set.mem_ofPred_eq, show P / 4096 * 4096 = P by omega]
      exact hP
    rw [htest, hw.pagesUsed P hP, Bool.false_or, decide_eq_false_iff_not]
    rintro (hc | hc)
    · exact hapart f (by simp) hc
    · exact hapart (f + 1) (by simp) hc
  case block => exact hh.block
  case frame =>
    have hgive := hh.frame.give
      (rfl : {g | h.heap.pmm.bitmap.test g = false} \ {f} = _)
    refine hgive.give ?_
    ext g
    simp only [setPmm_pmm, Set.mem_ofPred_eq, htest, Set.mem_sdiff, Set.mem_singleton_iff,
      Bool.or_eq_false_iff, decide_eq_false_iff_not, not_or, and_assoc]
  case bound => exact fun g hg => hh.bound g (by simp [hg])

end HeapState.Held

/-! ## Queues -/

/-- The ring and the payloads that wait in it. -/
def IpcQueue.blocks (q : IpcQueue) : List ℕ := q.queue :: q.pending.map IpcMsg.msg

section queue

variable {h h' : HeapState} {blocks frames : Set ℕ} {bs fs : List ℕ} {fuel : ℕ}
  {raw : ℕ → IpcMsg} {q q' : IpcQueue} {ok : Bool}

theorem HeapState.Held.ipcMakeRoom (hh : h.Held blocks frames (q.blocks ++ bs) fs) (hq : q.Wf)
    (hr : Nyvela.ipcMakeRoom fuel raw h q = some (ok, h', q')) :
    h'.Held blocks frames (q'.blocks ++ bs) fs ∧ q'.Wf ∧ q'.pending = q.pending ∧
      (ok = true → q'.count < q'.capacity) := by
  unfold Nyvela.ipcMakeRoom at hr
  split_ifs at hr with hfull
  · obtain ⟨p, h₁, hk, hcases⟩ := ipcGrowQueue_cases hq hr
    have hh₁ := hh.kmalloc hk
    rcases hcases with ⟨hp, rfl, rfl, rfl⟩ | ⟨hp, rfl, rfl, rfl, -, hwf, hroom, hpending⟩
    · rw [if_pos hp] at hh₁
      exact ⟨hh₁, hq, rfl, fun hc => absurd hc (by decide)⟩
    · rw [if_neg hp] at hh₁
      refine ⟨?_, hwf, hpending, fun _ => hroom⟩
      rw [IpcQueue.blocks, hpending]
      exact (hh₁.perm (.swap ..) (.refl _)).kfree
  · obtain ⟨rfl, rfl, rfl⟩ : true = ok ∧ h = h' ∧ q = q' := by simpa using hr
    exact ⟨hh, hq, rfl, fun _ => Nat.lt_of_not_le hfull⟩

/-- A sent message adds its payload to the blocks of the queue; one that is not sent adds
nothing. -/
theorem HeapState.Held.ipcSendTo (hh : h.Held blocks frames (q.blocks ++ bs) fs) (hq : q.Wf)
    {sender target : ℕ} {msg : List (BitVec 8)}
    (hr : Nyvela.ipcSendTo fuel raw h q sender target msg = some (ok, h', q')) :
    h'.Held blocks frames (q'.blocks ++ bs) fs ∧ q'.Wf ∧
      (ok = false → q'.pending = q.pending) := by
  obtain ⟨⟨room, h₁, q₁⟩, hroom, hr⟩ := Option.bind_eq_some_iff.mp hr
  obtain ⟨hh₁, hq₁, hpending, hlt⟩ := hh.ipcMakeRoom hq hroom
  cases room with
  | false =>
    obtain ⟨rfl, rfl, rfl⟩ : false = ok ∧ h₁ = h' ∧ q₁ = q' := by simpa using hr
    exact ⟨hh₁, hq₁, fun _ => hpending⟩
  | true =>
    obtain ⟨⟨copied, h₂⟩, hk, hr⟩ := Option.bind_eq_some_iff.mp hr
    have hh₂ := hh₁.kmalloc hk
    by_cases h0 : copied = 0
    · obtain ⟨rfl, rfl, rfl⟩ : false = ok ∧ h₂ = h' ∧ q₁ = q' := by simpa [h0] using hr
      rw [if_pos h0] at hh₂
      exact ⟨hh₂, hq₁, fun _ => hpending⟩
    · obtain ⟨rfl, rfl, rfl⟩ :
          true = ok ∧ h₂.setMem (h₂.heap.mem.write copied msg) = h' ∧ _ = q' := by
        simpa [h0] using hr
      rw [if_neg h0] at hh₂
      obtain ⟨hwf, hpush⟩ := hq₁.push (hlt rfl) ⟨target, sender, copied, msg.length⟩
      refine ⟨(hh₂.setMem _).perm ?_ (.refl _), hwf, fun hc => absurd hc (by decide)⟩
      rw [IpcQueue.blocks, IpcQueue.blocks, hpush, List.map_append, List.map_singleton,
        List.cons_append, List.cons_append, List.append_assoc]
      exact (List.Perm.swap ..).trans (.cons _ (List.perm_middle.symm.trans (by simp)))

/-- A message that is received leaves its payload to the caller. -/
theorem IpcQueue.Wf.ipcPollFrom (hq : q.Wf) :
    (ipcPollFrom q).2.Wf ∧
      ((ipcPollFrom q).1 = none ∧ (ipcPollFrom q).2 = q ∨
        ∃ m, (ipcPollFrom q).1 = some m ∧ q.pending = m :: (ipcPollFrom q).2.pending ∧
          (ipcPollFrom q).2.queue = q.queue) := by
  unfold Nyvela.ipcPollFrom
  split_ifs with h0
  · exact ⟨hq, .inl ⟨rfl, rfl⟩⟩
  · obtain ⟨hwf, hpending⟩ := hq.pop h0
    exact ⟨hwf, .inr ⟨_, rfl, hpending, rfl⟩⟩

end queue

/-! ## Threads -/

namespace Threads

/-- The heap blocks of a thread. -/
def owned (s : Threads) (t : ℕ) : List ℕ :=
  t :: (s.thread t).context :: (s.thread t).queue :: (s.queue (s.thread t).queue).blocks

/-- The frames of its kernel stack. -/
def stackFrames (s : Threads) (t : ℕ) : List ℕ :=
  [(s.thread t).kernelStack.toNat / 4096, (s.thread t).kernelStack.toNat / 4096 + 1]

/-- The array of threads, once there is one. -/
def tableBlock (s : Threads) : List ℕ := if s.cap = 0 then [] else [s.threads]

def blocks (s : Threads) : List ℕ := s.tableBlock ++ s.entries.flatMap s.owned

def kernelStacks (s : Threads) : List ℕ := s.entries.flatMap s.stackFrames

/-- A thread with all its parts. -/
def Whole (s : Threads) (t : ℕ) : Prop :=
  (s.queue (s.thread t).queue).Wf ∧ (s.thread t).kernelStack.toNat % 4096 = 0

/-- In use are the blocks and stacks of the threads of the table, and those of `bs` and `fs`. -/
structure Accounts (s : Threads) (blocks frames : Set ℕ) (bs fs : List ℕ) : Prop where
  held : s.heap.Held blocks frames (bs ++ s.blocks) (fs ++ s.kernelStacks)
  room : s.length ≤ s.cap
  whole : ∀ t ∈ s.entries, s.Whole t

/-- The threads of the table and their queues are as they were. -/
structure Keeps (s s' : Threads) : Prop where
  entries : s'.entries = s.entries
  thread : ∀ t ∈ s.entries, s'.thread t = s.thread t
  queue : ∀ t ∈ s.entries, s'.queue (s.thread t).queue = s.queue (s.thread t).queue
  current : s'.currentThread = s.currentThread
  next : s'.nextThreadId = s.nextThreadId

section keeps

variable {s s' s'' : Threads} {t : ℕ}

theorem Keeps.refl (s : Threads) : s.Keeps s :=
  ⟨rfl, fun _ _ => rfl, fun _ _ => rfl, rfl, rfl⟩

theorem Keeps.trans (h : s.Keeps s') (h' : s'.Keeps s'') : s.Keeps s'' where
  entries := h'.entries.trans h.entries
  thread t ht := (h'.thread t (h.entries ▸ ht)).trans (h.thread t ht)
  queue t ht := by
    have hq := h'.queue t (h.entries ▸ ht)
    rw [h.thread t ht] at hq
    exact hq.trans (h.queue t ht)
  current := h'.current.trans h.current
  next := h'.next.trans h.next

theorem Keeps.owned (h : s.Keeps s') (ht : t ∈ s.entries) : s'.owned t = s.owned t := by
  rw [Threads.owned, Threads.owned, h.thread t ht, h.queue t ht]

theorem Keeps.stackFrames (h : s.Keeps s') (ht : t ∈ s.entries) :
    s'.stackFrames t = s.stackFrames t := by
  rw [Threads.stackFrames, Threads.stackFrames, h.thread t ht]

theorem Keeps.whole (h : s.Keeps s') (ht : t ∈ s.entries) (hw : s.Whole t) : s'.Whole t := by
  rw [Whole, h.thread t ht, h.queue t ht]
  exact hw

theorem Keeps.flatMap_owned (h : s.Keeps s') :
    s'.entries.flatMap s'.owned = s.entries.flatMap s.owned := by
  rw [h.entries]
  exact List.flatMap_congr fun t ht => h.owned ht

theorem Keeps.kernelStacks (h : s.Keeps s') : s'.kernelStacks = s.kernelStacks := by
  rw [Threads.kernelStacks, h.entries]
  exact List.flatMap_congr fun t ht => h.stackFrames ht

theorem mem_blocks_of_owned {p : ℕ} (ht : t ∈ s.entries) (hp : p ∈ s.owned t) : p ∈ s.blocks :=
  List.mem_append_right _ (List.mem_flatMap.mpr ⟨t, ht, hp⟩)

end keeps

section accounts

variable {s s' : Threads} {blocks frames : Set ℕ} {bs bs' fs fs' : List ℕ} {fuel size p q t f : ℕ}
  {raw : RawCells}

theorem Accounts.perm (ha : s.Accounts blocks frames bs fs) (hb : bs.Perm bs') (hf : fs.Perm fs') :
    s.Accounts blocks frames bs' fs' :=
  ⟨ha.held.perm (hb.append_right _) (hf.append_right _), ha.room, ha.whole⟩

theorem Accounts.not_mem_blocks (ha : s.Accounts blocks frames bs fs) (hp : p ∈ bs) :
    p ∉ s.blocks :=
  fun hc => (List.nodup_append.mp ha.held.block.nodup).2.2 p hp p hc rfl

theorem Accounts.not_mem_entries (ha : s.Accounts blocks frames bs fs) (hp : p ∈ bs) :
    p ∉ s.entries :=
  fun hc => ha.not_mem_blocks hp (mem_blocks_of_owned hc List.mem_cons_self)

theorem Accounts.kmalloc (ha : s.Accounts blocks frames bs fs)
    (hr : s.kmalloc fuel size = some (q, s')) :
    ∃ h, s' = { s with heap := h } ∧ s'.Accounts blocks frames (if q = 0 then bs else q :: bs) fs := by
  obtain ⟨⟨q', h⟩, hk, heq⟩ := Option.map_eq_some_iff.mp hr
  obtain ⟨rfl, rfl⟩ := Prod.mk.inj heq
  refine ⟨h, rfl, ?_, ha.room, ha.whole⟩
  have hh := ha.held.kmalloc hk
  split_ifs at hh ⊢ <;> exact hh

theorem Accounts.kfree (ha : s.Accounts blocks frames (p :: bs) fs) :
    (s.kfree p).Accounts blocks frames bs fs :=
  ⟨ha.held.kfree, ha.room, ha.whole⟩

theorem Accounts.kfreeAll {l : List ℕ} (ha : s.Accounts blocks frames (l ++ bs) fs) :
    (l.foldl Threads.kfree s).Accounts blocks frames bs fs := by
  induction l generalizing s with
  | nil => exact ha
  | cons p l ih => exact ih ha.kfree

theorem foldl_kfree (s : Threads) (l : List ℕ) :
    l.foldl Threads.kfree s = { s with heap := l.foldl HeapState.kfree s.heap } := by
  induction l generalizing s with
  | nil => rfl
  | cons p l ih => exact ih (s.kfree p)

theorem Accounts.kpallocStack (ha : s.Accounts blocks frames bs fs) :
    ∃ h, s.kpallocStack.2 = { s with heap := h } ∧
      (s.kpallocStack.1 = 0 ∧ s.kpallocStack.2.Accounts blocks frames bs fs ∨
        ∃ f, s.kpallocStack.1 = Pmm.physOf f ∧
          s.kpallocStack.2.Accounts blocks frames bs (f :: (f + 1) :: fs)) := by
  refine ⟨_, rfl, ?_⟩
  rcases ha.held.kpallocStack with ⟨h0, hpmm⟩ | ⟨f, -, hf, hh⟩
  · have hself : s.kpallocStack.2 = s := by
      simp only [Threads.kpallocStack, hpmm]
      rfl
    exact .inl ⟨h0, hself.symm ▸ ha⟩
  · exact .inr ⟨f, hf, hh, ha.room, ha.whole⟩

theorem Accounts.kpfreeStack (ha : s.Accounts blocks frames bs (f :: (f + 1) :: fs)) :
    ∃ pmm, s.kpfreeStack (Pmm.physOf f) = some (s.setPmm pmm) ∧
      (s.setPmm pmm).Accounts blocks frames bs fs ∧
      ∀ g, pmm.bitmap.test g = (s.heap.heap.pmm.bitmap.test g || decide (g = f ∨ g = f + 1)) := by
  obtain ⟨pmm, hcall, hh, htest⟩ := ha.held.kpfreeStack
  refine ⟨pmm, ?_, ⟨hh, ha.room, ha.whole⟩, htest⟩
  rw [Threads.kpfreeStack, hcall, Option.map_some]

theorem Accounts.giveBack {l : List ℕ}
    (ha : s.Accounts blocks frames (l ++ bs) (f :: (f + 1) :: fs)) :
    ∃ h, s.giveBack l (Pmm.physOf f) = some (0, { s with heap := h }) ∧
      ({ s with heap := h } : Threads).Accounts blocks frames bs fs := by
  obtain ⟨pmm, hcall, hacc, -⟩ := ha.kfreeAll.kpfreeStack
  rw [foldl_kfree] at hacc
  refine ⟨_, ?_, hacc⟩
  rw [Threads.giveBack, hcall, Option.map_some, foldl_kfree]
  rfl

theorem keeps_heap (s : Threads) (h : HeapState) : s.Keeps { s with heap := h } :=
  ⟨rfl, fun _ _ => rfl, fun _ _ => rfl, rfl, rfl⟩

/-! ## Creation -/

/-- An empty table: only the array counts. -/
theorem accounts_of_empty (hlen : s.length = 0)
    (hh : s.heap.Held blocks frames s.tableBlock fs) : s.Accounts blocks frames [] fs := by
  have hnil : s.entries = [] := by rw [entries, hlen, List.range_zero, List.map_nil]
  refine ⟨?_, by omega, by simp [hnil]⟩
  rw [Threads.blocks, kernelStacks, hnil]
  simpa using hh

theorem Accounts.allocateTable {ok : Bool} (ha : s.Accounts blocks frames [] fs)
    (hr : s.allocateTable fuel raw = some (ok, s')) :
    s.Keeps s' ∧ s'.Accounts blocks frames [] fs ∧ (ok = true → s'.cap ≠ 0) := by
  unfold Threads.allocateTable at hr
  split_ifs at hr with h0
  · have hlen : s.length = 0 := by
      have := ha.room
      omega
    have hnil : s.entries = [] := by rw [entries, hlen, List.range_zero, List.map_nil]
    have hkeeps : ∀ s₂ : Threads, s₂.length = 0 → s₂.currentThread = s.currentThread →
        s₂.nextThreadId = s.nextThreadId → s.Keeps s₂ := by
      intro s₂ hlen₂ hcurrent hnext
      refine ⟨?_, by simp [hnil], by simp [hnil], hcurrent, hnext⟩
      rw [hnil, entries, hlen₂, List.range_zero, List.map_nil]
    have hheld : s.heap.Held blocks frames [] fs := by
      have := ha.held
      simpa [Threads.blocks, tableBlock, kernelStacks, h0, hnil] using this
    obtain ⟨⟨q, s₁⟩, hmap, hr⟩ := Option.map_eq_some_iff.mp hr
    obtain ⟨⟨p, h⟩, hk, heq⟩ := Option.map_eq_some_iff.mp hmap
    obtain ⟨rfl, rfl⟩ := Prod.mk.inj heq
    have hh := hheld.kmalloc hk
    by_cases hp : p = 0
    · simp only [hp, if_true] at hr hh
      obtain ⟨rfl, rfl⟩ := Prod.mk.inj hr
      refine ⟨hkeeps _ hlen rfl rfl, accounts_of_empty hlen ?_, fun hc => absurd hc (by decide)⟩
      rw [tableBlock, if_pos h0]
      exact hh
    · simp only [hp, if_false] at hr hh
      obtain ⟨rfl, rfl⟩ := Prod.mk.inj hr
      exact ⟨hkeeps _ hlen rfl rfl, accounts_of_empty hlen hh, fun _ => by simp⟩
  · obtain ⟨rfl, rfl⟩ := Prod.mk.inj (Option.some.inj hr)
    exact ⟨.refl s, ha, fun _ => h0⟩

/-- A new record at an address that no thread of the table has. -/
theorem Accounts.setThread (ha : s.Accounts blocks frames bs fs) (hp : p ∈ bs) (th : Thread) :
    s.Keeps (s.setThread p th) ∧ (s.setThread p th).Accounts blocks frames bs fs := by
  have hkeeps : s.Keeps (s.setThread p th) := by
    refine ⟨rfl, fun t ht => Function.update_of_ne ?_ .., fun _ _ => rfl, rfl, rfl⟩
    rintro rfl
    exact ha.not_mem_entries hp ht
  refine ⟨hkeeps, ?_, ha.room, fun t ht => hkeeps.whole ht (ha.whole t ht)⟩
  have hb : (s.setThread p th).blocks = s.blocks :=
    congrArg (s.tableBlock ++ ·) hkeeps.flatMap_owned
  rw [hb, hkeeps.kernelStacks]
  exact ha.held

theorem Accounts.setQueue (ha : s.Accounts blocks frames bs fs) (hp : p ∈ bs) (q : IpcQueue) :
    s.Keeps (s.setQueue p q) ∧ (s.setQueue p q).Accounts blocks frames bs fs := by
  have hkeeps : s.Keeps (s.setQueue p q) := by
    refine ⟨rfl, fun _ _ => rfl, fun t ht => Function.update_of_ne (fun hc => ?_) .., rfl, rfl⟩
    exact ha.not_mem_blocks hp (mem_blocks_of_owned ht (by simp [owned, hc]))
  refine ⟨hkeeps, ?_, ha.room, fun t ht => hkeeps.whole ht (ha.whole t ht)⟩
  have hb : (s.setQueue p q).blocks = s.blocks :=
    congrArg (s.tableBlock ++ ·) hkeeps.flatMap_owned
  rw [hb, hkeeps.kernelStacks]
  exact ha.held

theorem keeps_setContext (s : Threads) (c : ℕ) (ctx : ThreadContext) :
    s.Keeps (s.setContext c ctx) :=
  ⟨rfl, fun _ _ => rfl, fun _ _ => rfl, rfl, rfl⟩

theorem Accounts.setContext (ha : s.Accounts blocks frames bs fs) (c : ℕ) (ctx : ThreadContext) :
    (s.setContext c ctx).Accounts blocks frames bs fs :=
  ⟨ha.held, ha.room, ha.whole⟩

/-- What `allocate_thread` returns: nothing, or a whole thread that is not in the table yet. -/
def Allocated (s : Threads) (blocks frames : Set ℕ) (fs : List ℕ) (t : ℕ) (s' : Threads) : Prop :=
  s.Keeps s' ∧ s'.cap = s.cap ∧
    (t = 0 ∧ s'.Accounts blocks frames [] fs ∨
      t ≠ 0 ∧ s'.Accounts blocks frames (s'.owned t) (s'.stackFrames t ++ fs) ∧ s'.Whole t)

theorem Accounts.allocateQueue {thread context : ℕ} {stack : Word}
    (ha : s.Accounts blocks frames [context, thread] (f :: (f + 1) :: fs))
    (hstack : stack = Pmm.physOf f)
    (hr : s.allocateQueue fuel raw thread context stack = some (t, s')) :
    Allocated s blocks frames fs t s' := by
  subst hstack
  obtain ⟨⟨queue, s₁⟩, hk, hr⟩ := Option.bind_eq_some_iff.mp hr
  obtain ⟨h₁, rfl, ha₁⟩ := ha.kmalloc hk
  by_cases hqueue : queue = 0
  · simp only [hqueue, if_true] at hr ha₁
    have hback : ({ s with heap := h₁ } : Threads).Accounts blocks frames
      ([thread, context] ++ []) (f :: (f + 1) :: fs) := ha₁.perm (.swap ..) (.refl _)
    obtain ⟨h, hcall, hacc⟩ := hback.giveBack
    obtain ⟨rfl, rfl⟩ := Prod.mk.inj (Option.some.inj (hcall.symm.trans hr))
    exact ⟨keeps_heap s h, rfl, .inl ⟨rfl, hacc⟩⟩
  simp only [hqueue, if_false] at hr ha₁
  obtain ⟨⟨ring, s₂⟩, hk₂, hr⟩ := Option.bind_eq_some_iff.mp hr
  obtain ⟨h₂, rfl, ha₂⟩ := ha₁.kmalloc hk₂
  by_cases hring : ring = 0
  · simp only [hring, if_true] at hr ha₂
    have hback : ({ s with heap := h₂ } : Threads).Accounts blocks frames
      ([queue, thread, context] ++ []) (f :: (f + 1) :: fs) := ha₂.perm (.cons _ (.swap ..)) (.refl _)
    obtain ⟨h, hcall, hacc⟩ := hback.giveBack
    obtain ⟨rfl, rfl⟩ := Prod.mk.inj (Option.some.inj (hcall.symm.trans hr))
    exact ⟨keeps_heap s h, rfl, .inl ⟨rfl, hacc⟩⟩
  simp only [hring, if_false, Option.some.injEq, Prod.mk.injEq] at hr ha₂
  obtain ⟨rfl, rfl⟩ := hr
  obtain ⟨hkeeps₃, ha₃⟩ := ha₂.setQueue (p := queue) (by simp)
    { queue := ring, cells := raw.msgs, capacity := 4, head := 0, tail := 0, count := 0 }
  obtain ⟨hkeeps₄, ha₄⟩ := ha₃.setThread (p := thread) (by simp)
    { s.thread thread with context := context, kernelStack := Pmm.physOf f, queue := queue }
  have hf : (Pmm.physOf f).toNat = f * 4096 := by
    have hlt := (ha.held.bound f (by simp)).2
    have := s.heap.heap.pmm.frameCount_lt
    exact Pmm.physOf_toNat (by omega)
  refine ⟨((keeps_heap s h₂).trans hkeeps₃).trans hkeeps₄, rfl,
    .inr ⟨ha.held.ne_zero (by simp), ha₄.perm ?_ ?_, ?_, ?_⟩⟩
  · simp only [owned, Threads.setThread, Threads.setQueue, Function.update_self, IpcQueue.blocks,
      IpcQueue.pending, Ring.window_zero, List.map_nil]
    exact (List.reverse_perm [thread, context, queue, ring])
  · simp only [stackFrames, Threads.setThread, Function.update_self, hf, Nat.mul_div_cancel f
      (show 0 < 4096 by decide)]
    exact .refl _
  · simp only [Threads.setThread, Threads.setQueue, Function.update_self]
    exact ⟨show 0 < 4 by decide, show 0 < 4 by decide, show 0 ≤ 4 by decide, rfl⟩
  · simp only [Threads.setThread, Function.update_self, hf]
    omega

theorem Accounts.allocateThread (ha : s.Accounts blocks frames [] fs)
    (hr : s.allocateThread fuel raw = some (t, s')) :
    s.Keeps s' ∧ (t = 0 ∧ s'.Accounts blocks frames [] fs ∨
      t ≠ 0 ∧ s'.cap ≠ 0 ∧ s'.Accounts blocks frames (s'.owned t) (s'.stackFrames t ++ fs) ∧
        s'.Whole t) := by
  obtain ⟨⟨ok, s₀⟩, htable, hr⟩ := Option.bind_eq_some_iff.mp hr
  obtain ⟨hkeeps₀, ha₀, hcap⟩ := ha.allocateTable htable
  cases ok with
  | false =>
    obtain ⟨rfl, rfl⟩ : 0 = t ∧ s₀ = s' := by simpa using hr
    exact ⟨hkeeps₀, .inl ⟨rfl, ha₀⟩⟩
  | true =>
    obtain ⟨⟨thread, s₁⟩, hk, hr⟩ := Option.bind_eq_some_iff.mp hr
    obtain ⟨h₁, rfl, ha₁⟩ := ha₀.kmalloc hk
    by_cases hthread : thread = 0
    · simp only [hthread, if_true, Option.some.injEq, Prod.mk.injEq] at hr ha₁
      obtain ⟨rfl, rfl⟩ := hr
      exact ⟨hkeeps₀.trans (keeps_heap s₀ h₁), .inl ⟨rfl, ha₁⟩⟩
    simp only [hthread, if_false] at hr ha₁
    obtain ⟨h₂, hs₂, hstack⟩ := ha₁.kpallocStack
    rw [hs₂] at hr hstack
    rcases hstack with ⟨hnull, ha₂⟩ | ⟨f, hf, ha₂⟩
    · simp only [hnull, if_true, Option.some.injEq, Prod.mk.injEq] at hr
      obtain ⟨rfl, rfl⟩ := hr
      exact ⟨hkeeps₀.trans (keeps_heap s₀ _), .inl ⟨rfl, ha₂.kfree⟩⟩
    · have hne : Pmm.physOf f ≠ 0 := by
        obtain ⟨hpos, hlt⟩ := ha₂.held.bound f (by simp)
        have := h₂.heap.pmm.frameCount_lt
        exact Pmm.physOf_ne_zero (lt_trans hlt this) hpos
      simp only [hf, hne, if_false] at hr
      obtain ⟨⟨context, s₃⟩, hk₃, hr⟩ := Option.bind_eq_some_iff.mp hr
      obtain ⟨h₃, rfl, ha₃⟩ := ha₂.kmalloc hk₃
      by_cases hcontext : context = 0
      · simp only [hcontext, if_true] at hr ha₃
        obtain ⟨h, hcall, hacc⟩ := Accounts.giveBack (l := [thread]) ha₃
        obtain ⟨rfl, rfl⟩ := Prod.mk.inj (Option.some.inj (hcall.symm.trans hr))
        exact ⟨hkeeps₀.trans (keeps_heap s₀ h), .inl ⟨rfl, hacc⟩⟩
      · simp only [hcontext, if_false] at hr ha₃
        obtain ⟨hkeeps, hcap', hres⟩ := (ha₃.setContext context _).allocateQueue rfl hr
        refine ⟨((hkeeps₀.trans (keeps_heap s₀ h₃)).trans (keeps_setContext _ _ _)).trans hkeeps, ?_⟩
        rcases hres with ⟨h0, hacc⟩ | ⟨h0, hacc, hwhole⟩
        · exact .inl ⟨h0, hacc⟩
        · exact .inr ⟨h0, by rw [hcap']; exact hcap rfl, hacc, hwhole⟩

/-! ## Destruction -/

/-- Each block of the thread is freed once, and so are the frames of its stack. -/
def Releases (s : Threads) (t : ℕ) (h : HeapState) : Prop :=
  ∃ (l : List ℕ) (pmm : Pmm), l.Perm (s.owned t) ∧ h = l.foldl HeapState.kfree (s.heap.setPmm pmm) ∧
    ∀ g, pmm.bitmap.test g = (s.heap.heap.pmm.bitmap.test g || decide (g ∈ s.stackFrames t))

theorem freeQueue_eq (s : Threads) (queue : ℕ) (hring : (s.queue queue).queue ≠ 0) :
    s.freeQueue queue =
      ((s.queue queue).pending.map IpcMsg.msg ++ [(s.queue queue).queue, queue]).foldl
        Threads.kfree s := by
  rw [Threads.freeQueue, if_neg hring, List.foldl_append, IpcQueue.pending, Ring.window,
    List.map_map, List.foldl_map]
  rfl

theorem Accounts.freeThread (ha : s.Accounts blocks frames (s.owned t ++ bs) (s.stackFrames t ++ fs))
    (hw : s.Whole t) :
    ∃ h, s.freeThread t = some { s with heap := h } ∧
      ({ s with heap := h } : Threads).Accounts blocks frames bs fs ∧ s.Releases t h := by
  have hne : ∀ p ∈ s.owned t, p ≠ 0 := fun p hp => ha.held.ne_zero (by simp [hp])
  have ht : t ≠ 0 := hne t (by simp [owned])
  have hcontext : (s.thread t).context ≠ 0 := hne _ (by simp [owned])
  have hqueue : (s.thread t).queue ≠ 0 := hne _ (by simp [owned])
  have hring : (s.queue (s.thread t).queue).queue ≠ 0 := hne _ (by simp [owned, IpcQueue.blocks])
  obtain ⟨f, hf⟩ : ∃ f, f = (s.thread t).kernelStack.toNat / 4096 := ⟨_, rfl⟩
  have hframes : s.stackFrames t = [f, f + 1] := by rw [stackFrames, hf]
  have hstack : (s.thread t).kernelStack = Pmm.physOf f := by
    apply Pmm.physOf_of_toNat
    have := hw.2
    omega
  have hpos := (ha.held.bound f (by simp [hframes])).1
  have hnonzero : (s.thread t).kernelStack ≠ 0 := by
    intro hc
    rw [hc] at hf
    exact absurd hf (by simpa using Nat.ne_of_gt hpos)
  rw [hframes] at ha
  obtain ⟨pmm, hcall, hacc, htest⟩ := ha.kpfreeStack
  obtain ⟨l, hl⟩ : ∃ l, l = (s.thread t).context ::
      ((s.queue (s.thread t).queue).pending.map IpcMsg.msg ++
        [(s.queue (s.thread t).queue).queue, (s.thread t).queue]) ++ [t] := ⟨_, rfl⟩
  have hperm : l.Perm (s.owned t) := by
    rw [hl, owned, IpcQueue.blocks]
    refine (List.perm_append_singleton t _).trans (.cons _ (.cons _ ?_))
    exact List.perm_append_comm.trans (.swap ..)
  have hresult : s.freeThread t = some (l.foldl Threads.kfree (s.setPmm pmm)) := by
    rw [Threads.freeThread, if_neg ht]
    dsimp only
    rw [if_neg hnonzero, hstack, hcall, Option.map_some, if_neg hcontext, if_neg hqueue,
      freeQueue_eq ((s.setPmm pmm).kfree (s.thread t).context) _ hring, hl]
    simp only [List.foldl_append, List.foldl_cons, List.foldl_nil]
    rfl
  rw [foldl_kfree] at hresult
  refine ⟨_, hresult, ?_, l, pmm, hperm, rfl, fun g => ?_⟩
  · have hfreed := (hacc.perm (hperm.symm.append_right bs) (.refl _)).kfreeAll
    rw [foldl_kfree] at hfreed
    exact hfreed
  · rw [htest, hframes]
    simp

/-! ## Removal from the table -/

theorem shiftDown_apply (cells : ℕ → ℕ) (i m k : ℕ) :
    (List.range' i m).foldl (fun c j => Function.update c j (c (j + 1))) cells k =
      if i ≤ k ∧ k < i + m then cells (k + 1) else cells k := by
  induction m generalizing i cells with
  | zero => rw [if_neg (by omega)]; rfl
  | succ m ih =>
    rw [List.range'_succ, List.foldl_cons, ih]
    by_cases hk : k = i
    · rw [if_neg (by omega), if_pos (by omega), hk, Function.update_self]
    · by_cases hin : i + 1 ≤ k ∧ k < i + 1 + m
      · rw [if_pos hin, if_pos (by omega), Function.update_of_ne (by omega)]
      · rw [if_neg hin, if_neg (by omega), Function.update_of_ne hk]

theorem indexOf_eq (s : Threads) (t : ℕ) : s.indexOf t = s.entries.idxOf? t := by
  apply Option.ext
  intro i
  rw [indexOf, List.find?_range_eq_some, List.idxOf?, List.findIdx?_eq_some_iff_getElem]
  simp only [entries, List.length_map, List.length_range, List.mem_range, List.getElem_map,
    List.getElem_range, decide_eq_true_eq, Bool.not_eq_true', decide_eq_false_iff_not, beq_iff_eq]
  constructor
  · rintro ⟨hi, hlt, hmin⟩
    exact ⟨hlt, hi, hmin⟩
  · rintro ⟨hlt, hi, hmin⟩
    exact ⟨hi, hlt, hmin⟩

/-- The loops delete one entry and keep the order of the others. -/
theorem entries_removeEntry (s : Threads) (t : ℕ) : (s.removeEntry t).entries = s.entries.erase t := by
  rw [List.erase_eq_eraseIdx, ← indexOf_eq, removeEntry]
  cases hi : s.indexOf t with
  | none => rfl
  | some i =>
    have hlt : i < s.length := by
      rw [indexOf, List.find?_range_eq_some] at hi
      exact List.mem_range.mp hi.2.1
    apply List.ext_getElem?
    intro k
    simp only [List.getElem?_eraseIdx, entries, List.getElem?_map, shiftDown]
    by_cases hki : k < i
    · rw [if_pos hki, List.getElem?_range (by omega), List.getElem?_range (by omega),
        Option.map_some, Option.map_some, shiftDown_apply, if_neg (by omega)]
    · rw [if_neg hki]
      by_cases hk : k + 1 < s.length
      · rw [List.getElem?_range (by omega), List.getElem?_range hk, Option.map_some,
          Option.map_some, shiftDown_apply, if_pos (by omega)]
      · rw [List.getElem?_eq_none (by simp; omega), List.getElem?_eq_none (by simp; omega)]
        rfl

theorem length_entries (s : Threads) : s.entries.length = s.length := by
  rw [entries, List.length_map, List.length_range]

/-- The blocks of one thread, and the others. -/
theorem perm_blocks (ht : t ∈ s.entries) :
    s.blocks.Perm (s.owned t ++ (s.tableBlock ++ (s.entries.erase t).flatMap s.owned)) := by
  have hperm := (List.perm_cons_erase ht).flatMap_right s.owned
  rw [List.flatMap_cons] at hperm
  exact (hperm.append_left _).trans (by
    rw [← List.append_assoc, ← List.append_assoc]
    exact List.perm_append_comm.append_right _)

theorem perm_kernelStacks (ht : t ∈ s.entries) :
    s.kernelStacks.Perm (s.stackFrames t ++ (s.entries.erase t).flatMap s.stackFrames) := by
  have hperm := (List.perm_cons_erase ht).flatMap_right s.stackFrames
  rwa [List.flatMap_cons] at hperm

theorem removeEntry_store (s : Threads) (t : ℕ) :
    ∃ cells n, s.removeEntry t = { s with cells := cells, length := n } ∧ n ≤ s.length := by
  unfold removeEntry
  split
  · exact ⟨_, _, rfl, le_rfl⟩
  · exact ⟨_, _, rfl, Nat.sub_le ..⟩

/-- A thread out of the table has its blocks still. -/
theorem Accounts.removeEntry (ha : s.Accounts blocks frames [] []) (ht : t ∈ s.entries) :
    (s.removeEntry t).Accounts blocks frames (s.owned t ++ []) (s.stackFrames t ++ []) := by
  have hentries := entries_removeEntry s t
  obtain ⟨cells, n, hs, hn⟩ := removeEntry_store s t
  rw [hs] at hentries ⊢
  refine ⟨?_, hn.trans ha.room, fun u hu => ha.whole u ?_⟩
  · rw [List.append_nil, List.append_nil, Threads.blocks, kernelStacks, hentries]
    exact ha.held.perm (perm_blocks ht) (perm_kernelStacks ht)
  · rw [hentries] at hu
    exact List.mem_of_mem_erase hu

/-! ## Entry into the table -/

theorem map_range_update (cells : ℕ → ℕ) (n t : ℕ) :
    (List.range (n + 1)).map (Function.update cells n t) = (List.range n).map cells ++ [t] := by
  rw [List.range_succ, List.map_append, List.map_singleton, Function.update_self]
  congr 1
  apply List.map_congr_left
  intro i hi
  exact Function.update_of_ne (Nat.ne_of_lt (List.mem_range.mp hi)) ..

/-- `q` is `t`, at the end of the table, or `0`. -/
structure Enters (s : Threads) (t q : ℕ) (s' : Threads) : Prop where
  thread : s'.thread = s.thread
  queue : s'.queue = s.queue
  current : s'.currentThread = s.currentThread
  next : s'.nextThreadId = s.nextThreadId
  entries : q = 0 ∧ s'.entries = s.entries ∨ q = t ∧ s'.entries = s.entries ++ [t]

theorem Accounts.append (hacc : s.Accounts blocks frames bs fs) (hw : s.Whole t)
    (hthread : s'.thread = s.thread) (hqueue : s'.queue = s.queue)
    (hentries : s'.entries = s.entries ++ [t]) (hroom : s'.length ≤ s'.cap) {table : List ℕ}
    (htable : s'.tableBlock = table)
    (hheld : s'.heap.Held blocks frames (table ++ (s.entries.flatMap s.owned ++ s.owned t))
      (fs' ++ (s.kernelStacks ++ s.stackFrames t))) : s'.Accounts blocks frames [] fs' := by
  have howned : s'.owned = s.owned := by
    funext u
    rw [owned, owned, hthread, hqueue]
  have hstack : s'.stackFrames = s.stackFrames := by
    funext u
    rw [stackFrames, stackFrames, hthread]
  refine ⟨?_, hroom, fun u hu => ?_⟩
  · rw [Threads.blocks, kernelStacks, htable, hentries, howned, hstack, List.flatMap_append,
      List.flatMap_singleton, List.flatMap_append, List.flatMap_singleton]
    exact hheld
  · rw [Whole, hthread, hqueue]
    rw [hentries, List.mem_append, List.mem_singleton] at hu
    rcases hu with hu | rfl
    · exact hacc.whole u hu
    · exact hw

theorem Accounts.enterThread (ha : s.Accounts blocks frames (s.owned t) (s.stackFrames t ++ fs))
    (hw : s.Whole t) (hcap : s.cap ≠ 0) (hr : s.enterThread fuel raw t = some (q, s')) :
    s'.Accounts blocks frames [] fs ∧ s.Enters t q s' := by
  have htable : s.tableBlock = [s.threads] := if_neg hcap
  have hstacks : (s.stackFrames t ++ fs ++ s.kernelStacks).Perm
      (fs ++ (s.kernelStacks ++ s.stackFrames t)) := by
    rw [List.append_assoc, ← List.append_assoc fs]
    exact List.perm_append_comm
  unfold Threads.enterThread at hr
  split_ifs at hr with hfull
  · obtain ⟨⟨tmp, s₁⟩, hk, hr⟩ := Option.bind_eq_some_iff.mp hr
    obtain ⟨h₁, rfl, ha₁⟩ := ha.kmalloc hk
    by_cases htmp : tmp = 0
    · simp only [htmp, if_true] at hr ha₁
      obtain ⟨s₂, hfree, heq⟩ := Option.map_eq_some_iff.mp hr
      obtain ⟨rfl, rfl⟩ := Prod.mk.inj heq
      have hback : ({ s with heap := h₁ } : Threads).Accounts blocks frames
          (owned { s with heap := h₁ } t ++ []) (stackFrames { s with heap := h₁ } t ++ fs) :=
        ha₁.perm (by rw [List.append_nil]; exact .refl _) (.refl _)
      obtain ⟨h₂, hcall, hacc, -⟩ := hback.freeThread hw
      obtain rfl := Option.some.inj (hfree.symm.trans hcall)
      exact ⟨hacc, rfl, rfl, rfl, rfl, .inl ⟨rfl, rfl⟩⟩
    · simp only [htmp, if_false, Option.some.injEq, Prod.mk.injEq] at hr ha₁
      obtain ⟨rfl, rfl⟩ := hr
      have hentries : (List.range (s.length + 1)).map (Function.update
          ((List.range s.length).foldl (fun c i => Function.update c i (s.cells i)) raw.threads)
          s.length t) = s.entries ++ [t] := by
        rw [map_range_update, entries]
        congr 1
        apply List.map_congr_left
        intro i hi
        rw [foldl_update_apply s.cells, if_pos (List.mem_range.mp hi)]
      have hlen := ha.room
      refine ⟨ha.append hw rfl rfl hentries (show s.length + 1 ≤ s.cap * 2 by omega)
        (if_neg (show s.cap * 2 ≠ 0 by omega)) ?_, rfl, rfl, rfl, rfl, .inr ⟨rfl, hentries⟩⟩
      have hheld := ha₁.held
      have hblocks : Threads.blocks { s with heap := h₁ } =
        s.threads :: s.entries.flatMap s.owned := congrArg (· ++ s.entries.flatMap s.owned) htable
      rw [hblocks] at hheld
      exact (hheld.perm (List.perm_middle.trans (.cons _ (.cons _ List.perm_append_comm)))
        hstacks).kfree
  · obtain ⟨rfl, rfl⟩ := Prod.mk.inj (Option.some.inj hr)
    have hentries : (List.range (s.length + 1)).map (Function.update s.cells s.length t) =
      s.entries ++ [t] := map_range_update ..
    refine ⟨ha.append hw rfl rfl hentries (show s.length + 1 ≤ s.cap by omega) rfl ?_,
      rfl, rfl, rfl, rfl, .inr ⟨rfl, hentries⟩⟩
    refine ha.held.perm ?_ hstacks
    rw [← List.append_assoc]
    exact List.perm_append_comm

/-- What a call does to the table: there is one thread more, or `t` is `0` and there is not. -/
structure Grows (s : Threads) (t : ℕ) (s' : Threads) : Prop where
  entries : s'.entries = if t = 0 then s.entries else s.entries ++ [t]
  thread : ∀ u ∈ s.entries, s'.thread u = s.thread u
  current : s'.currentThread = s.currentThread
  next : s'.nextThreadId = s.nextThreadId ∨ s'.nextThreadId = (s.nextThreadId + 1) % 2 ^ 64
  fresh : t ≠ 0 → t ∉ s.entries ∧ (s'.thread t).tid = s.nextThreadId ∧
    (s'.thread t).state = .ready ∧ s'.nextThreadId = (s.nextThreadId + 1) % 2 ^ 64

/-- What `spawn_thread` does. A result `0` is `NULL`. -/
structure Spawns (s : Threads) (t : ℕ) (s' : Threads) : Prop extends Grows s t s' where
  queue : ∀ u ∈ s.entries, s'.queue (s.thread u).queue = s.queue (s.thread u).queue

theorem Keeps.spawns (h : s.Keeps s') : s.Spawns 0 s' where
  entries := h.entries
  thread := h.thread
  current := h.current
  next := .inl h.next
  fresh hc := absurd rfl hc
  queue := h.queue

/-- The fields that `spawn_thread` sets are not those that the blocks are found by. -/
theorem Accounts.setEntry (ha : s.Accounts blocks frames (s.owned t) (s.stackFrames t ++ fs))
    (hw : s.Whole t) (ctx : ThreadContext) (tid next : ℕ)
    (hs' : s' = { (s.setContext (s.thread t).context ctx).setThread t
      { s.thread t with tid := tid, state := .ready, exitCode := 0 } with nextThreadId := next }) :
    s'.Accounts blocks frames (s'.owned t) (s'.stackFrames t ++ fs) ∧ s'.Whole t := by
  obtain ⟨-, hacc⟩ := (ha.setContext (s.thread t).context ctx).setThread (p := t)
    (by simp [owned]) { s.thread t with tid := tid, state := .ready, exitCode := 0 }
  have hthread : s'.thread t = { s.thread t with tid := tid, state := .ready, exitCode := 0 } := by
    rw [hs']
    exact Function.update_self ..
  have hqueues : s'.queue = s.queue := by rw [hs']; rfl
  rw [owned, stackFrames, Whole, hthread, hqueues]
  exact ⟨by rw [hs']; exact ⟨hacc.held, hacc.room, hacc.whole⟩, hw⟩

/-- The caller may have frames of its own. -/
theorem Accounts.spawnThread {entry cr3 : Word} (ha : s.Accounts blocks frames [] fs)
    (hr : s.spawnThread fuel raw entry cr3 = some (t, s')) :
    s'.Accounts blocks frames [] fs ∧ s.Spawns t s' := by
  unfold Threads.spawnThread at hr
  split_ifs at hr with hentry
  · obtain ⟨rfl, rfl⟩ := Prod.mk.inj (Option.some.inj hr)
    exact ⟨ha, (Keeps.refl s).spawns⟩
  obtain ⟨⟨u, s₁⟩, halloc, hr⟩ := Option.bind_eq_some_iff.mp hr
  obtain ⟨hkeeps, ⟨rfl, ha₁⟩ | ⟨hu, hcap, ha₁, hw₁⟩⟩ := ha.allocateThread halloc
  · obtain ⟨rfl, rfl⟩ : 0 = t ∧ s₁ = s' := by simpa using hr
    exact ⟨ha₁, hkeeps.spawns⟩
  simp only [hu, if_false] at hr
  obtain ⟨ctx, hctx⟩ : ∃ ctx : ThreadContext, ctx = { s₁.context (s₁.thread u).context with
    rip := entry, rflags := 0x202, cs := 0x28, ss := 0x10, cr3 := cr3 } := ⟨_, rfl⟩
  obtain ⟨s₂, hs₂⟩ : ∃ s₂ : Threads, s₂ = { (s₁.setContext (s₁.thread u).context ctx).setThread u
    { s₁.thread u with tid := s₁.nextThreadId, state := .ready, exitCode := 0 } with
    nextThreadId := (s₁.nextThreadId + 1) % 2 ^ 64 } := ⟨_, rfl⟩
  obtain ⟨ha₃, hw₃⟩ := ha₁.setEntry hw₁ ctx _ _ hs₂
  have hthread : s₂.thread = Function.update s₁.thread u
      { s₁.thread u with tid := s₁.nextThreadId, state := .ready, exitCode := 0 } := by
    rw [hs₂]
    rfl
  have hqueues : s₂.queue = s₁.queue := by rw [hs₂]; rfl
  have hnot : u ∉ s.entries := by
    rw [← hkeeps.entries]
    exact ha₁.not_mem_entries (by simp [owned])
  have hr' : s₂.enterThread fuel raw u = some (t, s') := by
    rw [hs₂, hctx]
    exact hr
  obtain ⟨hacc, henters⟩ := ha₃.enterThread hw₃ (by rw [hs₂]; exact hcap) hr'
  have hold : ∀ v ∈ s.entries, s'.thread v = s.thread v := by
    intro v hv
    rw [henters.thread, hthread, Function.update_of_ne (by rintro rfl; exact hnot hv)]
    exact hkeeps.thread v hv
  have hnext : s'.nextThreadId = (s.nextThreadId + 1) % 2 ^ 64 := by
    rw [henters.next, hs₂, ← hkeeps.next]
  have hentries₂ : s₂.entries = s.entries := by
    rw [hs₂]
    exact hkeeps.entries
  refine ⟨hacc, ⟨?entries, hold, ?current, .inr hnext, ?fresh⟩, fun v hv => ?queue⟩
  case entries =>
    rcases henters.entries with ⟨rfl, he⟩ | ⟨rfl, he⟩
    · rw [if_pos rfl, he, hentries₂]
    · rw [if_neg hu, he, hentries₂]
  case queue =>
    rw [henters.queue, hqueues]
    exact hkeeps.queue v hv
  case current => rw [henters.current, hs₂]; exact hkeeps.current
  case fresh =>
    intro ht
    rcases henters.entries with ⟨rfl, -⟩ | ⟨rfl, -⟩
    · exact absurd rfl ht
    · rw [henters.thread, hthread, Function.update_self]
      exact ⟨hnot, hkeeps.next, rfl, hnext⟩

/-! ## Messages -/

/-- What is in use besides the ring of `t` and the payloads in it. -/
def besides (s : Threads) (t : ℕ) (bs : List ℕ) : List ℕ :=
  t :: (s.thread t).context :: (s.thread t).queue ::
    (bs ++ (s.tableBlock ++ (s.entries.erase t).flatMap s.owned))

theorem perm_besides (ht : t ∈ s.entries) (bs : List ℕ) :
    (bs ++ s.blocks).Perm ((s.queue (s.thread t).queue).blocks ++ s.besides t bs) := by
  have hsplit : (bs ++ s.blocks).Perm
      (s.owned t ++ (bs ++ (s.tableBlock ++ (s.entries.erase t).flatMap s.owned))) :=
    ((perm_blocks ht).append_left bs).trans (List.perm_append_comm_assoc ..)
  refine hsplit.trans ?_
  rw [owned, besides, List.cons_append, List.cons_append, List.cons_append]
  exact List.Perm.symm (List.perm_middle.trans (.cons _ (List.perm_middle.trans
    (.cons _ List.perm_middle))))

theorem Accounts.queue_ne (ha : s.Accounts blocks frames bs fs) (ht : t ∈ s.entries) {u : ℕ}
    (hu : u ∈ s.entries) (hne : u ≠ t) : (s.thread u).queue ≠ (s.thread t).queue := by
  have hnodup := (List.nodup_append.mp ha.held.block.nodup).2.1
  have hsplit := (List.nodup_append.mp ((perm_blocks ht).nodup_iff.mp hnodup)).2.2
  refine fun hc => hsplit (s.thread t).queue (by simp [owned]) (s.thread u).queue ?_ hc.symm
  refine List.mem_append_right _ (List.mem_flatMap.mpr ⟨u, ?_, by simp [owned]⟩)
  exact (List.mem_erase_of_ne hne).mpr hu

/-- Another queue for `t`, with its blocks in place of those it had. -/
theorem Accounts.replaceQueue (ha : s.Accounts blocks frames bs fs) (ht : t ∈ s.entries)
    {h : HeapState} {q' : IpcQueue} (hq' : q'.Wf)
    (hh : h.Held blocks frames (q'.blocks ++ s.besides t bs') (fs ++ s.kernelStacks)) :
    (({ s with heap := h } : Threads).setQueue (s.thread t).queue q').Accounts blocks frames bs' fs := by
  obtain ⟨s', hs'⟩ : ∃ s' : Threads, s' = ({ s with heap := h } : Threads).setQueue
    (s.thread t).queue q' := ⟨_, rfl⟩
  have hself : s'.queue (s'.thread t).queue = q' := by
    rw [hs']
    exact Function.update_self ..
  have hother : ∀ u ∈ s.entries, u ≠ t → s'.queue (s.thread u).queue = s.queue (s.thread u).queue := by
    intro u hu hne
    rw [hs']
    exact Function.update_of_ne (ha.queue_ne ht hu hne) ..
  rw [← hs']
  have hthread : s'.thread = s.thread := by rw [hs']; rfl
  have hentries : s'.entries = s.entries := by rw [hs']; rfl
  have hbesides : s'.besides t bs' = s.besides t bs' := by
    have hnodup := (List.nodup_append.mp ha.held.block.nodup).2.1
    have hmap : (s.entries.erase t).flatMap s'.owned = (s.entries.erase t).flatMap s.owned := by
      refine List.flatMap_congr fun u hu => ?_
      have hne : u ≠ t := by
        rintro rfl
        have hsplit := (List.nodup_append.mp ((perm_blocks ht).nodup_iff.mp hnodup)).2.2
        exact hsplit u (by simp [owned]) u
          (List.mem_append_right _ (List.mem_flatMap.mpr ⟨u, hu, by simp [owned]⟩)) rfl
      rw [owned, owned, hthread, hother u (List.mem_of_mem_erase hu) hne]
    rw [besides, besides, hentries, hmap, hthread, show s'.tableBlock = s.tableBlock by rw [hs']; rfl]
  have hstacks : s'.kernelStacks = s.kernelStacks := by
    rw [hs']
    rfl
  refine ⟨?_, ?_, fun u hu => ?_⟩
  · have hperm := perm_besides (s := s') (t := t) (hentries.symm ▸ ht) bs'
    rw [hself, hbesides] at hperm
    rw [hstacks, show s'.heap = h by rw [hs']; rfl]
    exact hh.perm hperm.symm (.refl _)
  · rw [show s'.length = s.length by rw [hs']; rfl, show s'.cap = s.cap by rw [hs']; rfl]
    exact ha.room
  · rw [hentries] at hu
    by_cases hut : u = t
    · rw [Whole, hut, hself, hthread]
      exact ⟨hq', (ha.whole t ht).2⟩
    · rw [Whole, hthread, hother u hu hut]
      exact ha.whole u hu

theorem mem_of_findThread {tid : ℕ} (h : s.findThread tid = some t) :
    t ∈ s.entries ∧ (s.thread t).tid = tid :=
  ⟨List.mem_of_find?_eq_some h, by simpa using List.find?_some h⟩

/-- Only queues change, and if nothing was sent then the messages in them do not. -/
theorem Accounts.kipcSend {target : ℕ} {msg : List (BitVec 8)} {ok : Bool}
    (ha : s.Accounts blocks frames bs fs) (hr : s.kipcSend fuel raw target msg = some (ok, s')) :
    s'.Accounts blocks frames bs fs ∧ (∃ h Q, s' = { s with heap := h, queue := Q }) ∧
      (ok = false → ∀ u ∈ s.entries,
        (s'.queue (s.thread u).queue).pending = (s.queue (s.thread u).queue).pending) := by
  unfold Threads.kipcSend at hr
  cases hfind : s.findThread target with
  | none =>
    simp only [hfind, Option.some.injEq, Prod.mk.injEq] at hr
    obtain ⟨rfl, rfl⟩ := hr
    exact ⟨ha, ⟨_, _, rfl⟩, fun _ _ _ => rfl⟩
  | some t =>
    obtain ⟨ht, -⟩ := mem_of_findThread hfind
    simp only [hfind] at hr
    split_ifs at hr with h0
    · obtain ⟨rfl, rfl⟩ := Prod.mk.inj (Option.some.inj hr)
      exact ⟨ha, ⟨_, _, rfl⟩, fun _ _ _ => rfl⟩
    obtain ⟨⟨ok', h, q'⟩, hsend, heq⟩ := Option.map_eq_some_iff.mp hr
    obtain ⟨rfl, rfl⟩ := Prod.mk.inj heq
    have hheld := ha.held.perm (perm_besides ht bs) (.refl _)
    obtain ⟨hheld', hwf, hpending⟩ := hheld.ipcSendTo (ha.whole t ht).1 hsend
    refine ⟨ha.replaceQueue ht hwf hheld', ⟨_, _, rfl⟩, fun hok u hu => ?_⟩
    by_cases hut : u = t
    · rw [hut]
      simp only [Threads.setQueue, Function.update_self]
      exact hpending hok
    · simp only [Threads.setQueue, Function.update_of_ne (ha.queue_ne ht hu hut)]

/-- The message that is taken out of the queue leaves its payload. -/
theorem Accounts.kipcPoll (ha : s.Accounts blocks frames [] []) (hc : s.currentThread ∈ s.entries) :
    (∃ Q, s.kipcPoll.2 = { s with queue := Q }) ∧
      s.kipcPoll.2.Accounts blocks frames (s.kipcPoll.1.map IpcMsg.msg).toList [] := by
  obtain ⟨hwf, hcases⟩ := (ha.whole _ hc).1.ipcPollFrom
  have hheld := ha.held.perm (perm_besides hc []) (.refl _)
  refine ⟨⟨_, rfl⟩, ha.replaceQueue hc hwf (hheld.perm ?_ (.refl _))⟩
  simp only [Threads.kipcPoll]
  rcases hcases with ⟨hm, hq⟩ | ⟨m, hm, hpending, hqueue⟩
  · rw [hm, hq]
    exact .refl _
  · rw [hm, IpcQueue.blocks, IpcQueue.blocks, hpending, hqueue, Option.map_some,
      Option.toList_some, List.map_cons]
    have hmove : ∀ (l r : List ℕ) (a b c p : ℕ),
        (p :: (l ++ a :: b :: c :: r)).Perm (l ++ a :: b :: c :: p :: r) := by
      intro l r a b c p
      have hmiddle := (@List.perm_middle _ p (l ++ [a, b, c]) r).symm
      simpa using hmiddle
    exact .cons _ (hmove ..)

/-- `kbuf` is given back on every way out. -/
theorem Accounts.sysIpcSend {target : ℕ} {msg : List (BitVec 8)} {readable : Bool} {r : ℤ}
    (ha : s.Accounts blocks frames [] [])
    (hr : s.sysIpcSend fuel raw target msg readable = some (r, s')) :
    s'.Accounts blocks frames [] [] ∧ (∃ h Q, s' = { s with heap := h, queue := Q }) ∧
      (r ≠ 1 → ∀ u ∈ s.entries,
        (s'.queue (s.thread u).queue).pending = (s.queue (s.thread u).queue).pending) := by
  unfold Threads.sysIpcSend at hr
  by_cases hsize : msg.length = 0 ∨ syscallMaxBuf < msg.length
  · rw [if_pos hsize] at hr
    obtain ⟨rfl, rfl⟩ := Prod.mk.inj (Option.some.inj hr)
    exact ⟨ha, ⟨_, _, rfl⟩, fun _ _ _ => rfl⟩
  rw [if_neg hsize] at hr
  obtain ⟨⟨kbuf, s₁⟩, hk, hr⟩ := Option.bind_eq_some_iff.mp hr
  obtain ⟨h₁, rfl, ha₁⟩ := ha.kmalloc hk
  by_cases hkbuf : kbuf = 0
  · simp only [hkbuf, if_true, Option.some.injEq, Prod.mk.injEq] at hr ha₁
    obtain ⟨rfl, rfl⟩ := hr
    exact ⟨ha₁, ⟨_, _, rfl⟩, fun _ _ _ => rfl⟩
  simp only [hkbuf, if_false] at hr ha₁
  cases readable with
  | false =>
    obtain ⟨rfl, rfl⟩ := Prod.mk.inj (Option.some.inj hr)
    exact ⟨ha₁.kfree, ⟨_, _, rfl⟩, fun _ _ _ => rfl⟩
  | true =>
    obtain ⟨⟨ok, s₂⟩, hsend, heq⟩ := Option.map_eq_some_iff.mp hr
    obtain ⟨rfl, rfl⟩ := Prod.mk.inj heq
    have ha₂ : ({ s with heap := h₁.setMem (h₁.heap.mem.write kbuf msg) } : Threads).Accounts
        blocks frames [kbuf] [] := ⟨ha₁.held.setMem _, ha₁.room, ha₁.whole⟩
    obtain ⟨ha₃, ⟨h, Q, rfl⟩, hpending⟩ := ha₂.kipcSend hsend
    refine ⟨ha₃.kfree, ⟨_, _, rfl⟩, fun hne => hpending ?_⟩
    cases ok with
    | false => rfl
    | true => exact absurd rfl hne

/-- The payload is given back on every way out. -/
theorem Accounts.sysIpcPoll {capacity senderOut : ℕ} {writable senderWritable : Bool}
    (ha : s.Accounts blocks frames [] []) (hc : s.currentThread ∈ s.entries) :
    (s.sysIpcPoll capacity writable senderOut senderWritable).2.Accounts blocks frames [] [] ∧
      ∃ h Q, (s.sysIpcPoll capacity writable senderOut senderWritable).2 =
        { s with heap := h, queue := Q } := by
  obtain ⟨⟨Q, hs⟩, hacc⟩ := ha.kipcPoll hc
  unfold Threads.sysIpcPoll
  obtain ⟨⟨m, s₁⟩, hpoll⟩ : ∃ r, s.kipcPoll = r := ⟨_, rfl⟩
  rw [hpoll] at hs hacc ⊢
  subst hs
  cases m with
  | none => exact ⟨hacc, ⟨_, _, rfl⟩⟩
  | some m =>
    dsimp only
    split_ifs <;> exact ⟨hacc.kfree, ⟨_, _, rfl⟩⟩

end accounts

end Threads

end Nyvela
