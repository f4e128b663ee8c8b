import Nyvela.Dispatch
import Nyvela.ExecLifetime

/-!
# No thread waits for ever

A `READY` thread gets the processor after a bounded number of switches, whatever the other
threads do meanwhile. The search of `scheduler_next` starts behind the current thread, so the
waiting thread comes closer with every switch. A thread that is entered comes before it at most
once. After a fault the search starts behind the first thread of the table instead, as the
current one is no longer there.
-/

namespace Nyvela

namespace LifeOp

/-- The steps that hand the processor on. -/
def dispatches : LifeOp → Bool
  | .tick | .yield .. | .exit _ | .fault => true
  | _ => false

def isFault : LifeOp → Bool
  | .fault => true
  | _ => false

def isSpawn : LifeOp → Bool
  | .call (.spawn ..) => true
  | _ => false

end LifeOp

namespace Threads

/-- How many threads are searched before `t` is. -/
def ahead (s : Threads) (t : ℕ) : ℕ := RoundRobin.ahead s.entries s.currentThread t

variable {s s' : Threads} {t : ℕ}

theorem ahead_lt_length (ht : t ∈ s.entries) : s.ahead t < s.length := by
  rw [← length_entries]
  exact RoundRobin.ahead_lt ht

/-- A switch that is not to `t`. -/
theorem ahead_pick_lt (h0 : 0 ∉ s.entries) (hl : s.entries.Nodup) (hc : s.currentThread ∈ s.entries)
    (ht : t ∈ s.entries) (hr : (s.thread t).state = .ready) (hne : s.schedulerNext ≠ t) :
    RoundRobin.ahead s.entries s.schedulerNext t < s.ahead t := by
  have hnext := schedulerNext_eq_next h0 hc
  rw [hnext] at hne ⊢
  apply RoundRobin.ahead_next_lt hl ht _ hne
  rw [isReady, hr]
  rfl

theorem schedulerNext_ne_zero (h0 : 0 ∉ s.entries) (ht : t ∈ s.entries)
    (hr : (s.thread t).state = .ready) : s.schedulerNext ≠ 0 := by
  intro hc
  have hmem := (schedulerNext_ready ht hr).1
  rw [hc] at hmem
  exact h0 hmem

/-- `scheduler_next` does not name the current thread while another one is `READY`. -/
theorem canSwitch_of_ready (h0 : 0 ∉ s.entries) (hl : s.entries.Nodup)
    (hc : s.currentThread ∈ s.entries) (ht : t ∈ s.entries) (hr : (s.thread t).state = .ready)
    (hne : s.currentThread ≠ t) : s.canSwitch s.schedulerNext = true := by
  have hnull := schedulerNext_ne_zero h0 ht hr
  have hready := (schedulerNext_ready ht hr).2
  have hother : s.schedulerNext ≠ s.currentThread := by
    intro heq
    have hlt := ahead_pick_lt h0 hl hc ht hr (heq ▸ hne)
    rw [heq] at hlt
    exact Nat.lt_irrefl _ hlt
  simp [canSwitch, hnull, hother, hready]

theorem Grows.ahead_le {u : ℕ} (h : s.Grows u s') (hc : s.currentThread ∈ s.entries)
    (ht : t ∈ s.entries) : s'.ahead t ≤ s.ahead t + if u = 0 then 0 else 1 := by
  rw [ahead, h.entries, h.current]
  split_ifs
  · exact Nat.le_refl _
  · exact RoundRobin.ahead_append_le hc ht u

theorem Removes.ahead_le {u : ℕ} (h : s.Removes u s') (hl : s.entries.Nodup)
    (hc : s.currentThread ∈ s.entries) (hu : u ≠ s.currentThread) (ht : t ∈ s'.entries) :
    s'.ahead t ≤ s.ahead t := by
  rw [ahead, h.current, h.entries]
  apply RoundRobin.ahead_erase_le hl hc hu
  rintro rfl
  rw [h.entries] at ht
  exact hl.not_mem_erase ht

/-- A step that enters no number enters no thread. -/
theorem Grows.eq_zero {u : ℕ} (h : s.Grows u s') (hnext : s'.nextThreadId = s.nextThreadId) :
    u = 0 := by
  by_contra hu
  have hfresh := (h.fresh hu).2.2.2
  omega

theorem Removes.length_le {u : ℕ} (h : s.Removes u s') : s'.length ≤ s.length := by
  rw [← length_entries, ← length_entries, h.entries]
  exact List.length_erase_le

/-- `sys_exit` switches from a table in which only the current thread has changed. -/
theorem sysExit_switches {code : Word} {c : ℕ} (hr : s.sysExit code = some (c, s')) :
    ∃ s₁ : Threads, s₁.entries = s.entries ∧ s₁.length = s.length ∧
      s₁.currentThread = s.currentThread ∧ (∀ t ≠ s.currentThread, s₁.thread t = s.thread t) ∧
      s' = (s₁.switchTo s₁.schedulerNext).2 := by
  obtain ⟨s₁, hs₁, -, heq⟩ := sysExit_eq hr
  refine ⟨s₁, ?_, ?_, ?_, ?_, (Prod.mk.inj heq).2⟩ <;> rw [hs₁]
  · rfl
  · rfl
  · rfl
  · intro t ht
    exact Function.update_of_ne ht ..

end Threads

namespace ThreadWorld

variable {w w' : ThreadWorld} {op : LifeOp} {t : ℕ}

theorem Inv.zero_notMem (hw : w.Inv) : 0 ∉ w.threads.entries := by
  intro h
  apply hw.held.ne_zero _ rfl
  exact Threads.mem_blocks_of_owned h (by simp [Threads.owned])

/-- The processor is with a thread of the table, `t` is another one, and it is `READY`. -/
structure Waits (w : ThreadWorld) (t : ℕ) : Prop where
  inv : w.Inv
  current : w.threads.currentThread ∈ w.threads.entries
  mem : t ∈ w.threads.entries
  ready : (w.threads.thread t).state = .ready
  other : w.threads.currentThread ≠ t

theorem Waits.current_ne_zero (h : w.Waits t) : w.threads.currentThread ≠ 0 := fun h0 =>
  h.inv.zero_notMem (h0 ▸ h.current)

/-- What a step other than a fault does to a thread that waits. -/
theorem LifeStep.ahead_le (hw : w.Waits t) (hok : w.Survivable op) (hs : w.LifeStep op w')
    (hop : op.isFault = false) (ht : t ∈ w'.threads.entries)
    (hother : w'.threads.currentThread ≠ t) :
    w'.threads.ahead t + op.dispatches.toNat ≤ w.threads.ahead t + op.isSpawn.toNat := by
  have h0 := hw.inv.zero_notMem
  have hl := hw.inv.nodup_entries
  cases hs with
  | call hc =>
    obtain ⟨-, u, hgrows, hnext⟩ := hc.inv hw.inv
    have hle := hgrows.ahead_le hw.current hw.mem
    rcases hnext with hnext | ⟨raw, entry, cr3, rfl⟩
    · rw [hgrows.eq_zero hnext, if_pos rfl] at hle
      exact hle.trans (Nat.le_add_right _ _)
    · apply hle.trans
      split_ifs
      · exact Nat.le_succ _
      · exact Nat.le_refl _
  | userspace hnull => exact absurd hnull hw.current_ne_zero
  | tick =>
    rw [Threads.schedulerTick_eq] at hother ⊢
    exact Threads.ahead_pick_lt h0 hl hw.current hw.mem hw.ready hother
  | yield =>
    have hswitch := Threads.canSwitch_of_ready h0 hl hw.current hw.mem hw.ready hw.other
    rw [Threads.sysYield, if_pos hswitch] at hother ⊢
    exact Threads.ahead_pick_lt h0 hl hw.current hw.mem hw.ready hother
  | exit _ hr =>
    obtain ⟨s₁, hentries, -, hcurrent, hthread, rfl⟩ := Threads.sysExit_switches hr
    have hready : (s₁.thread t).state = .ready := by
      rw [hthread t hw.other.symm]
      exact hw.ready
    have hlt := Threads.ahead_pick_lt (hentries ▸ h0) (hentries ▸ hl)
      (hcurrent ▸ hentries ▸ hw.current) (hentries ▸ hw.mem) hready hother
    have hahead : s₁.ahead t = w.threads.ahead t := by
      rw [Threads.ahead, hentries, hcurrent, Threads.ahead]
    rw [hahead] at hlt
    exact hlt
  | sysFreeThread _ hr =>
    rcases Threads.sysFreeThread_eq hr with ⟨-, rfl⟩ | ⟨-, u, -, -, hne, hfree⟩
    · exact Nat.le_refl _
    · exact (Threads.removes_freeThread hfree).ahead_le hl hw.current hne ht
  | execReap _ _ _ hr => exact (Threads.removes_execReap hr).ahead_le hl hw.current hok.2 ht
  | fault => exact absurd hop (by decide)

/-- The table grows by a spawn only, the thread that waits stays `READY`, and some thread has the
processor. -/
theorem LifeStep.table (hw : w.Waits t) (hs : w.LifeStep op w') :
    w'.threads.length ≤ w.threads.length + op.isSpawn.toNat ∧
      (w'.threads.thread t).state = .ready ∧ w'.threads.currentThread ≠ 0 := by
  have h0 := hw.inv.zero_notMem
  have hcur := hw.current_ne_zero
  have hnext := Threads.schedulerNext_ne_zero h0 hw.mem hw.ready
  cases hs with
  | call hc =>
    obtain ⟨-, u, hgrows, hcall⟩ := hc.inv hw.inv
    rw [hgrows.thread t hw.mem, hgrows.current]
    refine ⟨?_, hw.ready, hcur⟩
    rw [← Threads.length_entries, ← Threads.length_entries, hgrows.entries]
    rcases hcall with hcall | ⟨raw, entry, cr3, rfl⟩
    · rw [hgrows.eq_zero hcall, if_pos rfl]
      exact Nat.le_add_right _ _
    · split_ifs
      · exact Nat.le_succ _
      · rw [List.length_append]
        exact Nat.le_refl _
  | userspace hnull => exact absurd hnull hcur
  | tick =>
    rw [Threads.schedulerTick_eq]
    exact ⟨Nat.le_refl _, hw.ready, hnext⟩
  | yield =>
    unfold Threads.sysYield
    split_ifs
    · exact ⟨Nat.le_refl _, hw.ready, hnext⟩
    · exact ⟨Nat.le_refl _, hw.ready, hcur⟩
  | exit _ hr =>
    obtain ⟨s₁, hentries, hlength, -, hthread, rfl⟩ := Threads.sysExit_switches hr
    have hready : (s₁.thread t).state = .ready := by
      rw [hthread t hw.other.symm]
      exact hw.ready
    refine ⟨hlength.le, hready, ?_⟩
    rw [← hentries] at h0
    exact Threads.schedulerNext_ne_zero h0 (hentries ▸ hw.mem) hready
  | sysFreeThread _ hr =>
    rcases Threads.sysFreeThread_eq hr with ⟨-, rfl⟩ | ⟨-, u, -, -, -, hfree⟩
    · exact ⟨Nat.le_refl _, hw.ready, hcur⟩
    · have hremoves := Threads.removes_freeThread hfree
      rw [hremoves.thread, hremoves.current]
      exact ⟨hremoves.length_le, hw.ready, hcur⟩
  | execReap _ _ _ hr =>
    have hremoves := Threads.removes_execReap hr
    rw [hremoves.thread, hremoves.current]
    exact ⟨hremoves.length_le, hw.ready, hcur⟩
  | fault hnull hr =>
    obtain ⟨s, hfree, heq⟩ := Threads.faultRecovery_eq hnull hr
    have hremoves := Threads.removes_freeThread hfree
    rw [Threads.schedulerTick_eq] at heq
    obtain ⟨-, rfl⟩ := Prod.mk.inj heq
    have hready : (s.thread t).state = .ready := by
      rw [hremoves.thread]
      exact hw.ready
    have hmem : t ∈ s.entries := by
      rw [hremoves.entries]
      exact (List.mem_erase_of_ne hw.other.symm).mpr hw.mem
    refine ⟨hremoves.length_le, hready, Threads.schedulerNext_ne_zero ?_ hmem hready⟩
    intro hzero
    rw [hremoves.entries] at hzero
    exact h0 (List.mem_of_mem_erase hzero)

/-! ## Runs -/

/-- The switches that a run may have had, by its faults, its spawns and the length of the table. -/
def turnBound (n : ℕ) (l : List LifeOp) : ℕ :=
  (l.countP LifeOp.isFault + 1) * (n + l.countP LifeOp.isSpawn)

/-- Where a run stands that `t` has not had the processor in. -/
structure Turn (n t : ℕ) (l : List LifeOp) (w : ThreadWorld) : Prop where
  inv : w.Inv
  running : Running w.threads
  current : w.threads.currentThread ≠ 0
  ready : t ∈ w.threads.entries → (w.threads.thread t).state = .ready
  length : w.threads.length ≤ n + l.countP LifeOp.isSpawn
  turns : l.countP LifeOp.dispatches ≤ turnBound n l
  waits : t ∈ w.threads.entries → w.threads.currentThread ≠ t →
    l.countP LifeOp.dispatches + w.threads.ahead t < turnBound n l

theorem Turn.toWaits {n : ℕ} {l : List LifeOp} (h : Turn n t l w) (ht : t ∈ w.threads.entries)
    (hother : w.threads.currentThread ≠ t) : w.Waits t :=
  ⟨h.inv, (h.running.mem h.current).1, ht, h.ready ht, hother⟩

theorem countP_snoc (p : LifeOp → Bool) (l : List LifeOp) (op : LifeOp) :
    (l ++ [op]).countP p = l.countP p + (p op).toNat := by
  rw [List.countP_append, List.countP_singleton]
  cases p op <;> rfl

theorem Turn.step {n : ℕ} {l : List LifeOp} (h : Turn n t l w) (hok : w.Survivable op)
    (ht : t ∈ w.threads.entries) (hother : w.threads.currentThread ≠ t)
    (hs : w.LifeStep op w') : Turn n t (l ++ [op]) w' := by
  have hw := h.toWaits ht hother
  obtain ⟨hinv, hrun⟩ := LifeStep.running h.inv h.running hok hs
  obtain ⟨hlength, hready, hcurrent⟩ := hs.table hw
  have hle := h.length
  have hlt := h.waits ht hother
  have hspawns := countP_snoc LifeOp.isSpawn l op
  have hfaults := countP_snoc LifeOp.isFault l op
  have hdispatches := countP_snoc LifeOp.dispatches l op
  have hmono : turnBound n l ≤ turnBound n (l ++ [op]) := by
    unfold turnBound
    rw [hspawns, hfaults]
    apply Nat.mul_le_mul
    · omega
    · omega
  have hturn : op.dispatches.toNat ≤ 1 := Bool.toNat_le _
  constructor
  case inv => exact hinv
  case running => exact hrun
  case current => exact hcurrent
  case ready => exact fun _ => hready
  case length => omega
  case turns => omega
  case waits =>
    intro ht' hother'
    cases hop : op.isFault with
    | true =>
      -- the search begins anew
      have hbound : turnBound n l + (n + l.countP LifeOp.isSpawn) ≤ turnBound n (l ++ [op]) := by
        unfold turnBound
        rw [hspawns, hfaults, hop, ← Nat.succ_mul]
        apply Nat.mul_le_mul_left
        omega
      have hahead := Threads.ahead_lt_length ht'
      have hspawn : op.isSpawn = false := by
        cases op with
        | fault => rfl
        | _ => exact absurd hop Bool.false_ne_true
      rw [hspawn, Bool.toNat_false] at hlength
      omega
    | false =>
      have hahead := hs.ahead_le hw hok hop ht' hother'
      have hbound : turnBound n l + op.isSpawn.toNat ≤ turnBound n (l ++ [op]) := by
        unfold turnBound
        rw [hspawns, hfaults, hop, Bool.toNat_false, Nat.add_zero, ← Nat.add_assoc,
          Nat.mul_add _ _ op.isSpawn.toNat]
        apply Nat.add_le_add_left
        exact Nat.le_mul_of_pos_left _ (Nat.succ_pos _)
      omega

end ThreadWorld

end Nyvela
