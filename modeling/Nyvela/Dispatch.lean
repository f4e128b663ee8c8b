import Nyvela.ThreadTable

/-!
# Who runs

`scheduler_tick` and `sys_exit` switch to the context of the thread that `scheduler_next`
names. That is a `READY` thread of the table if there is one; if there is none it is the
current thread, also when that was just freed.
-/

namespace Nyvela

namespace Threads

variable {s s' : Threads} {t c : ℕ}

/-- A `READY` thread is found, or there is none and the current thread stays. -/
theorem schedulerNext_cases (s : Threads) :
    (s.schedulerNext ∈ s.entries ∧ (s.thread s.schedulerNext).state = .ready) ∨
      ((∀ t ∈ s.entries, (s.thread t).state ≠ .ready) ∧
        (s.schedulerNext = s.currentThread ∨ s.schedulerNext = 0)) := by
  by_cases hlen : s.length = 0
  · have hnil : s.entries = [] := by rw [entries, hlen, List.range_zero, List.map_nil]
    refine .inr ⟨by simp [hnil], .inr ?_⟩
    rw [schedulerNext, if_pos hlen]
  obtain ⟨i, -, hnext⟩ := schedulerNext_eq_find s hlen
  cases hfind : (s.entries.rotate (i + 1)).find? s.isReady with
  | none =>
    rw [hfind, Option.getD_none] at hnext
    refine .inr ⟨fun t ht => ?_, .inl hnext⟩
    have hnot := List.find?_eq_none.mp hfind t (List.mem_rotate.mpr ht)
    simpa [isReady] using hnot
  | some t =>
    rw [hfind, Option.getD_some] at hnext
    rw [hnext]
    have hready := List.find?_some hfind
    exact .inl ⟨List.mem_rotate.mp (List.mem_of_find?_eq_some hfind), by simpa [isReady] using hready⟩

theorem schedulerNext_ready (ht : t ∈ s.entries) (hr : (s.thread t).state = .ready) :
    s.schedulerNext ∈ s.entries ∧ (s.thread s.schedulerNext).state = .ready := by
  rcases schedulerNext_cases s with h | ⟨hnone, -⟩
  · exact h
  · exact absurd hr (hnone t ht)

theorem schedulerNext_canSwitch (h : s.canSwitch s.schedulerNext = true) :
    s.schedulerNext ∈ s.entries ∧ (s.thread s.schedulerNext).state = .ready := by
  simp only [canSwitch, Bool.not_eq_true', Bool.or_eq_false_iff, decide_eq_false_iff_not,
    not_not] at h
  rcases schedulerNext_cases s with hnext | ⟨-, hc | hc⟩
  · exact hnext
  · exact absurd hc h.1.2
  · exact absurd hc h.1.1

/-- `switch_context` is called with the context of the current thread, which is in the table,
is `READY`, and has not been freed. -/
structure Resumes (s : Threads) (c : ℕ) : Prop where
  mem : s.currentThread ∈ s.entries
  ready : (s.thread s.currentThread).state = .ready
  live : (s.heap.live s.currentThread).isSome
  context : c = (s.thread s.currentThread).context
  contextLive : (s.heap.live c).isSome

theorem Accounts.resumes {blocks frames : Set ℕ} (ha : s.Accounts blocks frames [] [])
    (hmem : s.currentThread ∈ s.entries) (hready : (s.thread s.currentThread).state = .ready) :
    s.Resumes (s.thread s.currentThread).context := by
  have hlive : ∀ p ∈ s.owned s.currentThread, (s.heap.live p).isSome := fun p hp =>
    ha.held.live (mem_blocks_of_owned hmem hp)
  exact ⟨hmem, hready, hlive _ (by simp [owned]), rfl, hlive _ (by simp [owned])⟩

end Threads

namespace ThreadWorld

variable {w w' : ThreadWorld}

/-- Before the first thread runs all are `READY`; then one of the table runs. -/
def Running (s : Threads) : Prop :=
  (s.currentThread = 0 ∧ ∀ t ∈ s.entries, (s.thread t).state = .ready) ∨
    (s.currentThread ∈ s.entries ∧ (s.thread s.currentThread).state = .ready)

/-- At a fault another thread is `READY`, and `exec_reap` is for another thread of the table. -/
def Survivable (w : ThreadWorld) : LifeOp → Prop
  | .fault => ∃ t ∈ w.threads.entries, t ≠ w.threads.currentThread ∧
    (w.threads.thread t).state = .ready
  | .execReap child _ => child ∈ w.threads.entries ∧ child ≠ w.threads.currentThread
  | _ => True

theorem Running.mem {s : Threads} (h : Running s) (h0 : s.currentThread ≠ 0) :
    s.currentThread ∈ s.entries ∧ (s.thread s.currentThread).state = .ready :=
  h.resolve_left fun hc => h0 hc.1

theorem Running.grows {s s' : Threads} {t : ℕ} (h : Running s) (hs : s.Grows t s') :
    Running s' := by
  have hsub : ∀ u ∈ s.entries, u ∈ s'.entries := by
    intro u hu
    rw [hs.entries]
    split_ifs
    · exact hu
    · exact List.mem_append_left _ hu
  rcases h with ⟨h0, hall⟩ | ⟨hmem, hready⟩
  · refine .inl ⟨hs.current.trans h0, fun u hu => ?_⟩
    by_cases hold : u ∈ s.entries
    · rw [hs.thread u hold]
      exact hall u hold
    · rw [hs.entries] at hu
      split_ifs at hu with ht
      · exact absurd hu hold
      · obtain rfl : u = t := by simpa [hold] using hu
        exact (hs.fresh ht).2.2.1
  · rw [Running, hs.current, hs.thread _ hmem]
    exact .inr ⟨hsub _ hmem, hready⟩

theorem Running.removes {s s' : Threads} {t : ℕ} (h : Running s) (h0 : s.currentThread ≠ 0)
    (hne : t ≠ s.currentThread) (hs : s.Removes t s') : Running s' := by
  obtain ⟨hmem, hready⟩ := h.mem h0
  rw [Running, hs.current, hs.thread, hs.entries]
  exact .inr ⟨(List.mem_erase_of_ne hne.symm).mpr hmem, hready⟩

theorem running_schedulerTick {s : Threads} {t : ℕ} (ht : t ∈ s.entries)
    (hr : (s.thread t).state = .ready) : Running s.schedulerTick.2 := by
  rw [Threads.schedulerTick_eq]
  exact .inr (Threads.schedulerNext_ready ht hr)

theorem running_sysExit {s s' : Threads} {code : Word} {c : ℕ}
    (hr : s.sysExit code = some (c, s')) :
    s'.currentThread ∈ s'.entries ∧ (s'.thread s'.currentThread).state = .ready ∧
      c = (s'.thread s'.currentThread).context := by
  obtain ⟨s₁, -, hswitch, heq⟩ := Threads.sysExit_eq hr
  obtain ⟨rfl, rfl⟩ := Prod.mk.inj heq
  obtain ⟨hmem, hready⟩ := Threads.schedulerNext_canSwitch hswitch
  exact ⟨hmem, hready, rfl⟩

/-- The fault of a thread that leaves another one `READY`. -/
theorem Inv.fault (hw : w.Inv) (hmem : w.threads.currentThread ∈ w.threads.entries)
    (hok : w.Survivable .fault) :
    ∃ s, (w.threads.removeEntry w.threads.currentThread).freeThread w.threads.currentThread = some s ∧
      Inv { w with threads := s } ∧ ∃ t ∈ s.entries, (s.thread t).state = .ready := by
  obtain ⟨s, hcall, -, hinv⟩ := hw.free hmem
  obtain ⟨t, ht, hne, hready⟩ := hok
  have hremoves := Threads.removes_freeThread hcall
  refine ⟨s, hcall, hinv, t, ?_, ?_⟩
  · rw [hremoves.entries]
    exact (List.mem_erase_of_ne hne).mpr ht
  · rw [hremoves.thread]
    exact hready

theorem LifeStep.running {op : LifeOp} (hw : w.Inv) (hrun : Running w.threads)
    (hok : w.Survivable op) (hs : w.LifeStep op w') : w'.Inv ∧ Running w'.threads := by
  have hnames : w.NamesEntry op := by
    cases hs with
    | execReap => exact hok.1
    | fault h0 => exact (hrun.mem h0).1
    | _ => trivial
  refine ⟨(hs.inv hw hnames).1, ?_⟩
  cases hs with
  | call hc =>
    obtain ⟨-, t, hgrows, -⟩ := hc.inv hw
    exact hrun.grows hgrows
  | @userspace t h0 hone =>
    refine .inr ⟨hone ▸ List.mem_singleton_self t, ?_⟩
    rcases hrun with ⟨-, hall⟩ | ⟨hmem, hready⟩
    · exact hall t (hone ▸ List.mem_singleton_self t)
    · rw [hone, List.mem_singleton] at hmem
      rw [hmem] at hready
      exact hready
  | tick h0 =>
    obtain ⟨hmem, hready⟩ := hrun.mem h0
    exact running_schedulerTick hmem hready
  | yield h0 =>
    unfold Threads.sysYield
    split_ifs with hswitch
    · exact .inr (Threads.schedulerNext_canSwitch hswitch)
    · exact hrun
  | exit _ hr =>
    obtain ⟨hmem, hready, -⟩ := running_sysExit hr
    exact .inr ⟨hmem, hready⟩
  | sysFreeThread h0 hr =>
    rcases Threads.sysFreeThread_eq hr with ⟨-, rfl⟩ | ⟨-, t, ht, -, hne, hfree⟩
    · exact hrun
    · exact hrun.removes h0 hne (Threads.removes_freeThread hfree)
  | execReap h0 _ _ hr => exact hrun.removes h0 hok.2 (Threads.removes_execReap hr)
  | fault h0 hr =>
    obtain ⟨s, hcall, -, t, ht, hready⟩ := hw.fault (hrun.mem h0).1 hok
    obtain ⟨s₁, hfree, heq⟩ := Threads.faultRecovery_eq h0 hr
    obtain rfl := Option.some.inj (hfree.symm.trans hcall)
    obtain ⟨-, rfl⟩ := Prod.mk.inj heq
    exact running_schedulerTick ht hready

theorem running_of_reachable (hw : (lifeSystem.restrict Survivable).Reachable w) :
    w.Inv ∧ Running w.threads := by
  have hinit : ∀ w, (lifeSystem.restrict Survivable).init w → w.Inv ∧ Running w.threads := by
    intro w hb
    have hnil : w.threads.entries = [] := by
      rw [Threads.entries, hb.length, List.range_zero, List.map_nil]
    exact ⟨hb.inv, .inl ⟨hb.current, by simp [hnil]⟩⟩
  have hstep : ∀ w op w', w.Inv ∧ Running w.threads →
      (lifeSystem.restrict Survivable).step w op w' → w'.Inv ∧ Running w'.threads := by
    rintro w op w' ⟨hinv, hrun⟩ ⟨hok, hstep⟩
    exact LifeStep.running hinv hrun hok hstep
  exact hw.invariant hinit hstep

/-- In every run of such steps, the timer, `sys_exit` and a fault switch to a live thread. -/
theorem scheduler_resumes_live (hw : (lifeSystem.restrict Survivable).Reachable w)
    (h0 : w.threads.currentThread ≠ 0) :
    w.threads.schedulerTick.2.Resumes w.threads.schedulerTick.1 ∧
      (∀ code c s, w.threads.sysExit code = some (c, s) → s.Resumes c) ∧
      (w.Survivable .fault → ∃ c s, w.threads.faultRecovery = some (c, s) ∧ s.Resumes c) := by
  obtain ⟨hinv, hrun⟩ := running_of_reachable hw
  obtain ⟨hmem, hready⟩ := hrun.mem h0
  have htick : ∀ {s : Threads} {t : ℕ}, s.Accounts w.blocks w.frames [] [] → t ∈ s.entries →
      (s.thread t).state = .ready → s.schedulerTick.2.Resumes s.schedulerTick.1 := by
    intro s t hacc ht hr
    have hacc' := hacc.dispatches s.dispatches_schedulerTick
    obtain ⟨hnext, hnextReady⟩ := Threads.schedulerNext_ready ht hr
    rw [Threads.schedulerTick_eq] at hacc' ⊢
    exact hacc'.resumes hnext hnextReady
  refine ⟨htick hinv hmem hready, fun code c s hr => ?_, fun hok => ?_⟩
  · obtain ⟨hmem', hready', rfl⟩ := running_sysExit hr
    exact (Threads.Accounts.dispatches hinv (Threads.dispatches_sysExit hr)).resumes hmem' hready'
  · obtain ⟨s, hcall, hinv', t, ht, hr⟩ := hinv.fault hmem hok
    refine ⟨_, _, ?_, htick hinv' ht hr⟩
    rw [Threads.faultRecovery]
    dsimp only
    rw [if_neg h0, hcall]
    rfl

/-- The first thread exits while a second one runs. When that faults it is freed and, as no
thread is `READY`, resumed. -/
theorem scheduler_resumes_freed : ∃ w c s, lifeSystem.Reachable w ∧
    w.threads.faultRecovery = some (c, s) ∧ c = (s.thread s.currentThread).context ∧
    s.currentThread ∉ s.entries ∧ s.heap.live s.currentThread = none := by
  have hrun : (sixteenMiB.spawn.bind fun w₁ =>
      let w₂ := { w₁ with threads := { w₁.threads with currentThread := 0x200070 } }
      w₂.spawn.bind fun w₃ => (w₃.threads.sysExit 0).bind fun r₄ =>
      r₄.2.faultRecovery.map fun r =>
        decide (w₁.threads.currentThread = 0 ∧ w₁.threads.entries = [0x200070] ∧
          w₃.threads.currentThread ≠ 0 ∧ r.1 = (r.2.thread r.2.currentThread).context ∧
          r.2.currentThread ∉ r.2.entries ∧ r.2.heap.live r.2.currentThread = none)) =
      some true := by decide +kernel
  obtain ⟨w₁, h₁, hrun⟩ := Option.bind_eq_some_iff.mp hrun
  obtain ⟨w₃, h₃, hrun⟩ := Option.bind_eq_some_iff.mp hrun
  obtain ⟨r₄, h₄, hrun⟩ := Option.bind_eq_some_iff.mp hrun
  obtain ⟨r, hr, hrun⟩ := Option.map_eq_some_iff.mp hrun
  obtain ⟨hnull, hfirst, hcur, hcontext, hgone, hfree⟩ := of_decide_eq_true hrun
  have hr₁ := reachable_spawn (.init sixteenMiB_boots) h₁
  have hr₃ := reachable_spawn (hr₁.step (.userspace hnull hfirst)) h₃
  exact ⟨_, r.1, r.2, hr₃.step (.exit hcur h₄), hr, hcontext, hgone, hfree⟩

/-- The first thread runs and the timer ticks. -/
theorem scheduler_resumes_live_first : ∃ w, (lifeSystem.restrict Survivable).Reachable w ∧
    w.threads.currentThread = 0x200070 ∧
    w.threads.schedulerTick.2.Resumes w.threads.schedulerTick.1 := by
  have hr : (sixteenMiB.threads.spawnThread 8 ⟨fun _ => 0, fun _ => ⟨0, 0, 0, 0⟩⟩ 0x400000
      0x1000).map (fun r => (r.2.currentThread, r.2.entries)) = some (0, [0x200070]) := by
    decide +kernel
  obtain ⟨r, hr, heq⟩ := Option.map_eq_some_iff.mp hr
  obtain ⟨hnull, hone⟩ := Prod.mk.inj heq
  have hw₁ : (lifeSystem.restrict Survivable).Reachable { sixteenMiB with threads := r.2 } := by
    refine .step (.init sixteenMiB_boots) ⟨?_, .call (.spawn hr)⟩
    trivial
  have hs : LifeStep { sixteenMiB with threads := r.2 } (.userspace 0x200070) _ :=
    .userspace hnull hone
  have hw := hw₁.step ⟨show Survivable _ (.userspace 0x200070) from trivial, hs⟩
  exact ⟨_, hw, rfl, (scheduler_resumes_live hw (show 0x200070 ≠ 0 by decide)).1⟩

end ThreadWorld

end Nyvela
