import Nyvela.Dispatch
import Nyvela.Exec

/-!
# The child of `sys_exec`

`sys_exec` keeps a pointer to the child in a local variable, halts until the child is `DEAD`, and
then frees it. `sys_free_thread` and `fault_recovery` free threads too and do not know of that
pointer.
-/

namespace Nyvela

/-- Threads wait for others in `sys_exec`: `waits` has the waiting thread and its child. While
`loading`, interrupts are off and the first of them loads the image of its child. -/
structure ExecWorld extends ThreadWorld where
  waits : List (ℕ × ℕ)
  loading : Bool

inductive ExecOp
  | life (op : LifeOp)
  | exec (raw : RawCells) (cr3 : Word)
  | load
  | abort (child : ℕ) (bitmap : Bitmap)
  | reap (child : ℕ) (bitmap : Bitmap)

namespace ExecWorld

/-- A thread that waits makes no system call and is not in ring 3. `exec_reap` is a step of
its own. -/
def Enabled (w : ExecWorld) : LifeOp → Prop
  | .call (.others _) => True
  | .call .contexts => True
  | .tick => w.loading = false
  | .userspace _ => w.loading = false
  | .execReap _ _ => False
  | _ => w.loading = false ∧ w.threads.currentThread ∉ w.waits.map Prod.fst

/-- The threads of `l` that are still in the table. The others do not run again. -/
def stillThere (v : ThreadWorld) (l : List (ℕ × ℕ)) : List (ℕ × ℕ) :=
  l.filter fun p => decide (p.1 ∈ v.threads.entries)

/-- The child is entered, and its image is loaded or is not. If it is, the parent halts until it
finds the child `DEAD`. -/
inductive Step : ExecWorld → ExecOp → ExecWorld → Prop
  | life {w : ExecWorld} {op : LifeOp} {v : ThreadWorld} : w.Enabled op →
    w.toThreadWorld.LifeStep op v → Step w (.life op) ⟨v, stillThere v w.waits, w.loading⟩
  | exec {w : ExecWorld} {fuel : ℕ} {raw : RawCells} {cr3 : Word} {child : ℕ} {s : Threads} :
    w.loading = false → w.threads.currentThread ≠ 0 →
    w.threads.currentThread ∉ w.waits.map Prod.fst →
    w.threads.spawnThread fuel raw (progPage 0) cr3 = some (child, s) → child ≠ 0 →
    Step w (.exec raw cr3) ⟨{ w.toThreadWorld with threads := s },
      (w.threads.currentThread, child) :: w.waits, true⟩
  | load {w : ExecWorld} : w.loading = true → Step w .load { w with loading := false }
  | abort {w : ExecWorld} {t child : ℕ} {l : List (ℕ × ℕ)} {bitmap : Bitmap} {v : ThreadWorld} :
    w.loading = true → w.waits = (t, child) :: l →
    w.toThreadWorld.LifeStep (.execReap child bitmap) v →
    Step w (.abort child bitmap) ⟨v, stillThere v l, false⟩
  | reap {w : ExecWorld} {child : ℕ} {bitmap : Bitmap} {v : ThreadWorld} : w.loading = false →
    (w.threads.currentThread, child) ∈ w.waits → (w.threads.thread child).state = .dead →
    w.toThreadWorld.LifeStep (.execReap child bitmap) v →
    Step w (.reap child bitmap)
      ⟨v, stillThere v (w.waits.erase (w.threads.currentThread, child)), false⟩

end ExecWorld

def execSystem : System ExecWorld ExecOp where
  init w := w.toThreadWorld.Boots ∧ w.waits = [] ∧ w.loading = false
  step := ExecWorld.Step

/-! ## What is freed -/

namespace Threads

/-- In the table, with all that `free_thread` frees in use, each part once. -/
structure Intact (s : Threads) (t : ℕ) : Prop where
  mem : t ∈ s.entries
  live : ∀ p ∈ s.owned t, (s.heap.live p).isSome
  stack : ∀ f ∈ s.stackFrames t, s.heap.heap.pmm.bitmap.test f = false
  distinct : (s.owned t).Nodup ∧ (s.stackFrames t).Nodup

end Threads

namespace ThreadWorld

variable {w w' : ThreadWorld} {op : LifeOp} {c t : ℕ}

theorem Inv.intact (hw : w.Inv) (ht : t ∈ w.threads.entries) : w.threads.Intact t := by
  obtain ⟨s, -, hfrees, -⟩ := hw.free ht
  refine ⟨ht, fun p hp => ?_, fun f hf => ?_, hfrees.distinct⟩
  · exact hw.held.live (Threads.mem_blocks_of_owned ht hp)
  · exact hw.held.frame.used_of_held (List.mem_flatMap.mpr ⟨t, ht, hf⟩)

/-- What `op` passes to `free_thread`. -/
def victim (w : ThreadWorld) : LifeOp → Option ℕ
  | .sysFreeThread tid =>
    if tid = 0 ∨ w.threads.currentThread = 0 ∨
        tid = (w.threads.thread w.threads.currentThread).tid then none
    else w.threads.findThread tid
  | .execReap child _ => some child
  | .fault => some w.threads.currentThread
  | _ => none

/-- The victim leaves the table, and no other thread does. -/
theorem LifeStep.entries (hw : w.Inv) (hs : w.LifeStep op w') :
    (∃ t, w.victim op = some t ∧ w'.threads.entries = w.threads.entries.erase t) ∨
      w.victim op = none ∧ ∀ c ∈ w.threads.entries, c ∈ w'.threads.entries := by
  cases hs with
  | call hc =>
    obtain ⟨-, t, hgrows, -⟩ := hc.inv hw
    refine .inr ⟨rfl, fun c hc => ?_⟩
    rw [hgrows.entries]
    split_ifs
    · exact hc
    · exact List.mem_append_left _ hc
  | userspace => exact .inr ⟨rfl, fun c hc => hc⟩
  | tick =>
    refine .inr ⟨rfl, fun c hc => ?_⟩
    rw [w.threads.dispatches_schedulerTick.entries]
    exact hc
  | @yield f ret flags =>
    refine .inr ⟨rfl, fun c hc => ?_⟩
    rw [(w.threads.dispatches_sysYield f ret flags).entries]
    exact hc
  | exit _ hr =>
    refine .inr ⟨rfl, fun c hc => ?_⟩
    rw [(Threads.dispatches_sysExit hr).entries]
    exact hc
  | sysFreeThread _ hr =>
    unfold Threads.sysFreeThread at hr
    simp only [victim]
    split_ifs at hr ⊢ with hself
    · obtain ⟨-, rfl⟩ := Prod.mk.inj (Option.some.inj hr)
      exact .inr ⟨rfl, fun c hc => hc⟩
    · split at hr
      · next hnone =>
        obtain ⟨-, rfl⟩ := Prod.mk.inj (Option.some.inj hr)
        exact .inr ⟨hnone, fun c hc => hc⟩
      · next t hfind =>
        obtain ⟨s, hfree, heq⟩ := Option.map_eq_some_iff.mp hr
        obtain ⟨-, rfl⟩ := Prod.mk.inj heq
        exact .inl ⟨t, hfind, (Threads.removes_freeThread hfree).entries⟩
  | execReap _ _ _ hr => exact .inl ⟨_, rfl, (Threads.removes_execReap hr).entries⟩
  | fault h0 hr =>
    obtain ⟨s, hfree, heq⟩ := Threads.faultRecovery_eq h0 hr
    obtain ⟨-, rfl⟩ := Prod.mk.inj heq
    exact .inl ⟨_, rfl, s.dispatches_schedulerTick.entries.trans
      (Threads.removes_freeThread hfree).entries⟩

theorem Inv.nodup_entries (hw : w.Inv) : w.threads.entries.Nodup := by
  have hblocks : w.threads.blocks.Nodup := hw.held.block.nodup
  have howned := (List.nodup_append.mp hblocks).2.1
  refine (List.nodup_flatMap.mp howned).2.imp_of_mem ?_
  intro a b _ _ hdisj heq
  subst heq
  exact hdisj (show a ∈ w.threads.owned a by simp [Threads.owned])
    (show a ∈ w.threads.owned a by simp [Threads.owned])

theorem LifeStep.mem_entries (hw : w.Inv) (hs : w.LifeStep op w') (hc : c ∈ w.threads.entries)
    (hne : w.victim op ≠ some c) : c ∈ w'.threads.entries := by
  obtain ⟨t, hv, hentries⟩ | ⟨-, hkept⟩ := hs.entries hw
  · rw [hentries]
    exact (List.mem_erase_of_ne fun heq => hne (hv.trans (congrArg some heq.symm))).mpr hc
  · exact hkept c hc

theorem LifeStep.victim_gone (hw : w.Inv) (hs : w.LifeStep op w') (hv : w.victim op = some t) :
    t ∉ w'.threads.entries := by
  obtain ⟨u, hu, hentries⟩ | ⟨hnone, -⟩ := hs.entries hw
  · obtain rfl := Option.some.inj (hu.symm.trans hv)
    rw [hentries]
    exact hw.nodup_entries.not_mem_erase
  · exact nomatch hv.symm.trans hnone

end ThreadWorld

/-! ## Runs -/

namespace ExecWorld

variable {w w' : ExecWorld} {op : ExecOp}

/-- No thread that another waits for is freed by `sys_free_thread` or by a fault, and at a fault
another thread is `READY`. -/
def Spares (w : ExecWorld) : ExecOp → Prop
  | .life (.sysFreeThread tid) => ∀ p ∈ w.waits, (w.threads.thread p.2).tid ≠ tid
  | .life .fault => w.toThreadWorld.Survivable .fault ∧
    ∀ p ∈ w.waits, p.2 ≠ w.threads.currentThread
  | _ => True

/-- What the step passes to `free_thread`. -/
def victim (w : ExecWorld) : ExecOp → Option ℕ
  | .life op => w.toThreadWorld.victim op
  | .abort child _ => some child
  | .reap child _ => some child
  | _ => none

/-- Every child is in the table and has one parent, which is another thread. -/
structure Waiting (w : ExecWorld) : Prop where
  inv : w.toThreadWorld.Inv
  running : ThreadWorld.Running w.threads
  child : ∀ p ∈ w.waits, p.2 ∈ w.threads.entries
  distinct : (w.waits.map Prod.snd).Nodup
  other : ∀ p ∈ w.waits, p.2 ≠ p.1
  loading : w.loading = true → ∃ p l, w.waits = p :: l ∧ p.1 = w.threads.currentThread ∧
    w.threads.currentThread ∈ w.threads.entries

theorem mem_of_stillThere {v : ThreadWorld} {l : List (ℕ × ℕ)} {p : ℕ × ℕ}
    (hp : p ∈ stillThere v l) : p ∈ l := List.mem_of_mem_filter hp

theorem nodup_stillThere (v : ThreadWorld) {l : List (ℕ × ℕ)} (h : (l.map Prod.snd).Nodup) :
    ((stillThere v l).map Prod.snd).Nodup := h.sublist (List.filter_sublist.map _)

/-- A step that frees `t`, for which nobody of `l` waits. -/
theorem Waiting.thinned (h : w.Waiting) {op : LifeOp} {v : ThreadWorld} {l : List (ℕ × ℕ)}
    (hstep : w.toThreadWorld.LifeStep op v) (hok : w.toThreadWorld.Survivable op)
    (hl : l.Sublist w.waits) (hspared : ∀ p ∈ l, w.toThreadWorld.victim op ≠ some p.2) :
    Waiting ⟨v, stillThere v l, false⟩ := by
  obtain ⟨hinv, hrun⟩ := hstep.running h.inv h.running hok
  refine ⟨hinv, hrun, fun p hp => ?_, nodup_stillThere v (h.distinct.sublist (hl.map _)),
    fun p hp => h.other p (hl.subset (mem_of_stillThere hp)), fun hc => Bool.noConfusion hc⟩
  have hmem := mem_of_stillThere hp
  exact hstep.mem_entries h.inv (h.child p (hl.subset hmem)) (hspared p hmem)

theorem Enabled.call_of_loading {op : LifeOp} (h : w.Enabled op) (hload : w.loading = true) :
    ∃ c, op = .call c := by
  have hne : w.loading ≠ false := by rw [hload]; decide
  cases op with
  | call c => exact ⟨c, rfl⟩
  | execReap => exact h.elim
  | tick => exact absurd h hne
  | userspace => exact absurd h hne
  | _ => exact absurd h.1 hne

theorem spared_of_spares {op : LifeOp} (hok : w.Spares (.life op)) (hen : w.Enabled op) : w.toThreadWorld.Survivable op ∧
      ∀ p ∈ w.waits, w.toThreadWorld.victim op ≠ some p.2 := by
  cases op with
  | sysFreeThread tid =>
    refine ⟨trivial, fun p hp hv => ?_⟩
    simp only [ThreadWorld.victim] at hv
    split_ifs at hv
    exact hok p hp (by simpa using List.find?_some hv)
  | execReap => exact hen.elim
  | fault => exact ⟨hok.1, fun p hp hv => hok.2 p hp (Option.some.inj hv).symm⟩
  | _ => exact ⟨trivial, fun _ _ => nofun⟩

theorem Waiting.life (h : w.Waiting) {op : LifeOp} {v : ThreadWorld} (hok : w.Spares (.life op))
    (hen : w.Enabled op) (hlife : w.toThreadWorld.LifeStep op v) :
    Waiting ⟨v, stillThere v w.waits, w.loading⟩ := by
  obtain ⟨hsurv, hspared⟩ := spared_of_spares hok hen
  have hthin := h.thinned hlife hsurv (.refl _) hspared
  refine ⟨hthin.inv, hthin.running, hthin.child, hthin.distinct, hthin.other, fun hload => ?_⟩
  -- the thread that loads stays the current one
  obtain ⟨c, rfl⟩ := hen.call_of_loading hload
  obtain ⟨p, l, hwaits, hcur, hmem⟩ := h.loading hload
  have hmem' := hlife.mem_entries h.inv hmem nofun
  have hsame : v.threads.currentThread = w.threads.currentThread := by
    cases hlife with
    | call hc =>
      obtain ⟨-, t, hgrows, -⟩ := hc.inv h.inv
      exact hgrows.current
  refine ⟨p, stillThere v l, ?_, hcur.trans hsame.symm, hsame ▸ hmem'⟩
  dsimp only
  rw [hwaits, stillThere, List.filter_cons, if_pos (decide_eq_true (hcur ▸ hmem'))]
  rfl

theorem Waiting.exec (h : w.Waiting) {fuel : ℕ} {raw : RawCells} {entry cr3 : Word} {child : ℕ}
    {s : Threads} (h0 : w.threads.currentThread ≠ 0)
    (hspawn : w.threads.spawnThread fuel raw entry cr3 = some (child, s)) (hne : child ≠ 0) :
    Waiting ⟨{ w.toThreadWorld with threads := s }, (w.threads.currentThread, child) :: w.waits,
      true⟩ := by
  have hlife : w.toThreadWorld.LifeStep (.call (.spawn raw entry cr3))
      { w.toThreadWorld with threads := s } := .call (.spawn hspawn)
  have hsurv : w.toThreadWorld.Survivable (.call (.spawn raw entry cr3)) := trivial
  obtain ⟨hinv, hrun⟩ := hlife.running h.inv h.running hsurv
  have hgrows := (Threads.Accounts.spawnThread h.inv hspawn).2.toGrows
  obtain ⟨hfresh, -⟩ := hgrows.fresh hne
  have hentries := hgrows.entries
  rw [if_neg hne] at hentries
  have hcur := (h.running.mem h0).1
  refine ⟨hinv, hrun, ?_, ?_, ?_, fun _ => ⟨_, _, rfl, hgrows.current.symm, ?_⟩⟩
  · intro p hp
    show p.2 ∈ s.entries
    rw [hentries, List.mem_append, List.mem_singleton]
    obtain rfl | hp := List.mem_cons.mp hp
    · exact .inr rfl
    · exact .inl (h.child p hp)
  · refine List.nodup_cons.mpr ⟨fun hmem => hfresh ?_, h.distinct⟩
    obtain ⟨p, hp, rfl⟩ := List.mem_map.mp hmem
    exact h.child p hp
  · intro p hp
    obtain rfl | hp := List.mem_cons.mp hp
    · exact fun heq : child = w.threads.currentThread => hfresh (heq.symm ▸ hcur)
    · exact h.other p hp
  · show s.currentThread ∈ s.entries
    rw [hgrows.current, hentries]
    exact List.mem_append_left _ hcur

theorem Waiting.step (h : w.Waiting) (hok : w.Spares op) (hstep : w.Step op w') : w'.Waiting := by
  cases hstep with
  | life hen hlife => exact h.life hok hen hlife
  | exec _ h0 _ hspawn hne => exact h.exec h0 hspawn hne
  | load => exact ⟨h.inv, h.running, h.child, h.distinct, h.other, fun hc => Bool.noConfusion hc⟩
  | @abort t child l bitmap v hload hwaits hlife =>
    have hmem : (t, child) ∈ w.waits := hwaits ▸ List.mem_cons_self
    obtain ⟨p, l', hwaits', hcur, -⟩ := h.loading hload
    obtain ⟨rfl, -⟩ := List.cons.inj (hwaits'.symm.trans hwaits)
    have hdistinct := h.distinct
    rw [hwaits, List.map_cons, List.nodup_cons] at hdistinct
    refine h.thinned hlife ⟨h.child _ hmem, hcur ▸ h.other _ hmem⟩ (hwaits ▸ List.sublist_cons_self ..)
      fun q hq hv => hdistinct.1 ?_
    exact List.mem_map.mpr ⟨q, hq, (Option.some.inj hv).symm⟩
  | @reap child bitmap v _ hmem _ hlife =>
    refine h.thinned hlife ⟨h.child _ hmem, h.other _ hmem⟩ List.erase_sublist fun q hq hv => ?_
    have hnodup : w.waits.Nodup := h.distinct.of_map _
    obtain ⟨hne, hq⟩ := hnodup.mem_erase_iff.mp hq
    exact hne (List.inj_on_of_nodup_map h.distinct hq hmem (Option.some.inj hv).symm)

theorem waiting_of_reachable (hw : (execSystem.restrict Spares).Reachable w) : w.Waiting := by
  refine hw.invariant (fun w hinit => ?_) fun w op w' h hstep => h.step hstep.1 hstep.2
  obtain ⟨hboots, hwaits, hload⟩ := hinit
  obtain ⟨hinv, hrun⟩ := ThreadWorld.running_of_reachable (.init hboots)
  exact ⟨hinv, hrun, by simp [hwaits], by simp [hwaits], by simp [hwaits],
    fun hc => Bool.noConfusion (hload.symm.trans hc)⟩

/-- In every run of such steps a child that is waited for is there, and what is passed to
`free_thread` is a thread of the table that has all its parts. After the step it is gone. -/
theorem exec_child_alive {w : ExecWorld} (hw : (execSystem.restrict Spares).Reachable w) :
    (∀ p ∈ w.waits, w.threads.Intact p.2) ∧
      ∀ op w' t, (execSystem.restrict Spares).step w op w' → w.victim op = some t →
        w.threads.Intact t ∧ t ∉ w'.threads.entries := by
  have h := waiting_of_reachable hw
  refine ⟨fun p hp => h.inv.intact (h.child p hp), ?_⟩
  rintro op w' t ⟨hok, hstep⟩ hv
  have hmem : t ∈ w.threads.entries := by
    cases hstep with
    | @life op v hen hlife =>
      cases op with
      | sysFreeThread tid =>
        simp only [victim, ThreadWorld.victim] at hv
        split_ifs at hv
        exact List.mem_of_find?_eq_some hv
      | execReap => exact hen.elim
      | fault =>
        obtain rfl := Option.some.inj hv
        cases hlife with
        | fault h0 => exact (h.running.mem h0).1
      | _ => exact nomatch hv
    | exec => exact nomatch hv
    | load => exact nomatch hv
    | abort _ hwaits =>
      obtain rfl := Option.some.inj hv
      exact h.child _ (hwaits ▸ List.mem_cons_self)
    | reap _ hmem =>
      obtain rfl := Option.some.inj hv
      exact h.child _ hmem
  refine ⟨h.inv.intact hmem, ?_⟩
  cases hstep with
  | life _ hlife => exact hlife.victim_gone h.inv hv
  | exec => exact nomatch hv
  | load => exact nomatch hv
  | abort _ _ hlife => exact hlife.victim_gone h.inv hv
  | reap _ _ _ hlife => exact hlife.victim_gone h.inv hv

/-! ## A child that faults -/

/-- What is in fresh arrays does not matter here. -/
def zeroCells : RawCells := ⟨fun _ => 0, fun _ => ⟨0, 0, 0, 0⟩⟩

/-- The machine with 16 MiB, where no thread is. -/
def booted : ExecWorld := ⟨ThreadWorld.sixteenMiB, [], false⟩

theorem reachable_step (hw : (execSystem.restrict Spares).Reachable w) (hstep : w.Step op w')
    (hok : w.Spares op) : (execSystem.restrict Spares).Reachable w' := hw.step ⟨hok, hstep⟩

theorem init_booted : execSystem.init booted := ⟨ThreadWorld.sixteenMiB_boots, rfl, rfl⟩

/-- The first thread, when it runs. -/
def first (s : Threads) : ExecWorld :=
  ⟨{ ThreadWorld.sixteenMiB with threads := { s with currentThread := 0x200070 } }, [], false⟩

theorem run_first {s : Threads} {fuel t : ℕ}
    (hspawn : ThreadWorld.sixteenMiB.threads.spawnThread fuel zeroCells 0x400000 0x1000 = some (t, s))
    (hnull : s.currentThread = 0) (hone : s.entries = [0x200070]) :
    (execSystem.restrict Spares).Reachable (first s) := by
  have hentered : booted.Step (.life (.call (.spawn zeroCells 0x400000 0x1000)))
      ⟨{ ThreadWorld.sixteenMiB with threads := s }, [], false⟩ :=
    .life ⟨rfl, by simp [booted]⟩ (.call (.spawn hspawn))
  have hruns : Step ⟨{ ThreadWorld.sixteenMiB with threads := s }, [], false⟩
      (.life (.userspace 0x200070)) (first s) := .life rfl (.userspace hnull hone)
  have hbooted : (execSystem.restrict Spares).Reachable booted := .init init_booted
  exact reachable_step (reachable_step hbooted hentered trivial) hruns trivial

theorem stillThere_singleton {v : ThreadWorld} {t c : ℕ} (h : t ∈ v.threads.entries) :
    stillThere v [(t, c)] = [(t, c)] := by
  simp [stillThere, h]

/-- The first thread has started a program and waits for it. The program faults. -/
theorem exec_child_freed : ∃ (w : ExecWorld) (child : ℕ), execSystem.Reachable w ∧
    (w.threads.currentThread, child) ∈ w.waits ∧ child ∉ w.threads.entries ∧
    w.threads.heap.live child = none := by
  have hrun : ((ThreadWorld.sixteenMiB.threads.spawnThread 40 zeroCells 0x400000 0x1000).bind fun r₁ =>
      ((first r₁.2).threads.spawnThread 40 zeroCells (progPage 0) 0x2000).bind fun r₂ =>
      r₂.2.schedulerTick.2.faultRecovery.map fun r =>
        decide (r₁.2.currentThread = 0 ∧ r₁.2.entries = [0x200070] ∧ r₂.1 ≠ 0 ∧
          r₂.2.currentThread ≠ 0 ∧ 0x200070 ∈ r₂.2.schedulerTick.2.entries ∧
          r₂.2.schedulerTick.2.currentThread ∉ [0x200070, 0] ∧
          r.2.currentThread = 0x200070 ∧ 0x200070 ∈ r.2.entries ∧ r₂.1 ∉ r.2.entries ∧
          r.2.heap.live r₂.1 = none)) = some true := by decide +kernel
  obtain ⟨⟨t, s⟩, hfirst, hrun⟩ := Option.bind_eq_some_iff.mp hrun
  obtain ⟨⟨child, s₁⟩, hspawn, hrun⟩ := Option.bind_eq_some_iff.mp hrun
  obtain ⟨⟨c, s₂⟩, hfault, hrun⟩ := Option.map_eq_some_iff.mp hrun
  obtain ⟨hnull, hone, hchild, hcur, hparent, hother, hcur₂, hparent₂, hgone, hlive⟩ :=
    of_decide_eq_true hrun
  dsimp only at hspawn hfault hnull hone hchild hcur hparent hother hcur₂ hparent₂ hgone hlive
  simp only [List.mem_cons, List.not_mem_nil, or_false, not_or] at hother
  -- the program is started, the timer switches to it, and it faults
  have hexec : Step (first s) (.exec zeroCells 0x2000)
      ⟨{ (first s).toThreadWorld with threads := s₁ }, [(0x200070, child)], true⟩ :=
    .exec rfl (show 0x200070 ≠ 0 by decide) (by simp [first]) hspawn hchild
  have htick : Step ⟨{ (first s).toThreadWorld with threads := s₁ }, [(0x200070, child)], false⟩
      (.life .tick) ⟨{ (first s).toThreadWorld with threads := s₁.schedulerTick.2 },
        stillThere _ [(0x200070, child)], false⟩ := .life rfl (.tick hcur)
  rw [stillThere_singleton hparent] at htick
  have hfaults : Step ⟨{ (first s).toThreadWorld with threads := s₁.schedulerTick.2 },
      [(0x200070, child)], false⟩ (.life .fault) ⟨{ (first s).toThreadWorld with threads := s₂ },
        stillThere _ [(0x200070, child)], false⟩ :=
    .life ⟨rfl, by simpa using hother.1⟩ (.fault hother.2 hfault)
  rw [stillThere_singleton hparent₂] at hfaults
  have hreach := (run_first hfirst hnull hone).of_restrict
  refine ⟨_, child, (((hreach.step hexec).step (.load rfl)).step htick).step hfaults, ?_, hgone, hlive⟩
  rw [hcur₂]
  exact List.mem_singleton_self _

/-- The first thread waits for a program. -/
theorem exec_child_alive_first : ∃ (w : ExecWorld) (child : ℕ),
    (execSystem.restrict Spares).Reachable w ∧ w.waits = [(0x200070, child)] ∧
    w.threads.Intact child := by
  have hrun : ((ThreadWorld.sixteenMiB.threads.spawnThread 40 zeroCells 0x400000 0x1000).bind fun r₁ =>
      ((first r₁.2).threads.spawnThread 40 zeroCells (progPage 0) 0x2000).map fun r₂ =>
        decide (r₁.2.currentThread = 0 ∧ r₁.2.entries = [0x200070] ∧ r₂.1 ≠ 0)) = some true := by
    decide +kernel
  obtain ⟨⟨t, s⟩, hfirst, hrun⟩ := Option.bind_eq_some_iff.mp hrun
  obtain ⟨⟨child, s₁⟩, hspawn, hrun⟩ := Option.map_eq_some_iff.mp hrun
  obtain ⟨hnull, hone, hchild⟩ := of_decide_eq_true hrun
  have hexec : Step (first s) (.exec zeroCells 0x2000)
      ⟨{ (first s).toThreadWorld with threads := s₁ }, [(0x200070, child)], true⟩ :=
    .exec rfl (show 0x200070 ≠ 0 by decide) (by simp [first]) hspawn hchild
  have hw := reachable_step (run_first hfirst hnull hone) hexec trivial
  exact ⟨_, child, hw, rfl, (exec_child_alive hw).1 _ (List.mem_singleton_self _)⟩

end ExecWorld

end Nyvela
