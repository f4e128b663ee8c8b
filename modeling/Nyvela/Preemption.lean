import Nyvela.Context

/-!
# Preemption and yielding are transparent

A thread that the timer interrupts, in either ring, or that gives up the processor in
`sys_yield`, finds its registers and its stack as they were when it is resumed.
-/

namespace Nyvela

open X86 X86.Cpu

/-- `GDT_KCODE_LM_SEGMENT`, the selector of every gate. -/
def kernelCs : Word := 0x28

/-- The timer interrupt up to the return of `save_context`, which is called from
`isr_lapic_timer` and returns to `ra`. -/
def preempt (y : Symbols) (rsp0 handler ra : Word) (s : Cpu) : Cpu :=
  (s.interrupt rsp0 kernelCs handler).call ra (saveContext y)

/-- The code of `isr_syscall` up to the call of `syscall_handler`, which returns to `ra`. -/
def isrSyscall (ra : Word) (s : Cpu) : Cpu :=
  (s.exec [
    .push (.reg .rax),
    .push (.reg .rdi),
    .push (.reg .rsi),
    .push (.reg .rcx),
    .push (.reg .rdx),
    .push (.reg .rbx),
    .push (.reg .rbp),
    .push (.reg .r8),
    .push (.reg .r9),
    .push (.reg .r10),
    .push (.reg .r11),
    .push (.reg .r12),
    .push (.reg .r13),
    .push (.reg .r14),
    .push (.reg .r15),
    .mov (.reg .rdi) (.reg .rsp)]).push ra

def syscallReturn (s : Cpu) : Cpu :=
  (s.exec [.pop .r15, .pop .r14, .pop .r13, .pop .r12, .pop .r11, .pop .r10, .pop .r9, .pop .r8,
    .pop .rbp, .pop .rbx, .pop .rdx, .pop .rcx, .pop .rsi, .pop .rdi, .pop .rax]).iretq

/-- What `sys_yield` stores in the frame at `f` and in the context of the current thread before
it turns to the next thread; `flags` is what `read_flags` returns. -/
def sysYield (y : Symbols) (f flags : Word) (m : Memory) : Memory :=
  let m := m.write64 (f.toNat + 112) 0
  let ctx := m.read64 ((m.read64 y.currentThread.toNat).toNat + 8)
  storeAll m ctx.toNat
    [(56, f), (128, y.syscallReturn), (136, flags), (144, kernelCs), (152, 0x10)]

section Transparent

variable {y : Symbols} {s : Cpu} {rsp0 thread ctx : Word} {lo n : ℕ}

/-- A thread about to be interrupted: the kernel stack at hand has room, a thread in ring 0 runs
on it, and `cr3` is the thread's own. -/
structure Running (y : Symbols) (s : Cpu) (rsp0 thread ctx : Word) (lo n : ℕ) : Prop
    extends Placed y s.mem thread ctx lo n where
  room : lo + 176 ≤ (s.entrySp rsp0).toNat
  top : (s.entrySp rsp0).toNat ≤ lo + n
  ring0 : s.cs &&& 3 = 0 → s.cs = kernelCs ∧ s.sp ≤ lo + n
  space : (contextAt s.mem ctx.toNat).cr3 = s.cr3

/-- A call of `switch_context` for the thread: its context is as it was left in memory `m`. -/
structure Scheduled (y : Symbols) (m : Memory) (s : Cpu) (thread ctx : Word) : Prop where
  rdi : s.reg .rdi = ctx
  kept : ∀ p, ctx.toNat ≤ p → p < ctx.toNat + 168 → s.mem p = m p
  current : s.mem.read64 y.currentThread.toNat = thread
  context : s.mem.read64 (thread.toNat + 8) = ctx
  cs : s.cs = kernelCs
  room : 40 ≤ s.sp
  apart : Apart ctx.toNat 168 (s.sp - 40) 40

theorem Placed.of_outside {m m' : Memory} (h : Placed y m thread ctx lo n)
    (hm : ∀ p, (p < lo ∨ lo + n ≤ p) → m' p = m p) : Placed y m' thread ctx lo n := by
  have h1 := h.current_stack
  have h2 := h.thread_stack
  unfold Apart at h1 h2
  refine { h with current := ?_, context := ?_ }
  · rw [← h.current]
    exact Memory.read64_congr fun i hi => hm _ (by omega)
  · rw [← h.context]
    exact Memory.read64_congr fun i hi => hm _ (by omega)

theorem Scheduled.switchCr3_eq {m : Memory} (h : Scheduled y m s thread ctx)
    (ht : thread ≠ 0) (hc : ctx ≠ 0) (hlt : thread.toNat + 48 < 2 ^ 64)
    (hlc : ctx.toNat + 168 < 2 ^ 64) : switchCr3 y s = (contextAt m ctx.toNat).cr3 := by
  have h1 : s.load y.currentThread = thread := h.current
  have h2 : s.load (thread + 8) = ctx := by
    rw [← h.context]
    exact congrArg s.mem.read64 (toNat_add_ofNat (o := 8) (by omega))
  have h3 : s.load (ctx + 160) = (contextAt s.mem ctx.toNat).cr3 :=
    congrArg s.mem.read64 (toNat_add_ofNat (o := 160) (by omega))
  unfold switchCr3
  dsimp only
  rw [h1, if_neg ht, h2, if_neg hc, h3, contextAt_congr h.kept]

/-- The context that an interrupted thread leaves. -/
theorem Running.contextAt_preempt (h : Running y s rsp0 thread ctx lo n) (handler ra : Word) :
    contextAt (preempt y rsp0 handler ra s).mem ctx.toNat =
        { reg := s.reg
          rip := s.rip
          rflags := s.rflags
          cs := s.cs
          ss := if s.cs &&& 3 = 0 then 0x10 else s.ss
          cr3 := s.cr3 } ∧
      ∀ p, (p < y.rspReg.toNat ∨ y.rspReg.toNat + 8 ≤ p) →
        (p < ctx.toNat ∨ ctx.toNat + 168 ≤ p) →
        (p < lo ∨ (s.entrySp rsp0).toNat ≤ p) →
        (preempt y rsp0 handler ra s).mem p = s.mem p := by
  have hroom := h.room
  have htop := h.top
  obtain ⟨hst, hsp, hreg, -, hmem⟩ := interrupt_spec s rsp0 kernelCs handler (by omega)
  obtain ⟨t, ht⟩ : ∃ t, t = s.interrupt rsp0 kernelCs handler := ⟨_, rfl⟩
  rw [← ht] at hst hsp hreg hmem
  have hroom8 : 8 ≤ t.sp := by omega
  have hst' := hst.push ra hroom8
  have hsp' := push_sp ra hroom8
  have hmem' : ∀ p, (p < (s.entrySp rsp0).toNat - 48 ∨ (s.entrySp rsp0).toNat ≤ p) →
      (t.push ra).mem p = s.mem p := by
    intro p hp
    rw [push_mem_outside ra hroom8 (by omega), hmem p (by omega)]
  have hplaced : Placed y (t.push ra).mem thread ctx lo n :=
    h.toPlaced.of_outside fun p hp => hmem' p (by omega)
  obtain ⟨-, -, base, hbase, hout⟩ :=
    saveContext_mem hplaced hst' (by omega) (by omega)
  have heq : preempt y rsp0 handler ra s = saveContext y (t.push ra) := by rw [ht]; rfl
  have hregs : Function.update (t.push ra).reg .rsp (s.reg .rsp) = s.reg := by
    funext r
    by_cases hr : r = .rsp
    · rw [hr, Function.update_self]
    · rw [Function.update_of_ne hr, push_reg t ra hr, hreg r hr]
  have hap := h.ctx_stack
  have hrs := h.rspReg_ctx
  unfold Apart at hap hrs
  rw [heq, hbase]
  refine ⟨?_, fun p h1 h2 h3 => ?_⟩
  · rw [contextAt_savedWords, hregs, ← h.space]
    have hcr3 : base.read64 (ctx.toNat + 160) = (contextAt s.mem ctx.toNat).cr3 :=
      Memory.read64_congr fun i hi => by
        rw [hout _ (by omega) (by omega), hmem' _ (by omega)]
    rw [hcr3]
  · have hin : ∀ q ∈ savedWords (t.push ra).reg s.rip s.cs s.rflags (s.reg .rsp) s.ss,
        q.1 + 8 ≤ 168 := by simp [savedWords]
    rw [storeAll_outside hin h2, hout p h1 (by omega), hmem' p (by omega)]

theorem entrySp_le (h : s.cs &&& 3 = 0) : (s.entrySp rsp0).toNat ≤ s.sp := by
  rw [entrySp, if_pos h, BitVec.toNat_and]
  exact Nat.and_le_left

/-- What a thread finds when it is resumed: `t` is the machine after the return, `m` the memory
before it and `stack` the bytes that belong to its stack. -/
structure Restored (s : Cpu) (m : Memory) (t : Cpu) (stack : ℕ → Prop) : Prop where
  reg : t.reg = s.reg
  rip : t.rip = s.rip
  cs : t.cs = s.cs
  cr3 : t.cr3 = s.cr3
  ss : s.cs &&& 3 ≠ 0 → t.ss = s.ss
  rflags : t.rflags = s.rflags &&& 0x37FFD7 ||| if s.cs &&& 3 = 0 then 0x202 else 2
  mem : ∀ p, s.sp ≤ p → stack p → t.mem p = m p

theorem Running.restored (h : Running y s rsp0 thread ctx lo n) {handler ra : Word} {s₂ : Cpu}
    (hs : Scheduled y (preempt y rsp0 handler ra s).mem s₂ thread ctx) :
    Restored s s₂.mem (switchContext y s₂)
      fun p => s.cs &&& 3 ≠ 0 → p < s₂.sp - 40 ∨ s₂.sp ≤ p := by
  obtain ⟨hctx, -⟩ := h.contextAt_preempt handler ra
  have hcr3 := hs.switchCr3_eq h.thread_ne h.ctx_ne h.thread_lt h.ctx_lt
  have hat := contextAt_congr hs.kept
  rw [hctx] at hat hcr3
  by_cases hring : s.cs &&& 3 = 0
  · obtain ⟨hcs, hsp⟩ := h.ring0 hring
    have hle : (s.entrySp rsp0).toNat ≤ s.sp := entrySp_le hring
    have hroom := h.room
    have hap := h.ctx_stack
    unfold Apart at hap
    have hrsp : ((contextAt s₂.mem ctx.toNat).reg .rsp).toNat = s.sp := by rw [hat]; rfl
    obtain ⟨mem, heq, hmem⟩ := switchContext_ring0 (y := y) hs.rdi h.ctx_lt
      (by rw [hrsp]; omega) (by rw [hrsp]; unfold Apart; omega) (by rw [hat]; exact hring)
    rw [hrsp] at hmem
    rw [heq, hat, hcr3]
    refine ⟨rfl, rfl, hs.cs.trans hcs.symm, rfl, fun hne => absurd hring hne, ?_, ?_⟩
    · dsimp only
      rw [if_pos hring]
    · exact fun p hp _ => hmem p (Or.inr hp)
  · obtain ⟨mem, heq, hmem⟩ := switchContext_ring3 (y := y) hs.rdi h.ctx_lt hs.room hs.apart
      (by rw [hat]; exact hring)
    rw [heq, hat, hcr3]
    refine ⟨rfl, rfl, rfl, rfl, fun _ => if_neg hring, ?_, ?_⟩
    · dsimp only
      rw [if_neg hring]
    · exact fun p _ hp => hmem p (hp hring)

/-! ## `sys_yield` -/

/-- The frame of `isr_syscall` at `f`. -/
def syscallFrame (reg : Reg → Word) (s : Cpu) : List Word :=
  [reg .r15, reg .r14, reg .r13, reg .r12, reg .r11, reg .r10, reg .r9, reg .r8, reg .rbp,
    reg .rbx, reg .rdx, reg .rcx, reg .rsi, reg .rdi, reg .rax] ++
  [s.rip, s.cs, s.rflags, s.reg .rsp, s.ss]

/-- What `isr_syscall` leaves: the frame, its address in `rdi`, and the rest of memory. -/
theorem Running.isrSyscall (h : Running y s rsp0 thread ctx lo n) (handler ra : Word) :
    ∃ f : Word, f.toNat = (s.entrySp rsp0).toNat - 160 ∧
      (Nyvela.isrSyscall ra (s.interrupt rsp0 kernelCs handler)).reg .rdi = f ∧
      Holds (Nyvela.isrSyscall ra (s.interrupt rsp0 kernelCs handler)).mem f.toNat
        (syscallFrame s.reg s) ∧
      ∀ p, (p < lo ∨ (s.entrySp rsp0).toNat ≤ p) →
        (Nyvela.isrSyscall ra (s.interrupt rsp0 kernelCs handler)).mem p = s.mem p := by
  have hroom := h.room
  obtain ⟨hst, hsp, hreg, -, hmem⟩ := interrupt_spec s rsp0 kernelCs handler (by omega)
  obtain ⟨t, ht⟩ : ∃ t, t = s.interrupt rsp0 kernelCs handler := ⟨_, rfl⟩
  rw [← ht] at hst hsp hreg hmem ⊢
  have hregs : savedRegs.map t.reg = savedRegs.map s.reg :=
    List.map_congr_left fun r hr => hreg r fun he => by rw [he] at hr; revert hr; decide
  have hlen : 8 * (savedRegs.map s.reg).length = 120 := rfl
  obtain ⟨reg, mem, heq, hst', hsp', -, hmem'⟩ :=
    pushAll_spec (savedRegs.map s.reg) hst (by rw [hlen]; omega)
  rw [hlen] at hsp' hmem'
  obtain ⟨u, hu⟩ : ∃ u : Cpu, u = { t with reg := reg, mem := mem } := ⟨_, rfl⟩
  rw [← hu] at heq hst'
  have husp : u.sp = (s.entrySp rsp0).toNat - 160 := by
    have : u.sp = (reg .rsp).toNat := by rw [hu]; rfl
    omega
  have humem : u.mem = mem := by rw [hu]
  have hexec : Nyvela.isrSyscall ra t = (u.setReg .rdi (u.reg .rsp)).push ra := by
    have hpush : t.exec (savedRegs.map fun r => .push (.reg r)) = u := by
      rw [exec_push (by decide), hregs, heq]
    rw [← hpush]
    rfl
  have hspr : (u.setReg .rdi (u.reg .rsp)).sp = u.sp := setReg_sp u (by decide) _
  have hout : ∀ p, (p < u.sp - 8 ∨ u.sp ≤ p) → (Nyvela.isrSyscall ra t).mem p = mem p := by
    intro p hp
    rw [hexec, push_mem_outside ra (by omega) (by omega), ← humem]
    rfl
  refine ⟨u.reg .rsp, husp, ?_, ?_, fun p hp => ?_⟩
  · rw [hexec, push_reg _ _ (by decide)]
    simp
  · have hholds : Holds u.mem u.sp (syscallFrame s.reg s) := hst'.holds
    refine hholds.congr fun p hp _ => ?_
    rw [hout p (Or.inr hp), humem]
  · rw [hout p (by omega), hmem' p (by omega), hmem p (by omega)]

/-- What `sys_yield` leaves: the frame returns zero, and the context continues with it. -/
theorem sysYield_spec {m : Memory} {f : Word} (flags : Word) (h : Placed y m thread ctx lo n)
    (hlo : lo ≤ f.toNat) (hhi : f.toNat + 160 ≤ lo + n)
    (hf : Holds m f.toNat (syscallFrame s.reg s)) :
    Holds (sysYield y f flags m) f.toNat (syscallFrame (Function.update s.reg .rax 0) s) ∧
      (contextAt (sysYield y f flags m) ctx.toNat).reg .rsp = f ∧
      (contextAt (sysYield y f flags m) ctx.toNat).rip = y.syscallReturn ∧
      (contextAt (sysYield y f flags m) ctx.toNat).cs = kernelCs ∧
      (contextAt (sysYield y f flags m) ctx.toNat).cr3 = (contextAt m ctx.toNat).cr3 := by
  have hap := h.ctx_stack
  unfold Apart at hap
  have hplaced : Placed y (m.write64 (f.toNat + 112) 0) thread ctx lo n :=
    h.of_outside fun p hp => Memory.write64_outside _ _ _ (by omega)
  have heq : sysYield y f flags m = storeAll (m.write64 (f.toNat + 112) 0) ctx.toNat
      [(56, f), (128, y.syscallReturn), (136, flags), (144, kernelCs), (152, 0x10)] := by
    unfold sysYield
    dsimp only
    rw [hplaced.current, hplaced.context]
  have hin : ∀ p ∈ [(56, f), (128, y.syscallReturn), (136, flags), (144, kernelCs),
      (152, (0x10 : Word))], p.1 + 8 ≤ 168 := by simp
  have hmod : ∀ p ∈ [(56, f), (128, y.syscallReturn), (136, flags), (144, kernelCs),
      (152, (0x10 : Word))], p.1 % 8 = 0 := by simp
  have hget : ∀ o v, (o, v) ∈ [(56, f), (128, y.syscallReturn), (136, flags), (144, kernelCs),
      (152, (0x10 : Word))] → (sysYield y f flags m).read64 (ctx.toNat + o) = v := by
    intro o v hm
    rw [heq]
    exact read64_storeAll hmod (by simp) hm
  refine ⟨?_, hget 56 f (by simp), hget 128 _ (by simp), hget 144 _ (by simp), ?_⟩
  · have hset : Holds (m.write64 (f.toNat + 112) 0) f.toNat ((syscallFrame s.reg s).set 14 0) :=
      hf.set (i := 14) 0
    have hsame : (syscallFrame s.reg s).set 14 0 =
        syscallFrame (Function.update s.reg .rax 0) s := by simp [syscallFrame]
    rw [hsame] at hset
    refine hset.congr fun p hp1 hp2 => ?_
    have hlen : (syscallFrame (Function.update s.reg .rax 0) s).length = 20 := rfl
    rw [hlen] at hp2
    rw [heq]
    exact storeAll_outside hin (by omega)
  · show (sysYield y f flags m).read64 (ctx.toNat + 160) = m.read64 (ctx.toNat + 160)
    rw [heq, read64_storeAll_of_ne (by simp) (by decide)]
    exact Memory.read64_write64_of_disjoint _ _ (by omega)

/-- The way out of a system call takes all of its frame. -/
theorem syscallReturn_eq {t : Cpu} {reg : Reg → Word}
    (hst : t.Stack (syscallFrame reg s)) (hrsp : reg .rsp = s.reg .rsp) :
    syscallReturn t = { t with
      reg := reg, rip := s.rip, cs := s.cs, rflags := s.rflags, ss := s.ss } := by
  obtain ⟨reg', heq, hst', -, hmap, -⟩ := exec_pop [.r15, .r14, .r13, .r12, .r11, .r10, .r9,
    .r8, .rbp, .rbx, .rdx, .rcx, .rsi, .rdi, .rax] hst rfl (by decide) (by decide)
  have hregs : Function.update reg' .rsp (s.reg .rsp) = reg := by
    simp only [List.map_cons, List.map_nil, List.cons.injEq] at hmap
    funext r
    cases r <;> simp [hmap, hrsp]
  have hpops : syscallReturn t = Cpu.iretq { t with reg := reg' } := congrArg Cpu.iretq heq
  rw [hpops, hst'.iretq, hregs]

theorem Running.yielded (h : Running y s rsp0 thread ctx lo n) {handler ra flags f : Word}
    {s₁ s₂ : Cpu} (hs₁ : s₁ = Nyvela.isrSyscall ra (s.interrupt rsp0 kernelCs handler))
    (hf : f = s₁.reg .rdi) (hs : Scheduled y (sysYield y f flags s₁.mem) s₂ thread ctx)
    (hkept : ∀ p, f.toNat ≤ p → p < f.toNat + 160 →
      s₂.mem p = sysYield y f flags s₁.mem p) :
    (switchContext y s₂).rip = y.syscallReturn ∧
      ∃ mem, syscallReturn (switchContext y s₂) =
        { s with reg := Function.update s.reg .rax 0, mem := mem } := by
  have hroom := h.room
  have htop := h.top
  obtain ⟨f', hfeq, hrdi, hholds, hout⟩ := h.isrSyscall handler ra
  rw [← hs₁] at hrdi hholds hout
  obtain rfl : f = f' := hf.trans hrdi
  have hplaced : Placed y s₁.mem thread ctx lo n :=
    h.toPlaced.of_outside fun p hp => hout p (by omega)
  obtain ⟨hframe, hrsp, hrip, hcs, hcr3⟩ := sysYield_spec flags hplaced (by omega)
    (by omega) hholds
  have hat := contextAt_congr hs.kept
  have hsw := hs.switchCr3_eq h.thread_ne h.ctx_ne h.thread_lt h.ctx_lt
  have hspace : (contextAt s₁.mem ctx.toNat).cr3 = s.cr3 := by
    have hap := h.ctx_stack
    unfold Apart at hap
    rw [← h.space, contextAt_congr fun p h1 h2 => hout p (by omega)]
  rw [← hat] at hrsp hrip hcs
  have hap := h.ctx_stack
  unfold Apart at hap
  obtain ⟨mem, heq, hmem⟩ := switchContext_ring0 (y := y) hs.rdi h.ctx_lt
    (by rw [hrsp]; omega) (by rw [hrsp]; unfold Apart; omega) (by rw [hcs]; decide)
  rw [hrsp] at hmem
  obtain ⟨t, ht⟩ : ∃ t, t = switchContext y s₂ := ⟨_, rfl⟩
  have htsp : t.sp = f.toNat := by
    rw [ht, heq]
    exact congrArg BitVec.toNat hrsp
  have hst : t.Stack (syscallFrame (Function.update s.reg .rax 0) s) := by
    have hlen : (syscallFrame (Function.update s.reg .rax 0) s).length = 20 := rfl
    refine ⟨?_, ?_⟩
    · rw [htsp]
      refine hframe.congr fun p h1 h2 => ?_
      rw [hlen] at h2
      rw [← hkept p h1 (by omega), ← hmem p (Or.inr h1), ht, heq]
    · have := (s.entrySp rsp0).isLt
      rw [htsp, hlen]
      omega
  refine ⟨by rw [heq, hrip], t.mem, ?_⟩
  rw [← ht, syscallReturn_eq hst (Function.update_of_ne (by decide) ..)]
  show Cpu.mk _ _ _ _ _ t.cr3 _ = _
  rw [show t.cr3 = s.cr3 by rw [ht, heq, hsw, hcr3, hspace]]

/-- A thread that the timer interrupts, in ring 3 or in ring 0, is restored by any later call of
`switch_context` for it: general registers, `rip`, `rsp`, `cs`, `cr3`, in ring 3 `ss`, the flags
under the mask, and its stack. A thread that yields returns from its system call with every
register as it was, but zero in `rax`. -/
theorem context_switch_transparent (h : Running y s rsp0 thread ctx lo n) (handler ra : Word) :
    ((∀ p, s.sp ≤ p → (p < y.rspReg.toNat ∨ y.rspReg.toNat + 8 ≤ p) →
        (p < ctx.toNat ∨ ctx.toNat + 168 ≤ p) → (s.cs &&& 3 ≠ 0 → p < lo ∨ lo + n ≤ p) →
        (preempt y rsp0 handler ra s).mem p = s.mem p) ∧
      ∀ s₂, Scheduled y (preempt y rsp0 handler ra s).mem s₂ thread ctx →
        Restored s s₂.mem (switchContext y s₂)
          fun p => s.cs &&& 3 ≠ 0 → p < s₂.sp - 40 ∨ s₂.sp ≤ p) ∧
    ∀ flags s₁ s₂, s₁ = Nyvela.isrSyscall ra (s.interrupt rsp0 kernelCs handler) →
      Scheduled y (sysYield y (s₁.reg .rdi) flags s₁.mem) s₂ thread ctx →
      (∀ p, (s₁.reg .rdi).toNat ≤ p → p < (s₁.reg .rdi).toNat + 160 →
        s₂.mem p = sysYield y (s₁.reg .rdi) flags s₁.mem p) →
      (switchContext y s₂).rip = y.syscallReturn ∧
        ∃ mem, syscallReturn (switchContext y s₂) =
          { s with reg := Function.update s.reg .rax 0, mem := mem } := by
  refine ⟨⟨fun p hsp h1 h2 h3 => ?_, fun s₂ hs => h.restored hs⟩,
    fun flags s₁ s₂ hs₁ hs hkept => h.yielded hs₁ rfl hs hkept⟩
  refine (h.contextAt_preempt handler ra).2 p h1 h2 ?_
  by_cases hring : s.cs &&& 3 = 0
  · exact Or.inr ((entrySp_le hring).trans hsp)
  · have htop := h.top
    have := h3 hring
    omega

end Transparent

/-! ## A machine with one thread -/

def oneThreadSymbols : Symbols := ⟨0x1000, 0x1008, 0x1010, 0x2000⟩

/-- A thread in ring 3, with its `thread_t` at `0x3000` and its context at `0x4000`. -/
def oneThread : Cpu where
  reg r := if r = .rsp then 0x700000 else 7
  rip := 0x400000
  rflags := 0x246
  cs := 0x33
  ss := 0x3B
  cr3 := 0
  mem := Memory.write64 (Memory.write64 (fun _ => 0) 0x1008 0x3000) 0x3008 0x4000

theorem oneThread_running : Running oneThreadSymbols oneThread 0x12000 0x3000 0x4000 0x10000 0x2000 where
  current := by decide
  context := by decide
  thread_ne := by decide
  ctx_ne := by decide
  thread_lt := by decide
  ctx_lt := by decide
  rspReg_current := by unfold Apart; decide
  rspReg_thread := by unfold Apart; decide
  rspReg_ctx := by unfold Apart; decide
  rspReg_stack := by unfold Apart; decide
  current_stack := by unfold Apart; decide
  thread_stack := by unfold Apart; decide
  ctx_stack := by unfold Apart; decide
  room := by decide
  top := by decide
  ring0 := by decide
  space := by decide

/-- It is interrupted and resumed at once. -/
theorem context_switch_transparent_oneThread : ∃ s₂,
    Scheduled oneThreadSymbols (preempt oneThreadSymbols 0x12000 0x2000 0x2000 oneThread).mem s₂
      0x3000 0x4000 ∧
    Restored oneThread s₂.mem (switchContext oneThreadSymbols s₂)
      fun p => oneThread.cs &&& 3 ≠ 0 → p < s₂.sp - 40 ∨ s₂.sp ≤ p := by
  have htrans := context_switch_transparent oneThread_running 0x2000 0x2000
  obtain ⟨m, hm⟩ : ∃ m, m = (preempt oneThreadSymbols 0x12000 0x2000 0x2000 oneThread).mem :=
    ⟨_, rfl⟩
  have hkeep : ∀ p, (p < 0x1000 ∨ 0x1008 ≤ p) → (p < 0x4000 ∨ 0x40A8 ≤ p) →
      (p < 0x10000 ∨ 0x12000 ≤ p) → m p = oneThread.mem p := by
    intro p h1 h2 h3
    rw [hm]
    exact (oneThread_running.contextAt_preempt 0x2000 0x2000).2 p h1 h2 h3
  have hread : ∀ a, 0x1008 ≤ a → a + 8 ≤ 0x4000 → m.read64 a = oneThread.mem.read64 a :=
    fun a h1 h2 => Memory.read64_congr fun i hi => hkeep _ (by omega) (by omega) (by omega)
  have hs : Scheduled oneThreadSymbols m
      { oneThread with
        reg := fun r => if r = .rdi then 0x4000 else 0x11000, cs := kernelCs, mem := m }
      0x3000 0x4000 := by
    refine ⟨rfl, fun _ _ _ => rfl, ?_, ?_, rfl, show 40 ≤ 0x11000 by decide,
      Or.inl (show 0x4000 + 168 ≤ 0x11000 - 40 by decide)⟩
    · exact (hread 0x1008 (by decide) (by decide)).trans oneThread_running.current
    · exact (hread 0x3008 (by decide) (by decide)).trans oneThread_running.context
  rw [hm] at hs
  exact ⟨_, hs, htrans.1.2 _ hs⟩

end Nyvela
