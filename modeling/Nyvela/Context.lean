import Nyvela.Lib.X86
import Nyvela.Pmm

/-!
# Saving and resuming a thread (`cpu/context.s`, `cpu/isr.s`)

`save_context` copies an interrupt frame and the general registers into the `context_t` of the
current thread, and `switch_context` loads one and returns to it, with `iretq` to ring 3 and
with `ret` to ring 0. The offsets are those of the assembly text.
-/

namespace Nyvela

open X86 X86.Cpu

/-- The variables that the code reads and writes, by address, and the label `syscall_return`. -/
structure Symbols where
  rspReg : Word
  currentThread : Word
  kernelCr3 : Word
  syscallReturn : Word

/-! ## The code -/

section Code

variable (y : Symbols)

def saveContextHead : List Instr := [
  .mov (.abs y.rspReg) (.reg .rsp),
  .push (.reg .rax),
  .push (.reg .rdi),
  .push (.reg .rsi),
  .push (.reg .rcx),
  .push (.reg .rdx),
  .push (.reg .rbx),
  .push (.reg .rbp),
  .push (.reg .r8),
  .push (.reg .r9),
  .push (.reg .r10),
  .push (.reg .r11),
  .push (.reg .r12),
  .push (.reg .r13),
  .push (.reg .r14),
  .push (.reg .r15),
  .mov (.reg .rax) (.abs y.currentThread),
  .mov (.reg .rax) (.mem .rax 8),
  .mov (.reg .rdx) (.abs y.rspReg),
  .mov (.reg .rdi) (.mem .rdx 16),
  .mov (.mem .rax 144) (.reg .rdi),
  .mov (.reg .rdi) (.mem .rdx 24),
  .mov (.mem .rax 136) (.reg .rdi),
  .mov (.reg .rdi) (.mem .rdx 8),
  .mov (.mem .rax 128) (.reg .rdi),
  .pop .r15, .mov (.mem .rax 120) (.reg .r15),
  .pop .r14, .mov (.mem .rax 112) (.reg .r14),
  .pop .r13, .mov (.mem .rax 104) (.reg .r13),
  .pop .r12, .mov (.mem .rax 96) (.reg .r12),
  .pop .r11, .mov (.mem .rax 88) (.reg .r11),
  .pop .r10, .mov (.mem .rax 80) (.reg .r10),
  .pop .r9, .mov (.mem .rax 72) (.reg .r9),
  .pop .r8, .mov (.mem .rax 64) (.reg .r8),
  .mov (.reg .rdi) (.mem .rdx 16),
  .and .rdi 3]

def saveContextRing3 : List Instr := [
  .mov (.reg .rdi) (.mem .rdx 32),
  .mov (.mem .rax 56) (.reg .rdi),
  .mov (.reg .rdi) (.mem .rdx 40),
  .mov (.mem .rax 152) (.reg .rdi)]

def saveContextRing0 : List Instr := [
  .mov (.reg .rdi) (.mem .rdx 32),
  .mov (.mem .rax 56) (.reg .rdi),
  .mov (.mem .rax 152) (.imm 0x10)]

def saveContextTail : List Instr := [
  .pop .rbp, .mov (.mem .rax 48) (.reg .rbp),
  .pop .rbx, .mov (.mem .rax 40) (.reg .rbx),
  .pop .rdx, .mov (.mem .rax 32) (.reg .rdx),
  .pop .rcx, .mov (.mem .rax 24) (.reg .rcx),
  .pop .rsi, .mov (.mem .rax 16) (.reg .rsi),
  .pop .rdi, .mov (.mem .rax 8) (.reg .rdi),
  -- the value that `rax` had
  .pop .rdi, .mov (.mem .rax 0) (.reg .rdi),
  .mov (.reg .rsp) (.abs y.rspReg)]

def saveContext (s : Cpu) : Cpu :=
  let s := s.exec (saveContextHead y)
  let s := s.exec (if s.reg .rdi = 0 then saveContextRing0 else saveContextRing3)
  (s.exec (saveContextTail y)).ret

/-- The value that `switch_context` loads into `cr3`. -/
def switchCr3 (s : Cpu) : Word :=
  let thread := s.load y.currentThread
  if thread = 0 then s.load y.kernelCr3
  else
    let context := s.load (thread + 8)
    if context = 0 then s.load y.kernelCr3 else s.load (context + 160)

/-- `switch_context` up to the test of the ring. -/
def switchTest (s : Cpu) : Cpu :=
  (s.setReg .rax (switchCr3 y s)).exec
    [.movCr3 .rax, .mov (.reg .rdx) (.mem .rdi 144), .and .rdx 3]

def switchContextRing3 : List Instr := [
  .push (.mem .rdi 152),
  .push (.mem .rdi 56),
  .mov (.reg .rax) (.mem .rdi 136),
  .and .rax 0x37FFD7,
  .or .rax 2,
  .push (.reg .rax),
  .push (.mem .rdi 144),
  .push (.mem .rdi 128)]

def switchContextRing0 : List Instr := [
  .mov (.reg .rsp) (.mem .rdi 56),
  .push (.mem .rdi 128),
  .mov (.reg .rax) (.mem .rdi 136),
  .and .rax 0x37FFD7,
  .and .rax 0xFFFFFFFFFFFFFDFF,
  .or .rax 2,
  .push (.reg .rax)]

/-- The loads that both paths end with, but for `rdi`. -/
def switchContextLoads : List Instr := [
  .mov (.reg .r15) (.mem .rdi 120),
  .mov (.reg .r14) (.mem .rdi 112),
  .mov (.reg .r13) (.mem .rdi 104),
  .mov (.reg .r12) (.mem .rdi 96),
  .mov (.reg .r11) (.mem .rdi 88),
  .mov (.reg .r10) (.mem .rdi 80),
  .mov (.reg .r9) (.mem .rdi 72),
  .mov (.reg .r8) (.mem .rdi 64),
  .mov (.reg .rbp) (.mem .rdi 48),
  .mov (.reg .rbx) (.mem .rdi 40),
  .mov (.reg .rdx) (.mem .rdi 32),
  .mov (.reg .rcx) (.mem .rdi 24),
  .mov (.reg .rsi) (.mem .rdi 16),
  .mov (.reg .rax) (.mem .rdi 0)]

/-- Called with the context in `rdi`. -/
def switchContext (s : Cpu) : Cpu :=
  let s := switchTest y s
  if s.reg .rdx = 0 then
    (((s.exec switchContextRing0).exec switchContextLoads).exec
      [.popfq, .mov (.reg .rdi) (.mem .rdi 8), .sti]).ret
  else
    (((s.exec switchContextRing3).exec switchContextLoads).exec
      [.mov (.reg .rdi) (.mem .rdi 8)]).iretq

end Code

/-! ## The object `context_t` -/

/-- The offset of a general register. -/
def slot : Reg → ℕ
  | .rax => 0
  | .rdi => 8
  | .rsi => 16
  | .rcx => 24
  | .rdx => 32
  | .rbx => 40
  | .rbp => 48
  | .rsp => 56
  | .r8 => 64
  | .r9 => 72
  | .r10 => 80
  | .r11 => 88
  | .r12 => 96
  | .r13 => 104
  | .r14 => 112
  | .r15 => 120

structure Context where
  reg : Reg → Word
  rip : Word
  rflags : Word
  cs : Word
  ss : Word
  cr3 : Word

/-- The `context_t` at an address. -/
def contextAt (m : Memory) (a : ℕ) : Context where
  reg r := m.read64 (a + slot r)
  rip := m.read64 (a + 128)
  rflags := m.read64 (a + 136)
  cs := m.read64 (a + 144)
  ss := m.read64 (a + 152)
  cr3 := m.read64 (a + 160)

theorem contextAt_congr {m m' : Memory} {a : ℕ}
    (h : ∀ p, a ≤ p → p < a + 168 → m' p = m p) : contextAt m' a = contextAt m a := by
  have hread : ∀ o, o + 8 ≤ 168 → m'.read64 (a + o) = m.read64 (a + o) := fun o ho =>
    Memory.read64_congr fun i hi => h _ (by omega) (by omega)
  have hreg : (fun r => m'.read64 (a + slot r)) = fun r => m.read64 (a + slot r) :=
    funext fun r => hread _ (by cases r <;> decide)
  unfold contextAt
  rw [hreg, hread 128 (by decide), hread 136 (by decide), hread 144 (by decide),
    hread 152 (by decide), hread 160 (by decide)]

/-! ## Where things are -/

/-- `n` bytes at `a` and `k` bytes at `b` have none in common. -/
def Apart (a n b k : ℕ) : Prop := a + n ≤ b ∨ b + k ≤ a

/-- The current thread is the one at `thread`, its context is at `ctx`, and the objects that
`save_context` touches keep apart from each other and from the `n` bytes of kernel stack at
`lo`. -/
structure Placed (y : Symbols) (m : Memory) (thread ctx : Word) (lo n : ℕ) : Prop where
  current : m.read64 y.currentThread.toNat = thread
  context : m.read64 (thread.toNat + 8) = ctx
  thread_ne : thread ≠ 0
  ctx_ne : ctx ≠ 0
  thread_lt : thread.toNat + 48 < 2 ^ 64
  ctx_lt : ctx.toNat + 168 < 2 ^ 64
  rspReg_current : Apart y.rspReg.toNat 8 y.currentThread.toNat 8
  rspReg_thread : Apart y.rspReg.toNat 8 thread.toNat 48
  rspReg_ctx : Apart y.rspReg.toNat 8 ctx.toNat 168
  rspReg_stack : Apart y.rspReg.toNat 8 lo n
  current_stack : Apart y.currentThread.toNat 8 lo n
  thread_stack : Apart thread.toNat 48 lo n
  ctx_stack : Apart ctx.toNat 168 lo n

section Save

variable {y : Symbols} {m : Memory} {thread ctx : Word} {lo n : ℕ}

/-- The registers that `save_context` pushes, in order. -/
def savedRegs : List Reg :=
  [.rax, .rdi, .rsi, .rcx, .rdx, .rbx, .rbp, .r8, .r9, .r10, .r11, .r12, .r13, .r14, .r15]

/-- The machine once the registers are on the stack and the context and the frame are found. -/
theorem saveContext_scratch {t : Cpu} {ws : List Word} (hp : Placed y t.mem thread ctx lo n)
    (hst : t.Stack ws) (hlo : lo + 120 ≤ t.sp) (hhi : t.sp + 8 * ws.length ≤ lo + n) :
    ∃ u, t.exec (([.mov (.abs y.rspReg) (.reg .rsp)] ++ savedRegs.map fun r => .push (.reg r)) ++
        [.mov (.reg .rax) (.abs y.currentThread), .mov (.reg .rax) (.mem .rax 8),
          .mov (.reg .rdx) (.abs y.rspReg)]) = u ∧
      u.Stack ((savedRegs.map t.reg).reverse ++ ws) ∧ u.sp = t.sp - 120 ∧
      u.reg .rax = ctx ∧ u.reg .rdx = t.reg .rsp ∧ u.mem.read64 y.rspReg.toNat = t.reg .rsp ∧
      ∀ p, (p < y.rspReg.toNat ∨ y.rspReg.toNat + 8 ≤ p) → (p < t.sp - 120 ∨ t.sp ≤ p) →
        u.mem p = t.mem p := by
  obtain ⟨hcur, hcon, -, -, hbt, -, hrc, hrt, -, hrs, hcs, hts, -⟩ := hp
  unfold Apart at hrc hrt hrs hcs hts
  -- `rsp_reg` is written beside the stack
  let t₁ := t.step (.mov (.abs y.rspReg) (.reg .rsp))
  have hst₁ : t₁.Stack ws := hst.congr rfl fun p hp1 hp2 =>
    Memory.write64_outside _ _ _ (by omega)
  have hsp₁ : t₁.sp = t.sp := rfl
  obtain ⟨reg, mem, heq, hst₂, hsp₂, hreg₂, hmem₂⟩ :=
    pushAll_spec (savedRegs.map t₁.reg) hst₁ (by rw [hsp₁]; simp [savedRegs]; omega)
  have hlen : 8 * (savedRegs.map t₁.reg).length = 120 := by simp [savedRegs]
  rw [hlen, hsp₁] at hsp₂ hmem₂
  have hpush : t.exec ([.mov (.abs y.rspReg) (.reg .rsp)] ++ savedRegs.map fun r => .push (.reg r)) =
      { t₁ with reg := reg, mem := mem } := by
    rw [exec_append, ← heq, ← exec_push (by decide)]
    rfl
  -- what is read then was there before
  have hread : ∀ a, (a + 8 ≤ lo ∨ lo + n ≤ a) →
      (a + 8 ≤ y.rspReg.toNat ∨ y.rspReg.toNat + 8 ≤ a) → mem.read64 a = t.mem.read64 a := by
    intro a ha1 ha2
    refine Memory.read64_congr fun i hi => ?_
    rw [hmem₂ _ (by omega)]
    exact Memory.write64_outside _ _ _ (by omega)
  have hthread : mem.read64 y.currentThread.toNat = thread := by
    rw [hread _ (by omega) (by omega), hcur]
  have hctx : mem.read64 (thread + 8).toNat = ctx := by
    rw [show (thread + 8).toNat = thread.toNat + 8 from toNat_add_ofNat (o := 8) (by omega),
      hread _ (by omega) (by omega), hcon]
  have hrsp : mem.read64 y.rspReg.toNat = t.reg .rsp := by
    have : mem.read64 y.rspReg.toNat = t₁.mem.read64 y.rspReg.toNat :=
      Memory.read64_congr fun i hi => hmem₂ _ (by omega)
    rw [this]
    exact Memory.read64_write64 _ _ _
  let reg' := Function.update (Function.update reg .rax ctx) .rdx (t.reg .rsp)
  refine ⟨{ t₁ with reg := reg', mem := mem }, ?_, ?_, ?_, rfl, rfl, hrsp, ?_⟩
  · rw [exec_append, hpush]
    simp only [exec, List.foldl_cons, List.foldl_nil, step, Cpu.set, Cpu.get, setReg, load]
    rw [hthread, Function.update_self, hctx, hrsp, Function.update_idem]
  · exact hst₂.congr rfl fun _ _ _ => rfl
  · exact hsp₂
  · intro p hp1 hp2
    show mem p = _
    rw [hmem₂ p hp2]
    exact Memory.write64_outside _ _ _ hp1

/-- In the middle of `save_context`: `vs` is still to be popped, above it, at `top`, stands the
frame with the return address, and `l` has been written to the context. -/
structure Saving (base : Memory) (ctx : Word) (lo n top : ℕ) (frame vs : List Word)
    (l : List (ℕ × Word)) (u : Cpu) : Prop where
  stack : u.Stack (vs ++ frame)
  top_eq : u.sp + 8 * vs.length = top
  low : lo ≤ u.sp
  high : u.sp + 8 * (vs ++ frame).length ≤ lo + n
  mem_eq : u.mem = storeAll base ctx.toNat l
  inside : ∀ p ∈ l, p.1 + 8 ≤ 168
  rax : u.reg .rax = ctx

variable {base : Memory} {top : ℕ} {frame vs ws : List Word} {l : List (ℕ × Word)} {u : Cpu}

theorem Saving.copies (hs : Saving base ctx lo n top frame vs l u) (hlt : ctx.toNat + 168 < 2 ^ 64)
    (hap : Apart ctx.toNat 168 lo n) (hrdx : (u.reg .rdx).toNat = top)
    {c : List (ℕ × ℕ)} (hc : ∀ p ∈ c, p.1 + 8 ≤ 8 * frame.length ∧ p.2 + 8 ≤ 168) :
    Saving base ctx lo n top frame vs
        (l ++ c.map fun p => (p.2, u.mem.read64 ((u.reg .rdx).toNat + p.1)))
        (u.exec (Cpu.copies .rdx .rax .rdi c)) ∧
      ∀ r, r ≠ .rdi → (u.exec (Cpu.copies .rdx .rax .rdi c)).reg r = u.reg r := by
  have hlen := hs.high
  have hbound := hs.stack.bound
  have hlow := hs.low
  have htop := hs.top_eq
  rw [List.length_append] at hlen hbound
  unfold Apart at hap
  obtain ⟨hmem, hreg⟩ := exec_copies (s := u) (l := c)
    (k := 8 * frame.length) (n := 168) (show Reg.rdx ≠ .rdi by decide) (show Reg.rax ≠ .rdi by decide) (fun p hp => (hc p hp).1)
    (fun p hp => (hc p hp).2) (by omega) (by rw [hs.rax]; omega) (by rw [hs.rax]; omega)
  rw [hs.rax] at hmem
  have hsp : (u.exec (Cpu.copies .rdx .rax .rdi c)).sp = u.sp :=
    congrArg BitVec.toNat (hreg .rsp (by decide))
  refine ⟨⟨?_, hsp ▸ htop, hsp ▸ hlow, ?_, ?_, ?_, ?_⟩, hreg⟩
  · refine hs.stack.congr hsp fun p h1 h2 => ?_
    rw [List.length_append] at h2
    rw [hmem]
    refine storeAll_outside (n := 168) ?_ (by omega)
    intro q hq
    obtain ⟨r, hr, rfl⟩ := List.mem_map.mp hq
    exact (hc r hr).2
  · rw [hsp, List.length_append]
    exact hlen
  · rw [hmem, storeAll_append, hs.mem_eq]
  · intro p hp
    rcases List.mem_append.mp hp with hp | hp
    · exact hs.inside p hp
    · obtain ⟨r, hr, rfl⟩ := List.mem_map.mp hp
      exact (hc r hr).2
  · rw [hreg .rax (by decide), hs.rax]

theorem Saving.popStores (vs ws : List Word) (hs : Saving base ctx lo n top frame (vs ++ ws) l u)
    (hlt : ctx.toNat + 168 < 2 ^ 64) (hap : Apart ctx.toNat 168 lo n) {c : List (Reg × ℕ)}
    (hlen : vs.length = c.length) (hrax : .rax ∉ c.map Prod.fst) (hrsp : .rsp ∉ c.map Prod.fst)
    (hc : ∀ p ∈ c, p.2 + 8 ≤ 168) :
    Saving base ctx lo n top frame ws (l ++ (c.map Prod.snd).zip vs)
        (u.exec (Cpu.popStores .rax c)) ∧
      ∀ r, r ≠ .rsp → r ∉ c.map Prod.fst → (u.exec (Cpu.popStores .rax c)).reg r = u.reg r := by
  have hhigh := hs.high
  have hlow := hs.low
  have htop := hs.top_eq
  have hstack := hs.stack
  rw [List.append_assoc] at hhigh hstack
  unfold Apart at hap
  obtain ⟨hst, hmem, hreg, hsp⟩ := exec_popStores (n := 168) hstack hlen hrax (by decide) hrsp hc
    (by rw [hs.rax]; omega) (by rw [hs.rax]; omega)
  rw [hs.rax] at hmem
  rw [List.length_append] at hhigh htop
  refine ⟨⟨hst, by omega, by omega, by omega, ?_, ?_, ?_⟩, hreg⟩
  · rw [hmem, storeAll_append, hs.mem_eq]
  · intro p hp
    rcases List.mem_append.mp hp with hp | hp
    · exact hs.inside p hp
    · obtain ⟨q, hq, heq⟩ := List.mem_map.mp (List.of_mem_zip hp).1
      rw [← heq]
      exact hc q hq
  · rw [hreg .rax (by decide) hrax, hs.rax]

theorem Saving.frame_read (hs : Saving base ctx lo n top frame vs l u)
    (hrdx : (u.reg .rdx).toNat = top) {i : ℕ} {w : Word}
    (hw : frame[i]? = some w) : u.mem.read64 ((u.reg .rdx).toNat + 8 * i) = w := by
  rw [hrdx, ← hs.top_eq]
  exact hs.stack.holds.drop.get hw

theorem saveContextHead_eq (y : Symbols) : saveContextHead y =
    (([.mov (.abs y.rspReg) (.reg .rsp)] ++ savedRegs.map fun r => .push (.reg r)) ++
      [.mov (.reg .rax) (.abs y.currentThread), .mov (.reg .rax) (.mem .rax 8),
        .mov (.reg .rdx) (.abs y.rspReg)]) ++
    (Cpu.copies .rdx .rax .rdi [(16, 144), (24, 136), (8, 128)] ++
      (Cpu.popStores .rax [(.r15, 120), (.r14, 112), (.r13, 104), (.r12, 96), (.r11, 88),
        (.r10, 80), (.r9, 72), (.r8, 64)] ++
      [.mov (.reg .rdi) (.mem .rdx 16), .and .rdi 3])) := rfl

theorem Saving.setReg (hs : Saving base ctx lo n top frame vs l u) {r : Reg} (hr : r ≠ .rsp)
    (hr' : r ≠ .rax) (v : Word) : Saving base ctx lo n top frame vs l (u.setReg r v) := by
  have hsp : (u.setReg r v).sp = u.sp := setReg_sp u hr v
  refine ⟨hs.stack.congr hsp fun _ _ _ => rfl, hsp ▸ hs.top_eq, hsp ▸ hs.low, hsp ▸ hs.high,
    hs.mem_eq, hs.inside, ?_⟩
  rw [← hs.rax]
  exact Function.update_of_ne (Ne.symm hr') ..

/-- The two branches store the stack of the interrupted code. -/
theorem Saving.branch (hs : Saving base ctx lo n top frame vs l u) (hlt : ctx.toNat + 168 < 2 ^ 64)
    (hap : Apart ctx.toNat 168 lo n) (hrdx : (u.reg .rdx).toNat = top)
    {rsp ss : Word} (h4 : frame[4]? = some rsp) (h5 : frame[5]? = some ss) :
    Saving base ctx lo n top frame vs
      (l ++ [(56, rsp), (152, if u.reg .rdi = 0 then 0x10 else ss)])
      (u.exec (if u.reg .rdi = 0 then saveContextRing0 else saveContextRing3)) := by
  have hlen : 6 ≤ frame.length := by
    have := (List.getElem?_eq_some_iff.mp h5).1
    omega
  have hrsp : u.mem.read64 ((u.reg .rdx).toNat + 32) = rsp := hs.frame_read hrdx (i := 4) h4
  have hss : u.mem.read64 ((u.reg .rdx).toNat + 40) = ss := hs.frame_read hrdx (i := 5) h5
  by_cases hring : u.reg .rdi = 0
  · rw [if_pos hring, if_pos hring]
    obtain ⟨h1, hreg⟩ := hs.copies hlt hap hrdx (c := [(32, 56)])
      (by simp only [List.mem_singleton, forall_eq]; omega)
    simp only [List.map_cons, List.map_nil, hrsp] at h1
    obtain ⟨v, hv⟩ : ∃ v, v = u.exec (Cpu.copies .rdx .rax .rdi [(32, 56)]) := ⟨_, rfl⟩
    rw [← hv] at h1
    -- the last store is of a constant
    have heq : u.exec saveContextRing0 = v.store (v.reg .rax + 152) 0x10 := by rw [hv]; rfl
    have hmem : (v.store (v.reg .rax + 152) 0x10).mem = v.mem.write64 (ctx.toNat + 152) 0x10 := by
      rw [h1.rax]
      show v.mem.write64 (ctx + 152).toNat _ = _
      rw [show (ctx + 152).toNat = ctx.toNat + 152 from toNat_add_ofNat (o := 152) (by omega)]
    have hhigh := h1.high
    have hlow := h1.low
    have hsplit : l ++ [(56, rsp), (152, 0x10)] = l ++ [(56, rsp)] ++ [(152, 0x10)] := by simp
    unfold Apart at hap
    rw [heq, hsplit]
    refine ⟨h1.stack.congr rfl fun p hp1 hp2 => ?_, h1.top_eq, hlow, hhigh, ?_, ?_, h1.rax⟩
    · rw [hmem]
      exact Memory.write64_outside _ _ _ (by omega)
    · rw [hmem, h1.mem_eq, storeAll_append _ _ (l ++ [(56, rsp)])]
      rfl
    · intro p hp
      rw [List.mem_append, List.mem_singleton] at hp
      rcases hp with hp | rfl
      · exact h1.inside p hp
      · decide
  · rw [if_neg hring, if_neg hring]
    obtain ⟨h1, -⟩ := hs.copies hlt hap hrdx (c := [(32, 56), (40, 152)])
      (by simp only [List.mem_cons, List.not_mem_nil, or_false, forall_eq_or_imp, forall_eq]; omega)
    simp only [List.map_cons, List.map_nil, hrsp, hss] at h1
    exact h1

/-- Everything that `save_context` writes to the context. -/
def savedWords (reg : Reg → Word) (rip cs rflags rsp ss : Word) : List (ℕ × Word) :=
  [(144, cs), (136, rflags), (128, rip), (120, reg .r15), (112, reg .r14), (104, reg .r13),
    (96, reg .r12), (88, reg .r11), (80, reg .r10), (72, reg .r9), (64, reg .r8), (56, rsp),
    (152, if cs &&& 3 = 0 then 0x10 else ss), (48, reg .rbp), (40, reg .rbx), (32, reg .rdx),
    (24, reg .rcx), (16, reg .rsi), (8, reg .rdi), (0, reg .rax)]

/-- After the head: half of the registers are saved, and `rdi` holds the ring. -/
theorem saveContext_head {t : Cpu} {ra rip cs rflags rsp ss : Word}
    (hp : Placed y t.mem thread ctx lo n) (hst : t.Stack [ra, rip, cs, rflags, rsp, ss])
    (hlo : lo + 120 ≤ t.sp) (hhi : t.sp + 48 ≤ lo + n) :
    ∃ base, Saving base ctx lo n t.sp [ra, rip, cs, rflags, rsp, ss]
        [t.reg .rbp, t.reg .rbx, t.reg .rdx, t.reg .rcx, t.reg .rsi, t.reg .rdi, t.reg .rax]
        [(144, cs), (136, rflags), (128, rip), (120, t.reg .r15), (112, t.reg .r14),
          (104, t.reg .r13), (96, t.reg .r12), (88, t.reg .r11), (80, t.reg .r10),
          (72, t.reg .r9), (64, t.reg .r8)]
        (t.exec (saveContextHead y)) ∧
      (t.exec (saveContextHead y)).reg .rdi = cs &&& 3 ∧
      (t.exec (saveContextHead y)).reg .rdx = t.reg .rsp ∧
      base.read64 y.rspReg.toNat = t.reg .rsp ∧
      ∀ p, (p < y.rspReg.toNat ∨ y.rspReg.toNat + 8 ≤ p) → (p < t.sp - 120 ∨ t.sp ≤ p) →
        base p = t.mem p := by
  have hap := hp.ctx_stack
  have hlt := hp.ctx_lt
  obtain ⟨u, hu, hstu, hspu, hrax, hrdx, hrspReg, hmemu⟩ :=
    saveContext_scratch hp hst hlo (by simpa using hhi)
  have h0 : Saving u.mem ctx lo n t.sp [ra, rip, cs, rflags, rsp, ss]
      (savedRegs.map t.reg).reverse [] u := by
    refine ⟨hstu, ?_, by omega, ?_, rfl, by simp, hrax⟩
    · rw [hspu]
      exact Nat.sub_add_cancel (by omega : 120 ≤ t.sp)
    simp only [savedRegs, List.map_cons, List.map_nil, List.reverse_cons, List.reverse_nil,
      List.nil_append, List.cons_append, List.length_cons, List.length_nil]
    omega
  have hrdx0 : (u.reg .rdx).toNat = t.sp := by rw [hrdx]; rfl
  -- the frame
  have hcs : u.mem.read64 ((u.reg .rdx).toNat + 16) = cs := h0.frame_read hrdx0 (i := 2) rfl
  have hflags : u.mem.read64 ((u.reg .rdx).toNat + 24) = rflags := h0.frame_read hrdx0 (i := 3) rfl
  have hrip : u.mem.read64 ((u.reg .rdx).toNat + 8) = rip := h0.frame_read hrdx0 (i := 1) rfl
  obtain ⟨h1, hreg1⟩ := h0.copies hlt hap hrdx0 (c := [(16, 144), (24, 136), (8, 128)])
    (by simp)
  simp only [List.map_cons, List.map_nil, hcs, hflags, hrip, List.nil_append] at h1
  obtain ⟨u₁, hu1⟩ : ∃ v, v = u.exec (Cpu.copies .rdx .rax .rdi [(16, 144), (24, 136), (8, 128)]) :=
    ⟨_, rfl⟩
  rw [← hu1] at h1 hreg1
  -- the first eight registers
  obtain ⟨h2, hreg2⟩ := Saving.popStores
    [t.reg .r15, t.reg .r14, t.reg .r13, t.reg .r12, t.reg .r11, t.reg .r10, t.reg .r9, t.reg .r8]
    [t.reg .rbp, t.reg .rbx, t.reg .rdx, t.reg .rcx, t.reg .rsi, t.reg .rdi, t.reg .rax]
    (c := [(.r15, 120), (.r14, 112), (.r13, 104), (.r12, 96), (.r11, 88), (.r10, 80), (.r9, 72),
      (.r8, 64)]) h1 hlt hap rfl (by decide) (by decide) (by simp)
  obtain ⟨u₂, hu2⟩ : ∃ v, v = u₁.exec (Cpu.popStores .rax [(.r15, 120), (.r14, 112), (.r13, 104),
      (.r12, 96), (.r11, 88), (.r10, 80), (.r9, 72), (.r8, 64)]) := ⟨_, rfl⟩
  rw [← hu2] at h2 hreg2
  have hrdx2 : u₂.reg .rdx = t.reg .rsp := by
    rw [hreg2 .rdx (by decide) (by decide), hreg1 .rdx (by decide), hrdx]
  -- the test of the ring
  have hload : u₂.load (u₂.reg .rdx + 16) = cs := by
    have hb : t.sp + 48 < 2 ^ 64 := hst.bound
    have hF : (u₂.reg .rdx).toNat = t.sp := by rw [hrdx2]; rfl
    have hcs2 : u₂.mem.read64 ((u₂.reg .rdx).toNat + 16) = cs :=
      h2.frame_read hF (i := 2) rfl
    rw [← hcs2]
    exact congrArg u₂.mem.read64 (toNat_add_ofNat (o := 16) (by omega))
  have htest : u₂.exec [.mov (.reg .rdi) (.mem .rdx 16), .and .rdi 3] =
      u₂.setReg .rdi (cs &&& 3) := by
    simp only [exec, List.foldl_cons, List.foldl_nil, step, Cpu.set, Cpu.get, hload, Cpu.setReg,
      Function.update_self, Function.update_idem]
  have heq : t.exec (saveContextHead y) = u₂.setReg .rdi (cs &&& 3) := by
    rw [saveContextHead_eq, exec_append, hu, exec_append, ← hu1, exec_append, ← hu2, htest]
  rw [heq]
  have hother : ∀ r, r ≠ .rdi → (u₂.setReg .rdi (cs &&& 3)).reg r = u₂.reg r := fun r hr =>
    Function.update_of_ne hr ..
  refine ⟨u.mem, h2.setReg (by decide) (by decide) _, by simp, ?_, hrspReg, hmemu⟩
  rw [hother .rdx (by decide), hrdx2]

/-- The memory that `save_context` leaves, and the context in `rax`. -/
theorem saveContext_mem {t : Cpu} {ra rip cs rflags rsp ss : Word}
    (hp : Placed y t.mem thread ctx lo n) (hst : t.Stack [ra, rip, cs, rflags, rsp, ss])
    (hlo : lo + 120 ≤ t.sp) (hhi : t.sp + 48 ≤ lo + n) :
    (saveContext y t).reg .rax = ctx ∧ (saveContext y t).rip = ra ∧
      ∃ base, (saveContext y t).mem =
          storeAll base ctx.toNat (savedWords t.reg rip cs rflags rsp ss) ∧
        ∀ p, (p < y.rspReg.toNat ∨ y.rspReg.toNat + 8 ≤ p) → (p < t.sp - 120 ∨ t.sp ≤ p) →
          base p = t.mem p := by
  have hap := hp.ctx_stack
  have hlt := hp.ctx_lt
  have hrc := hp.rspReg_ctx
  obtain ⟨base, h0, hrdi, hrdx, hrspReg, hmem⟩ := saveContext_head hp hst hlo hhi
  obtain ⟨u, hu⟩ : ∃ v, v = t.exec (saveContextHead y) := ⟨_, rfl⟩
  rw [← hu] at h0 hrdi hrdx
  have hrdx' : (u.reg .rdx).toNat = t.sp := by rw [hrdx]; rfl
  have h1 := h0.branch hlt hap hrdx' (show _ = some rsp from rfl) (show _ = some ss from rfl)
  obtain ⟨v, hv⟩ : ∃ v, v = u.exec
      (if u.reg .rdi = 0 then saveContextRing0 else saveContextRing3) := ⟨_, rfl⟩
  rw [← hv, hrdi] at h1
  -- the other registers
  obtain ⟨h2, -⟩ := Saving.popStores
    [t.reg .rbp, t.reg .rbx, t.reg .rdx, t.reg .rcx, t.reg .rsi, t.reg .rdi, t.reg .rax] []
    (c := [(.rbp, 48), (.rbx, 40), (.rdx, 32), (.rcx, 24), (.rsi, 16), (.rdi, 8), (.rdi, 0)])
    h1 hlt hap rfl (by decide) (by decide) (by simp)
  obtain ⟨w, hw⟩ : ∃ w, w = v.exec (Cpu.popStores .rax [(.rbp, 48), (.rbx, 40), (.rdx, 32),
      (.rcx, 24), (.rsi, 16), (.rdi, 8), (.rdi, 0)]) := ⟨_, rfl⟩
  rw [← hw] at h2
  have hmemw : w.mem = storeAll base ctx.toNat (savedWords t.reg rip cs rflags rsp ss) := h2.mem_eq
  have hback : w.mem.read64 y.rspReg.toNat = t.reg .rsp := by
    rw [← hrspReg, hmemw]
    unfold Apart at hrc
    exact Memory.read64_congr fun i hi => storeAll_outside h2.inside (by omega)
  have hra : w.mem.read64 t.sp = ra := by
    have htop : w.sp + 0 = t.sp := h2.top_eq
    rw [← htop]
    exact h2.stack.holds.1
  have heq : saveContext y t = ((w.setReg .rsp (t.reg .rsp)).ret) := by
    have hlast : saveContextTail y = Cpu.popStores .rax [(.rbp, 48), (.rbx, 40), (.rdx, 32),
      (.rcx, 24), (.rsi, 16), (.rdi, 8), (.rdi, 0)] ++ [.mov (.reg .rsp) (.abs y.rspReg)] := rfl
    unfold saveContext
    dsimp only
    rw [← hu, ← hv, hlast, exec_append, ← hw, ← hback]
    rfl
  rw [heq]
  refine ⟨?_, ?_, base, hmemw, hmem⟩
  · rw [← h2.rax]
    simp [ret, Cpu.pop]
  · rw [← hra]
    simp [ret, Cpu.pop, load, sp]

/-- The context that the words make. -/
theorem contextAt_savedWords (base : Memory) (a : ℕ) (reg : Reg → Word)
    (rip cs rflags rsp ss : Word) :
    contextAt (storeAll base a (savedWords reg rip cs rflags rsp ss)) a =
      { reg := Function.update reg .rsp rsp
        rip := rip
        rflags := rflags
        cs := cs
        ss := if cs &&& 3 = 0 then 0x10 else ss
        cr3 := base.read64 (a + 160) } := by
  have hmod : ∀ p ∈ savedWords reg rip cs rflags rsp ss, p.1 % 8 = 0 := by simp [savedWords]
  have hn : ((savedWords reg rip cs rflags rsp ss).map Prod.fst).Nodup := by
    simp only [savedWords, List.map_cons, List.map_nil]
    decide
  have hget : ∀ o v, (o, v) ∈ savedWords reg rip cs rflags rsp ss →
      (storeAll base a (savedWords reg rip cs rflags rsp ss)).read64 (a + o) = v :=
    fun o v hm => read64_storeAll hmod hn hm
  have hcr3 : (storeAll base a (savedWords reg rip cs rflags rsp ss)).read64 (a + 160) =
      base.read64 (a + 160) := read64_storeAll_of_ne (by simp [savedWords]) (by decide)
  have hreg : (fun r => (storeAll base a (savedWords reg rip cs rflags rsp ss)).read64
      (a + slot r)) = Function.update reg .rsp rsp := by
    funext r
    refine hget _ _ ?_
    cases r <;> simp [savedWords, slot]
  unfold contextAt
  rw [hreg, hcr3, hget 128 rip (by simp [savedWords]), hget 136 rflags (by simp [savedWords]),
    hget 144 cs (by simp [savedWords]), hget 152 (if cs &&& 3 = 0 then 0x10 else ss) (by simp [savedWords])]

end Save

/-! ## Resuming -/

section Resume

/-- On the way into a thread: what has been pushed lies in the `k` bytes at `a`, and all other
memory is as it was, the context in `rdi` among it. -/
structure Resuming (b : Cpu) (ctx : Word) (a k : ℕ) (ws : List Word) (u : Cpu) : Prop where
  stack : u.Stack ws
  sp_eq : u.sp + 8 * ws.length = a + k
  outside : ∀ p, (p < a ∨ a + k ≤ p) → u.mem p = b.mem p
  rdi : u.reg .rdi = ctx
  cr3_eq : u.cr3 = b.cr3
  cs_eq : u.cs = b.cs
  ss_eq : u.ss = b.ss

variable {b : Cpu} {ctx : Word} {a k : ℕ} {ws : List Word} {u : Cpu}

theorem Resuming.push (h : Resuming b ctx a k ws u) (v : Word)
    (hk : 8 * (ws.length + 1) ≤ k) : Resuming b ctx a k (v :: ws) (u.push v) := by
  have hsp := h.sp_eq
  have hroom : 8 ≤ u.sp := by omega
  refine ⟨h.stack.push v hroom, ?_, fun p hp => ?_, ?_, h.cr3_eq, h.cs_eq, h.ss_eq⟩
  · rw [push_sp v hroom, List.length_cons]
    omega
  · rw [push_mem_outside v hroom (by omega)]
    exact h.outside p hp
  · rw [push_reg u v (by decide), h.rdi]

theorem Resuming.setReg (h : Resuming b ctx a k ws u) {r : Reg} (hr : r ≠ .rsp)
    (hr' : r ≠ .rdi) (v : Word) : Resuming b ctx a k ws (u.setReg r v) := by
  have hsp : (u.setReg r v).sp = u.sp := setReg_sp u hr v
  refine ⟨h.stack.congr hsp fun _ _ _ => rfl, hsp ▸ h.sp_eq, h.outside, ?_, h.cr3_eq, h.cs_eq, h.ss_eq⟩
  rw [← h.rdi]
  exact Function.update_of_ne (Ne.symm hr') ..

/-- Every word of the context is still there to be loaded. -/
theorem Resuming.load (h : Resuming b ctx a k ws u) (hlt : ctx.toNat + 168 < 2 ^ 64)
    (hap : Apart ctx.toNat 168 a k) {o : ℕ} (ho : o + 8 ≤ 168) :
    u.load (u.reg .rdi + BitVec.ofNat 64 o) = b.mem.read64 (ctx.toNat + o) := by
  unfold Cpu.load
  rw [h.rdi, toNat_add_ofNat (by omega)]
  unfold Apart at hap
  exact Memory.read64_congr fun i hi => h.outside _ (by omega)

/-- The loads at the end of both paths. -/
theorem Resuming.loads (h : Resuming b ctx a k ws u) (hlt : ctx.toNat + 168 < 2 ^ 64)
    (hap : Apart ctx.toNat 168 a k) :
    ∃ reg, u.exec switchContextLoads = { u with reg := reg } ∧
      Resuming b ctx a k ws { u with reg := reg } ∧
      ∀ r, r ≠ .rsp → r ≠ .rdi → reg r = (contextAt b.mem ctx.toNat).reg r := by
  obtain ⟨reg, heq, hin, hout⟩ := exec_loads u (b := .rdi)
    (l := [(.r15, 120), (.r14, 112), (.r13, 104), (.r12, 96), (.r11, 88), (.r10, 80), (.r9, 72),
      (.r8, 64), (.rbp, 48), (.rbx, 40), (.rdx, 32), (.rcx, 24), (.rsi, 16), (.rax, 0)])
    (by decide) (by decide)
  have hrsp : reg .rsp = u.reg .rsp := hout .rsp (by decide)
  have hrdi : reg .rdi = u.reg .rdi := hout .rdi (by decide)
  have hsp : sp { u with reg := reg } = u.sp := congrArg BitVec.toNat hrsp
  refine ⟨reg, heq, ⟨h.stack.congr hsp fun _ _ _ => rfl, hsp ▸ h.sp_eq, h.outside,
    hrdi.trans h.rdi, h.cr3_eq, h.cs_eq, h.ss_eq⟩, fun r h1 h2 => ?_⟩
  -- each register is loaded from its own slot
  have hslot : (r, BitVec.ofNat 64 (slot r)) ∈ [(Reg.r15, (120 : BitVec 64)), (.r14, 112),
      (.r13, 104), (.r12, 96), (.r11, 88), (.r10, 80), (.r9, 72), (.r8, 64), (.rbp, 48),
      (.rbx, 40), (.rdx, 32), (.rcx, 24), (.rsi, 16), (.rax, 0)] := by
    cases r <;> first | exact absurd rfl h1 | exact absurd rfl h2 | decide
  rw [hin _ hslot, h.load hlt hap (by cases r <;> decide)]
  rfl

theorem Resuming.step_push (h : Resuming b ctx a k ws u) (hlt : ctx.toNat + 168 < 2 ^ 64)
    (hap : Apart ctx.toNat 168 a k) {o : ℕ} (ho : o + 8 ≤ 168) (hk : 8 * (ws.length + 1) ≤ k) :
    Resuming b ctx a k (b.mem.read64 (ctx.toNat + o) :: ws)
      (u.step (.push (.mem .rdi (BitVec.ofNat 64 o)))) := by
  have heq : u.step (.push (.mem .rdi (BitVec.ofNat 64 o))) = u.push (b.mem.read64 (ctx.toNat + o)) :=
    congrArg u.push (h.load hlt hap ho)
  rw [heq]
  exact h.push _ hk

/-- The flags are loaded and masked in `rax`, and pushed. -/
theorem Resuming.push_flags (h : Resuming b ctx a k ws u) (hlt : ctx.toNat + 168 < 2 ^ 64)
    (hap : Apart ctx.toNat 168 a k) (hk : 8 * (ws.length + 1) ≤ k) (masks : List Word) :
    Resuming b ctx a k
      ((masks.foldl (· &&& ·) (b.mem.read64 (ctx.toNat + 136)) ||| 2) :: ws)
      (u.exec (.mov (.reg .rax) (.mem .rdi 136) :: masks.map (fun v => .and .rax v) ++
        [.or .rax 2, .push (.reg .rax)])) := by
  have hmasks : ∀ f : Word, (u.setReg .rax f).exec (masks.map fun v => .and .rax v) =
      u.setReg .rax (masks.foldl (· &&& ·) f) := by
    induction masks with
    | nil => exact fun _ => rfl
    | cons v l ih =>
      intro f
      have hone : (u.setReg .rax f).step (.and .rax v) = u.setReg .rax (f &&& v) := by
        simp [step, Cpu.setReg]
      rw [List.map_cons, exec_cons, hone, ih, List.foldl_cons]
  have hload : u.step (.mov (.reg .rax) (.mem .rdi 136)) =
      u.setReg .rax (b.mem.read64 (ctx.toNat + 136)) :=
    congrArg (u.setReg .rax) (h.load hlt hap (o := 136) (by decide))
  rw [List.cons_append, exec_cons, hload, exec_append, hmasks]
  have hlast : ∀ f : Word, (u.setReg .rax f).exec [.or .rax 2, .push (.reg .rax)] =
      (u.setReg .rax (f ||| 2)).push (f ||| 2) := by
    intro f
    simp [exec, step, Cpu.get, Cpu.setReg]
  rw [hlast]
  exact (h.setReg (by decide) (by decide) _).push _ hk

variable {y : Symbols} {s : Cpu}

theorem switchTest_eq (hrdi : s.reg .rdi = ctx) (hlt : ctx.toNat + 168 < 2 ^ 64) :
    switchTest y s = { s with
      reg := Function.update (Function.update s.reg .rax (switchCr3 y s)) .rdx
        ((contextAt s.mem ctx.toNat).cs &&& 3)
      cr3 := switchCr3 y s } := by
  have hcs : s.mem.read64 (s.reg .rdi + 144).toNat = (contextAt s.mem ctx.toNat).cs := by
    rw [hrdi, show (ctx + 144).toNat = ctx.toNat + 144 from toNat_add_ofNat (o := 144) (by omega)]
    rfl
  have hother : Function.update s.reg .rax (switchCr3 y s) .rdi = s.reg .rdi :=
    Function.update_of_ne (by decide) ..
  simp only [switchTest, exec, List.foldl_cons, List.foldl_nil, step, Cpu.set, Cpu.get, Cpu.setReg,
    Cpu.load, Function.update_self, Function.update_idem, hother, hcs]

theorem switchTest_mem (hrdi : s.reg .rdi = ctx) (hlt : ctx.toNat + 168 < 2 ^ 64) :
    (switchTest y s).mem = s.mem := by rw [switchTest_eq hrdi hlt]

theorem switchTest_reg (hrdi : s.reg .rdi = ctx) (hlt : ctx.toNat + 168 < 2 ^ 64) {r : Reg}
    (h1 : r ≠ .rax) (h2 : r ≠ .rdx) : (switchTest y s).reg r = s.reg r := by
  rw [switchTest_eq hrdi hlt]
  exact (Function.update_of_ne h2 ..).trans (Function.update_of_ne h1 ..)

theorem resuming_start (hrdi : b.reg .rdi = ctx) (hsp : b.sp = a + k) :
    Resuming b ctx a k [] b where
  stack := ⟨trivial, (b.reg .rsp).isLt⟩
  sp_eq := hsp
  outside _ _ := rfl
  rdi := hrdi
  cr3_eq := rfl
  cs_eq := rfl
  ss_eq := rfl

/-- Into ring 3, by a frame of 40 bytes on the stack at hand. -/
theorem switchContext_ring3 (hrdi : s.reg .rdi = ctx) (hlt : ctx.toNat + 168 < 2 ^ 64)
    (hroom : 40 ≤ s.sp) (hap : Apart ctx.toNat 168 (s.sp - 40) 40)
    (hring : (contextAt s.mem ctx.toNat).cs &&& 3 ≠ 0) :
    ∃ mem, switchContext y s =
        { reg := (contextAt s.mem ctx.toNat).reg
          rip := (contextAt s.mem ctx.toNat).rip
          rflags := (contextAt s.mem ctx.toNat).rflags &&& 0x37FFD7 ||| 2
          cs := (contextAt s.mem ctx.toNat).cs
          ss := (contextAt s.mem ctx.toNat).ss
          cr3 := switchCr3 y s
          mem := mem } ∧
      ∀ p, (p < s.sp - 40 ∨ s.sp ≤ p) → mem p = s.mem p := by
  obtain ⟨c, hc⟩ : ∃ c, c = contextAt s.mem ctx.toNat := ⟨_, rfl⟩
  rw [← hc] at hring ⊢
  obtain ⟨u, hu⟩ : ∃ u, u = switchTest y s := ⟨_, rfl⟩
  have humem : u.mem = s.mem := by rw [hu, switchTest_mem hrdi hlt]
  have husp : u.sp = s.sp := by
    rw [sp, hu, switchTest_reg hrdi hlt (by decide) (by decide), sp]
  have hurdi : u.reg .rdi = ctx := by
    rw [hu, switchTest_reg hrdi hlt (by decide) (by decide), hrdi]
  have hrdx : u.reg .rdx = c.cs &&& 3 := by rw [hu, switchTest_eq hrdi hlt, hc]; simp
  have hcr3 : u.cr3 = switchCr3 y s := by rw [hu, switchTest_eq hrdi hlt]
  rw [← humem] at hc
  have h0 : Resuming u ctx (s.sp - 40) 40 [] u := resuming_start hurdi (by omega)
  -- the frame
  have h1 := h0.step_push hlt hap (o := 152) (by decide) (by simp)
  have h2 := h1.step_push hlt hap (o := 56) (by decide) (by simp)
  have h3 := h2.push_flags hlt hap (by simp) [0x37FFD7]
  have h4 := h3.step_push hlt hap (o := 144) (by decide) (by simp)
  have h5 := h4.step_push hlt hap (o := 128) (by decide) (by simp)
  obtain ⟨v, hv⟩ : ∃ v, v = u.exec switchContextRing3 := ⟨_, rfl⟩
  have h6 : Resuming u ctx (s.sp - 40) 40
      [c.rip, c.cs, c.rflags &&& 0x37FFD7 ||| 2, c.reg .rsp, c.ss] v := by
    rw [hv, hc]
    exact h5
  obtain ⟨reg, hloads, h7, hreg⟩ := h6.loads hlt hap
  obtain ⟨w, hw⟩ : ∃ w, w = { v with reg := reg } := ⟨_, rfl⟩
  rw [← hw] at h7 hloads
  have hwreg : w.reg = reg := by rw [hw]
  -- `rdi` last, and the return
  have hlast : w.exec [.mov (.reg .rdi) (.mem .rdi 8)] = w.setReg .rdi (c.reg .rdi) := by
    rw [hc]
    exact congrArg (w.setReg .rdi) (h7.load hlt hap (o := 8) (by decide))
  have hsp : (w.setReg .rdi (c.reg .rdi)).sp = w.sp := setReg_sp w (by decide) _
  have h8 : (w.setReg .rdi (c.reg .rdi)).Stack
      [c.rip, c.cs, c.rflags &&& 0x37FFD7 ||| 2, c.reg .rsp, c.ss] :=
    h7.stack.congr hsp fun _ _ _ => rfl
  have heq : switchContext y s = (w.setReg .rdi (c.reg .rdi)).iretq := by
    unfold switchContext
    dsimp only
    rw [← hu, hrdx, if_neg hring, ← hv, hloads, hlast]
  rw [heq, h8.iretq]
  refine ⟨w.mem, ?_, fun p hp => ?_⟩
  rotate_left
  · rw [h7.outside p (by omega), humem]
  have hregs : Function.update (Function.update w.reg .rdi (c.reg .rdi)) .rsp (c.reg .rsp) =
      c.reg := by
    funext r
    by_cases h1 : r = .rsp
    · rw [h1, Function.update_self]
    · rw [Function.update_of_ne h1]
      by_cases h2 : r = .rdi
      · rw [h2, Function.update_self]
      · rw [Function.update_of_ne h2, hwreg, hreg r h1 h2, hc]
  rw [setReg_reg, hregs]
  show Cpu.mk _ _ _ _ _ w.cr3 _ = _
  rw [h7.cr3_eq, hcr3]
  rfl

theorem and_or_self (f b : Word) : f &&& b ||| b = b := by
  ext i hi
  simp

/-- The ring-0 path clears `IF` in the image and sets it before the return. -/
theorem ring0_flags (f : Word) :
    f &&& 0x37FFD7 &&& 0xFFFFFFFFFFFFFDFF ||| 2 ||| 0x200 = f &&& 0x37FFD7 ||| 0x202 := by
  have hmask : (0x37FFD7 : Word) = 0x37FDD7 ||| 0x200 := by decide
  have hlow : (0x202 : Word) = 0x200 ||| 2 := by decide
  calc f &&& 0x37FFD7 &&& 0xFFFFFFFFFFFFFDFF ||| 2 ||| 0x200
      = f &&& 0x37FDD7 ||| 0x202 := by rw [BitVec.and_assoc, BitVec.or_assoc]; rfl
    _ = f &&& 0x37FDD7 ||| (f &&& 0x200 ||| 0x200 ||| 2) := by rw [and_or_self, ← hlow]
    _ = f &&& 0x37FFD7 ||| 0x202 := by
      rw [hmask, BitVec.and_or_distrib_left, BitVec.or_assoc, BitVec.or_assoc, ← hlow]

/-- Into ring 0, by two words below the stack pointer of the context; the segments stay. -/
theorem switchContext_ring0 (hrdi : s.reg .rdi = ctx) (hlt : ctx.toNat + 168 < 2 ^ 64)
    (hroom : 16 ≤ ((contextAt s.mem ctx.toNat).reg .rsp).toNat)
    (hap : Apart ctx.toNat 168 (((contextAt s.mem ctx.toNat).reg .rsp).toNat - 16) 16)
    (hring : (contextAt s.mem ctx.toNat).cs &&& 3 = 0) :
    ∃ mem, switchContext y s =
        { reg := (contextAt s.mem ctx.toNat).reg
          rip := (contextAt s.mem ctx.toNat).rip
          rflags := (contextAt s.mem ctx.toNat).rflags &&& 0x37FFD7 ||| 0x202
          cs := s.cs
          ss := s.ss
          cr3 := switchCr3 y s
          mem := mem } ∧
      ∀ p, (p < ((contextAt s.mem ctx.toNat).reg .rsp).toNat - 16 ∨
        ((contextAt s.mem ctx.toNat).reg .rsp).toNat ≤ p) → mem p = s.mem p := by
  obtain ⟨c, hc⟩ : ∃ c, c = contextAt s.mem ctx.toNat := ⟨_, rfl⟩
  rw [← hc] at hroom hap hring ⊢
  obtain ⟨u, hu⟩ : ∃ u, u = switchTest y s := ⟨_, rfl⟩
  have humem : u.mem = s.mem := by rw [hu, switchTest_mem hrdi hlt]
  have hurdi : u.reg .rdi = ctx := by
    rw [hu, switchTest_reg hrdi hlt (by decide) (by decide), hrdi]
  have hctl : u.cr3 = switchCr3 y s ∧ u.cs = s.cs ∧ u.ss = s.ss := by
    rw [hu, switchTest_eq hrdi hlt]
    exact ⟨rfl, rfl, rfl⟩
  have hrdx : u.reg .rdx = c.cs &&& 3 := by rw [hu, switchTest_eq hrdi hlt, hc]; simp
  rw [← humem] at hc
  -- the stack of the context
  obtain ⟨v, hv⟩ : ∃ v, v = u.setReg .rsp (c.reg .rsp) := ⟨_, rfl⟩
  have hmov : u.step (.mov (.reg .rsp) (.mem .rdi 56)) = v := by
    rw [hv, hc]
    refine congrArg (u.setReg .rsp) ?_
    show u.mem.read64 (u.reg .rdi + 56).toNat = _
    rw [hurdi, show (ctx + 56).toNat = ctx.toNat + 56 from toNat_add_ofNat (o := 56) (by omega)]
    rfl
  have hvsp : v.sp = (c.reg .rsp).toNat := by rw [hv]; simp [sp]
  have hvmem : v.mem = u.mem := by rw [hv]; rfl
  have hvrdi : v.reg .rdi = ctx := by rw [hv]; simpa using hurdi
  have h0 : Resuming v ctx ((c.reg .rsp).toNat - 16) 16 [] v := resuming_start hvrdi (by omega)
  have h1 := h0.step_push hlt hap (o := 128) (by decide) (by simp)
  have h2 := h1.push_flags hlt hap (by simp) [0x37FFD7, 0xFFFFFFFFFFFFFDFF]
  obtain ⟨x, hx⟩ : ∃ x, x = u.exec switchContextRing0 := ⟨_, rfl⟩
  have h3 : Resuming v ctx ((c.reg .rsp).toNat - 16) 16
      [c.rflags &&& 0x37FFD7 &&& 0xFFFFFFFFFFFFFDFF ||| 2, c.rip] x := by
    have hrip : v.mem.read64 (ctx.toNat + 128) = c.rip := by rw [hvmem, hc]; rfl
    have hflags : v.mem.read64 (ctx.toNat + 136) = c.rflags := by rw [hvmem, hc]; rfl
    rw [hrip, hflags] at h2
    rw [hx]
    unfold switchContextRing0
    rw [exec_cons, hmov]
    exact h2
  obtain ⟨reg, hloads, h4, hreg⟩ := h3.loads hlt hap
  rw [hvmem, ← hc] at hreg
  obtain ⟨w, hw⟩ : ∃ w, w = { x with reg := reg } := ⟨_, rfl⟩
  rw [← hw] at h4 hloads
  have hwreg : w.reg = reg := by rw [hw]
  -- the flags, `rdi`, and the return
  obtain ⟨hpop, hst, hsp⟩ := h4.stack.pop
  obtain ⟨z, hz⟩ : ∃ z, z = { w.pop.2.setReg .rdi (c.reg .rdi) with
    rflags := c.rflags &&& 0x37FFD7 ||| 0x202 } := ⟨_, rfl⟩
  have hlast : w.exec [.popfq, .mov (.reg .rdi) (.mem .rdi 8), .sti] = z := by
    have hload : (w.step .popfq).load ((w.step .popfq).reg .rdi + 8) = c.reg .rdi := by
      have hsame : (w.step .popfq).reg .rdi = w.reg .rdi := pop_reg (q := .rdi) w (by decide)
      rw [hsame, hc, ← hvmem]
      exact h4.load hlt hap (o := 8) (by decide)
    have hmov' : (w.step .popfq).step (.mov (.reg .rdi) (.mem .rdi 8)) =
        (w.step .popfq).setReg .rdi (c.reg .rdi) :=
      congrArg ((w.step .popfq).setReg .rdi) hload
    rw [exec_cons, exec_cons, hmov', hz, ← ring0_flags, ← hpop]
    rfl
  have hzst : z.Stack [c.rip] := by
    rw [hz]
    exact hst.congr (setReg_sp w.pop.2 (by decide) _) fun _ _ _ => rfl
  have heq : switchContext y s = z.ret := by
    unfold switchContext
    dsimp only
    rw [← hu, hrdx, if_pos hring, ← hx, hloads, hlast]
  obtain ⟨hzpop, -, hzsp⟩ := hzst.pop
  have hregs : z.pop.2.reg = c.reg := by
    funext r
    by_cases h1 : r = .rsp
    · have hz1 : z.sp = w.pop.2.sp := by rw [hz]; exact setReg_sp w.pop.2 (by decide) _
      have hw1 : w.sp + 16 = (c.reg .rsp).toNat - 16 + 16 := h4.sp_eq
      have hend : z.pop.2.sp = (c.reg .rsp).toNat := by omega
      rw [h1]
      exact BitVec.eq_of_toNat_eq hend
    · rw [pop_reg z h1, hz]
      show Function.update w.pop.2.reg .rdi _ r = _
      by_cases h2 : r = .rdi
      · rw [h2, Function.update_self]
      · rw [Function.update_of_ne h2, pop_reg w h1, hwreg, hreg r h1 h2]
  refine ⟨w.mem, ?_, fun p hp => ?_⟩
  rotate_left
  · rw [h4.outside p (by omega), hvmem, humem]
  have hzctl : z.cr3 = switchCr3 y s ∧ z.cs = s.cs ∧ z.ss = s.ss ∧ z.mem = w.mem ∧
      z.rflags = c.rflags &&& 0x37FFD7 ||| 0x202 := by
    rw [hz, ← hctl.1, ← hctl.2.1, ← hctl.2.2]
    refine ⟨h4.cr3_eq.trans ?_, h4.cs_eq.trans ?_, h4.ss_eq.trans ?_, rfl, rfl⟩
    all_goals rw [hv]; rfl
  rw [heq]
  show Cpu.mk z.pop.2.reg z.pop.1 z.rflags z.cs z.ss z.cr3 z.mem = _
  rw [hregs, hzpop, hzctl.1, hzctl.2.1, hzctl.2.2.1, hzctl.2.2.2.1, hzctl.2.2.2.2]

end Resume

end Nyvela
