import Mathlib.Data.List.Basic
import Mathlib.Tactic.Cases
import Nyvela.Lib.PageMemory

/-!
# A fragment of the x86-64 instruction set

Registers, moves, the stack, interrupt delivery and the two ways to return. Addresses are
64-bit words; a stack has room if it does not reach down to address zero. The status flags
that `and` and `or` leave are not kept: a branch on them is a case split, and whoever
returns to interrupted code loads all of `rflags` first.
-/

namespace Nyvela.X86

inductive Reg
  | rax | rbx | rcx | rdx | rsi | rdi | rbp | rsp
  | r8 | r9 | r10 | r11 | r12 | r13 | r14 | r15
  deriving DecidableEq

structure Cpu where
  reg : Reg → BitVec 64
  rip : BitVec 64
  rflags : BitVec 64
  cs : BitVec 64
  ss : BitVec 64
  cr3 : BitVec 64
  mem : Memory

inductive Operand
  | reg (r : Reg)
  | imm (v : BitVec 64)
  | mem (base : Reg) (disp : BitVec 64)
  | abs (a : BitVec 64)

inductive Instr
  | mov (dst src : Operand)
  | push (src : Operand)
  | pop (dst : Reg)
  | and (dst : Reg) (v : BitVec 64)
  | or (dst : Reg) (v : BitVec 64)
  | movCr3 (src : Reg)
  | popfq
  | sti

namespace Cpu

def setReg (s : Cpu) (r : Reg) (v : BitVec 64) : Cpu := { s with reg := Function.update s.reg r v }

def store (s : Cpu) (a v : BitVec 64) : Cpu := { s with mem := s.mem.write64 a.toNat v }

def load (s : Cpu) (a : BitVec 64) : BitVec 64 := s.mem.read64 a.toNat

def get (s : Cpu) : Operand → BitVec 64
  | .reg r => s.reg r
  | .imm v => v
  | .mem base disp => s.load (s.reg base + disp)
  | .abs a => s.load a

def set (s : Cpu) (v : BitVec 64) : Operand → Cpu
  | .reg r => s.setReg r v
  | .imm _ => s
  | .mem base disp => s.store (s.reg base + disp) v
  | .abs a => s.store a v

def push (s : Cpu) (v : BitVec 64) : Cpu :=
  (s.setReg .rsp (s.reg .rsp - 8)).store (s.reg .rsp - 8) v

/-- The word on top of the stack, and the machine without it. -/
def pop (s : Cpu) : BitVec 64 × Cpu := (s.load (s.reg .rsp), s.setReg .rsp (s.reg .rsp + 8))

def step (s : Cpu) : Instr → Cpu
  | .mov dst src => s.set (s.get src) dst
  | .push src => s.push (s.get src)
  | .pop dst => s.pop.2.setReg dst s.pop.1
  | .and dst v => s.setReg dst (s.reg dst &&& v)
  | .or dst v => s.setReg dst (s.reg dst ||| v)
  | .movCr3 src => { s with cr3 := s.reg src }
  | .popfq => { s.pop.2 with rflags := s.pop.1 }
  | .sti => { s with rflags := s.rflags ||| 0x200 }

/-- Straight-line code. -/
def exec (s : Cpu) (l : List Instr) : Cpu := l.foldl step s

/-- `call` with the address that it pushes. -/
def call (s : Cpu) (ra : BitVec 64) (f : Cpu → Cpu) : Cpu := f (s.push ra)

def ret (s : Cpu) : Cpu := { s.pop.2 with rip := s.pop.1 }

/-- Ring 3 leaves its stack for `rsp0`, and in either ring the stack is aligned. -/
def entrySp (s : Cpu) (rsp0 : BitVec 64) : BitVec 64 :=
  (if s.cs &&& 3 = 0 then s.reg .rsp else rsp0) &&& 0xFFFFFFFFFFFFFFF0

/-- Delivery of an interrupt through a gate that clears `IF`, to a handler at `rip` in `cs`. -/
def interrupt (s : Cpu) (rsp0 cs rip : BitVec 64) : Cpu :=
  let t := ((((((s.setReg .rsp (s.entrySp rsp0)).push s.ss).push (s.reg .rsp)).push
    s.rflags).push s.cs).push s.rip)
  { t with
    rip := rip
    cs := cs
    ss := if s.cs &&& 3 = 0 then s.ss else 0
    rflags := s.rflags &&& 0xFFFFFFFFFFFEBCFF }

def iretq (s : Cpu) : Cpu :=
  { s with
    reg := Function.update s.reg .rsp (s.load (s.reg .rsp + 24))
    rip := s.load (s.reg .rsp)
    cs := s.load (s.reg .rsp + 8)
    rflags := s.load (s.reg .rsp + 16)
    ss := s.load (s.reg .rsp + 32) }

/-! ## Registers -/

@[simp] theorem setReg_reg (s : Cpu) (r : Reg) (v : BitVec 64) :
    (s.setReg r v).reg = Function.update s.reg r v := rfl

@[simp] theorem setReg_mem (s : Cpu) (r : Reg) (v : BitVec 64) : (s.setReg r v).mem = s.mem := rfl

@[simp] theorem store_reg (s : Cpu) (a v : BitVec 64) : (s.store a v).reg = s.reg := rfl

theorem exec_append (s : Cpu) (l l' : List Instr) : s.exec (l ++ l') = (s.exec l).exec l' :=
  List.foldl_append

theorem exec_cons (s : Cpu) (i : Instr) (l : List Instr) : s.exec (i :: l) = (s.step i).exec l := rfl

/-- Loads of many registers from one object. -/
def loads (base : Reg) (l : List (Reg × BitVec 64)) : List Instr :=
  l.map fun p => .mov (.reg p.1) (.mem base p.2)

/-- What loads leave: memory and control registers as they were. -/
theorem exec_loads {b : Reg} {l : List (Reg × BitVec 64)} (s : Cpu)
    (hn : (l.map Prod.fst).Nodup) (hb : b ∉ l.map Prod.fst) :
    ∃ reg, s.exec (loads b l) = { s with reg := reg } ∧
      (∀ p ∈ l, reg p.1 = s.load (s.reg b + p.2)) ∧
      ∀ r ∉ l.map Prod.fst, reg r = s.reg r := by
  induction l generalizing s with
  | nil => exact ⟨s.reg, rfl, by simp, fun _ _ => rfl⟩
  | cons p l ih =>
    obtain ⟨hp, hn⟩ := List.nodup_cons.mp hn
    rw [List.map_cons, List.mem_cons, not_or] at hb
    obtain ⟨reg, heq, hin, hout⟩ := ih (s.setReg p.1 (s.load (s.reg b + p.2))) hn hb.2
    have hbase : (s.setReg p.1 (s.load (s.reg b + p.2))).reg b = s.reg b :=
      Function.update_of_ne hb.1 ..
    refine ⟨reg, heq, ?_, ?_⟩
    · intro q hq
      rcases List.mem_cons.mp hq with rfl | hq
      · rw [hout _ hp, setReg_reg, Function.update_self]
      · rw [hin q hq, hbase]
        rfl
    · intro r hr
      rw [List.map_cons, List.mem_cons, not_or] at hr
      rw [hout r hr.2, setReg_reg, Function.update_of_ne hr.1]

/-! ## The stack -/

/-- Words at consecutive addresses. -/
def Holds (m : Memory) : ℕ → List (BitVec 64) → Prop
  | _, [] => True
  | a, w :: ws => m.read64 a = w ∧ Holds m (a + 8) ws

theorem Holds.congr {m m' : Memory} {a : ℕ} {ws : List (BitVec 64)} (h : Holds m a ws)
    (heq : ∀ p, a ≤ p → p < a + 8 * ws.length → m' p = m p) : Holds m' a ws := by
  induction ws generalizing a with
  | nil => trivial
  | cons w ws ih =>
    rw [List.length_cons] at heq
    refine ⟨?_, ih h.2 fun p h1 h2 => heq p (by omega) (by omega)⟩
    rw [← h.1]
    exact Memory.read64_congr fun i hi => heq _ (by omega) (by omega)

theorem Holds.get {m : Memory} {a i : ℕ} {w : BitVec 64} {ws : List (BitVec 64)}
    (h : Holds m a ws) (hw : ws[i]? = some w) : m.read64 (a + 8 * i) = w := by
  induction ws generalizing a i with
  | nil => simp at hw
  | cons v ws ih =>
    cases i with
    | zero => exact h.1.trans (by simpa using hw)
    | succ i =>
      rw [show a + 8 * (i + 1) = a + 8 + 8 * i by omega]
      exact ih h.2 (by simpa using hw)

theorem Holds.drop {m : Memory} {a : ℕ} {ws vs : List (BitVec 64)} (h : Holds m a (vs ++ ws)) :
    Holds m (a + 8 * vs.length) ws := by
  induction vs generalizing a with
  | nil => exact h
  | cons v vs ih =>
    have := ih h.2
    rw [List.length_cons, show a + 8 * (vs.length + 1) = a + 8 + 8 * vs.length by omega]
    exact this

theorem Holds.set {m : Memory} {a i : ℕ} {ws : List (BitVec 64)} (h : Holds m a ws)
    (v : BitVec 64) : Holds (if i < ws.length then m.write64 (a + 8 * i) v else m) a (ws.set i v) := by
  induction ws generalizing a i with
  | nil => trivial
  | cons w ws ih =>
    cases i with
    | zero =>
      rw [if_pos (by simp)]
      refine ⟨Memory.read64_write64 _ _ _, h.2.congr fun p hp _ => ?_⟩
      exact Memory.write64_outside _ _ _ (by omega)
    | succ i =>
      have hi := ih h.2 (i := i)
      by_cases hlt : i < ws.length
      · rw [if_pos hlt] at hi
        rw [if_pos (by simpa using hlt), show a + 8 * (i + 1) = a + 8 + 8 * i by omega]
        refine ⟨?_, hi⟩
        rw [← h.1]
        exact Memory.read64_write64_of_disjoint _ _ (by omega)
      · rw [if_neg hlt] at hi
        rw [if_neg (by simpa using hlt)]
        exact ⟨h.1, hi⟩

/-- The stack pointer as an address. -/
def sp (s : Cpu) : ℕ := (s.reg .rsp).toNat

theorem setReg_sp (s : Cpu) {r : Reg} (hr : r ≠ .rsp) (v : BitVec 64) : (s.setReg r v).sp = s.sp := by
  rw [sp, setReg_reg, Function.update_of_ne hr.symm, sp]

/-- The top of the stack. -/
structure Stack (s : Cpu) (ws : List (BitVec 64)) : Prop where
  holds : Holds s.mem s.sp ws
  bound : s.sp + 8 * ws.length < 2 ^ 64

theorem toNat_add_ofNat {a : BitVec 64} {o : ℕ} (h : a.toNat + o < 2 ^ 64) :
    (a + BitVec.ofNat 64 o).toNat = a.toNat + o := by
  rw [BitVec.toNat_add, BitVec.toNat_ofNat, Nat.mod_eq_of_lt (show o < 2 ^ 64 by omega),
    Nat.mod_eq_of_lt h]

theorem toNat_sub_eight {a : BitVec 64} (h : 8 ≤ a.toNat) : (a - 8).toNat = a.toNat - 8 :=
  BitVec.toNat_sub_of_le (x := a) (y := 8#64) (BitVec.le_def.mpr h)

theorem push_sp {s : Cpu} (v : BitVec 64) (h : 8 ≤ s.sp) : (s.push v).sp = s.sp - 8 := by
  simpa [sp, push] using toNat_sub_eight h

theorem push_reg (s : Cpu) (v : BitVec 64) {r : Reg} (h : r ≠ .rsp) : (s.push v).reg r = s.reg r := by
  simp [push, h]

theorem push_mem {s : Cpu} (v : BitVec 64) (h : 8 ≤ s.sp) :
    (s.push v).mem = s.mem.write64 (s.sp - 8) v := by
  rw [sp, ← toNat_sub_eight h]
  rfl

theorem push_mem_outside {s : Cpu} (v : BitVec 64) (h : 8 ≤ s.sp) {p : ℕ}
    (hp : p < s.sp - 8 ∨ s.sp ≤ p) : (s.push v).mem p = s.mem p := by
  rw [push_mem v h]
  exact Memory.write64_outside _ _ _ (by omega)

theorem Stack.push {s : Cpu} {ws : List (BitVec 64)} (hs : s.Stack ws) (v : BitVec 64)
    (h : 8 ≤ s.sp) : (s.push v).Stack (v :: ws) := by
  have hsp := push_sp v h
  refine ⟨⟨?_, ?_⟩, ?_⟩
  · rw [hsp, push_mem v h, Memory.read64_write64]
  · rw [hsp, show s.sp - 8 + 8 = s.sp by omega]
    exact hs.holds.congr fun p hp _ => push_mem_outside v h (Or.inr hp)
  · have := hs.bound
    rw [hsp, List.length_cons]
    omega

theorem Stack.pop {s : Cpu} {w : BitVec 64} {ws : List (BitVec 64)} (hs : s.Stack (w :: ws)) :
    s.pop.1 = w ∧ s.pop.2.Stack ws ∧ s.pop.2.sp = s.sp + 8 := by
  have hb := hs.bound
  rw [List.length_cons] at hb
  have hsp : s.pop.2.sp = s.sp + 8 := by
    have hself : s.pop.2.reg .rsp = s.reg .rsp + 8#64 := by simp [Cpu.pop]
    unfold sp at hb ⊢
    rw [hself, BitVec.toNat_add]
    exact Nat.mod_eq_of_lt (show _ + 8 < _ by omega)
  refine ⟨hs.holds.1, ⟨?_, by omega⟩, hsp⟩
  rw [hsp]
  exact hs.holds.2

theorem pop_reg (s : Cpu) {q : Reg} (h : q ≠ .rsp) : s.pop.2.reg q = s.reg q :=
  Function.update_of_ne h ..

theorem step_pop_self (s : Cpu) (r : Reg) : (s.step (.pop r)).reg r = s.pop.1 :=
  Function.update_self ..

theorem step_pop_reg (s : Cpu) {r q : Reg} (h : q ≠ r) :
    (s.step (.pop r)).reg q = s.pop.2.reg q := Function.update_of_ne h ..

theorem Stack.congr {s t : Cpu} {ws : List (BitVec 64)} (hs : s.Stack ws) (hsp : t.sp = s.sp)
    (hmem : ∀ p, s.sp ≤ p → p < s.sp + 8 * ws.length → t.mem p = s.mem p) : t.Stack ws :=
  ⟨hsp ▸ hs.holds.congr hmem, hsp ▸ hs.bound⟩

/-- Values pushed one after the other. -/
def pushAll (s : Cpu) (vs : List (BitVec 64)) : Cpu := vs.foldl push s

/-- What pushes leave: the control registers as they were. -/
theorem pushAll_spec {s : Cpu} (vs : List (BitVec 64)) {ws : List (BitVec 64)} (hs : s.Stack ws)
    (hroom : 8 * vs.length ≤ s.sp) :
    ∃ reg mem, s.pushAll vs = { s with reg := reg, mem := mem } ∧
      Stack { s with reg := reg, mem := mem } (vs.reverse ++ ws) ∧
      (reg .rsp).toNat = s.sp - 8 * vs.length ∧ (∀ r, r ≠ .rsp → reg r = s.reg r) ∧
      ∀ p, p < s.sp - 8 * vs.length ∨ s.sp ≤ p → mem p = s.mem p := by
  induction vs generalizing s ws with
  | nil => exact ⟨s.reg, s.mem, rfl, hs, rfl, fun _ _ => rfl, fun _ _ => rfl⟩
  | cons v vs ih =>
    rw [List.length_cons] at hroom
    have hsp := push_sp v (show 8 ≤ s.sp by omega)
    obtain ⟨reg, mem, h0, h1, h2, h3, h4⟩ := ih (hs.push v (by omega)) (by omega)
    refine ⟨reg, mem, h0, ?_, ?_, ?_, ?_⟩
    · rw [List.reverse_cons, List.append_assoc]
      exact h1
    · rw [h2, hsp, List.length_cons]
      omega
    · intro q hq
      rw [h3 q hq, push_reg s _ hq]
    · intro p hp
      rw [List.length_cons] at hp
      rw [h4 p (by omega), push_mem_outside _ (by omega) (by omega)]

theorem exec_push {s : Cpu} {rs : List Reg} (hr : .rsp ∉ rs) :
    s.exec (rs.map fun r => .push (.reg r)) = s.pushAll (rs.map s.reg) := by
  induction rs generalizing s with
  | nil => rfl
  | cons r rs ih =>
    rw [List.mem_cons, not_or] at hr
    have hregs : rs.map (s.push (s.reg r)).reg = rs.map s.reg :=
      List.map_congr_left fun q hq => push_reg s _ fun he => hr.2 (he ▸ hq)
    refine (ih (s := s.push (s.reg r)) hr.2).trans ?_
    rw [hregs]
    rfl

/-- What the delivery of an interrupt leaves. -/
theorem interrupt_spec (s : Cpu) (rsp0 cs rip : BitVec 64)
    (hroom : 40 ≤ (s.entrySp rsp0).toNat) :
    (s.interrupt rsp0 cs rip).Stack [s.rip, s.cs, s.rflags, s.reg .rsp, s.ss] ∧
      (s.interrupt rsp0 cs rip).sp = (s.entrySp rsp0).toNat - 40 ∧
      (∀ r, r ≠ .rsp → (s.interrupt rsp0 cs rip).reg r = s.reg r) ∧
      (s.interrupt rsp0 cs rip).cr3 = s.cr3 ∧
      ∀ p, p < (s.entrySp rsp0).toNat - 40 ∨ (s.entrySp rsp0).toNat ≤ p →
        (s.interrupt rsp0 cs rip).mem p = s.mem p := by
  have hsp : (s.setReg .rsp (s.entrySp rsp0)).sp = (s.entrySp rsp0).toNat := by simp [sp]
  have hs : (s.setReg .rsp (s.entrySp rsp0)).Stack [] :=
    ⟨trivial, by rw [hsp]; simpa using (s.entrySp rsp0).isLt⟩
  obtain ⟨reg, mem, h0, h1, h2, h3, h4⟩ :=
    pushAll_spec [s.ss, s.reg .rsp, s.rflags, s.cs, s.rip] hs (by rw [hsp]; simpa using hroom)
  have heq : s.interrupt rsp0 cs rip = { s with
      reg := reg, mem := mem, rip := rip, cs := cs, ss := if s.cs &&& 3 = 0 then s.ss else 0,
      rflags := s.rflags &&& 0xFFFFFFFFFFFEBCFF } := by
    unfold interrupt
    rw [show ((((((s.setReg .rsp (s.entrySp rsp0)).push s.ss).push (s.reg .rsp)).push
      s.rflags).push s.cs).push s.rip) = _ from h0]
    rfl
  rw [hsp] at h2 h4
  rw [heq]
  refine ⟨h1.congr rfl fun _ _ _ => rfl, h2, ?_, rfl, h4⟩
  intro r hr
  exact (h3 r hr).trans (Function.update_of_ne hr ..)

/-- What a block of pops leaves. -/
theorem exec_pop {s : Cpu} (rs : List Reg) {vs ws : List (BitVec 64)} (hs : s.Stack (vs ++ ws))
    (hlen : vs.length = rs.length) (hn : rs.Nodup) (hr : .rsp ∉ rs) :
    ∃ reg, s.exec (rs.map .pop) = { s with reg := reg } ∧ Stack { s with reg := reg } ws ∧
      (reg .rsp).toNat = s.sp + 8 * rs.length ∧ rs.map reg = vs ∧
      ∀ r, r ≠ .rsp → r ∉ rs → reg r = s.reg r := by
  induction rs generalizing s vs with
  | nil =>
    obtain rfl : vs = [] := List.length_eq_zero_iff.mp hlen
    exact ⟨s.reg, rfl, hs, rfl, rfl, fun _ _ _ => rfl⟩
  | cons r rs ih =>
    obtain ⟨v, vs, rfl⟩ : ∃ v l, vs = v :: l := List.exists_cons_of_length_pos (by simp [hlen])
    rw [List.mem_cons, not_or] at hr
    obtain ⟨hrs, hn⟩ := List.nodup_cons.mp hn
    obtain ⟨hv, hst, hsp⟩ := hs.pop
    have hspr : (s.step (.pop r)).sp = s.sp + 8 := by
      rw [← hsp, sp, step_pop_reg s hr.1, sp]
    have hst' : (s.step (.pop r)).Stack (vs ++ ws) := by
      refine ⟨?_, ?_⟩
      · rw [hspr, ← hsp]
        exact hst.holds
      · rw [hspr, ← hsp]
        exact hst.bound
    obtain ⟨reg, heq, h1, h2, h3, h4⟩ := ih hst' (by simpa using hlen) hn hr.2
    refine ⟨reg, heq, h1, ?_, ?_, ?_⟩
    · rw [h2, hspr, List.length_cons]
      omega
    · rw [List.map_cons, h3, h4 r (Ne.symm hr.1) hrs, step_pop_self, hv]
    · intro q hq hm
      rw [List.mem_cons, not_or] at hm
      rw [h4 q hq hm.2, step_pop_reg s hm.1, pop_reg s hq]

/-- `iretq` takes all of its frame. -/
theorem iretq_eq {s : Cpu} {rip cs rflags rsp ss : BitVec 64}
    (h : ∀ i w, [rip, cs, rflags, rsp, ss][i]? = some w →
      s.load (s.reg .rsp + BitVec.ofNat 64 (8 * i)) = w) :
    s.iretq = { s with
      reg := Function.update s.reg .rsp rsp, rip := rip, cs := cs, rflags := rflags, ss := ss } := by
  have hrip : s.load (s.reg .rsp) = rip := by simpa using h 0 _ rfl
  unfold Cpu.iretq
  rw [hrip, show s.load (s.reg .rsp + 8) = cs from h 1 _ rfl,
    show s.load (s.reg .rsp + 16) = rflags from h 2 _ rfl,
    show s.load (s.reg .rsp + 24) = rsp from h 3 _ rfl,
    show s.load (s.reg .rsp + 32) = ss from h 4 _ rfl]

theorem Stack.iretq {s : Cpu} {rip cs rflags rsp ss : BitVec 64}
    (hs : s.Stack [rip, cs, rflags, rsp, ss]) :
    s.iretq = { s with
      reg := Function.update s.reg .rsp rsp, rip := rip, cs := cs, rflags := rflags, ss := ss } := by
  have hb : (s.reg .rsp).toNat + 40 < 2 ^ 64 := hs.bound
  refine iretq_eq fun i w hw => ?_
  have hi : i < 5 := (List.getElem?_eq_some_iff.mp hw).1
  unfold load
  rw [toNat_add_ofNat (by omega)]
  exact hs.holds.get hw

/-! ## The calling convention

The System V convention, for a function that takes and returns no more than registers hold. -/

/-- The registers that a function may leave with any value. -/
def callerSaved : List Reg := [.rax, .rcx, .rdx, .rsi, .rdi, .r8, .r9, .r10, .r11]

/-- The registers that a function must restore. -/
def calleeSaved : List Reg := [.rbx, .rbp, .r12, .r13, .r14, .r15]

theorem saved_cases (r : Reg) : r = .rsp ∨ r ∈ callerSaved ∨ r ∈ calleeSaved := by
  cases r <;> decide

theorem ne_rsp_of_callerSaved : ∀ r ∈ callerSaved, r ≠ .rsp := by decide

theorem ne_rsp_of_calleeSaved : ∀ r ∈ calleeSaved, r ≠ .rsp := by decide

/-- The function `f`, entered in `s` with its return address on the stack and `n` words of its
caller's above it, keeps to the convention. -/
structure Conforms (f : Cpu → Cpu) (s : Cpu) (n : ℕ) : Prop where
  rip : (f s).rip = s.load (s.reg .rsp)
  rsp : (f s).reg .rsp = s.reg .rsp + 8
  saved : ∀ r ∈ calleeSaved, (f s).reg r = s.reg r
  frame : ∀ i < n, (f s).load (s.reg .rsp + 8 + BitVec.ofNat 64 (8 * i)) =
    s.load (s.reg .rsp + 8 + BitVec.ofNat 64 (8 * i))

theorem load_store_self (s : Cpu) (a v : BitVec 64) : (s.store a v).load a = v :=
  Memory.read64_write64 ..

/-- Aligned words do not overlap, also where addresses wrap around. -/
theorem load_store_of_ne (s : Cpu) {a b : BitVec 64} (v : BitVec 64) (ha : a.toNat % 8 = 0)
    (hb : b.toNat % 8 = 0) (h : b ≠ a) : (s.store a v).load b = s.load b := by
  have hne : b.toNat ≠ a.toNat := fun he => h (BitVec.eq_of_toNat_eq he)
  exact Memory.read64_write64_of_disjoint _ _ (by omega)

theorem entrySp_aligned (s : Cpu) (rsp0 : BitVec 64) : (s.entrySp rsp0).toNat % 8 = 0 := by
  have h : (s.entrySp rsp0).toNat % 2 ^ 4 = 0 := by
    rw [entrySp, BitVec.toNat_and, Nat.and_mod_two_pow]
    exact Nat.and_zero _
  omega

/-- The words on top of an aligned stack, which may also wrap around. -/
structure Top (s : Cpu) (ws : List (BitVec 64)) : Prop where
  aligned : (s.reg .rsp).toNat % 8 = 0
  words : ∀ i w, ws[i]? = some w → s.load (s.reg .rsp + BitVec.ofNat 64 (8 * i)) = w

theorem Top.push {s : Cpu} {ws : List (BitVec 64)} (h : s.Top ws) (v : BitVec 64)
    (hlen : 8 * ws.length + 8 < 2 ^ 64) : (s.push v).Top (v :: ws) := by
  have hrsp : (s.push v).reg .rsp = s.reg .rsp - 8 := by simp [Cpu.push]
  have hal := h.aligned
  refine ⟨by rw [hrsp]; bv_omega, ?_⟩
  intro i w hw
  rw [hrsp]
  cases i with
  | zero =>
    obtain rfl : v = w := by simpa using hw
    rw [show s.reg .rsp - 8 + BitVec.ofNat 64 (8 * 0) = s.reg .rsp - 8 by bv_omega]
    exact load_store_self ..
  | succ i =>
    rw [List.getElem?_cons_succ] at hw
    have hi : i < ws.length := (List.getElem?_eq_some_iff.mp hw).1
    rw [show s.reg .rsp - 8 + BitVec.ofNat 64 (8 * (i + 1)) =
      s.reg .rsp + BitVec.ofNat 64 (8 * i) by bv_omega, ← h.words i w hw]
    exact load_store_of_ne _ _ (by bv_omega) (by bv_omega) (by bv_omega)

theorem interrupt_top (s : Cpu) (rsp0 cs rip : BitVec 64) :
    (s.interrupt rsp0 cs rip).Top [s.rip, s.cs, s.rflags, s.reg .rsp, s.ss] := by
  have h0 : (s.setReg .rsp (s.entrySp rsp0)).Top [] :=
    ⟨by simpa using entrySp_aligned s rsp0, by simp⟩
  have h := ((((h0.push s.ss (by decide)).push (s.reg .rsp) (by simp)).push s.rflags
    (by simp)).push s.cs (by simp)).push s.rip (by simp)
  exact ⟨h.aligned, h.words⟩

theorem interrupt_reg (s : Cpu) (rsp0 cs rip : BitVec 64) {r : Reg} (hr : r ≠ .rsp) :
    (s.interrupt rsp0 cs rip).reg r = s.reg r := by
  simp [interrupt, push_reg _ _ hr, Function.update_of_ne hr]

/-- A call leaves the words that its caller had on the stack. -/
theorem Top.call {f : Cpu → Cpu} {s : Cpu} {ws : List (BitVec 64)} {ra : BitVec 64}
    (h : s.Top ws) (hlen : 8 * ws.length + 8 < 2 ^ 64)
    (hf : Conforms f (s.push ra) ws.length) : (s.call ra f).Top ws := by
  have hrsp : (s.push ra).reg .rsp = s.reg .rsp - 8 := by simp [Cpu.push]
  have hsp : (s.call ra f).reg .rsp = s.reg .rsp := by
    rw [Cpu.call, hf.rsp, hrsp]
    bv_omega
  refine ⟨by rw [hsp]; exact h.aligned, fun i w hw => ?_⟩
  have hpush := (h.push ra hlen).words (i + 1) w (by simpa using hw)
  have hframe := hf.frame i (List.getElem?_eq_some_iff.mp hw).1
  rw [hrsp, show s.reg .rsp - 8 + BitVec.ofNat 64 (8 * (i + 1)) =
    s.reg .rsp + BitVec.ofNat 64 (8 * i) by bv_omega] at hpush
  rw [hrsp, show s.reg .rsp - 8 + 8 = s.reg .rsp by bv_omega] at hframe
  rw [hsp, ← hpush]
  exact hframe

/-! ## Filling an object -/

/-- Words written to the object at `a`, at offsets in it. -/
def storeAll (m : Memory) (a : ℕ) (l : List (ℕ × BitVec 64)) : Memory :=
  l.foldl (fun m p => m.write64 (a + p.1) p.2) m

theorem storeAll_outside {m : Memory} {a n : ℕ} {l : List (ℕ × BitVec 64)}
    (hl : ∀ p ∈ l, p.1 + 8 ≤ n) {x : ℕ} (hx : x < a ∨ a + n ≤ x) : storeAll m a l x = m x := by
  induction l generalizing m with
  | nil => rfl
  | cons p l ih =>
    have hp := hl p (by simp)
    refine (ih fun q hq => hl q (List.mem_cons_of_mem _ hq)).trans ?_
    exact Memory.write64_outside _ _ _ (by omega)

theorem read64_storeAll_of_ne {m : Memory} {a o : ℕ} {l : List (ℕ × BitVec 64)}
    (hl : ∀ p ∈ l, p.1 % 8 = 0 ∧ p.1 ≠ o) (ho : o % 8 = 0) :
    (storeAll m a l).read64 (a + o) = m.read64 (a + o) := by
  induction l generalizing m with
  | nil => rfl
  | cons p l ih =>
    have hp := hl p (by simp)
    refine (ih fun q hq => hl q (List.mem_cons_of_mem _ hq)).trans ?_
    exact Memory.read64_write64_of_disjoint _ _ (by omega)

theorem read64_storeAll {m : Memory} {a o : ℕ} {v : BitVec 64} {l : List (ℕ × BitVec 64)}
    (hl : ∀ p ∈ l, p.1 % 8 = 0) (hn : (l.map Prod.fst).Nodup) (hm : (o, v) ∈ l) :
    (storeAll m a l).read64 (a + o) = v := by
  induction l generalizing m with
  | nil => simp at hm
  | cons p l ih =>
    obtain ⟨hp, hn⟩ := List.nodup_cons.mp hn
    rcases List.mem_cons.mp hm with rfl | hm
    · have hrest : ∀ q ∈ l, q.1 % 8 = 0 ∧ q.1 ≠ o := fun q hq =>
        ⟨hl q (List.mem_cons_of_mem _ hq), fun he => hp (List.mem_map.mpr ⟨q, hq, he⟩)⟩
      refine (read64_storeAll_of_ne hrest (hl (o, v) (by simp))).trans ?_
      exact Memory.read64_write64 _ _ _
    · exact ih (fun q hq => hl q (List.mem_cons_of_mem _ hq)) hn hm

theorem storeAll_append (m : Memory) (a : ℕ) (l l' : List (ℕ × BitVec 64)) :
    storeAll m a (l ++ l') = storeAll (storeAll m a l) a l' := List.foldl_append

/-- Words copied, one by one, from the object at `src` to the object at `dst`. -/
def copies (src dst tmp : Reg) (l : List (ℕ × ℕ)) : List Instr :=
  l.flatMap fun p => [.mov (.reg tmp) (.mem src (BitVec.ofNat 64 p.1)),
    .mov (.mem dst (BitVec.ofNat 64 p.2)) (.reg tmp)]

theorem exec_copies {s : Cpu} {src dst tmp : Reg} {l : List (ℕ × ℕ)} {k n : ℕ}
    (hsrc : src ≠ tmp) (hdst : dst ≠ tmp) (hk : ∀ p ∈ l, p.1 + 8 ≤ k) (hn : ∀ p ∈ l, p.2 + 8 ≤ n)
    (hbs : (s.reg src).toNat + k ≤ 2 ^ 64) (hbd : (s.reg dst).toNat + n ≤ 2 ^ 64)
    (hap : (s.reg dst).toNat + n ≤ (s.reg src).toNat ∨
      (s.reg src).toNat + k ≤ (s.reg dst).toNat) :
    (s.exec (copies src dst tmp l)).mem = storeAll s.mem (s.reg dst).toNat
        (l.map fun p => (p.2, s.mem.read64 ((s.reg src).toNat + p.1))) ∧
      ∀ r, r ≠ tmp → (s.exec (copies src dst tmp l)).reg r = s.reg r := by
  induction l generalizing s with
  | nil => exact ⟨rfl, fun _ _ => rfl⟩
  | cons p l ih =>
    have hpk := hk p (by simp)
    have hpn := hn p (by simp)
    let v := s.mem.read64 ((s.reg src).toNat + p.1)
    -- the machine after the first word
    let t := (s.step (.mov (.reg tmp) (.mem src (BitVec.ofNat 64 p.1)))).step
      (.mov (.mem dst (BitVec.ofNat 64 p.2)) (.reg tmp))
    have hreg : ∀ r, r ≠ tmp → t.reg r = s.reg r := fun r hr => Function.update_of_ne hr ..
    have hmem : t.mem = s.mem.write64 ((s.reg dst).toNat + p.2) v := by
      have hval : s.load (s.reg src + BitVec.ofNat 64 p.1) = v :=
        congrArg s.mem.read64 (toNat_add_ofNat (by omega))
      show s.mem.write64 (Function.update s.reg tmp _ dst + BitVec.ofNat 64 p.2).toNat
        (Function.update s.reg tmp (s.load (s.reg src + BitVec.ofNat 64 p.1)) tmp) = _
      rw [Function.update_self, Function.update_of_ne hdst, hval, toNat_add_ofNat (by omega)]
    obtain ⟨h1, h2⟩ := ih (s := t) (fun q hq => hk q (List.mem_cons_of_mem _ hq))
      (fun q hq => hn q (List.mem_cons_of_mem _ hq)) (by rw [hreg src hsrc]; exact hbs)
      (by rw [hreg dst hdst]; exact hbd) (by rw [hreg src hsrc, hreg dst hdst]; exact hap)
    refine ⟨?_, fun r hr => (h2 r hr).trans (hreg r hr)⟩
    refine h1.trans ?_
    have hread : ∀ q ∈ l, t.mem.read64 ((s.reg src).toNat + q.1) =
        s.mem.read64 ((s.reg src).toNat + q.1) := by
      intro q hq
      have := hk q (List.mem_cons_of_mem _ hq)
      rw [hmem]
      exact Memory.read64_write64_of_disjoint _ _ (by omega)
    rw [hreg src hsrc, hreg dst hdst, hmem, List.map_cons]
    rw [hmem] at hread
    rw [List.map_congr_left fun q hq => congrArg (Prod.mk q.2) (hread q hq)]
    rfl

/-- Each register is popped and at once stored in the object that `base` points to. -/
def popStores (base : Reg) (l : List (Reg × ℕ)) : List Instr :=
  l.flatMap fun p => [.pop p.1, .mov (.mem base (BitVec.ofNat 64 p.2)) (.reg p.1)]

/-- What such a block leaves, the object being apart from the stack. -/
theorem exec_popStores {s : Cpu} {base : Reg} {l : List (Reg × ℕ)} {vs ws : List (BitVec 64)}
    {n : ℕ} (hs : s.Stack (vs ++ ws)) (hlen : vs.length = l.length) (hb : base ∉ l.map Prod.fst)
    (hbr : base ≠ .rsp) (hr : .rsp ∉ l.map Prod.fst) (hn : ∀ p ∈ l, p.2 + 8 ≤ n)
    (hbound : (s.reg base).toNat + n ≤ 2 ^ 64)
    (hap : (s.reg base).toNat + n ≤ s.sp ∨ s.sp + 8 * (vs ++ ws).length ≤ (s.reg base).toNat) :
    (s.exec (popStores base l)).Stack ws ∧
      (s.exec (popStores base l)).mem =
        storeAll s.mem (s.reg base).toNat ((l.map Prod.snd).zip vs) ∧
      (∀ r, r ≠ .rsp → r ∉ l.map Prod.fst → (s.exec (popStores base l)).reg r = s.reg r) ∧
      (s.exec (popStores base l)).sp = s.sp + 8 * vs.length := by
  induction l generalizing s vs with
  | nil =>
    obtain rfl : vs = [] := List.length_eq_zero_iff.mp hlen
    exact ⟨hs, rfl, fun _ _ _ => rfl, rfl⟩
  | cons p l ih =>
    obtain ⟨v, vs, rfl⟩ : ∃ v l, vs = v :: l := List.exists_cons_of_length_pos (by simp [hlen])
    rw [List.map_cons, List.mem_cons, not_or] at hb hr
    have hp := hn p (by simp)
    obtain ⟨hv, hst, hsp⟩ := Stack.pop (show s.Stack (v :: (vs ++ ws)) from hs)
    -- the machine after the first pop and store
    let t := (s.step (.pop p.1)).step (.mov (.mem base (BitVec.ofNat 64 p.2)) (.reg p.1))
    have hreg : ∀ r, r ≠ .rsp → r ≠ p.1 → t.reg r = s.reg r := by
      intro r h1 h2
      exact (step_pop_reg s h2).trans (pop_reg s h1)
    have htsp : t.sp = s.sp + 8 := by
      rw [← hsp]
      exact congrArg BitVec.toNat (step_pop_reg s hr.1)
    have hmem : t.mem = s.mem.write64 ((s.reg base).toNat + p.2) v := by
      have haddr : ((s.step (.pop p.1)).reg base + BitVec.ofNat 64 p.2).toNat =
          (s.reg base).toNat + p.2 := by
        rw [step_pop_reg s hb.1, pop_reg s hbr, toNat_add_ofNat (by omega)]
      show s.mem.write64 _ ((s.step (.pop p.1)).reg p.1) = _
      rw [haddr, step_pop_self, hv]
    have htb : t.reg base = s.reg base := hreg base hbr hb.1
    rw [List.cons_append, List.length_cons] at hap
    have htst : t.Stack (vs ++ ws) := by
      refine ⟨?_, ?_⟩
      · rw [htsp, ← hsp]
        refine hst.holds.congr fun x h1 h2 => ?_
        rw [hmem]
        exact Memory.write64_outside _ _ _ (by omega)
      · rw [htsp, ← hsp]
        exact hst.bound
    obtain ⟨h1, h2, h3, h4⟩ := ih htst (by simpa using hlen) hb.2 hr.2
      (fun q hq => hn q (List.mem_cons_of_mem _ hq)) (by rw [htb]; exact hbound)
      (by rw [htb, htsp]; omega)
    refine ⟨h1, ?_, ?_, ?_⟩
    · rw [htb, hmem] at h2
      exact h2
    · intro r hr1 hr2
      rw [List.map_cons, List.mem_cons, not_or] at hr2
      exact (h3 r hr1 hr2.2).trans (hreg r hr1 hr2.1)
    · rw [List.length_cons]
      exact h4.trans (by omega)

end Cpu

end Nyvela.X86
