import Mathlib.Tactic.SplitIfs
import Nyvela.Lib.Ring

/-!
# The keyboard buffer (`src/drivers/kbd/kbd.c`)

A circular buffer of 256 cells, of which one is always free: with equal indices it is empty.
The interrupt handler pushes characters and `sys_read` takes them out.
-/

namespace Nyvela

def kbdBufSize : ℕ := 256

structure Kbd where
  buf : ℕ → BitVec 8
  head : ℕ
  tail : ℕ
  head_lt : head < kbdBufSize
  tail_lt : tail < kbdBufSize

namespace Kbd

/-- The index behind `i`. -/
def next (i : ℕ) : ℕ := (i + 1) % kbdBufSize

theorem kbdBufSize_pos : 0 < kbdBufSize := by decide

theorem next_lt (i : ℕ) : next i < kbdBufSize := Nat.mod_lt _ kbdBufSize_pos

def empty : Kbd := ⟨fun _ => 0, 0, 0, by decide, by decide⟩

def kbdPush (k : Kbd) (c : BitVec 8) : Kbd :=
  if next k.head = k.tail then k
  else { k with buf := Function.update k.buf k.head c, head := next k.head, head_lt := next_lt _ }

def kbdGetc (k : Kbd) : Option (BitVec 8) × Kbd :=
  if k.head = k.tail then (none, k)
  else (some (k.buf k.tail), { k with tail := next k.tail, tail_lt := next_lt _ })

/-- The number of characters that were pushed and not taken. -/
def count (k : Kbd) : ℕ := (k.head + kbdBufSize - k.tail) % kbdBufSize

/-- These characters, the oldest first. -/
def unread (k : Kbd) : List (BitVec 8) := Ring.window k.buf kbdBufSize k.tail k.count

variable (k : Kbd)

theorem unread_length : k.unread.length = k.count := Ring.window_length ..

theorem count_lt : k.count < kbdBufSize := Nat.mod_lt _ (by decide)

theorem head_eq : k.head = (k.tail + k.count) % kbdBufSize := by
  have := k.head_lt
  have := k.tail_lt
  unfold count kbdBufSize at *
  omega

theorem count_eq_zero : k.count = 0 ↔ k.head = k.tail := by
  have := k.head_lt
  have := k.tail_lt
  unfold count kbdBufSize at *
  omega

/-- The buffer is full with 255 characters. -/
theorem next_head_eq_tail : next k.head = k.tail ↔ k.count = kbdBufSize - 1 := by
  have := k.head_lt
  have := k.tail_lt
  unfold next count kbdBufSize at *
  omega

/-- A character that is taken moves `head`. -/
theorem kbdPush_eq_self_iff (c : BitVec 8) : k.kbdPush c = k ↔ next k.head = k.tail := by
  unfold kbdPush
  by_cases h : next k.head = k.tail
  · simp only [h, if_true]
  · rw [if_neg h]
    refine iff_of_false (fun heq => ?_) h
    have hhead : next k.head = k.head := congrArg Kbd.head heq
    have := k.head_lt
    unfold next kbdBufSize at *
    omega

theorem unread_kbdPush (c : BitVec 8) :
    (k.kbdPush c).unread = if k.unread.length < kbdBufSize - 1 then k.unread ++ [c] else k.unread := by
  have hlt := k.count_lt
  have hfull := k.next_head_eq_tail
  rw [unread_length]
  unfold kbdPush
  by_cases h : next k.head = k.tail
  · rw [if_pos h, if_neg (by omega)]
  · have hcount : count ⟨Function.update k.buf k.head c, next k.head, k.tail, next_lt _, k.tail_lt⟩ =
        k.count + 1 := by
      have := k.head_lt
      have := k.tail_lt
      simp only [count, next, kbdBufSize] at *
      omega
    rw [if_neg h, if_pos (by omega), unread, hcount, unread]
    dsimp only
    rw [head_eq]
    exact Ring.window_push _ _ hlt

theorem unread_kbdGetc :
    k.kbdGetc.1 = k.unread.head? ∧ k.kbdGetc.2.unread = k.unread.tail := by
  have hzero := k.count_eq_zero
  unfold kbdGetc
  by_cases h : k.head = k.tail
  · have hnil : k.unread = [] := by rw [unread, hzero.mpr h, Ring.window_zero]
    rw [if_pos h, hnil]
    exact ⟨rfl, rfl⟩
  · obtain ⟨n, hn⟩ : ∃ n, k.count = n + 1 := ⟨k.count - 1, by omega⟩
    have hcount : count { k with tail := next k.tail, tail_lt := next_lt _ } = n := by
      have := k.head_lt
      have := k.tail_lt
      simp only [count, next, kbdBufSize] at *
      omega
    rw [if_neg h, unread, hn, Ring.window_pop, List.head?_cons, List.tail_cons, unread, hcount,
      Nat.mod_eq_of_lt k.tail_lt]
    exact ⟨rfl, rfl⟩

/-! ## The loop of `sys_read` -/

/-- Up to `n` characters, as many as there are. -/
def getcs : ℕ → Kbd → List (BitVec 8) × Kbd
  | 0, k => ([], k)
  | n + 1, k =>
    match k.kbdGetc with
    | (none, k) => ([], k)
    | (some c, k) => (c :: (getcs n k).1, (getcs n k).2)

/-- While it waits, the interrupt handler pushes characters: those of one list with each
`hlt`. The result is `none` if it still waits after the last one, and has the number of waits
with it. -/
def readLoop (len : ℕ) : List (List (BitVec 8)) → Kbd → Option (List (BitVec 8) × ℕ × Kbd)
  | [], k => if (getcs len k).1 = [] then none else some ((getcs len k).1, 0, (getcs len k).2)
  | keys :: rest, k =>
    if (getcs len k).1 = [] then
      (readLoop len rest (keys.foldl kbdPush (getcs len k).2)).map fun r => (r.1, r.2.1 + 1, r.2.2)
    else some ((getcs len k).1, 0, (getcs len k).2)

end Kbd

/-! ## Runs -/

inductive KbdOp
  | push (c : BitVec 8)
  | getc

/-- A buffer with the characters that it has accepted and those that it has returned so far. -/
structure KbdRun where
  kbd : Kbd
  accepted : List (BitVec 8)
  returned : List (BitVec 8)

namespace KbdRun

def unreadCount (r : KbdRun) : ℕ := r.accepted.length - r.returned.length

/-- A character counts as accepted if fewer than 255 are unread when it comes. -/
def call (r : KbdRun) : KbdOp → KbdRun
  | .push c =>
    { r with
      kbd := r.kbd.kbdPush c
      accepted := if r.unreadCount < kbdBufSize - 1 then r.accepted ++ [c] else r.accepted }
  | .getc => { r with kbd := r.kbd.kbdGetc.2, returned := r.returned ++ r.kbd.kbdGetc.1.toList }

/-- From a buffer that was just reset. -/
def start (buf : ℕ → BitVec 8) : KbdRun := ⟨⟨buf, 0, 0, by decide, by decide⟩, [], []⟩

def run (buf : ℕ → BitVec 8) (ops : List KbdOp) : KbdRun := ops.foldl call (start buf)

/-- What was accepted is what was returned, and then what is unread. -/
def Fifo (r : KbdRun) : Prop := r.accepted = r.returned ++ r.kbd.unread

variable {r : KbdRun}

theorem Fifo.unreadCount (h : r.Fifo) : r.unreadCount = r.kbd.unread.length := by
  rw [KbdRun.unreadCount, h, List.length_append, Nat.add_sub_cancel_left]

theorem Fifo.call (h : r.Fifo) (op : KbdOp) : (r.call op).Fifo := by
  cases op with
  | push c =>
    have hcount := h.unreadCount
    unfold Fifo KbdRun.call
    dsimp only
    rw [Kbd.unread_kbdPush, hcount]
    by_cases hlt : r.kbd.unread.length < kbdBufSize - 1
    · rw [if_pos hlt, if_pos hlt, h, List.append_assoc]
    · rw [if_neg hlt, if_neg hlt, h]
  | getc =>
    obtain ⟨hhead, htail⟩ := r.kbd.unread_kbdGetc
    unfold Fifo KbdRun.call
    dsimp only
    rw [hhead, htail, h, List.append_assoc]
    cases r.kbd.unread <;> rfl

theorem Fifo.foldl (h : r.Fifo) (ops : List KbdOp) : (ops.foldl KbdRun.call r).Fifo := by
  induction ops generalizing r with
  | nil => exact h
  | cons op ops ih => exact ih (h.call op)

theorem fifo_run (buf : ℕ → BitVec 8) (ops : List KbdOp) : (run buf ops).Fifo := by
  have hstart : (start buf).Fifo := by
    have hnil : (start buf).kbd.unread = [] := by
      rw [Kbd.unread, (Kbd.count_eq_zero _).mpr rfl, Ring.window_zero]
    rw [Fifo, hnil]
    rfl
  exact hstart.foldl ops

/-- After every interleaving of calls: the returned characters are the accepted ones, in order and
each once; a character is dropped exactly if 255 are unread, and the buffer is then left as it is;
`kbd_getc` finds nothing exactly if nothing is unread. -/
theorem kbd_is_bounded_fifo (buf : ℕ → BitVec 8) (ops : List KbdOp) :
    let r := run buf ops
    r.returned <+: r.accepted ∧ r.unreadCount ≤ kbdBufSize - 1 ∧
      r.accepted = r.returned ++ r.kbd.unread ∧
      (∀ c, r.kbd.kbdPush c = r.kbd ↔ r.unreadCount = kbdBufSize - 1) ∧
      (∀ c, (r.kbd.kbdGetc.1 = some c ↔ r.accepted[r.returned.length]? = some c)) ∧
      (r.kbd.kbdGetc.1 = none ↔ r.unreadCount = 0) := by
  intro r
  have hfifo : r.Fifo := fifo_run buf ops
  have hcount := hfifo.unreadCount
  have hlt := r.kbd.count_lt
  obtain ⟨hhead, -⟩ := r.kbd.unread_kbdGetc
  rw [hcount, r.kbd.unread_length]
  refine ⟨⟨_, hfifo.symm⟩, Nat.le_sub_one_of_lt hlt, hfifo, fun c => ?_, fun c => ?_, ?_⟩
  · rw [← r.kbd.next_head_eq_tail, r.kbd.kbdPush_eq_self_iff]
  · rw [hhead, hfifo, List.getElem?_append_right (Nat.le_refl _), Nat.sub_self,
      List.head?_eq_getElem?]
  · rw [hhead, List.head?_eq_none_iff, ← List.length_eq_zero_iff, r.kbd.unread_length]

end KbdRun

end Nyvela
