import Nyvela.Console

/-!
# What the cells of the console hold

A ghost screen beside the console says which cell stands for which printed byte, in which colour.
It moves with the lines, and forgets a cell that is erased. The functions that print are runs of
four kinds of event, so that the two can be compared after every byte.
-/

namespace Nyvela

/-- One step of printing. -/
inductive ConsoleEvent
  | char (ch color : BitVec 8)
  | newline
  | back (color : BitVec 8)
  | clear

/-- What each cell is meant to show: a byte and its colour. -/
abbrev Screen := ℕ → Option (BitVec 8 × BitVec 8)

namespace Console

/-- A character at the cursor, behind a line break if the line is full. -/
def putChar (c : Console) (ch color : BitVec 8) : Console :=
  let (row, col, c) := wrap c.row c.column c
  (c.vgaWrite col row (cell ch color)).setColumn (col + 1)

def back (c : Console) (color : BitVec 8) : Console :=
  if 0 < c.column.toNat then
    (c.setColumn (c.column - 1)).vgaWrite (c.column - 1) c.row (cell 0x20 color)
  else c

def run (c : Console) : ConsoleEvent → Console
  | .char ch color => c.putChar ch color
  | .newline => c.kprintnl
  | .back color => c.back color
  | .clear => c.kclear

end Console

namespace Screen

def empty : Screen := fun _ => none

/-- The lines move up when the cursor is in the last one. -/
def newline (c : Console) (scr : Screen) : Screen :=
  if vgaHeight ≤ (c.row + 1).toNat then
    fun i => if i < 1920 then scr (i + 80) else if i < 2000 then none else scr i
  else scr

/-- The screen behind an event that finds the console at `c`. -/
def track (c : Console) (scr : Screen) : ConsoleEvent → Screen
  | .char ch color =>
    let w := Console.wrap c.row c.column c
    Function.update (if vgaWidth ≤ c.column.toNat then scr.newline c else scr)
      (w.1.toNat * vgaWidth + w.2.1.toNat) (some (ch, color))
  | .newline => scr.newline c
  | .back _ =>
    if 0 < c.column.toNat then
      Function.update scr (c.row.toNat * vgaWidth + (c.column - 1).toNat) none
    else scr
  | .clear => fun i => if i < 2000 then none else scr i

end Screen

/-- The console with its ghost. -/
structure Tracked where
  console : Console
  screen : Screen

namespace Tracked

def step (t : Tracked) (e : ConsoleEvent) : Tracked where
  console := t.console.run e
  screen := Screen.track t.console t.screen e

/-- Every cell that stands for a byte has the colour above and the byte below. -/
def Holds (t : Tracked) : Prop :=
  ∀ i ch color, t.screen i = some (ch, color) → t.console.vgaMem i = color ++ ch

end Tracked

/-! ## Calls are runs of events -/

/-- A byte of `kwrite`. -/
def ConsoleEvent.ofByte (color ch : BitVec 8) : ConsoleEvent :=
  if ch = 0x0A then .newline else if ch = 0x08 then .back color else .char ch color

def ConsoleOp.events : ConsoleOp → List ConsoleEvent
  | .kwrite none _ => []
  | .kwrite (some buf) color => buf.map (ConsoleEvent.ofByte color)
  | .kprints s color => (s.takeWhile (· ≠ 0)).map (ConsoleEvent.char · color)
  | .kprintln s color => (s.takeWhile (· ≠ 0)).map (ConsoleEvent.char · color) ++ [.newline]
  | .kprintnl => [.newline]
  | .kclear => [.clear]

/-- The bytes that a call prints, with their colour: `kwrite` has line breaks and backspaces, a
string ends at a zero. -/
def ConsoleOp.printed : ConsoleOp → List (BitVec 8 × BitVec 8)
  | .kwrite none _ => []
  | .kwrite (some buf) color => (buf.filter fun ch => ch ≠ 0x0A ∧ ch ≠ 0x08).map (·, color)
  | .kprints s color => (s.takeWhile (· ≠ 0)).map (·, color)
  | .kprintln s color => (s.takeWhile (· ≠ 0)).map (·, color)
  | .kprintnl => []
  | .kclear => []

section Events

variable {c : Console} {ch color : BitVec 8}

theorem Console.put_eq_run (color : BitVec 8) (c : Console) (ch : BitVec 8) :
    c.put color ch = c.run (.ofByte color ch) := by
  simp only [put, kwrite, kwriteLoop, ConsoleEvent.ofByte]
  split_ifs with hnl hbs hpos
  · rfl
  · exact (if_pos hpos).symm
  · exact (if_neg hpos).symm
  · rfl

theorem Console.putChar_of_wrap {row col : BitVec 8} {c' : Console}
    (h : wrap c.row c.column c = (row, col, c')) :
    c.putChar ch color = (c'.vgaWrite col row (cell ch color)).setColumn (col + 1) := by
  rw [putChar, h]

/-- The copy of the column is in the console from the start. -/
theorem Console.kprintsLoop_eq_foldl (color : BitVec 8) (s : List (BitVec 8)) (col : BitVec 8)
    (c : Console) : kprintsLoop color s c.row col c =
      ((s.takeWhile (· ≠ 0)).map (ConsoleEvent.char · color)).foldl run (c.setColumn col) := by
  induction s generalizing col c with
  | nil => rfl
  | cons ch s ih =>
    rw [kprintsLoop]
    by_cases h0 : ch = 0
    · rw [if_pos h0, List.takeWhile_cons_of_neg (by simpa using h0)]
      rfl
    · rw [if_neg h0, List.takeWhile_cons_of_pos (by simpa using h0), List.map_cons,
        List.foldl_cons]
      by_cases hend : vgaWidth ≤ col.toNat
      · have hwrap : ∀ c : Console,
            wrap c.row col c = (c.kprintnl.row, c.kprintnl.column, c.kprintnl) :=
          fun c => if_pos hend
        rw [hwrap, run, putChar_of_wrap (hwrap (c.setColumn col))]
        exact ih (c.kprintnl.column + 1) (c.kprintnl.vgaWrite c.kprintnl.column c.kprintnl.row
          (cell ch color))
      · have hwrap : ∀ c : Console, wrap c.row col c = (c.row, col, c) := fun c => if_neg hend
        rw [hwrap, run, putChar_of_wrap (hwrap (c.setColumn col))]
        exact ih (col + 1) (c.vgaWrite col c.row (cell ch color))

theorem ConsoleOp.call_eq_foldl (op : ConsoleOp) (c : Console) :
    op.call c = op.events.foldl Console.run c := by
  cases op with
  | kwrite buf color =>
    cases buf with
    | none => rfl
    | some buf =>
      rw [events, List.foldl_map]
      simp only [← Console.put_eq_run]
      exact Console.kwrite_eq_foldl color c buf
  | kprints s color => exact Console.kprintsLoop_eq_foldl color s c.column c
  | kprintln s color =>
    rw [events, List.foldl_append]
    exact congrArg Console.kprintnl (Console.kprintsLoop_eq_foldl color s c.column c)
  | kprintnl => rfl
  | kclear => rfl

theorem ConsoleOp.foldl_call (ops : List ConsoleOp) (c : Console) :
    ops.foldl ConsoleOp.call c = (ops.flatMap ConsoleOp.events).foldl Console.run c := by
  induction ops generalizing c with
  | nil => rfl
  | cons op ops ih => rw [List.foldl_cons, ih, op.call_eq_foldl, List.flatMap_cons,
      List.foldl_append]

/-- The characters among the events of a call are the bytes it prints. -/
theorem ConsoleOp.char_mem_events (op : ConsoleOp) :
    .char ch color ∈ op.events ↔ (ch, color) ∈ op.printed := by
  have hstring : ∀ (s : List (BitVec 8)) (color' : BitVec 8),
      ConsoleEvent.char ch color ∈ s.map (ConsoleEvent.char · color') ↔
        (ch, color) ∈ s.map (·, color') := by
    intro s color'
    simp only [List.mem_map, ConsoleEvent.char.injEq, Prod.mk.injEq]
  cases op with
  | kwrite buf color' =>
    cases buf with
    | none => simp [events, printed]
    | some buf =>
      simp only [events, printed, List.mem_map, List.mem_filter, decide_eq_true_eq,
        Prod.mk.injEq, ConsoleEvent.ofByte]
      constructor
      · rintro ⟨b, hb, heq⟩
        split_ifs at heq with hnl hbs
        cases heq
        exact ⟨ch, ⟨hb, hnl, hbs⟩, rfl, rfl⟩
      · rintro ⟨b, ⟨hb, hnl, hbs⟩, rfl, rfl⟩
        exact ⟨b, hb, by rw [if_neg hnl, if_neg hbs]⟩
  | kprints s color' => exact hstring _ _
  | kprintln s color' => simp [events, printed, ← hstring]
  | kprintnl => simp [events, printed]
  | kclear => simp [events, printed]

end Events

/-! ## Video memory -/

namespace Console

theorem vgaFillRow_outside {row : BitVec 8} (data : BitVec 16) {n : ℕ} (c : Console) {i : ℕ}
    (hn : n ≤ 80) (hi : i < row.toNat * 80 ∨ row.toNat * 80 + n ≤ i) :
    (vgaFillRow row data n c).vgaMem i = c.vgaMem i := by
  induction n with
  | zero => rfl
  | succ n ih =>
    have hne : i ≠ row.toNat * vgaWidth + (BitVec.ofNat 8 n).toNat := by
      rw [BitVec.toNat_ofNat, vgaWidth]
      omega
    exact (Function.update_of_ne hne _ _).trans (ih (by omega) (by omega))

theorem clearRows_outside {n : ℕ} (c : Console) {i : ℕ} (hn : n ≤ 25) (hi : n * 80 ≤ i) :
    (clearRows n c).vgaMem i = c.vgaMem i := by
  induction n with
  | zero => rfl
  | succ n ih =>
    have hrow : (BitVec.ofNat 8 n).toNat = n := by
      rw [BitVec.toNat_ofNat]
      omega
    exact (vgaFillRow_outside _ _ (by decide) (by rw [hrow, vgaWidth]; omega)).trans
      (ih (by omega) (by omega))

@[simp] theorem store_vgaMem (c : Console) (i : ℕ) (data : BitVec 16) :
    (c.store i data).vgaMem = Function.update c.vgaMem i data := rfl

@[simp] theorem setRow_vgaMem (c : Console) (row : BitVec 8) : (c.setRow row).vgaMem = c.vgaMem :=
  rfl

@[simp] theorem setColumn_vgaMem (c : Console) (col : BitVec 8) :
    (c.setColumn col).vgaMem = c.vgaMem := rfl

/-- Each line is read before it is overwritten. -/
theorem scroll_vgaMem (n : ℕ) (c : Console) (i : ℕ) :
    (scroll n c).vgaMem i = if i < n then c.vgaMem (i + 80) else c.vgaMem i := by
  induction n generalizing i with
  | zero => rfl
  | succ n ih =>
    rw [scroll, store_vgaMem]
    by_cases hi : i = n
    · subst hi
      rw [Function.update_self, ih, vgaWidth, if_neg (by omega), if_pos (by omega)]
    · rw [Function.update_of_ne hi, ih]
      simp only [show i < n + 1 ↔ i < n by omega]

theorem kprintnl_vgaMem {c : Console} (h : vgaHeight ≤ (c.row + 1).toNat) :
    c.kprintnl.vgaMem = (vgaFillRow (BitVec.ofNat 8 (vgaHeight - 1)) blank vgaWidth
      (scroll ((vgaHeight - 1) * vgaWidth) ((c.setColumn 0).setRow (c.row + 1)))).vgaMem := by
  have hrow : vgaHeight ≤ ((c.setColumn 0).setRow (c.row + 1)).row.toNat := h
  rw [kprintnl, if_pos hrow, setRow_vgaMem]

theorem kclear_outside (c : Console) {i : ℕ} (hi : 2000 ≤ i) :
    c.kclear.vgaMem i = c.vgaMem i := by
  rw [kclear, setColumn_vgaMem, setRow_vgaMem]
  exact clearRows_outside c (by decide) hi

end Console

namespace Tracked

variable {t : Tracked} {e : ConsoleEvent} {ch color : BitVec 8}

/-- A cell that the screen still knows after a line break was moved, or left where it is. -/
theorem newline_moves {c : Console} {scr : Screen} {i : ℕ} {v : BitVec 8 × BitVec 8}
    (h : scr.newline c i = some v) : ∃ j, scr j = some v ∧ c.kprintnl.vgaMem i = c.vgaMem j := by
  unfold Screen.newline at h
  by_cases hlast : vgaHeight ≤ (c.row + 1).toNat
  · rw [if_pos hlast] at h
    have hmem : i < 1920 ∨ 2000 ≤ i → c.kprintnl.vgaMem i =
        if i < 1920 then c.vgaMem (i + 80) else c.vgaMem i := by
      intro hi
      have hrow : (BitVec.ofNat 8 (vgaHeight - 1)).toNat = 24 := rfl
      rw [Console.kprintnl_vgaMem hlast, Console.vgaFillRow_outside _ _ (by decide)
        (by rw [hrow, vgaWidth]; omega), Console.scroll_vgaMem]
      rfl
    split_ifs at h with hi hi'
    · rw [if_pos hi] at hmem
      exact ⟨i + 80, h, hmem (.inl hi)⟩
    · rw [if_neg hi] at hmem
      exact ⟨i, h, hmem (.inr (by omega))⟩
  · rw [if_neg hlast] at h
    have hsame : c.kprintnl = (c.setColumn 0).setRow (c.row + 1) := if_neg hlast
    exact ⟨i, h, by rw [hsame]; rfl⟩

theorem Holds.newline (h : t.Holds) :
    Holds ⟨t.console.kprintnl, t.screen.newline t.console⟩ := by
  intro i ch color hi
  obtain ⟨j, hj, hmem⟩ := newline_moves hi
  exact hmem.trans (h j ch color hj)

theorem Holds.store (h : t.Holds) (i : ℕ) (data : BitVec 16) (v : Option (BitVec 8 × BitVec 8))
    (hv : ∀ ch color, v = some (ch, color) → data = color ++ ch) :
    Holds ⟨t.console.store i data, Function.update t.screen i v⟩ := by
  intro j ch color hj
  simp only [Console.store_vgaMem, Function.update_apply] at hj ⊢
  split_ifs at hj ⊢
  · exact hv ch color hj
  · exact h j ch color hj

/-- The line break before a character. -/
theorem Holds.wrap (h : t.Holds) :
    Holds ⟨(Console.wrap t.console.row t.console.column t.console).2.2,
      if vgaWidth ≤ t.console.column.toNat then t.screen.newline t.console else t.screen⟩ := by
  unfold Console.wrap
  split_ifs
  · exact h.newline
  · exact h

/-- The cell of a character has its byte and its colour. -/
def Faithful : ConsoleEvent → Prop
  | .char ch color => Console.cell ch color = color ++ ch
  | _ => True

theorem Holds.step (h : t.Holds) (he : Faithful e) : (t.step e).Holds := by
  cases e with
  | char ch color =>
    exact h.wrap.store _ (Console.cell ch color) (some (ch, color)) fun ch' color' heq => by
      cases heq
      exact he
  | newline => exact h.newline
  | back color =>
    by_cases hpos : 0 < t.console.column.toNat
    · have hstep : t.step (.back color) =
          ⟨(t.console.setColumn (t.console.column - 1)).vgaWrite (t.console.column - 1)
            t.console.row (Console.cell 0x20 color), Function.update t.screen
            (t.console.row.toNat * vgaWidth + (t.console.column - 1).toNat) none⟩ := by
        simp only [Tracked.step, Console.run, Console.back, Screen.track, if_pos hpos]
      rw [hstep]
      exact h.store _ (Console.cell 0x20 color) none fun _ _ heq => nomatch heq
    · have hstep : t.step (.back color) = t := by
        simp only [Tracked.step, Console.run, Console.back, Screen.track, if_neg hpos]
      rw [hstep]
      exact h
  | clear =>
    intro i ch color hi
    replace hi : (if i < 2000 then none else t.screen i) = some (ch, color) := hi
    split_ifs at hi with hin
    exact (t.console.kclear_outside (Nat.le_of_not_lt hin)).trans (h i ch color hi)

/-- The cell is on the screen as soon as it is written. -/
theorem faithful_of_step (h : (t.step e).Holds) : Faithful e := by
  cases e with
  | char ch color =>
    have hcell := h _ ch color (Function.update_self _ _ _)
    simp only [step, Console.run, Console.putChar, Console.vgaWrite, Console.setColumn_vgaMem,
      Console.store_vgaMem, Function.update_self] at hcell
    exact hcell
  | newline => trivial
  | back color => trivial
  | clear => trivial

end Tracked

/-! ## Signed characters -/

theorem Console.cell_eq (ch color : BitVec 8) :
    cell ch color = (if ch.toNat < 0x80 then color else 0xFF) ++ ch := by
  have hmsb : ch.msb = decide (0x80 ≤ ch.toNat) := BitVec.msb_eq_decide ch
  apply BitVec.eq_of_getLsbD_eq
  intro i hi
  rw [cell, BitVec.getLsbD_or, BitVec.getLsbD_signExtend, BitVec.getLsbD_append,
    BitVec.getLsbD_shiftLeft, hmsb]
  by_cases hlow : i < 8
  · simp [hlow, hi]
  · by_cases hch : ch.toNat < 0x80
    · have hin : i - 8 < 16 := by omega
      simp [hlow, hi, hch, hin, Nat.not_le_of_lt hch]
    · have hones : (0xFF#8).getLsbD (i - 8) = true := by
        rw [show 0xFF#8 = BitVec.allOnes 8 from rfl, BitVec.getLsbD_allOnes]
        exact decide_eq_true (by omega)
      simp [hlow, hi, hch, hones, Nat.le_of_not_lt hch]

theorem Console.cell_eq_append_iff (ch color : BitVec 8) :
    cell ch color = color ++ ch ↔ ch.toNat < 0x80 ∨ color = 0xFF := by
  rw [cell_eq, BitVec.append_left_inj]
  by_cases hch : ch.toNat < 0x80
  · simp only [hch, if_true, true_or]
  · simp only [hch, if_false, false_or, eq_comm]

theorem ConsoleOp.faithful_iff (op : ConsoleOp) :
    (∀ e ∈ op.events, Tracked.Faithful e) ↔
      ∀ p ∈ op.printed, p.1.toNat < 0x80 ∨ p.2 = 0xFF := by
  constructor
  · rintro h ⟨ch, color⟩ hp
    exact (Console.cell_eq_append_iff ch color).mp (h _ (op.char_mem_events.mpr hp))
  · intro h e he
    cases e with
    | char ch color =>
      exact (Console.cell_eq_append_iff ch color).mpr (h _ (op.char_mem_events.mp he))
    | newline => trivial
    | back color => trivial
    | clear => trivial

/-- The console and its ghost after some events, with nothing printed before. -/
def Console.tracked (c : Console) (es : List ConsoleEvent) : Tracked :=
  es.foldl Tracked.step ⟨c, Screen.empty⟩

theorem Console.tracked_console (c : Console) (es : List ConsoleEvent) :
    (c.tracked es).console = es.foldl run c := by
  have hfold : ∀ t : Tracked, (es.foldl Tracked.step t).console = es.foldl run t.console := by
    induction es with
    | nil => exact fun _ => rfl
    | cons e es ih => exact fun t => ih (t.step e)
  exact hfold _

/-- For all calls, from any state of the console: after every byte of the run each cell that stands
for a printed byte has that byte and its colour exactly when every printed byte is below `0x80` or
has the colour `0xFF`, which the sign of the byte cannot spoil. -/
theorem console_cells_iff (c : Console) (ops : List ConsoleOp) :
    ops.foldl ConsoleOp.call c = (c.tracked (ops.flatMap ConsoleOp.events)).console ∧
      ((∀ es, es <+: ops.flatMap ConsoleOp.events → ∀ i ch color,
          (c.tracked es).screen i = some (ch, color) →
            (c.tracked es).console.vgaMem i = color ++ ch) ↔
        ∀ op ∈ ops, ∀ p ∈ op.printed, p.1.toNat < 0x80 ∨ p.2 = 0xFF) := by
  refine ⟨(ConsoleOp.foldl_call ops c).trans (c.tracked_console _).symm, ?_⟩
  have hempty : Tracked.Holds ⟨c, Screen.empty⟩ := fun _ _ _ h => nomatch h
  have hmoments : (∀ es, es <+: ops.flatMap ConsoleOp.events → (c.tracked es).Holds) ↔
      ∀ e ∈ ops.flatMap ConsoleOp.events, Tracked.Faithful e :=
    System.foldl_moments_iff (fun (_ : Tracked) _ h he => h.step he)
      (fun (_ : Tracked) _ h => Tracked.faithful_of_step h) hempty
  refine hmoments.trans ?_
  simp only [List.mem_flatMap, ← ConsoleOp.faithful_iff]
  constructor
  · exact fun h op hop e he => h e ⟨op, hop, he⟩
  · rintro h e ⟨op, hop, he⟩
    exact h op hop e he

/-- A byte above the ASCII range, on a screen with nothing on it. -/
theorem console_cell_loses_colour :
    ∃ c : Console, c.InBounds ∧
      (c.tracked (ConsoleOp.kwrite (some [0x80]) 0x07).events).screen 0 = some (0x80, 0x07) ∧
      (c.kwrite (some [0x80]) 0x07).vgaMem 0 = 0xFF80 ∧
      (c.tracked (ConsoleOp.kprints [0x80] 0x07).events).screen 0 = some (0x80, 0x07) ∧
      (c.kprints [0x80] 0x07).vgaMem 0 = 0xFF80 :=
  ⟨⟨fun _ => 0, [], 0, 0⟩, ⟨by decide, by decide, by simp⟩, rfl, rfl, rfl, rfl⟩

end Nyvela
