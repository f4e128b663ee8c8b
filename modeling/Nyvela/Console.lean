import Nyvela.Ramfs
import Nyvela.UserMemory

/-!
# The text console (`src/drivers/video/console/console.c`, `src/drivers/video/vga/vga.c`)

The cursor is two bytes of low memory, `ROW` and `COLUMN`. The functions that print work
on copies of them, which they read again after every call of `kprintnl`. Column 80 is a
rest position: the line is broken when the next character comes.
-/

namespace Nyvela

def vgaWidth : ℕ := 80
def vgaHeight : ℕ := 25

/-- Video memory, the cells written so far (the last one first), and the cursor. -/
structure Console where
  vgaMem : ℕ → BitVec 16
  writes : List ℕ
  row : BitVec 8
  column : BitVec 8

namespace Console

/-- `VGA_MEM[i] = data`. -/
def store (c : Console) (i : ℕ) (data : BitVec 16) : Console :=
  { c with vgaMem := Function.update c.vgaMem i data, writes := i :: c.writes }

def setRow (c : Console) (row : BitVec 8) : Console := { c with row := row }

def setColumn (c : Console) (col : BitVec 8) : Console := { c with column := col }

/-- A `char` is signed. -/
def cell (ch color : BitVec 8) : BitVec 16 := ch.signExtend 16 ||| color.zeroExtend 16 <<< 8

def vgaWrite (c : Console) (col row : BitVec 8) (data : BitVec 16) : Console :=
  c.store (row.toNat * vgaWidth + col.toNat) data

/-- `vga_fill_row`, up to column `n`. -/
def vgaFillRow (row : BitVec 8) (data : BitVec 16) : ℕ → Console → Console
  | 0, c => c
  | n + 1, c => (vgaFillRow row data n c).vgaWrite (BitVec.ofNat 8 n) row data

/-- The loop of `kprintnl` that moves the lines up, up to cell `n`. -/
def scroll : ℕ → Console → Console
  | 0, c => c
  | n + 1, c => (scroll n c).store n ((scroll n c).vgaMem (n + vgaWidth))

def blank : BitVec 16 := cell 0x20 0x07

def kprintnl (c : Console) : Console :=
  let c := (c.setColumn 0).setRow (c.row + 1)
  if vgaHeight ≤ c.row.toNat then
    (vgaFillRow (BitVec.ofNat 8 (vgaHeight - 1)) blank vgaWidth
      (scroll ((vgaHeight - 1) * vgaWidth) c)).setRow (BitVec.ofNat 8 (vgaHeight - 1))
  else c

/-- Before a character is written: the copies of row and column, and the console. -/
def wrap (row col : BitVec 8) (c : Console) : BitVec 8 × BitVec 8 × Console :=
  if vgaWidth ≤ col.toNat then (c.kprintnl.row, c.kprintnl.column, c.kprintnl) else (row, col, c)

/-- The loop of `kprints`, which stores the column only when it ends. -/
def kprintsLoop (color : BitVec 8) : List (BitVec 8) → BitVec 8 → BitVec 8 → Console → Console
  | [], _, col, c => c.setColumn col
  | ch :: s, row, col, c =>
    if ch = 0 then c.setColumn col
    else
      let (row, col, c) := wrap row col c
      kprintsLoop color s row (col + 1) (c.vgaWrite col row (cell ch color))

/-- `s` is the string before its final zero. -/
def kprints (c : Console) (s : List (BitVec 8)) (color : BitVec 8) : Console :=
  kprintsLoop color s c.row c.column c

def kprintln (c : Console) (s : List (BitVec 8)) (color : BitVec 8) : Console :=
  (c.kprints s color).kprintnl

/-- The loop of `kwrite`; `0x0A` is a line break and `0x08` a backspace. -/
def kwriteLoop (color : BitVec 8) : List (BitVec 8) → BitVec 8 → BitVec 8 → Console → Console
  | [], _, _, c => c
  | ch :: buf, row, col, c =>
    if ch = 0x0A then kwriteLoop color buf c.kprintnl.row c.kprintnl.column c.kprintnl
    else if ch = 0x08 then
      if 0 < col.toNat then
        kwriteLoop color buf row (col - 1)
          ((c.setColumn (col - 1)).vgaWrite (col - 1) row (cell 0x20 color))
      else kwriteLoop color buf row col c
    else
      let (row, col, c) := wrap row col c
      kwriteLoop color buf row (col + 1)
        ((c.vgaWrite col row (cell ch color)).setColumn (col + 1))

/-- `none` for `NULL`. -/
def kwrite (c : Console) (buf : Option (List (BitVec 8))) (color : BitVec 8) : Console :=
  match buf with
  | none => c
  | some buf => kwriteLoop color buf c.row c.column c

/-- The loop of `kclear`, up to row `n`. -/
def clearRows : ℕ → Console → Console
  | 0, c => c
  | n + 1, c => vgaFillRow (BitVec.ofNat 8 n) blank vgaWidth (clearRows n c)

def kclear (c : Console) : Console := ((clearRows vgaHeight c).setRow 0).setColumn 0

/-! ## Bounds -/

structure InBounds (c : Console) : Prop where
  row : c.row.toNat < 25
  column : c.column.toNat ≤ 80
  writes : ∀ i ∈ c.writes, i < 2000

/-- The functions that write cells leave the cursor alone. -/
structure Draws (c c' : Console) : Prop where
  row : c'.row = c.row
  column : c'.column = c.column
  writes : ∀ i ∈ c'.writes, i ∈ c.writes ∨ i < 2000

section

variable {c c' c'' : Console} {row col : BitVec 8}

theorem Draws.refl (c : Console) : c.Draws c := ⟨rfl, rfl, fun _ hi => .inl hi⟩

theorem Draws.trans (h : c.Draws c') (h' : c'.Draws c'') : c.Draws c'' := by
  refine ⟨h'.row.trans h.row, h'.column.trans h.column, fun i hi => ?_⟩
  rcases h'.writes i hi with hi | hi
  · exact h.writes i hi
  · exact .inr hi

theorem draws_store (c : Console) {i : ℕ} (data : BitVec 16) (hi : i < 2000) :
    c.Draws (c.store i data) := by
  refine ⟨rfl, rfl, fun j hj => ?_⟩
  rcases List.mem_cons.mp hj with rfl | hj
  · exact .inr hi
  · exact .inl hj

theorem draws_vgaWrite (c : Console) (data : BitVec 16) (hrow : row.toNat < 25)
    (hcol : col.toNat < 80) : c.Draws (c.vgaWrite col row data) := by
  apply draws_store
  unfold vgaWidth
  omega

theorem draws_vgaFillRow (data : BitVec 16) {n : ℕ} (c : Console) (hrow : row.toNat < 25)
    (hn : n ≤ 80) : c.Draws (vgaFillRow row data n c) := by
  induction n with
  | zero => exact .refl c
  | succ n ih =>
    refine (ih (by omega)).trans (draws_vgaWrite _ _ hrow ?_)
    rw [BitVec.toNat_ofNat]
    omega

theorem draws_scroll {n : ℕ} (c : Console) (hn : n ≤ 1920) : c.Draws (scroll n c) := by
  induction n with
  | zero => exact .refl c
  | succ n ih => exact (ih (by omega)).trans (draws_store _ _ (by omega))

theorem draws_clearRows {n : ℕ} (c : Console) (hn : n ≤ 25) : c.Draws (clearRows n c) := by
  induction n with
  | zero => exact .refl c
  | succ n ih =>
    refine (ih (by omega)).trans (draws_vgaFillRow _ _ ?_ (by decide))
    rw [BitVec.toNat_ofNat]
    omega

theorem InBounds.draws (h : c.InBounds) (hd : c.Draws c') : c'.InBounds := by
  refine ⟨by rw [hd.row]; exact h.row, by rw [hd.column]; exact h.column, fun i hi => ?_⟩
  rcases hd.writes i hi with hi | hi
  · exact h.writes i hi
  · exact hi

theorem InBounds.setColumn (h : c.InBounds) (hcol : col.toNat ≤ 80) : (c.setColumn col).InBounds :=
  ⟨h.row, hcol, h.writes⟩

/-- The move up of the lines, with the last one cleared. -/
theorem draws_scrollUp (c : Console) :
    c.Draws (vgaFillRow (BitVec.ofNat 8 (vgaHeight - 1)) blank vgaWidth
      (scroll ((vgaHeight - 1) * vgaWidth) c)) :=
  (draws_scroll c (by decide)).trans (draws_vgaFillRow blank _ (by decide) (by decide))

/-- What `kprintnl` does: a new line below, or a scroll that keeps the cursor in the last one. -/
theorem kprintnl_cases (c : Console) :
    ((c.row + 1).toNat < 25 ∧ c.kprintnl = (c.setColumn 0).setRow (c.row + 1)) ∨
      ∃ d, ((c.setColumn 0).setRow (c.row + 1)).Draws d ∧ c.kprintnl = d.setRow 24 := by
  by_cases hlast : vgaHeight ≤ (c.row + 1).toNat
  · exact .inr ⟨_, draws_scrollUp _, if_pos hlast⟩
  · exact .inl ⟨Nat.lt_of_not_le hlast, if_neg hlast⟩

theorem kprintnl_column (c : Console) : c.kprintnl.column = 0 := by
  rcases c.kprintnl_cases with ⟨-, heq⟩ | ⟨d, hd, heq⟩
  · rw [heq]
    rfl
  · rw [heq]
    exact hd.column

theorem toNat_add_one (h : col.toNat < 80) : (col + 1).toNat = col.toNat + 1 := by
  have hone : (1 : BitVec 8).toNat = 1 := rfl
  rw [BitVec.toNat_add, hone]
  omega

theorem InBounds.kprintnl (h : c.InBounds) : c.kprintnl.InBounds := by
  rcases c.kprintnl_cases with ⟨hrow, heq⟩ | ⟨d, hd, heq⟩
  · rw [heq]
    exact ⟨hrow, show (0 : BitVec 8).toNat ≤ 80 by decide, h.writes⟩
  · have hcol : d.column = 0 := hd.column
    rw [heq]
    refine ⟨show (24 : BitVec 8).toNat < 25 by decide, ?_, fun i hi =>
      (hd.writes i hi).elim (h.writes i) id⟩
    exact (congrArg BitVec.toNat hcol).trans_le (by decide)

/-- A character is written inside the line. -/
theorem InBounds.wrap {row' col' : BitVec 8} (h : c.InBounds) (hrow : row.toNat < 25)
    (hcol : col.toNat ≤ 80) (heq : Console.wrap row col c = (row', col', c')) :
    row'.toNat < 25 ∧ col'.toNat < 80 ∧ c'.InBounds := by
  unfold Console.wrap at heq
  split_ifs at heq with hend <;> cases heq
  · refine ⟨h.kprintnl.row, ?_, h.kprintnl⟩
    rw [kprintnl_column]
    decide
  · exact ⟨hrow, by unfold vgaWidth at hend; omega, h⟩

theorem InBounds.kprintsLoop (color : BitVec 8) {s : List (BitVec 8)} (h : c.InBounds)
    (hrow : row.toNat < 25) (hcol : col.toNat ≤ 80) :
    (kprintsLoop color s row col c).InBounds := by
  induction s generalizing row col c with
  | nil => exact h.setColumn hcol
  | cons ch s ih =>
    rw [Console.kprintsLoop]
    split_ifs with h0
    · exact h.setColumn hcol
    obtain ⟨⟨row', col', c'⟩, heq⟩ : ∃ w, Console.wrap row col c = w := ⟨_, rfl⟩
    obtain ⟨hrow', hcol', hw⟩ := h.wrap hrow hcol heq
    rw [heq]
    exact ih (hw.draws (draws_vgaWrite _ _ hrow' hcol')) hrow' (by rw [toNat_add_one hcol']; omega)

theorem InBounds.kwriteLoop (color : BitVec 8) {buf : List (BitVec 8)} (h : c.InBounds)
    (hrow : row.toNat < 25) (hcol : col.toNat ≤ 80) :
    (kwriteLoop color buf row col c).InBounds := by
  induction buf generalizing row col c with
  | nil => exact h
  | cons ch buf ih =>
    rw [Console.kwriteLoop]
    split_ifs with hnl hbs hpos
    · exact ih h.kprintnl h.kprintnl.row h.kprintnl.column
    · have hone : (1 : BitVec 8).toNat = 1 := rfl
      have hpred : (col - 1).toNat = col.toNat - 1 := by
        rw [BitVec.toNat_sub, hone]
        omega
      have hback : (c.setColumn (col - 1)).InBounds := h.setColumn (by omega)
      exact ih (hback.draws (draws_vgaWrite _ _ hrow (by omega))) hrow (by omega)
    · exact ih h hrow hcol
    · obtain ⟨⟨row', col', c'⟩, heq⟩ : ∃ w, Console.wrap row col c = w := ⟨_, rfl⟩
      obtain ⟨hrow', hcol', hw⟩ := h.wrap hrow hcol heq
      have hnext : (col' + 1).toNat ≤ 80 := by
        rw [toNat_add_one hcol']
        omega
      rw [heq]
      exact ih ((hw.draws (draws_vgaWrite _ _ hrow' hcol')).setColumn hnext) hrow' hnext

theorem InBounds.kclear (h : c.InBounds) : c.kclear.InBounds := by
  have hd := draws_clearRows c (show vgaHeight ≤ 25 by decide)
  unfold Console.kclear
  generalize clearRows vgaHeight c = d at hd ⊢
  exact ⟨show (0 : BitVec 8).toNat < 25 by decide, show (0 : BitVec 8).toNat ≤ 80 by decide,
    (h.draws hd).writes⟩

end

end Console

/-! ## Runs -/

inductive ConsoleOp
  | kwrite (buf : Option (List (BitVec 8))) (color : BitVec 8)
  | kprints (s : List (BitVec 8)) (color : BitVec 8)
  | kprintln (s : List (BitVec 8)) (color : BitVec 8)
  | kprintnl
  | kclear

def ConsoleOp.call (c : Console) : ConsoleOp → Console
  | .kwrite buf color => c.kwrite buf color
  | .kprints s color => c.kprints s color
  | .kprintln s color => c.kprintln s color
  | .kprintnl => c.kprintnl
  | .kclear => c.kclear

/-- From a cursor on the screen, with nothing written yet. -/
def consoleSystem : System Console ConsoleOp where
  init c := c.row.toNat < 25 ∧ c.column.toNat ≤ 80 ∧ c.writes = []
  step c op c' := c' = op.call c

theorem Console.InBounds.call {c : Console} (h : c.InBounds) (op : ConsoleOp) :
    (op.call c).InBounds := by
  cases op with
  | kwrite buf color =>
    cases buf with
    | none => exact h
    | some buf => exact h.kwriteLoop color h.row h.column
  | kprints s color => exact h.kprintsLoop color h.row h.column
  | kprintln s color => exact (h.kprintsLoop color h.row h.column).kprintnl
  | kprintnl => exact h.kprintnl
  | kclear => exact h.kclear

/-- After any calls the cursor is on the screen, and every cell written was too. -/
theorem console_stays_in_bounds (c : Console) (h : consoleSystem.Reachable c) :
    c.row.toNat < 25 ∧ c.column.toNat ≤ 80 ∧ ∀ i ∈ c.writes, i < 2000 := by
  have hin : c.InBounds := by
    refine System.Reachable.invariant ?_ ?_ h
    · rintro s ⟨hrow, hcol, hnone⟩
      exact ⟨hrow, hcol, by simp [hnone]⟩
    · rintro s op s' hs rfl
      exact hs.call op
  exact ⟨hin.row, hin.column, hin.writes⟩

/-- A line break in the last line, at the rest position. -/
theorem console_stays_in_bounds_scroll :
    ∃ c : Console, consoleSystem.Reachable c ∧ c.writes ≠ [] ∧ c.row = 24 ∧ c.column = 1 ∧
      ∀ i ∈ c.writes, i < 2000 := by
  obtain ⟨c, hc⟩ : ∃ c : Console, c = ⟨fun _ => 0, [], 24, 80⟩ := ⟨_, rfl⟩
  have hinit : consoleSystem.Reachable c := .init (by rw [hc]; exact ⟨by decide, by decide, rfl⟩)
  have hstep : consoleSystem.Reachable (ConsoleOp.call c (.kwrite (some [0x41]) 0x0F)) :=
    hinit.step rfl
  have hcall : ConsoleOp.call c (.kwrite (some [0x41]) 0x0F) =
      (c.kprintnl.vgaWrite c.kprintnl.column c.kprintnl.row (Console.cell 0x41 0x0F)).setColumn
        (c.kprintnl.column + 1) := by
    have hwrap : Console.wrap c.row c.column c =
        (c.kprintnl.row, c.kprintnl.column, c.kprintnl) := if_pos (by rw [hc]; decide)
    simp only [ConsoleOp.call, Console.kwrite, Console.kwriteLoop, hwrap]
    rfl
  have hrow : c.kprintnl.row = 24 := by
    rcases c.kprintnl_cases with ⟨hlt, -⟩ | ⟨d, -, heq⟩
    · rw [hc] at hlt
      exact absurd hlt (by decide)
    · rw [heq]
      rfl
  refine ⟨_, hstep, ?_, ?_, ?_, (console_stays_in_bounds _ hstep).2.2⟩ <;> rw [hcall]
  · exact List.cons_ne_nil _ _
  · exact hrow
  · exact (congrArg (· + 1) c.kprintnl_column).trans (by decide)

/-! ## Chunks -/

namespace Console

/-- `kwrite` of one byte. -/
def put (color : BitVec 8) (c : Console) (ch : BitVec 8) : Console := c.kwrite (some [ch]) color

/-- The copies of the cursor are the cursor again after each byte. -/
theorem kwriteLoop_cons (color : BitVec 8) (c : Console) (ch : BitVec 8) (buf : List (BitVec 8)) :
    kwriteLoop color (ch :: buf) c.row c.column c =
      kwriteLoop color buf (c.put color ch).row (c.put color ch).column (c.put color ch) := by
  simp only [put, kwrite, kwriteLoop]
  split_ifs with hnl hbs hpos
  · rfl
  · rfl
  · rfl
  · unfold wrap
    split_ifs with hend
    · rfl
    · rfl

theorem kwrite_eq_foldl (color : BitVec 8) (c : Console) (buf : List (BitVec 8)) :
    c.kwrite (some buf) color = buf.foldl (put color) c := by
  induction buf generalizing c with
  | nil => rfl
  | cons ch buf ih =>
    rw [List.foldl_cons, ← ih]
    exact kwriteLoop_cons color c ch buf

/-- `sys_write`, with the bytes at `ubuf` and whether `kmalloc` finds a block for them. -/
def sysWrite (c : Console) (fd ubuf : Word) (buf : List (BitVec 8)) (kbuf : Bool) : ℤ × Console :=
  if fd ≠ 1 ∧ fd ≠ 2 then (VfsErr.inval.code, c)
  else if syscallMaxBuf < buf.length then (VfsErr.nospace.code, c)
  else if buf.length = 0 then (0, c)
  else if kbuf = false then (VfsErr.nospace.code, c)
  else if userRangeOk ubuf (BitVec.ofNat 64 buf.length) = false then (VfsErr.inval.code, c)
  else (buf.length, c.kwrite (some buf) 0x0F)

/-- A refusal is negative, and anything else has printed the buffer. -/
theorem sysWrite_accepted {c : Console} {fd ubuf : Word} {buf : List (BitVec 8)} {kbuf : Bool}
    (h : (c.sysWrite fd ubuf buf kbuf).1 = buf.length) :
    (c.sysWrite fd ubuf buf kbuf).2 = c.kwrite (some buf) 0x0F := by
  have hneg : ∀ e : VfsErr, e.code ≠ buf.length := by
    intro e
    cases e <;> simp only [VfsErr.code] <;> omega
  unfold sysWrite at h ⊢
  split_ifs at h ⊢ with _ _ h0
  · exact absurd h (hneg .inval)
  · exact absurd h (hneg .nospace)
  · rw [List.length_eq_zero_iff.mp h0]
    rfl
  · exact absurd h (hneg .nospace)
  · exact absurd h (hneg .inval)
  · rfl

end Console

/-- The arguments of a `sys_write`. -/
structure WriteCall where
  fd : Word
  ubuf : Word
  buf : List (BitVec 8)
  kbuf : Bool

namespace WriteCall

def call (c : Console) (w : WriteCall) : ℤ × Console := c.sysWrite w.fd w.ubuf w.buf w.kbuf

/-- The console after the calls, if each of them has written all of its bytes. -/
def callAll (c : Console) : List WriteCall → Option Console
  | [] => some c
  | w :: l => if (w.call c).1 = w.buf.length then callAll (w.call c).2 l else none

theorem callAll_eq {c c' : Console} {l : List WriteCall} (h : callAll c l = some c') :
    c' = c.kwrite (some (l.flatMap buf)) 0x0F := by
  induction l generalizing c with
  | nil => exact (Option.some.inj h).symm
  | cons w l ih =>
    unfold callAll at h
    split_ifs at h with hok
    rw [ih h, show (w.call c).2 = c.kwrite (some w.buf) 0x0F from Console.sysWrite_accepted hok]
    simp only [Console.kwrite_eq_foldl, List.flatMap_cons, List.foldl_append]

end WriteCall

/-- Printing is printing the parts, and so is writing them in whatever calls. -/
theorem kwrite_append_eq (c : Console) :
    (∀ (a b : List (BitVec 8)) (color : BitVec 8),
      c.kwrite (some (a ++ b)) color = (c.kwrite (some a) color).kwrite (some b) color) ∧
    ∀ (l l' : List WriteCall) (d d' : Console), l.flatMap WriteCall.buf = l'.flatMap WriteCall.buf →
      WriteCall.callAll c l = some d → WriteCall.callAll c l' = some d' → d = d' := by
  constructor
  · intro a b color
    simp only [Console.kwrite_eq_foldl, List.foldl_append]
  · intro l l' d d' heq hl hl'
    rw [WriteCall.callAll_eq hl, WriteCall.callAll_eq hl', heq]

/-- A message in one call and in two. -/
theorem kwrite_append_eq_hi : ∃ d d' : Console,
    WriteCall.callAll ⟨fun _ => 0, [], 0, 79⟩ [⟨1, 0x400000, [0x48, 0x69], true⟩] = some d ∧
    WriteCall.callAll ⟨fun _ => 0, [], 0, 79⟩
      [⟨1, 0x400000, [0x48], true⟩, ⟨2, 0x400001, [0x69], true⟩] = some d' ∧
    d = d' ∧ d.row = 1 ∧ d.column = 1 := by
  refine ⟨_, _, rfl, rfl, ?_, rfl, rfl⟩
  apply (kwrite_append_eq ⟨fun _ => 0, [], 0, 79⟩).2 [⟨1, 0x400000, [0x48, 0x69], true⟩]
    [⟨1, 0x400000, [0x48], true⟩, ⟨2, 0x400001, [0x69], true⟩] <;> rfl

end Nyvela
