import Nyvela.Lib.Memory

/-!
# The messages of the boot loaders

`print16.s` and `print32.s` write to the text screen at `0xB8000`, which is memory like any
other. Every message starts with a bracket in the first column of its row.
-/

namespace Nyvela.Boot

/-- The memory at hand, with the cursor of the loaders. -/
structure Loader where
  mem : Memory
  /-- The byte at `0xC800`. -/
  col : BitVec 8
  /-- The byte at `0xC801`. -/
  row : BitVec 8

/-- The address of a character of the screen. -/
def cell (row col : ℕ) : ℕ := 0xB8000 + 2 * (row * 80 + col)

namespace Loader

/-- A character and its colour at the cursor. -/
def put (s : Loader) (color c : BitVec 8) : Memory :=
  (s.mem.store (cell s.row.toNat s.col.toNat) c).store (cell s.row.toNat s.col.toNat + 1) color

end Loader

/-- What the two print files have of their own. -/
structure Printer where
  /-- The body of the loop in `prints`. -/
  putChar : BitVec 8 → BitVec 8 → Loader → Loader
  printnl : Loader → Loader

/-- `print16.s`: the cursor wraps after the last column, and no row is the last one. -/
def print16 : Printer where
  putChar := fun color c s =>
    if s.col + 1 < 80 then
      { mem := s.put color c, col := s.col + 1, row := s.row }
    else
      { mem := s.put color c, col := 0, row := s.row + 1 }
  printnl := fun s => { s with col := 0, row := s.row + 1 }

/-- The screen moves up by a row. -/
def scroll (m : Memory) : Memory :=
  let m := Memory.repMovs 2 (24 * 80) 0xB8000 (0xB8000 + 0xA0) m
  fun a =>
    if 0xB8000 + 24 * 0xA0 ≤ a ∧ a < 0xB8000 + 25 * 0xA0 then
      if (a - 0xB8000) % 2 = 0 then 0x20 else 0x07
    else m a

def printnl32 (s : Loader) : Loader :=
  if s.row + 1 < 25 then
    { s with col := 0, row := s.row + 1 }
  else
    { mem := scroll s.mem, col := 0, row := 24 }

/-- `print32.s`: the cursor wraps before a character, and the screen scrolls. -/
def print32 : Printer where
  putChar := fun color c s =>
    let s := if s.col < 80 then s else printnl32 s
    { mem := s.put color c, col := s.col + 1, row := s.row }
  printnl := printnl32

namespace Printer

def prints (p : Printer) (text : String) (color : BitVec 8) (s : Loader) : Loader :=
  text.toList.foldl (fun s c => p.putChar color (BitVec.ofNat 8 c.toNat) s) s

def println (p : Printer) (text : String) (color : BitVec 8) (s : Loader) : Loader :=
  p.printnl (p.prints text color s)

/-- `_print_prefixed_str` -/
def printPrefixedStr (p : Printer) (label : String) (labelColor : BitVec 8) (text : String)
    (color : BitVec 8) (s : Loader) : Loader :=
  p.println text color (p.prints " ] " 0x0F (p.prints label labelColor (p.prints "[ " 0x0F s)))

end Printer

/-- The labels in use, as `printinit`, `printinfo` and `printsucc` set them. -/
inductive Label
  | init | info | succ

def Label.text : Label → String
  | .init => "INIT"
  | .info => "INFO"
  | .succ => "SUCC"

def Label.color : Label → BitVec 8
  | .init => 0x0B
  | .info => 0x09
  | .succ => 0x0A

/-- Messages one after the other, each with `ah = 0x0F`. -/
def Printer.messages (p : Printer) (l : List (Label × String)) (s : Loader) : Loader :=
  l.foldl (fun s q => p.printPrefixedStr q.1.text q.1.color q.2 0x0F s) s

/-! ## What a message writes -/

theorem Loader.put_outside (s : Loader) (color c : BitVec 8) {a : ℕ}
    (h : a < cell s.row.toNat s.col.toNat ∨ cell s.row.toNat s.col.toNat + 2 ≤ a) :
    s.put color c a = s.mem a := by
  rw [put, Memory.store_of_ne _ _ (by omega), Memory.store_of_ne _ _ (by omega)]

theorem Loader.put_self (s : Loader) (color c : BitVec 8) :
    s.put color c (cell s.row.toNat s.col.toNat) = c := by
  rw [put, Memory.store_of_ne _ _ (by omega), Memory.store_self]

/-- Only the screen and what lies above it is written, wherever the cursor is, and within a row
the cursor moves on by one. -/
structure Printer.Plain (p : Printer) : Prop where
  putChar_low : ∀ color c s a, a < 0xB8000 → (p.putChar color c s).mem a = s.mem a
  printnl_low : ∀ s a, a < 0xB8000 → (p.printnl s).mem a = s.mem a
  putChar_row : ∀ color c s, s.col.toNat + 1 < 80 →
    p.putChar color c s = { mem := s.put color c, col := s.col + 1, row := s.row }

theorem put_low (s : Loader) (color c : BitVec 8) {a : ℕ} (h : a < 0xB8000) :
    s.put color c a = s.mem a := s.put_outside color c (Or.inl (by unfold cell; omega))

theorem print16_plain : print16.Plain where
  putChar_low := by
    intro color c s a ha
    simp only [print16]
    split <;> exact put_low s color c ha
  printnl_low := fun _ _ _ => rfl
  putChar_row := by
    intro color c s h
    exact if_pos (by bv_omega)

theorem scroll_low (m : Memory) {a : ℕ} (h : a < 0xB8000) : scroll m a = m a := by
  simp only [scroll]
  rw [if_neg (by omega), Memory.repMovs_outside _ (by omega)]

theorem printnl32_low (s : Loader) {a : ℕ} (h : a < 0xB8000) : (printnl32 s).mem a = s.mem a := by
  unfold printnl32
  split
  · rfl
  · exact scroll_low s.mem h

theorem print32_plain : print32.Plain where
  putChar_low := by
    intro color c s a ha
    refine (put_low _ color c ha).trans ?_
    split
    · rfl
    · exact printnl32_low s ha
  printnl_low := fun s _ => printnl32_low s
  putChar_row := by
    intro color c s h
    simp only [print32]
    rw [if_pos (by bv_omega)]

/-- The loader `t` has written `n` more characters in the row of the cursor of `s`. -/
structure Wrote (s t : Loader) (n : ℕ) : Prop where
  row : t.row = s.row
  col : t.col.toNat = s.col.toNat + n
  mem : ∀ a, (a < cell s.row.toNat s.col.toNat ∨ cell s.row.toNat 80 ≤ a) → t.mem a = s.mem a

theorem Wrote.trans {s t u : Loader} {n k : ℕ} (h : Wrote s t n) (h' : Wrote t u k) :
    Wrote s u (n + k) := by
  have hcol := h.col
  refine ⟨h'.row.trans h.row, by rw [h'.col, hcol]; omega, fun a ha => ?_⟩
  have hmem := h'.mem a
  rw [h.row] at hmem
  rw [hmem (by unfold cell at ha ⊢; omega), h.mem a ha]

namespace Printer.Plain

variable {p : Printer}

theorem prints_low (hp : p.Plain) (text : String) (color : BitVec 8) (s : Loader) {a : ℕ}
    (ha : a < 0xB8000) : (p.prints text color s).mem a = s.mem a := by
  unfold prints
  induction text.toList generalizing s with
  | nil => rfl
  | cons c l ih => exact (ih _).trans (hp.putChar_low _ _ _ _ ha)

theorem messages_low (hp : p.Plain) (l : List (Label × String)) (s : Loader) {a : ℕ}
    (ha : a < 0xB8000) : (p.messages l s).mem a = s.mem a := by
  induction l generalizing s with
  | nil => rfl
  | cons q l ih =>
    refine (ih _).trans ((hp.printnl_low _ _ ha).trans ?_)
    rw [hp.prints_low _ _ _ ha, hp.prints_low _ _ _ ha, hp.prints_low _ _ _ ha,
      hp.prints_low _ _ _ ha]

/-- A text that fits in the row of the cursor. -/
theorem prints_wrote (hp : p.Plain) {text : String} (color : BitVec 8) {s : Loader}
    (h : s.col.toNat + text.length < 80) : Wrote s (p.prints text color s) text.length := by
  unfold prints
  rw [← String.length_toList] at h ⊢
  generalize text.toList = l at h ⊢
  induction l generalizing s with
  | nil => exact ⟨rfl, rfl, fun _ _ => rfl⟩
  | cons c l ih =>
    rw [List.length_cons] at h
    rw [List.foldl_cons, hp.putChar_row _ _ _ (by omega), List.length_cons, Nat.add_comm]
    have hcol : (s.col + 1).toNat = s.col.toNat + 1 := by bv_omega
    have hfirst : Wrote s ⟨s.put color (BitVec.ofNat 8 c.toNat), s.col + 1, s.row⟩ 1 := by
      refine ⟨rfl, hcol, fun a ha => s.put_outside _ _ ?_⟩
      unfold cell at ha ⊢
      omega
    exact hfirst.trans (ih (show (s.col + 1).toNat + l.length < 80 by omega))

theorem prints_bracket (hp : p.Plain) (color : BitVec 8) {s : Loader} (hcol : s.col = 0) :
    (p.prints "[ " color s).mem (cell s.row.toNat 0) = 0x5B := by
  have hput := s.put_self color 0x5B
  rw [hcol] at hput
  show (p.putChar color 0x20 (p.putChar color 0x5B s)).mem _ = _
  rw [hp.putChar_row _ _ s (by rw [hcol]; decide),
    hp.putChar_row _ _ _ (by rw [hcol]; show 1 + 1 < 80; decide)]
  refine (Loader.put_outside _ _ _ (Or.inl ?_)).trans hput
  rw [hcol]
  exact show 0xB8000 + 2 * (s.row.toNat * 80 + 0) < 0xB8000 + 2 * (s.row.toNat * 80 + 1) by omega

/-- A message that starts in the first column and fits in its row, up to the end of its text. -/
theorem message_row (hp : p.Plain) {q : Label × String} {s : Loader} (hcol : s.col = 0)
    (hlen : q.2.length < 70) :
    ∃ t : Loader, p.printPrefixedStr q.1.text q.1.color q.2 0x0F s = p.printnl t ∧
      t.row = s.row ∧ t.mem (cell s.row.toNat 0) = 0x5B ∧
      ∀ a, (a < cell s.row.toNat 0 ∨ cell s.row.toNat 80 ≤ a) → t.mem a = s.mem a := by
  have hc : s.col.toNat = 0 := by rw [hcol]; rfl
  have hlabel : q.1.text.length = 4 := by cases q.1 <;> rfl
  have h1 : Wrote s (p.prints "[ " 0x0F s) 2 :=
    hp.prints_wrote 0x0F (show s.col.toNat + "[ ".length < 80 by rw [hc]; decide)
  have hb := hp.prints_bracket 0x0F hcol
  obtain ⟨s1, hs1⟩ : ∃ t, t = p.prints "[ " 0x0F s := ⟨_, rfl⟩
  rw [← hs1] at h1 hb
  have hc1 := h1.col
  have h2 := hp.prints_wrote q.1.color (show s1.col.toNat + q.1.text.length < 80 by omega)
  have hc2 := h2.col
  have h3 : Wrote _ _ 3 := hp.prints_wrote 0x0F (show
    (p.prints q.1.text q.1.color s1).col.toNat + " ] ".length < 80 by rw [hc2, hlabel, hc1, hc]; decide)
  have hc3 := h3.col
  have h4 := hp.prints_wrote 0x0F (show
    (p.prints " ] " 0x0F (p.prints q.1.text q.1.color s1)).col.toNat + q.2.length < 80 by omega)
  have hrest := (h2.trans h3).trans h4
  have hall := h1.trans hrest
  refine ⟨_, by rw [printPrefixedStr, println, ← hs1], hall.row, ?_, ?_⟩
  · rw [hrest.mem _ (Or.inl (by rw [h1.row]; unfold cell; omega)), hb]
  · rw [← hc]
    exact hall.mem

end Printer.Plain

/-! ## Rows that start with a bracket -/

/-- The cursor is in the first column, below rows from `lo` on that messages have filled. -/
structure Marked (lo : ℕ) (s : Loader) : Prop where
  col : s.col = 0
  bracket : ∀ i, lo ≤ i → i < s.row.toNat → s.mem (cell i 0) = 0x5B

theorem Marked.of_le {lo : ℕ} {s : Loader} (hcol : s.col = 0) (h : s.row.toNat ≤ lo) :
    Marked lo s := ⟨hcol, fun i hlo hi => absurd hi (by omega)⟩

theorem Marked.message16 {lo : ℕ} {s : Loader} (h : Marked lo s) {q : Label × String}
    (hlen : q.2.length < 70) (hrow : s.row.toNat < 255) :
    Marked lo (print16.printPrefixedStr q.1.text q.1.color q.2 0x0F s) ∧
      (print16.printPrefixedStr q.1.text q.1.color q.2 0x0F s).row.toNat = s.row.toNat + 1 := by
  obtain ⟨t, heq, htrow, hb, hmem⟩ := print16_plain.message_row h.col hlen
  rw [heq]
  have hr : (t.row + 1).toNat = s.row.toNat + 1 := by rw [htrow]; bv_omega
  refine ⟨⟨rfl, fun i hlo hi => ?_⟩, hr⟩
  have hi' : i < (t.row + 1).toNat := hi
  by_cases he : i = s.row.toNat
  · rw [he]
    exact hb
  · refine (hmem _ (Or.inl ?_)).trans (h.bracket i hlo (by omega))
    unfold cell
    omega

theorem Marked.messages16 {lo : ℕ} {s : Loader} (h : Marked lo s) {l : List (Label × String)}
    (hlen : ∀ q ∈ l, q.2.length < 70) (hrow : s.row.toNat + l.length ≤ 255) :
    Marked lo (print16.messages l s) ∧
      (print16.messages l s).row.toNat = s.row.toNat + l.length := by
  induction l generalizing s with
  | nil => exact ⟨h, rfl⟩
  | cons q l ih =>
    rw [List.length_cons] at hrow
    obtain ⟨h1, h2⟩ := h.message16 (hlen q (by simp)) (by omega)
    obtain ⟨h3, h4⟩ := ih h1 (fun q hq => hlen q (List.mem_cons_of_mem _ hq)) (by omega)
    refine ⟨h3, h4.trans ?_⟩
    rw [h2, List.length_cons]
    omega

/-- The cursor is at the start of row `r`. -/
def At (r : ℕ) (s : Loader) : Prop := s.col = 0 ∧ s.row.toNat = r

theorem At.messages16 {r : ℕ} {s : Loader} (h : At r s) (l : List (Label × String))
    (hlen : ∀ q ∈ l, q.2.length < 70) (hrow : r + l.length ≤ 255) :
    At (r + l.length) (print16.messages l s) := by
  obtain ⟨h1, h2⟩ := (Marked.of_le h.1 (Nat.le_of_eq h.2)).messages16 hlen (by rw [h.2]; exact hrow)
  exact ⟨h1.col, by rw [h2, h.2]⟩

theorem scroll_cell (m : Memory) {i : ℕ} (hi : i < 24) : scroll m (cell i 0) = m (cell (i + 1) 0) := by
  have h : Memory.repMovs 2 (24 * 80) 0xB8000 (0xB8000 + 0xA0) m (0xB8000 + 160 * i) =
      m (0xB8000 + 0xA0 + 160 * i) := Memory.repMovs_inside m (by omega) (by omega)
  have h0 : cell i 0 = 0xB8000 + 160 * i := by unfold cell; omega
  have h1 : cell (i + 1) 0 = 0xB8000 + 0xA0 + 160 * i := by unfold cell; omega
  rw [h0, h1, ← h]
  exact if_neg (by omega)

/-- On the last row a message moves all rows up. -/
theorem Marked.message32 {lo : ℕ} {s : Loader} (h : Marked lo s) {q : Label × String}
    (hlen : q.2.length < 70) (hrow : s.row.toNat ≤ 24) :
    Marked (lo - (s.row.toNat + 1 - 24)) (print32.printPrefixedStr q.1.text q.1.color q.2 0x0F s) ∧
      (print32.printPrefixedStr q.1.text q.1.color q.2 0x0F s).row.toNat =
        min 24 (s.row.toNat + 1) := by
  obtain ⟨t, heq, htrow, hb, hmem⟩ := print32_plain.message_row h.col hlen
  have hmark : ∀ i, lo ≤ i → i < s.row.toNat + 1 → t.mem (cell i 0) = 0x5B := by
    intro i hlo hi
    by_cases he : i = s.row.toNat
    · rw [he]
      exact hb
    · refine (hmem _ (Or.inl ?_)).trans (h.bracket i hlo (by omega))
      unfold cell
      omega
  rw [heq]
  show Marked _ (printnl32 t) ∧ (printnl32 t).row.toNat = _
  unfold printnl32
  rw [htrow]
  split
  · next hlt =>
    have hr : (s.row + 1).toNat = s.row.toNat + 1 := by bv_omega
    have hlt' : s.row.toNat < 24 := by bv_omega
    refine ⟨⟨rfl, fun i hlo hi => hmark i (by omega) ?_⟩, ?_⟩
    · exact lt_of_lt_of_eq hi hr
    · rw [hr, Nat.min_eq_right (by omega)]
  · next hlt =>
    have hr : s.row.toNat = 24 := by bv_omega
    refine ⟨⟨rfl, fun i hlo hi => ?_⟩, ?_⟩
    · have hi' : i < 24 := hi
      exact (scroll_cell t.mem hi').trans (hmark (i + 1) (by omega) (by omega))
    · rw [hr]
      rfl

/-- Enough messages bring a marked row to the top of the screen. -/
theorem Marked.messages32 {lo : ℕ} {s : Loader} (h : Marked lo s) {l : List (Label × String)}
    (hlen : ∀ q ∈ l, q.2.length < 70) (hrow : s.row.toNat ≤ 24) :
    Marked (lo - (s.row.toNat + l.length - 24)) (print32.messages l s) ∧
      (print32.messages l s).row.toNat = min 24 (s.row.toNat + l.length) := by
  induction l generalizing lo s with
  | nil =>
    refine ⟨?_, (Nat.min_eq_right hrow).symm⟩
    rw [show lo - (s.row.toNat + [].length - 24) = lo by simp; omega]
    exact h
  | cons q l ih =>
    obtain ⟨h1, h2⟩ := h.message32 (hlen q (by simp)) hrow
    obtain ⟨h3, h4⟩ := ih h1 (fun q hq => hlen q (List.mem_cons_of_mem _ hq))
      (by rw [h2]; exact Nat.min_le_left ..)
    rw [h2] at h3 h4
    rw [List.length_cons]
    refine ⟨?_, h4.trans (by omega)⟩
    rw [show lo - (s.row.toNat + (l.length + 1) - 24) =
      lo - (s.row.toNat + 1 - 24) - (min 24 (s.row.toNat + 1) + l.length - 24) by omega]
    exact h3

end Nyvela.Boot
