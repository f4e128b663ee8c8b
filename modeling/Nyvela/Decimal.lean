import Mathlib.Data.Nat.Digits.Defs
import Mathlib.Data.Nat.Digits.Lemmas

/-!
# Decimal numerals (`ki64toa` in `src/lib/utils.c`, `uitoa` in `syslib.h`)

The kernel writes the digits into the buffer as it finds them, from the last one on, and then
turns them around. User programs have an array of their own for that.
-/

namespace Nyvela

/-- A buffer, and the places that were written to. -/
structure CharBuf where
  cells : ℕ → BitVec 8
  written : List ℕ

namespace CharBuf

def set (b : CharBuf) (pos : ℕ) (c : BitVec 8) : CharBuf :=
  ⟨Function.update b.cells pos c, pos :: b.written⟩

/-- A string from `pos` on. -/
def writeAll (b : CharBuf) (pos : ℕ) : List (BitVec 8) → CharBuf
  | [] => b
  | c :: l => (b.set pos c).writeAll (pos + 1) l

/-- The buffer holds a string with its zero. -/
def Holds (b : CharBuf) (l : List (BitVec 8)) : Prop :=
  (∀ j (h : j < l.length), b.cells j = l[j]) ∧ b.cells l.length = 0

end CharBuf

/-- The character of a digit. -/
def digitChar (d : ℕ) : BitVec 8 := 0x30 + BitVec.ofNat 8 d

/-- The digits, from the last one on. -/
def digitsLow (n : ℕ) : List (BitVec 8) :=
  if n = 0 then [0x30] else (Nat.digits 10 n).map digitChar

/-- The canonical numeral. -/
def numeral (z : ℤ) : List (BitVec 8) := (if z < 0 then [0x2D] else []) ++ (digitsLow z.natAbs).reverse

/-! ## The functions -/

/-- The loop over the digits, which returns early when the buffer is full. -/
def digitLoop (maxLen value pos : ℕ) (b : CharBuf) : Bool × ℕ × CharBuf :=
  if value = 0 then (true, pos, b)
  else if maxLen - 1 ≤ pos then (false, pos, b)
  else digitLoop maxLen (value / 10) (pos + 1) (b.set pos (digitChar (value % 10)))
termination_by value
decreasing_by omega

def digitsOf (maxLen value pos : ℕ) (b : CharBuf) : Bool × ℕ × CharBuf :=
  if value = 0 then
    if maxLen - 1 ≤ pos then (false, pos, b) else (true, pos + 1, b.set pos 0x30)
  else digitLoop maxLen value pos b

def swapLoop (l r : ℕ) (b : CharBuf) : CharBuf :=
  if l < r then
    let tmp := b.cells l
    let b := b.set l (b.cells r)
    swapLoop (l + 1) (r - 1) (b.set r tmp)
  else b
termination_by r - l
decreasing_by omega

def ki64toa (i : BitVec 64) (b : CharBuf) (maxLen : ℕ) : Bool × CharBuf :=
  if maxLen = 0 then (false, b)
  else if i.toInt < 0 ∧ maxLen - 1 ≤ 0 then (false, b)
  else
    let start := if i.toInt < 0 then 1 else 0
    let value := if i.toInt < 0 then -i else i
    let b := if i.toInt < 0 then b.set 0 0x2D else b
    match digitsOf maxLen value.toNat start b with
    | (false, _, b) => (false, b)
    | (true, pos, b) => (true, swapLoop start (pos - 1) (b.set pos 0))

/-- The array has room for twenty digits. -/
def tmpLoop (u : ℕ) (tmp : List (BitVec 8)) : List (BitVec 8) :=
  if u / 10 ≠ 0 ∧ tmp.length + 1 < 20 then tmpLoop (u / 10) (tmp ++ [digitChar (u % 10)])
  else tmp ++ [digitChar (u % 10)]
termination_by u
decreasing_by omega

/-- The loop that empties the array. -/
def outLoop (tmp : List (BitVec 8)) (cap : ℕ) : ℕ → ℕ → CharBuf → ℕ × CharBuf
  | 0, pos, b => (pos, b)
  | tlen + 1, pos, b =>
    if pos + 1 < cap then outLoop tmp cap tlen (pos + 1) (b.set pos (tmp.getD tlen 0)) else (pos, b)

def uitoa (val : BitVec 64) (b : CharBuf) (cap : ℕ) : ℕ × CharBuf :=
  if cap = 0 then (0, b)
  else
    let u := if val.toInt < 0 then -(val + 1) + 1 else val
    let tmp := tmpLoop u.toNat []
    let sign := val.toInt < 0 ∧ 0 + 1 < cap
    let pos := if sign then 1 else 0
    let b := if sign then b.set 0 0x2D else b
    let (pos, b) := outLoop tmp cap tmp.length pos b
    (pos, b.set pos 0)

/-! ## Writing -/

namespace CharBuf

variable {b : CharBuf} {pos j : ℕ} {l : List (BitVec 8)}

theorem writeAll_cells :
    (b.writeAll pos l).cells j = if pos ≤ j ∧ j < pos + l.length then l.getD (j - pos) 0 else b.cells j := by
  induction l generalizing b pos with
  | nil =>
    rw [writeAll, if_neg (by simp)]
  | cons c l ih =>
    rw [writeAll, ih, List.length_cons]
    simp only [set, Function.update_apply]
    by_cases hj : j = pos
    · subst hj
      simp
    · by_cases hin : pos ≤ j ∧ j < pos + (l.length + 1)
      · rw [if_pos hin, if_pos (by omega), show j - pos = j - (pos + 1) + 1 by omega,
          List.getD_cons_succ]
      · rw [if_neg hin, if_neg (by omega), if_neg hj]

theorem mem_writeAll : j ∈ (b.writeAll pos l).written ↔
    pos ≤ j ∧ j < pos + l.length ∨ j ∈ b.written := by
  induction l generalizing b pos with
  | nil => simp [writeAll]
  | cons c l ih =>
    rw [writeAll, ih, List.length_cons]
    simp only [set, List.mem_cons]
    by_cases hb : j ∈ b.written
    · simp only [hb, or_true]
    · simp only [hb, or_false]
      omega

end CharBuf

/-! ## The digits -/

theorem digitsLow_of_ne_zero {n : ℕ} (h : n ≠ 0) :
    (Nat.digits 10 n).map digitChar =
      digitChar (n % 10) :: (Nat.digits 10 (n / 10)).map digitChar := by
  rw [Nat.digits_def' (by decide) (Nat.pos_of_ne_zero h), List.map_cons]

theorem digitsLow_pos (n : ℕ) : 0 < (digitsLow n).length := by
  rw [digitsLow]
  split_ifs with h
  · exact Nat.zero_lt_one
  · rw [digitsLow_of_ne_zero h]
    exact Nat.succ_pos _

/-- The loop writes all digits, or as many as there is room for. -/
theorem digitLoop_eq {maxLen value pos : ℕ} {b : CharBuf} (hpos : pos ≤ maxLen - 1) :
    let ds := (Nat.digits 10 value).map digitChar
    digitLoop maxLen value pos b =
      if pos + ds.length ≤ maxLen - 1 then (true, pos + ds.length, b.writeAll pos ds)
      else (false, maxLen - 1, b.writeAll pos (ds.take (maxLen - 1 - pos))) := by
  induction value, pos, b using digitLoop.induct maxLen with
  | case1 pos b =>
    rw [digitLoop, if_pos rfl]
    simp [hpos, CharBuf.writeAll]
  | case2 value pos b hvalue hfull =>
    have heq : pos = maxLen - 1 := Nat.le_antisymm hpos hfull
    rw [digitLoop, if_neg hvalue, if_pos hfull, digitsLow_of_ne_zero hvalue]
    simp [heq, CharBuf.writeAll]
  | case3 value pos b hvalue hroom ih =>
    have ih := ih (by omega)
    rw [digitLoop, if_neg hvalue, if_neg hroom, ih, digitsLow_of_ne_zero hvalue]
    have htake : maxLen - 1 - pos = maxLen - 1 - (pos + 1) + 1 := by omega
    simp only [List.length_cons, htake, List.take_succ_cons, CharBuf.writeAll]
    simp only [Nat.add_assoc, Nat.add_comm 1]

theorem digitsOf_eq {maxLen value pos : ℕ} {b : CharBuf} (hpos : pos ≤ maxLen - 1) :
    digitsOf maxLen value pos b =
      if pos + (digitsLow value).length ≤ maxLen - 1 then
        (true, pos + (digitsLow value).length, b.writeAll pos (digitsLow value))
      else (false, maxLen - 1, b.writeAll pos ((digitsLow value).take (maxLen - 1 - pos))) := by
  rw [digitsOf, digitsLow]
  by_cases hvalue : value = 0
  · rw [if_pos hvalue, if_pos hvalue]
    by_cases hfull : maxLen - 1 ≤ pos
    · have heq : pos = maxLen - 1 := Nat.le_antisymm hpos hfull
      rw [if_pos hfull, if_neg (by rw [List.length_singleton]; omega)]
      simp [heq, CharBuf.writeAll]
    · rw [if_neg hfull, if_pos (by rw [List.length_singleton]; omega)]
      rfl
  · rw [if_neg hvalue, if_neg hvalue]
    exact digitLoop_eq hpos

/-! ## Turning around -/

theorem swapLoop_cells (l r : ℕ) (b : CharBuf) (j : ℕ) :
    (swapLoop l r b).cells j = if l ≤ j ∧ j ≤ r then b.cells (l + r - j) else b.cells j := by
  induction l, r, b using swapLoop.induct with
  | case1 l r b hlt tmp b' ih =>
    rw [swapLoop, if_pos hlt]
    dsimp only
    rw [ih]
    simp only [b', tmp, CharBuf.set, Function.update_apply]
    -- the two ends, what lies between them, and the rest
    by_cases hl : j = l
    · subst hl
      rw [if_neg (by omega), if_neg (by omega), if_pos rfl, if_pos (by omega)]
      exact congrArg b.cells (by omega)
    by_cases hr : j = r
    · subst hr
      rw [if_neg (by omega), if_pos rfl, if_pos (by omega)]
      exact congrArg b.cells (by omega)
    by_cases hin : l ≤ j ∧ j ≤ r
    · rw [if_pos (by omega), if_neg (by omega), if_neg (by omega), if_pos hin]
      exact congrArg b.cells (by omega)
    · rw [if_neg (by omega), if_neg hr, if_neg hl, if_neg hin]
  | case2 l r b hlt =>
    rw [swapLoop, if_neg hlt]
    split_ifs with h
    · rw [show l + r - j = j by omega]
    · rfl

theorem mem_swapLoop {l r : ℕ} {b : CharBuf} {j : ℕ} (h : j ∈ (swapLoop l r b).written) :
    j ≤ r ∨ j ∈ b.written := by
  induction l, r, b using swapLoop.induct with
  | case1 l r b hlt tmp b' ih =>
    rw [swapLoop, if_pos hlt] at h
    obtain hle | hmem := ih h
    · exact .inl (by omega)
    · simp only [b', CharBuf.set, List.mem_cons] at hmem
      obtain rfl | rfl | hmem := hmem
      · exact .inl le_rfl
      · exact .inl hlt.le
      · exact .inr hmem
  | case2 l r b hlt =>
    rw [swapLoop, if_neg hlt] at h
    exact .inr h

/-! ## The kernel's function -/

theorem natAbs_toInt (i : BitVec 64) :
    (if i.toInt < 0 then -i else i).toNat = i.toInt.natAbs := by
  have hlt := i.isLt
  have hint := i.toInt_eq_toNat_cond
  split_ifs with hneg
  · rw [BitVec.toNat_neg]
    split_ifs at hint <;> omega
  · split_ifs at hint <;> omega

theorem numeral_length (z : ℤ) :
    (numeral z).length = (if z < 0 then 1 else 0) + (digitsLow z.natAbs).length := by
  rw [numeral, List.length_append, List.length_reverse]
  split_ifs <;> rfl

/-- A value has at most nineteen digits. -/
theorem numeral_length_le (i : BitVec 64) : (numeral i.toInt).length ≤ 20 := by
  have hle : i.toInt.natAbs ≤ 2 ^ 63 := by
    have hlo := BitVec.le_toInt i
    have hhi := BitVec.toInt_lt (x := i)
    omega
  have hdigits : (digitsLow i.toInt.natAbs).length ≤ 19 := by
    rw [digitsLow]
    split_ifs
    · decide
    · rw [List.length_map, Nat.digits_length_le_iff (by decide)]
      exact Nat.lt_of_le_of_lt hle (by decide)
  rw [numeral_length]
  split_ifs <;> omega

theorem getD_reverse {l : List (BitVec 8)} {k : ℕ} (h : k < l.length) :
    l.getD (l.length - 1 - k) 0 = l.reverse.getD k 0 := by
  simp [List.getD_eq_getElem?_getD, List.getElem?_reverse h]

/-- The digits and a zero, turned around. -/
theorem swapLoop_writeAll (b : CharBuf) (start : ℕ) {ds : List (BitVec 8)} (hds : 0 < ds.length) :
    (swapLoop start (start + ds.length - 1)
      ((b.writeAll start ds).set (start + ds.length) 0)).cells =
      ((b.writeAll start ds.reverse).set (start + ds.length) 0).cells := by
  funext j
  rw [swapLoop_cells]
  simp only [CharBuf.set, Function.update_apply, CharBuf.writeAll_cells, List.length_reverse]
  by_cases hin : start ≤ j ∧ j ≤ start + ds.length - 1
  · rw [if_pos hin, if_neg (by omega), if_pos (by omega), if_neg (by omega), if_pos (by omega),
      ← getD_reverse (by omega)]
    exact congrArg (ds.getD · 0) (by omega)
  · rw [if_neg hin]
    by_cases hj : j = start + ds.length
    · rw [if_pos hj, if_pos hj]
    · rw [if_neg hj, if_neg hj, if_neg (by omega), if_neg (by omega)]

/-- A string behind a sign. -/
theorem holds_writeAll {b : CharBuf} (sign : List (BitVec 8)) {l : List (BitVec 8)}
    (h : ∀ j (hj : j < sign.length), b.cells j = sign[j]) :
    ((b.writeAll sign.length l).set (sign.length + l.length) 0).Holds (sign ++ l) := by
  constructor
  · intro j hj
    rw [List.length_append] at hj
    simp only [CharBuf.set, Function.update_apply, CharBuf.writeAll_cells]
    rw [if_neg (by omega)]
    by_cases hsign : j < sign.length
    · rw [if_neg (by omega), List.getElem_append_left hsign]
      exact h j hsign
    · rw [if_pos (by omega), List.getElem_append_right (by omega),
        List.getD_eq_getElem?_getD, List.getElem?_eq_getElem (by omega)]
      rfl
  · rw [List.length_append]
    exact Function.update_self ..

theorem CharBuf.Holds.congr {b b' : CharBuf} {l : List (BitVec 8)} (h : b.Holds l)
    (hcells : b'.cells = b.cells) : b'.Holds l := by
  rw [Holds, hcells]
  exact h

/-- The buffer with the sign of a number, and the place behind it. -/
def CharBuf.signed (b : CharBuf) (z : ℤ) : CharBuf := if z < 0 then b.set 0 0x2D else b

def signLength (z : ℤ) : ℕ := if z < 0 then 1 else 0

theorem holds_numeral (b : CharBuf) (z : ℤ) :
    (((b.signed z).writeAll (signLength z) (digitsLow z.natAbs).reverse).set
      (signLength z + (digitsLow z.natAbs).reverse.length) 0).Holds (numeral z) := by
  rw [numeral, CharBuf.signed, signLength]
  by_cases hz : z < 0
  · simp only [if_pos hz]
    refine holds_writeAll [0x2D] fun j hj => ?_
    obtain rfl : j = 0 := by simpa using hj
    simp [CharBuf.set]
  · simp only [if_neg hz]
    exact holds_writeAll [] fun j hj => absurd hj (Nat.not_lt_zero j)

/-- The whole function. -/
theorem ki64toa_eq (i : BitVec 64) (b : CharBuf) {maxLen : ℕ} (hlen : signLength i.toInt < maxLen) :
    let ds := digitsLow i.toInt.natAbs
    let start := signLength i.toInt
    ki64toa i b maxLen =
      if start + ds.length ≤ maxLen - 1 then
        (true, swapLoop start (start + ds.length - 1)
          (((b.signed i.toInt).writeAll start ds).set (start + ds.length) 0))
      else (false, (b.signed i.toInt).writeAll start (ds.take (maxLen - 1 - start))) := by
  intro ds start
  have hsign : ¬(i.toInt < 0 ∧ maxLen - 1 ≤ 0) := by
    rintro ⟨hneg, hle⟩
    rw [signLength, if_pos hneg] at hlen
    omega
  have hstart : signLength i.toInt ≤ maxLen - 1 := by omega
  rw [ki64toa, if_neg (by omega), if_neg hsign]
  dsimp only
  rw [natAbs_toInt, ← signLength, ← CharBuf.signed, digitsOf_eq hstart]
  by_cases hfit : start + ds.length ≤ maxLen - 1
  · rw [if_pos hfit, if_pos hfit]
  · rw [if_neg hfit, if_neg hfit]

/-- There is not even room for the sign. -/
theorem ki64toa_no_room {i : BitVec 64} (b : CharBuf) {maxLen : ℕ}
    (hlen : ¬signLength i.toInt < maxLen) : ki64toa i b maxLen = (false, b) := by
  rw [ki64toa]
  by_cases h0 : maxLen = 0
  · exact if_pos h0
  · rw [if_neg h0]
    refine if_pos ?_
    rw [signLength] at hlen
    split_ifs at hlen with hneg
    · exact ⟨hneg, by omega⟩
    · omega

/-- When the function returns true. -/
theorem ki64toa_fst (i : BitVec 64) (b : CharBuf) (maxLen : ℕ) :
    (ki64toa i b maxLen).1 = true ↔ (numeral i.toInt).length + 1 ≤ maxLen := by
  have hds := digitsLow_pos i.toInt.natAbs
  rw [numeral_length, ← signLength]
  by_cases hlen : signLength i.toInt < maxLen
  · rw [ki64toa_eq i b hlen]
    split_ifs with hfit
    · exact iff_of_true rfl (by omega)
    · exact iff_of_false not_false (by omega)
  · rw [ki64toa_no_room b hlen]
    exact iff_of_false Bool.false_ne_true (by omega)

theorem ki64toa_holds {i : BitVec 64} {b : CharBuf} {maxLen : ℕ}
    (h : (ki64toa i b maxLen).1 = true) : (ki64toa i b maxLen).2.Holds (numeral i.toInt) := by
  have hfit := (ki64toa_fst i b maxLen).mp h
  have hds := digitsLow_pos i.toInt.natAbs
  rw [numeral_length, ← signLength] at hfit
  rw [ki64toa_eq i b (by omega), if_pos (by omega)]
  have hholds := holds_numeral b i.toInt
  rw [List.length_reverse] at hholds
  exact hholds.congr (swapLoop_writeAll _ _ hds)

theorem mem_signed {b : CharBuf} {z : ℤ} {j : ℕ} (h : j ∈ (b.signed z).written) :
    j < signLength z ∨ j ∈ b.written := by
  rw [CharBuf.signed] at h
  rw [signLength]
  split_ifs at h ⊢ with hz
  · obtain rfl | hmem := List.mem_cons.mp h
    · exact .inl Nat.zero_lt_one
    · exact .inr hmem
  · exact .inr h

/-- Every place that is written to lies in the buffer. -/
theorem ki64toa_within (i : BitVec 64) {b : CharBuf} {maxLen : ℕ} (hb : ∀ j ∈ b.written, j < maxLen) :
    ∀ j ∈ (ki64toa i b maxLen).2.written, j < maxLen := by
  intro j hj
  by_cases hlen : signLength i.toInt < maxLen
  · rw [ki64toa_eq i b hlen] at hj
    have hsigned : ∀ j ∈ (b.signed i.toInt).written, j < maxLen := by
      intro j hj
      obtain hlt | hmem := mem_signed hj
      · omega
      · exact hb j hmem
    split_ifs at hj with hfit
    · obtain hle | hmem := mem_swapLoop hj
      · omega
      · obtain rfl | hmem := List.mem_cons.mp hmem
        · omega
        · obtain hin | hmem := CharBuf.mem_writeAll.mp hmem
          · omega
          · exact hsigned j hmem
    · obtain hin | hmem := CharBuf.mem_writeAll.mp hj
      · rw [List.length_take] at hin
        omega
      · exact hsigned j hmem
  · rw [ki64toa_no_room b hlen] at hj
    exact hb j hj

/-! ## The user's function -/

theorem tmpLoop_eq {u : ℕ} {tmp : List (BitVec 8)} (h : tmp.length + (digitsLow u).length ≤ 20) :
    tmpLoop u tmp = tmp ++ digitsLow u := by
  induction u, tmp using tmpLoop.induct with
  | case1 u tmp hmore ih =>
    have hu : u ≠ 0 := by
      rintro rfl
      exact hmore.1 rfl
    rw [digitsLow, if_neg hu, digitsLow_of_ne_zero hu, List.length_cons] at h
    rw [tmpLoop, if_pos hmore, ih ?_, digitsLow, if_neg hmore.1, digitsLow, if_neg hu,
      digitsLow_of_ne_zero hu, List.append_assoc, List.singleton_append]
    rw [List.length_append, List.length_singleton, digitsLow, if_neg hmore.1]
    omega
  | case2 u tmp hlast =>
    rw [tmpLoop, if_neg hlast]
    congr 1
    by_cases hu : u = 0
    · rw [hu, digitsLow, if_pos rfl]
      rfl
    · rw [digitsLow, if_neg hu, digitsLow_of_ne_zero hu] at h ⊢
      have hnil : (Nat.digits 10 (u / 10)).map digitChar = [] := by
        by_cases hdiv : u / 10 = 0
        · rw [hdiv, Nat.digits_zero, List.map_nil]
        · -- the array is full, and there is no further digit
          have hfull : ¬tmp.length + 1 < 20 := fun hlt => hlast ⟨hdiv, hlt⟩
          rw [List.length_cons] at h
          exact List.eq_nil_of_length_eq_zero (by omega)
      rw [hnil]

theorem outLoop_eq {tmp : List (BitVec 8)} {cap tlen pos : ℕ} {b : CharBuf} (h : pos + tlen < cap)
    (htlen : tlen ≤ tmp.length) :
    outLoop tmp cap tlen pos b = (pos + tlen, b.writeAll pos (tmp.take tlen).reverse) := by
  induction tlen generalizing pos b with
  | zero => simp [outLoop, CharBuf.writeAll]
  | succ tlen ih =>
    have hlast : (tmp.take (tlen + 1)).reverse = tmp.getD tlen 0 :: (tmp.take tlen).reverse := by
      rw [List.take_succ_eq_append_getElem htlen, List.reverse_append, List.getD_eq_getElem?_getD,
        List.getElem?_eq_getElem htlen]
      rfl
    rw [outLoop, if_pos (by omega), ih (by omega) (by omega), hlast, CharBuf.writeAll]
    congr 1
    omega

theorem uitoa_unsigned (val : BitVec 64) :
    (if val.toInt < 0 then -(val + 1) + 1 else val) = if val.toInt < 0 then -val else val := by
  have hneg : -(val + 1) + 1 = -val := by
    rw [BitVec.neg_add, BitVec.sub_add_cancel]
  rw [hneg]

/-- With room for the numeral. -/
theorem uitoa_eq (val : BitVec 64) (b : CharBuf) {cap : ℕ}
    (hfit : (numeral val.toInt).length + 1 ≤ cap) :
    let ds := digitsLow val.toInt.natAbs
    let start := signLength val.toInt
    uitoa val b cap = (start + ds.length,
      ((b.signed val.toInt).writeAll start ds.reverse).set (start + ds.length) 0) := by
  intro ds start
  have hds : 0 < ds.length := digitsLow_pos _
  have hlen := numeral_length_le val
  rw [numeral_length, ← signLength] at hfit hlen
  change start + ds.length + 1 ≤ cap at hfit
  change start + ds.length ≤ 20 at hlen
  have htmp : tmpLoop val.toInt.natAbs [] = ds :=
    tmpLoop_eq (Nat.le_trans (by simp [ds]) hlen)
  have hcap : (val.toInt < 0 ∧ 0 + 1 < cap) ↔ val.toInt < 0 := and_iff_left_of_imp fun hneg => by omega
  rw [uitoa, if_neg (by omega)]
  dsimp only
  rw [uitoa_unsigned, natAbs_toInt, htmp]
  simp only [hcap]
  rw [← signLength, ← CharBuf.signed, outLoop_eq (by omega) le_rfl, List.take_length]

/-- **Numerals.** The kernel's function writes the numeral if it fits, within the buffer in any case,
and then the user's function writes the same. -/
theorem integer_printing (i : BitVec 64) (cells cells' : ℕ → BitVec 8) (maxLen : ℕ) :
    let r := ki64toa i ⟨cells, []⟩ maxLen
    let u := uitoa i ⟨cells', []⟩ maxLen
    (r.1 = true ↔ (numeral i.toInt).length + 1 ≤ maxLen) ∧
      (r.1 = true → r.2.Holds (numeral i.toInt)) ∧
      (∀ j ∈ r.2.written, j < maxLen) ∧
      (ki64toa i ⟨cells, []⟩ 21).1 = true ∧
      (r.1 = true → u.1 = (numeral i.toInt).length ∧ u.2.Holds (numeral i.toInt)) := by
  intro r u
  have hfst := ki64toa_fst i ⟨cells, []⟩
  refine ⟨hfst maxLen, ki64toa_holds, ki64toa_within i fun j hj => absurd hj List.not_mem_nil,
    (hfst 21).mpr (Nat.succ_le_succ (numeral_length_le i)), fun hr => ?_⟩
  have hu := uitoa_eq i ⟨cells', []⟩ ((hfst maxLen).mp hr)
  have hholds := holds_numeral ⟨cells', []⟩ i.toInt
  rw [List.length_reverse] at hholds
  rw [show u = _ from hu, numeral_length, ← signLength]
  exact ⟨rfl, hholds⟩

end Nyvela
