import Mathlib.Data.List.Induction
import Mathlib.Algebra.Ring.Parity
import Nyvela.Keyboard

/-!
# Scancodes (`kbd_handle_code` in `src/drivers/kbd/kbd.c`)

The decoder has three latches, for the two shift keys and for caps lock, and a fourth one
that is set between the byte `0xE0` and the next other byte.
-/

namespace Nyvela

/-! ## The tables -/

/-- The characters of some keys with successive codes. -/
abbrev KeyRow := ℕ × String

/-- An entry of a table that is given by its rows; the others are zero. -/
def keyTable (rows : List KeyRow) (code : ℕ) : BitVec 8 :=
  match rows.find? fun r => decide (r.1 ≤ code ∧ code < r.1 + r.2.length) with
  | none => 0
  | some r => BitVec.ofNat 8 (r.2.toList.getD (code - r.1) (Char.ofNat 0)).toNat

def kbdNormal : ℕ → BitVec 8 := keyTable
  [(0x01, "\x1B1234567890-=\x08\tqwertyuiop[]\n"), (0x1E, "asdfghjkl;'`"), (0x2B, "\\zxcvbnm,./"),
    (0x39, " ")]

def kbdShifted : ℕ → BitVec 8 := keyTable
  [(0x01, "\x1B!@#$%^&*()_+\x08\tQWERTYUIOP\x7b\x7d\n"), (0x1E, "ASDFGHJKL:\"~"), (0x2B, "|ZXCVBNM<>?"),
    (0x39, " ")]

/-! ## The decoder -/

structure KbdState extends Kbd where
  shiftL : Bool
  shiftR : Bool
  caps : Bool
  e0 : Bool

namespace KbdState

/-- The character of a key, `none` for a key without one. Letters are those with a lower-case
letter in the first table. -/
def keyChar (s : KbdState) (code : BitVec 8) : Option (BitVec 8) :=
  let base := kbdNormal code.toNat
  let shift := s.shiftL || s.shiftR
  if base = 0 then none
  else if 0x61 ≤ base.toNat ∧ base.toNat ≤ 0x7A then
    some (if shift ^^ s.caps then kbdShifted code.toNat else base)
  else
    let c := if shift then kbdShifted code.toNat else base
    some (if c = 0 then base else c)

def push (s : KbdState) (c : BitVec 8) : KbdState := { s with toKbd := s.kbdPush c }

def kbdHandleCode (s : KbdState) (code : BitVec 8) : KbdState :=
  if code = 0xE0 then { s with e0 := true }
  else if s.e0 then { s with e0 := false }
  else if code &&& 0x80 ≠ 0 then
    let press := code &&& 0x7F
    let s := if press = 0x2A then { s with shiftL := false } else s
    if press = 0x36 then { s with shiftR := false } else s
  else if code = 0x2A then { s with shiftL := true }
  else if code = 0x36 then { s with shiftR := true }
  else if code = 0x3A then { s with caps := !s.caps }
  else if 128 ≤ code.toNat then s
  else (s.keyChar code).elim s s.push

/-- The character that `kbd_handle_code` gives to `kbd_push`. -/
def pushed (s : KbdState) (code : BitVec 8) : Option (BitVec 8) :=
  if code = 0xE0 ∨ s.e0 ∨ code &&& 0x80 ≠ 0 ∨ code = 0x2A ∨ code = 0x36 ∨ code = 0x3A then none
  else s.keyChar code

def kbdInit (buf : ℕ → BitVec 8) : KbdState :=
  ⟨⟨buf, 0, 0, Kbd.kbdBufSize_pos, Kbd.kbdBufSize_pos⟩, false, false, false, false⟩

def handleAll (s : KbdState) (codes : List (BitVec 8)) : KbdState := codes.foldl kbdHandleCode s

/-- The loop of `kbd_irq_handler` with the bytes that the controller has to offer: what it leaves
of them and the new state. -/
def kbdIrqHandler (s : KbdState) (offered : List (BitVec 8)) : ℕ → List (BitVec 8) × KbdState
  | 0 => (offered, s)
  | rounds + 1 =>
    match offered with
    | [] => ([], s)
    | code :: offered => kbdIrqHandler (s.kbdHandleCode code) offered rounds

/-- All characters that are given to `kbd_push`. -/
def pushedAll : KbdState → List (BitVec 8) → List (BitVec 8)
  | _, [] => []
  | s, code :: codes => (s.pushed code).toList ++ pushedAll (s.kbdHandleCode code) codes

end KbdState

/-- `codes` without the groups of bytes `0xE0` and the byte behind each group. -/
def withoutExtended : List (BitVec 8) → List (BitVec 8)
  | [] => []
  | code :: codes =>
    if code = 0xE0 then withoutExtended (codes.dropWhile (· == 0xE0)).tail
    else code :: withoutExtended codes
termination_by codes => codes.length
decreasing_by
  · have hdrop := (List.dropWhile_suffix (l := codes) (· == (0xE0 : BitVec 8))).length_le
    simp only [List.length_tail, List.length_cons]
    omega
  · simp

namespace KbdState

variable {s s' : KbdState} {code : BitVec 8} {codes : List (BitVec 8)}

/-! ## Extended keys -/

theorem kbdHandleCode_e0 (s : KbdState) : s.kbdHandleCode 0xE0 = { s with e0 := true } := if_pos rfl

/-- The byte behind the prefix is swallowed. -/
theorem kbdHandleCode_swallow (h : s.e0 = true) (hc : code ≠ 0xE0) :
    s.kbdHandleCode code = { s with e0 := false } ∧ s.pushed code = none := by
  rw [kbdHandleCode, if_neg hc, if_pos h, pushed, if_pos (by simp [h])]
  exact ⟨rfl, rfl⟩

/-- The break code of a key is its make code with the highest bit. -/
theorem break_codes : ∀ code : BitVec 8, code &&& 0x80 ≠ 0 →
    (code &&& 0x7F = 0x2A ↔ code = 0xAA) ∧ (code &&& 0x7F = 0x36 ↔ code = 0xB6) ∧
      code ≠ 0x2A ∧ code ≠ 0x36 ∧ code ≠ 0x3A := by
  decide

theorem make_codes : ∀ code : BitVec 8, ¬code &&& 0x80 ≠ 0 → code ≠ 0xAA ∧ code ≠ 0xB6 := by
  decide

/-- What one byte does to the latches. -/
structure Latches (s : KbdState) (code : BitVec 8) (s' : KbdState) : Prop where
  e0 : s'.e0 = false
  shiftL : s'.shiftL = if code = 0x2A then true else if code = 0xAA then false else s.shiftL
  shiftR : s'.shiftR = if code = 0x36 then true else if code = 0xB6 then false else s.shiftR
  caps : s'.caps = if code = 0x3A then !s.caps else s.caps

/-- The other bytes leave the latches as they are. -/
theorem Latches.of_eq (h : s'.e0 = false) (hl : s'.shiftL = s.shiftL) (hr : s'.shiftR = s.shiftR)
    (hcaps : s'.caps = s.caps) (h2A : code ≠ 0x2A) (hAA : code ≠ 0xAA) (h36 : code ≠ 0x36)
    (hB6 : code ≠ 0xB6) (h3A : code ≠ 0x3A) : s.Latches code s' where
  e0 := h
  shiftL := by rw [hl, if_neg h2A, if_neg hAA]
  shiftR := by rw [hr, if_neg h36, if_neg hB6]
  caps := by rw [hcaps, if_neg h3A]

theorem latches_kbdHandleCode (h : s.e0 = false) (hc : code ≠ 0xE0) :
    s.Latches code (s.kbdHandleCode code) := by
  unfold kbdHandleCode
  rw [if_neg hc, if_neg (by simp [h])]
  by_cases hbreak : code &&& 0x80 ≠ 0
  · obtain ⟨hl, hr, h2A, h36, h3A⟩ := break_codes code hbreak
    rw [if_pos hbreak]
    simp only [hl, hr]
    by_cases hAA : code = 0xAA
    · subst hAA
      exact ⟨h, rfl, rfl, rfl⟩
    · by_cases hB6 : code = 0xB6
      · subst hB6
        exact ⟨h, rfl, rfl, rfl⟩
      · rw [if_neg hAA, if_neg hB6]
        exact .of_eq h rfl rfl rfl h2A hAA h36 hB6 h3A
  · obtain ⟨hAA, hB6⟩ := make_codes code hbreak
    rw [if_neg hbreak]
    split_ifs with h2A h36 h3A
    · subst h2A
      exact ⟨h, rfl, rfl, rfl⟩
    · subst h36
      exact ⟨h, rfl, rfl, rfl⟩
    · subst h3A
      exact ⟨h, rfl, rfl, rfl⟩
    · exact .of_eq h rfl rfl rfl h2A hAA h36 hB6 h3A
    · cases s.keyChar code <;> exact .of_eq h rfl rfl rfl h2A hAA h36 hB6 h3A

/-- Behind a byte `0xE0` nothing happens up to the end of the group. -/
theorem handleAll_group (s : KbdState) (h : codes.dropWhile (· == 0xE0) = []) :
    handleAll { s with e0 := true } codes = { s with e0 := true } ∧
      pushedAll { s with e0 := true } codes = [] := by
  induction codes with
  | nil => exact ⟨rfl, rfl⟩
  | cons code codes ih =>
    by_cases hc : code = 0xE0
    · subst hc
      have hrest : codes.dropWhile (· == 0xE0) = [] := by simpa using h
      have hnone : pushed { s with e0 := true } 0xE0 = none := if_pos (.inl rfl)
      rw [handleAll, List.foldl_cons, pushedAll, hnone, kbdHandleCode_e0]
      exact ih hrest
    · rw [List.dropWhile_cons_of_neg (by simpa using hc)] at h
      exact absurd h (List.cons_ne_nil _ _)

/-- The group ends with a byte that is swallowed. -/
theorem handleAll_group_end (s : KbdState) {rest : List (BitVec 8)}
    (h : codes.dropWhile (· == 0xE0) = code :: rest) :
    handleAll { s with e0 := true } codes = handleAll { s with e0 := false } rest ∧
      pushedAll { s with e0 := true } codes = pushedAll { s with e0 := false } rest := by
  induction codes with
  | nil => exact absurd h.symm (List.cons_ne_nil _ _)
  | cons c codes ih =>
    by_cases hc : c = 0xE0
    · subst hc
      have hrest : codes.dropWhile (· == 0xE0) = code :: rest := by simpa using h
      have hnone : pushed { s with e0 := true } 0xE0 = none := if_pos (.inl rfl)
      rw [handleAll, List.foldl_cons, pushedAll, hnone, kbdHandleCode_e0]
      exact ih hrest
    · rw [List.dropWhile_cons_of_neg (by simpa using hc)] at h
      obtain ⟨rfl, rfl⟩ := List.cons.inj h
      obtain ⟨hstate, hnone⟩ := kbdHandleCode_swallow (s := { s with e0 := true }) rfl hc
      rw [handleAll, List.foldl_cons, pushedAll, hnone, hstate]
      exact ⟨rfl, rfl⟩

/-- Extended keys leave no trace but the fourth latch. -/
theorem handleAll_withoutExtended (h : s.e0 = false) :
    { handleAll s codes with e0 := false } = handleAll s (withoutExtended codes) ∧
      pushedAll s codes = pushedAll s (withoutExtended codes) := by
  have hsame : ∀ s : KbdState, s.e0 = false → { s with e0 := false } = s := by
    intro s hs
    rw [← hs]
  induction codes using withoutExtended.induct generalizing s with
  | case1 =>
    rw [withoutExtended]
    exact ⟨hsame s h, rfl⟩
  | case2 codes ih =>
    have hnone : s.pushed 0xE0 = none := if_pos (.inl rfl)
    rw [withoutExtended, if_pos rfl, handleAll, List.foldl_cons, pushedAll, hnone, kbdHandleCode_e0]
    cases hdrop : codes.dropWhile (· == 0xE0) with
    | nil =>
      obtain ⟨hstate, hpushed⟩ := handleAll_group s hdrop
      rw [handleAll] at hstate
      rw [hstate, hpushed, List.tail_nil, withoutExtended]
      exact ⟨hsame s h, rfl⟩
    | cons c rest =>
      obtain ⟨hstate, hpushed⟩ := handleAll_group_end s hdrop
      rw [hdrop] at ih
      rw [handleAll] at hstate
      rw [hstate, hpushed, hsame s h, List.tail_cons]
      exact ih h
  | case3 code codes hc ih =>
    obtain ⟨hstate, hpushed⟩ := ih (latches_kbdHandleCode h hc).e0
    rw [withoutExtended, if_neg hc, handleAll, List.foldl_cons, pushedAll, hpushed]
    exact ⟨hstate, rfl⟩

/-- The bytes that stay are those of ordinary keys. -/
theorem ne_of_mem_withoutExtended : ∀ c ∈ withoutExtended codes, c ≠ 0xE0 := by
  induction codes using withoutExtended.induct with
  | case1 =>
    rw [withoutExtended]
    exact List.forall_mem_nil _
  | case2 codes ih =>
    rw [withoutExtended, if_pos rfl]
    exact ih
  | case3 code codes hc ih =>
    rw [withoutExtended, if_neg hc]
    exact List.forall_mem_cons.2 ⟨hc, ih⟩

/-! ## Interrupts and characters -/

/-- The interrupt handler decodes the first bytes of the queue and leaves the others. -/
theorem kbdIrqHandler_eq (offered : List (BitVec 8)) (rounds : ℕ) :
    s.kbdIrqHandler offered rounds =
      (offered.drop rounds, handleAll s (offered.take rounds)) := by
  induction rounds generalizing s offered with
  | zero =>
    rw [kbdIrqHandler]
    rfl
  | succ rounds ih =>
    cases offered with
    | nil =>
      rw [kbdIrqHandler]
      rfl
    | cons code offered =>
      rw [kbdIrqHandler]
      exact ih offered

/-- The ring takes the characters of `pushed` and nothing else. -/
theorem kbdHandleCode_toKbd (s : KbdState) (code : BitVec 8) :
    (s.kbdHandleCode code).toKbd = (s.pushed code).elim s.toKbd s.kbdPush := by
  have hlow : ∀ c : BitVec 8, ¬c &&& 0x80 ≠ 0 → ¬128 ≤ c.toNat := by decide
  rw [pushed]
  by_cases hnone : code = 0xE0 ∨ s.e0 ∨ code &&& 0x80 ≠ 0 ∨ code = 0x2A ∨ code = 0x36 ∨ code = 0x3A
  · rw [if_pos hnone]
    unfold kbdHandleCode
    dsimp only
    -- the last branch is the only one with a character, and none of the tests led to it
    split_ifs <;> first | rfl | exact absurd hnone (by simp_all)
  · rw [if_neg hnone]
    simp only [not_or] at hnone
    obtain ⟨hE0, he0, hbreak, h2A, h36, h3A⟩ := hnone
    rw [kbdHandleCode, if_neg hE0, if_neg he0, if_neg hbreak, if_neg h2A, if_neg h36, if_neg h3A,
      if_neg (hlow code hbreak)]
    cases s.keyChar code <;> rfl

theorem handleAll_toKbd (s : KbdState) (codes : List (BitVec 8)) :
    (handleAll s codes).toKbd = (pushedAll s codes).foldl Kbd.kbdPush s.toKbd := by
  induction codes generalizing s with
  | nil => rfl
  | cons code codes ih =>
    rw [handleAll, List.foldl_cons, pushedAll, List.foldl_append]
    refine (ih (s.kbdHandleCode code)).trans ?_
    rw [kbdHandleCode_toKbd]
    cases s.pushed code <;> rfl

/-! ## The latches -/

/-- The last of the two codes of a key decides its latch. -/
def lastIs (make brk : BitVec 8) (codes : List (BitVec 8)) : Prop :=
  (codes.filter fun c => c = make ∨ c = brk).getLast? = some make

theorem lastIs_concat {make brk : BitVec 8} (h : brk ≠ make) (codes : List (BitVec 8))
    (c : BitVec 8) :
    lastIs make brk (codes ++ [c]) ↔
      (if c = make then True else if c = brk then False else lastIs make brk codes) := by
  unfold lastIs
  rw [List.filter_append]
  by_cases hmake : c = make
  · subst hmake
    simp
  · by_cases hbrk : c = brk
    · subst hbrk
      simp [h]
    · simp [hmake, hbrk]

/-- What the latches say about the bytes behind them. -/
structure Remembers (s : KbdState) (codes : List (BitVec 8)) : Prop where
  e0 : s.e0 = false
  shiftL : s.shiftL = true ↔ lastIs 0x2A 0xAA codes
  shiftR : s.shiftR = true ↔ lastIs 0x36 0xB6 codes
  caps : s.caps = true ↔ Odd (codes.count 0x3A)

theorem remembers_kbdInit (buf : ℕ → BitVec 8) : (kbdInit buf).Remembers [] := by
  constructor <;> simp [kbdInit, lastIs]

theorem Remembers.kbdHandleCode (h : s.Remembers codes) (hc : code ≠ 0xE0) :
    (s.kbdHandleCode code).Remembers (codes ++ [code]) := by
  have hlatches := latches_kbdHandleCode h.e0 hc
  constructor
  case e0 => exact hlatches.e0
  case shiftL =>
    rw [hlatches.shiftL, lastIs_concat (by decide), ← h.shiftL]
    split_ifs <;> simp
  case shiftR =>
    rw [hlatches.shiftR, lastIs_concat (by decide), ← h.shiftR]
    split_ifs <;> simp
  case caps =>
    rw [hlatches.caps, List.count_append]
    by_cases h3A : code = 0x3A
    · rw [if_pos h3A, h3A, List.count_singleton_self, Nat.odd_add_one, ← h.caps]
      simp
    · have hcount : [code].count 0x3A = 0 :=
        List.count_eq_zero_of_not_mem (by simpa using Ne.symm h3A)
      rw [if_neg h3A, hcount]
      exact h.caps

/-- The latches after a run, by induction on its last byte. -/
theorem remembers_handleAll (buf : ℕ → BitVec 8) (hc : ∀ c ∈ codes, c ≠ 0xE0) :
    (handleAll (kbdInit buf) codes).Remembers codes := by
  induction codes using List.reverseRecOn with
  | nil => exact remembers_kbdInit buf
  | append_singleton codes code ih =>
    rw [List.forall_mem_append] at hc
    rw [handleAll, List.foldl_append]
    exact (ih hc.1).kbdHandleCode (hc.2 code List.mem_cons_self)

/-- **Decoding.** Extended keys change neither the characters nor the latches, and the latches
are those of the bytes that remain without them. -/
theorem decoding_ignores_extended (buf : ℕ → BitVec 8) (codes : List (BitVec 8)) :
    pushedAll (kbdInit buf) codes = pushedAll (kbdInit buf) (withoutExtended codes) ∧
      let s := handleAll (kbdInit buf) codes
      let rest := withoutExtended codes
      let s' := handleAll (kbdInit buf) rest
      s.toKbd = (pushedAll (kbdInit buf) codes).foldl Kbd.kbdPush (kbdInit buf).toKbd ∧
      (s.shiftL = s'.shiftL ∧ s.shiftR = s'.shiftR ∧ s.caps = s'.caps) ∧
      (s'.shiftL = true ↔ lastIs 0x2A 0xAA rest) ∧
      (s'.shiftR = true ↔ lastIs 0x36 0xB6 rest) ∧
      (s'.caps = true ↔ Odd (rest.count 0x3A)) := by
  have hinit : (kbdInit buf).e0 = false := rfl
  refine ⟨(handleAll_withoutExtended hinit).2, ?_⟩
  intro s rest s'
  have hrest : ∀ c ∈ rest, c ≠ 0xE0 := ne_of_mem_withoutExtended
  have hs : { s with e0 := false } = s' := (handleAll_withoutExtended hinit).1
  have hmem := remembers_handleAll buf hrest
  refine ⟨handleAll_toKbd _ _, ?_, hmem.shiftL, hmem.shiftR, hmem.caps⟩
  rw [← hs]
  exact ⟨rfl, rfl, rfl⟩

end KbdState

end Nyvela
