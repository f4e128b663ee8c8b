import Mathlib.Data.List.Rotate

/-!
# Turns in a circle

A search that starts behind the element whose turn it is and goes around the list. The
elements that it finds, in the order in which it finds them, move around by one with every
turn, so as many turns as there are such elements give each its turn once.
-/

namespace Nyvela.RoundRobin

variable {α : Type*} [DecidableEq α] {p : α → Bool} {l U V : List α} {c x : α}

/-- The list from behind `c` on, around to `c`. -/
def after (l : List α) (c : α) : List α := l.rotate (l.idxOf c + 1)

/-- The turn goes to the first element that `p` picks. -/
def next (p : α → Bool) (l : List α) (c : α) : α := ((after l c).find? p).getD c

theorem after_perm (l : List α) (c : α) : (after l c).Perm l := List.rotate_perm ..

theorem after_append (hc : c ∉ U) : after (U ++ c :: V) c = V ++ (U ++ [c]) := by
  have hidx : (U ++ c :: V).idxOf c = U.length := by simp [List.idxOf_append_of_notMem hc]
  have hrotate := List.rotate_append_length_eq (U ++ [c]) V
  rw [after, hidx]
  simpa using hrotate

/-- Where the circle is opened does not matter. -/
theorem after_rotate (hl : l.Nodup) (hx : x ∈ l) (k : ℕ) : after (l.rotate k) x = after l x := by
  obtain ⟨i, hi⟩ : ∃ i, i = (l.rotate k).idxOf x := ⟨_, rfl⟩
  have hlt : i < (l.rotate k).length := by
    rw [hi]
    exact List.idxOf_lt_length_iff.mpr (List.mem_rotate.mpr hx)
  have hget : (l.rotate k)[i] = x := by simp only [hi, List.getElem_idxOf]
  rw [List.getElem_rotate] at hget
  have hidx : l.idxOf x = (i + k) % l.length := by
    rw [← hget]
    exact hl.idxOf_getElem ..
  rw [after, after, ← hi, hidx, List.rotate_rotate, ← List.rotate_rotate l _ 1, List.rotate_mod,
    List.rotate_rotate]
  congr 1
  omega

theorem after_eq (hl : l.Nodup) (h : after l c = U ++ x :: V) : after l x = V ++ (U ++ [x]) := by
  have hperm := after_perm l c
  rw [h] at hperm
  have hx : x ∉ U := by
    have hnodup := hperm.nodup_iff.mpr hl
    exact fun hmem => (List.nodup_append.mp hnodup).2.2 x hmem x List.mem_cons_self rfl
  have hopen := after_rotate hl (hperm.mem_iff.mp (by simp : x ∈ U ++ x :: V)) (l.idxOf c + 1)
  rw [← hopen, ← after, h, after_append hx]

/-- The elements that are picked move around by one. -/
theorem next_cons (hl : l.Nodup) {R : List α} (h : (after l c).filter p = x :: R) :
    next p l c = x ∧ (after l x).filter p = R ++ [x] := by
  have hfind : (after l c).find? p = some x := by rw [← List.head?_filter, h, List.head?_cons]
  refine ⟨by rw [next, hfind, Option.getD_some], ?_⟩
  obtain ⟨hx, U, V, hsplit, hU⟩ := List.find?_eq_some_iff_append.mp hfind
  have hnil : U.filter p = [] := by
    rw [List.filter_eq_nil_iff]
    intro a ha
    simpa using hU a ha
  have hR : V.filter p = R := by
    rw [hsplit, List.filter_append, hnil, List.nil_append, List.filter_cons_of_pos hx] at h
    exact (List.cons.inj h).2
  rw [after_eq hl hsplit, List.filter_append, List.filter_append, hnil, List.nil_append, hR,
    List.filter_cons_of_pos hx, List.filter_nil]

/-- The turns that follow. -/
def turns (p : α → Bool) (l : List α) (c : α) : ℕ → List α
  | 0 => []
  | n + 1 => next p l c :: turns p l (next p l c) n

theorem turns_append (hl : l.Nodup) {Q R : List α} (h : (after l c).filter p = Q ++ R) :
    turns p l c Q.length = Q := by
  induction Q generalizing c R with
  | nil => rfl
  | cons x Q ih =>
    obtain ⟨hnext, hafter⟩ := next_cons hl h
    have hafter' : (after l x).filter p = Q ++ (R ++ [x]) :=
      hafter.trans (List.append_assoc Q R [x])
    rw [List.length_cons, turns, hnext, ih hafter']

/-- Each element that is picked has its turn once. -/
theorem turns_perm (hl : l.Nodup) : (turns p l c (l.filter p).length).Perm (l.filter p) := by
  have hperm := (after_perm l c).filter p
  have hturns := turns_append (R := []) hl (List.append_nil ((after l c).filter p)).symm
  rw [hperm.length_eq] at hturns
  rw [hturns]
  exact hperm

/-! ## Waiting for a turn -/

/-- How many elements come before `x` when it is the turn of `c`. -/
def ahead (l : List α) (c x : α) : ℕ := (after l c).idxOf x

theorem ahead_lt (hx : x ∈ l) : ahead l c x < l.length := by
  rw [← (after_perm l c).length_eq]
  apply List.idxOf_lt_length_iff.mpr
  exact (after_perm l c).mem_iff.mpr hx

/-- An element that is picked comes closer with every turn. -/
theorem ahead_next_lt (hl : l.Nodup) (hx : x ∈ l) (hp : p x = true) (hne : next p l c ≠ x) :
    ahead l (next p l c) x < ahead l c x := by
  have hmem : x ∈ after l c := (after_perm l c).mem_iff.mpr hx
  obtain ⟨y, hfind⟩ : ∃ y, (after l c).find? p = some y := by
    apply Option.isSome_iff_exists.mp
    exact List.find?_isSome.mpr ⟨x, hmem, hp⟩
  have hnext : next p l c = y := by rw [next, hfind, Option.getD_some]
  rw [hnext] at hne ⊢
  obtain ⟨-, U, V, hsplit, hU⟩ := List.find?_eq_some_iff_append.mp hfind
  have hxU : x ∉ U := by
    intro hmemU
    simpa [hp] using hU x hmemU
  have hxV : x ∈ V := by
    rw [hsplit, List.mem_append, List.mem_cons] at hmem
    rcases hmem with hmem | hmem | hmem
    · exact absurd hmem hxU
    · exact absurd hmem.symm hne
    · exact hmem
  rw [ahead, ahead, after_eq hl hsplit, hsplit, List.idxOf_append_of_mem hxV,
    List.idxOf_append_of_notMem hxU, List.idxOf_cons_ne _ hne]
  omega

/-- One that is added at the end comes before `x` at most. -/
theorem ahead_append_le (hc : c ∈ l) (hx : x ∈ l) (z : α) :
    ahead (l ++ [z]) c x ≤ ahead l c x + 1 := by
  obtain ⟨U, V, rfl, hU⟩ := List.eq_append_cons_of_mem hc
  have hopen : U ++ c :: V ++ [z] = U ++ c :: (V ++ [z]) := by simp
  rw [ahead, ahead, hopen, after_append hU, after_append hU]
  by_cases hV : x ∈ V
  · rw [List.idxOf_append_of_mem hV, List.append_assoc, List.idxOf_append_of_mem hV]
    exact Nat.le_succ _
  · rw [List.append_assoc, List.idxOf_append_of_notMem hV, List.idxOf_append_of_notMem hV]
    by_cases hz : z = x
    · rw [hz, List.singleton_append, List.idxOf_cons_self]
      omega
    · rw [List.singleton_append, List.idxOf_cons_ne _ hz]
      omega

theorem idxOf_erase_le {z : α} (hz : z ≠ x) : (l.erase z).idxOf x ≤ l.idxOf x := by
  induction l with
  | nil => exact Nat.le_refl _
  | cons a l ih =>
    by_cases ha : a = z
    · rw [ha, List.erase_cons_head, List.idxOf_cons_ne _ hz]
      exact Nat.le_succ _
    · rw [List.erase_cons_tail (by simpa using ha)]
      by_cases hax : a = x
      · rw [hax, List.idxOf_cons_self]
        exact Nat.zero_le _
      · rw [List.idxOf_cons_ne _ hax, List.idxOf_cons_ne _ hax]
        exact Nat.succ_le_succ ih

theorem after_erase (hl : l.Nodup) (hc : c ∈ l) {z : α} (hz : z ≠ c) :
    after (l.erase z) c = (after l c).erase z := by
  obtain ⟨U, V, rfl, hU⟩ := List.eq_append_cons_of_mem hc
  have hnot : c ∉ U.erase z := fun h => hU (List.mem_of_mem_erase h)
  have hsingle : [c].erase z = [c] := List.erase_of_not_mem (by simpa using hz)
  have hcons : (c :: V).erase z = c :: V.erase z := List.erase_cons_tail (by simpa using hz.symm)
  rw [after_append hU]
  by_cases hzU : z ∈ U
  · have hzV : z ∉ V := by
      intro hzV
      exact (List.nodup_append.mp hl).2.2 z hzU z (List.mem_cons_of_mem c hzV) rfl
    rw [List.erase_append_left _ hzU, after_append hnot, List.erase_append_right _ hzV,
      List.erase_append_left _ hzU]
  · rw [List.erase_append_right _ hzU, hcons, after_append hU]
    by_cases hzV : z ∈ V
    · rw [List.erase_append_left _ hzV]
    · rw [List.erase_append_right _ hzV, List.erase_append_right _ hzU, hsingle,
        List.erase_of_not_mem hzV]

/-- Nobody has to wait longer because another one leaves. -/
theorem ahead_erase_le (hl : l.Nodup) (hc : c ∈ l) {z : α} (hzc : z ≠ c) (hzx : z ≠ x) :
    ahead (l.erase z) c x ≤ ahead l c x := by
  rw [ahead, after_erase hl hc hzc]
  exact idxOf_erase_le hzx

end Nyvela.RoundRobin
