import Mathlib.Algebra.BigOperators.Ring.Finset
import Mathlib.Algebra.Order.BigOperators.Group.Finset
import Mathlib.Data.Finset.Max
import Mathlib.Data.Multiset.Count
import Mathlib.Data.Nat.Notation
import Mathlib.Tactic.Ring

/-!
# Blocks that are split and never joined

A multiset of block sizes, where a block is split for a request that it exceeds by at least
`g`, and where new blocks come in. As long as a block is only split when every block that fits
the request more tightly is taken, and a block only comes in when every block that is large
enough is taken, a potential that depends on the number of taken blocks pays for every block
that comes in.
-/

namespace Nyvela.Fitting

/-- How many blocks hold a request of `t`. -/
def atLeast (m : Multiset ℕ) (t : ℕ) : ℕ := m.countP (t ≤ ·)

/-- How many blocks hold a request of `a` and are not split for it. -/
def snug (g : ℕ) (m : Multiset ℕ) (a : ℕ) : ℕ := m.countP fun x => a ≤ x ∧ x < a + g

/-- A split for `a` may cost a snug block of every larger request, so `a` weighs more than all
of them together. -/
def weight (A : Finset ℕ) (a : ℕ) : ℕ := 2 ^ (A.filter (a < ·)).card

theorem sum_weight (A : Finset ℕ) : ∑ a ∈ A, weight A a + 1 = 2 ^ A.card := by
  induction A using Finset.induction_on_min with
  | empty => simp
  | insert a s hmin ih =>
    have hnot : a ∉ s := fun ha => lt_irrefl a (hmin a ha)
    have hnew : (insert a s).filter (a < ·) = s := by
      rw [Finset.filter_insert, if_neg (lt_irrefl a), Finset.filter_true_of_mem hmin]
    have hold : ∀ b ∈ s, weight (insert a s) b = weight s b := by
      intro b hb
      rw [weight, Finset.filter_insert, if_neg (hmin b hb).asymm, weight]
    rw [Finset.sum_insert hnot, Finset.sum_congr rfl hold, weight, hnew,
      Finset.card_insert_of_notMem hnot, pow_succ, ← ih]
    ring

theorem sum_weight_above (A : Finset ℕ) (a : ℕ) :
    ∑ b ∈ A.filter (a < ·), weight A b + 1 = weight A a := by
  have hsame : ∀ b ∈ A.filter (a < ·), weight A b = weight (A.filter (a < ·)) b := by
    intro b hb
    have hab : a < b := (Finset.mem_filter.mp hb).2
    have hfilter : A.filter (b < ·) = (A.filter (a < ·)).filter (b < ·) := by
      rw [Finset.filter_filter]
      exact Finset.filter_congr fun c _ => ⟨fun h => ⟨hab.trans h, h⟩, And.right⟩
    rw [weight, hfilter, weight]
  rw [Finset.sum_congr rfl hsame, sum_weight, weight]

/-- What is missing, of every kind of block, to `U + 1` blocks of that kind: `T` are the
requests for which blocks come in, `A` those for which blocks are split. -/
def potential (g U : ℕ) (A T : Finset ℕ) (m : Multiset ℕ) : ℕ :=
  ∑ t ∈ T, (U + 1 - atLeast m t) +
    (T.card + 1) * ∑ a ∈ A, weight A a * (U + 1 - snug g m a)

variable {g U : ℕ} {A T : Finset ℕ}

/-- The potential of no blocks at all. -/
def bound (U : ℕ) (A T : Finset ℕ) : ℕ := (U + 1) * (T.card + (T.card + 1) * 2 ^ A.card)

theorem potential_le (m : Multiset ℕ) : potential g U A T m ≤ bound U A T := by
  have hT : ∑ t ∈ T, (U + 1 - atLeast m t) ≤ T.card * (U + 1) := by
    refine Finset.sum_le_card_nsmul T _ (U + 1) fun t _ => ?_
    omega
  have hA : ∑ a ∈ A, weight A a * (U + 1 - snug g m a) ≤ 2 ^ A.card * (U + 1) := by
    calc ∑ a ∈ A, weight A a * (U + 1 - snug g m a)
        ≤ ∑ a ∈ A, weight A a * (U + 1) :=
          Finset.sum_le_sum fun a _ => Nat.mul_le_mul_left _ (Nat.sub_le _ _)
      _ = (∑ a ∈ A, weight A a) * (U + 1) := (Finset.sum_mul A _ _).symm
      _ ≤ 2 ^ A.card * (U + 1) := Nat.mul_le_mul_right _ (by have := sum_weight A; omega)
  have hA' := Nat.mul_le_mul_left (T.card + 1) hA
  calc potential g U A T m
      ≤ T.card * (U + 1) + (T.card + 1) * (2 ^ A.card * (U + 1)) := Nat.add_le_add hT hA'
    _ = bound U A T := by unfold bound; ring

/-- A split for `a`, made when every snug block of `a` is taken, pays for itself. -/
theorem potential_split {m : Multiset ℕ} {a S r : ℕ} (hg : 0 < g) (ha : a ∈ A)
    (hS : a + g ≤ S) (hsnug : snug g (S ::ₘ m) a ≤ U) :
    potential g U A T (a ::ₘ r ::ₘ m) ≤ potential g U A T (S ::ₘ m) := by
  have hT : ∑ t ∈ T, (U + 1 - atLeast (a ::ₘ r ::ₘ m) t) ≤
      ∑ t ∈ T, (U + 1 - atLeast (S ::ₘ m) t) + T.card := by
    rw [Finset.card_eq_sum_ones, ← Finset.sum_add_distrib]
    refine Finset.sum_le_sum fun t _ => ?_
    simp only [atLeast, Multiset.countP_cons]
    split_ifs <;> omega
  -- the split block may have been snug for larger requests only
  have hpoint : ∀ b ∈ A, weight A b * (U + 1 - snug g (a ::ₘ r ::ₘ m) b) +
      (if b = a then weight A b else 0) ≤
      weight A b * (U + 1 - snug g (S ::ₘ m) b) + if a < b then weight A b else 0 := by
    intro b _
    have hone : ∀ x y : ℕ, x + 1 ≤ y → weight A b * x + weight A b ≤ weight A b * y :=
      fun x y h => (Nat.mul_succ _ _).symm.le.trans (Nat.mul_le_mul_left _ h)
    rcases lt_trichotomy b a with hlt | rfl | hgt
    · rw [if_neg hlt.ne, if_neg hlt.asymm]
      refine Nat.mul_le_mul_left _ ?_
      simp only [snug, Multiset.countP_cons]
      split_ifs <;> omega
    · rw [if_pos rfl, if_neg (lt_irrefl b)]
      refine hone _ _ ?_
      simp only [snug, Multiset.countP_cons] at hsnug ⊢
      split_ifs at hsnug ⊢ <;> omega
    · rw [if_neg hgt.ne', if_pos hgt, Nat.add_zero, ← Nat.mul_succ]
      refine Nat.mul_le_mul_left _ ?_
      simp only [snug, Multiset.countP_cons]
      split_ifs <;> omega
  have hsum := Finset.sum_le_sum hpoint
  rw [Finset.sum_add_distrib, Finset.sum_add_distrib, Finset.sum_ite_eq', if_pos ha,
    ← Finset.sum_filter] at hsum
  have habove := sum_weight_above A a
  have hA : ∑ b ∈ A, weight A b * (U + 1 - snug g (a ::ₘ r ::ₘ m) b) + 1 ≤
      ∑ b ∈ A, weight A b * (U + 1 - snug g (S ::ₘ m) b) := by omega
  have hA' := Nat.mul_le_mul_left (T.card + 1) hA
  rw [Nat.mul_add, Nat.mul_one] at hA'
  unfold potential
  omega

/-- A block that comes in for `t`, when every block of at least `t` is taken, is paid for. -/
theorem potential_grow {m : Multiset ℕ} {t K : ℕ} (ht : t ∈ T) (hK : t ≤ K)
    (hlow : atLeast m t ≤ U) :
    potential g U A T (K ::ₘ m) + 1 ≤ potential g U A T m := by
  have hT : ∑ b ∈ T, (U + 1 - atLeast (K ::ₘ m) b) < ∑ b ∈ T, (U + 1 - atLeast m b) := by
    refine Finset.sum_lt_sum (fun b _ => ?_) ⟨t, ht, ?_⟩
    · simp only [atLeast, Multiset.countP_cons]
      omega
    · simp only [atLeast, Multiset.countP_cons] at hlow ⊢
      rw [if_pos hK]
      omega
  have hA : ∑ b ∈ A, weight A b * (U + 1 - snug g (K ::ₘ m) b) ≤
      ∑ b ∈ A, weight A b * (U + 1 - snug g m b) := by
    refine Finset.sum_le_sum fun b _ => Nat.mul_le_mul_left _ ?_
    simp only [snug, Multiset.countP_cons]
    omega
  have hA' := Nat.mul_le_mul_left (T.card + 1) hA
  unfold potential
  omega

/-! ## Blocks that are taken or free -/

/-- How many blocks are taken. -/
def taken (cells : Multiset (ℕ × Bool)) : ℕ := cells.countP fun c => c.2 = true

theorem countP_le_taken {cells : Multiset (ℕ × Bool)} {p : ℕ → Prop} [DecidablePred p]
    (h : ∀ c ∈ cells, p c.1 → c.2 = true) : (cells.map Prod.fst).countP p ≤ taken cells := by
  unfold taken
  induction cells using Multiset.induction with
  | empty => simp
  | cons c m ih =>
    have hm := ih fun d hd => h d (Multiset.mem_cons_of_mem hd)
    have hc := h c (Multiset.mem_cons_self c m)
    rw [Multiset.map_cons, Multiset.countP_cons, Multiset.countP_cons]
    split_ifs with h1 h2
    · omega
    · exact absurd (hc h1) h2
    · omega
    · omega

end Nyvela.Fitting
