import Mathlib.Data.List.Induction
import Nyvela.Lib.PageMemory
import Nyvela.Lib.Pte

/-!
# Trees of page tables

A tree of tables in memory, four levels deep. Tables have a kind: private to one
root, at a place that `own` picks, or common to all roots. If the entries of every
table lead to tables of the right kind, then what one root sees does not depend on
the private tables of another.
-/

namespace Nyvela.PageTree

/-- The indices of an address, from the top level down. -/
def path (virt : BitVec 64) : List ℕ :=
  [Pte.pml4Index virt, Pte.pdptIndex virt, Pte.pdIndex virt, Pte.ptIndex virt]

/-- The frame that the indices lead to from table `t`; `none` at an entry that is not present. -/
def descend (m : Memory) : ℕ → List ℕ → Option ℕ
  | t, [] => some t
  | t, i :: p =>
    if Pte.present (m.entry t i) then descend m (Pte.frame (m.entry t i)) p else none

/-- The same, with what the entries on the way permit: user mode and writing. -/
def access (m : Memory) : ℕ → List ℕ → Option (ℕ × Bool × Bool)
  | t, [] => some (t, true, true)
  | t, i :: p =>
    if Pte.present (m.entry t i) then
      (access m (Pte.frame (m.entry t i)) p).map fun r =>
        (r.1, Pte.user (m.entry t i) && r.2.1, Pte.writable (m.entry t i) && r.2.2)
    else none

/-- The last entry on the way if all entries are present, and whether all are open to users. -/
def walk (m : Memory) : ℕ → List ℕ → Option (BitVec 64 × Bool)
  | _, [] => none
  | t, [i] =>
    if Pte.present (m.entry t i) then some (m.entry t i, Pte.user (m.entry t i)) else none
  | t, i :: p =>
    if Pte.present (m.entry t i) then
      (walk m (Pte.frame (m.entry t i)) p).map fun r => (r.1, Pte.user (m.entry t i) && r.2)
    else none

inductive Kind
  | priv (root : ℕ) (place : List ℕ)
  | common (depth : ℕ)
  deriving DecidableEq

/-- Levels above: `3` is the depth of a last-level table. -/
def Kind.depth : Kind → ℕ
  | .priv _ p => p.length
  | .common d => d

/-- The kind of the table behind entry `i`. -/
def Kind.child (own : List ℕ → Bool) : Kind → ℕ → Kind
  | .priv r p, i => if own (p ++ [i]) then .priv r (p ++ [i]) else .common (p.length + 1)
  | .common d, _ => .common (d + 1)

/-- The kind of the table that a walk reaches. -/
def Kind.follow (own : List ℕ → Bool) (K : Kind) (p : List ℕ) : Kind := p.foldl (Kind.child own) K

def Kind.PrivateTo (r : ℕ) : Kind → Prop
  | .priv r' _ => r' = r
  | .common _ => False

section kind

variable {own : List ℕ → Bool}

@[simp] theorem Kind.depth_priv (r : ℕ) (p : List ℕ) : (Kind.priv r p).depth = p.length := rfl

@[simp] theorem Kind.depth_common (d : ℕ) : (Kind.common d).depth = d := rfl

@[simp] theorem Kind.depth_child (K : Kind) (i : ℕ) : (K.child own i).depth = K.depth + 1 := by
  cases K with
  | priv r p =>
    simp only [child]
    split_ifs <;> simp [depth]
  | common d => rfl

theorem Kind.ne_of_depth_ne {K K' : Kind} (h : K.depth ≠ K'.depth) : K ≠ K' :=
  fun heq => h (congrArg Kind.depth heq)

theorem Kind.not_privateTo_child {r : ℕ} {K : Kind} (h : ¬K.PrivateTo r) (i : ℕ) :
    ¬(K.child own i).PrivateTo r := by
  cases K with
  | priv r' p =>
    simp only [child]
    split_ifs
    · exact h
    · exact id
  | common d => exact id

theorem Kind.not_privateTo_follow {r : ℕ} {K : Kind} (h : ¬K.PrivateTo r) (p : List ℕ) :
    ¬(K.follow own p).PrivateTo r := by
  induction p generalizing K with
  | nil => exact h
  | cons i p ih => exact ih (Kind.not_privateTo_child h i)

theorem Kind.depth_follow (K : Kind) (p : List ℕ) :
    (K.follow own p).depth = K.depth + p.length := by
  induction p generalizing K with
  | nil => rfl
  | cons i p ih =>
    rw [follow, List.foldl_cons]
    refine (ih (K.child own i)).trans ?_
    rw [depth_child, List.length_cons]
    omega

theorem Kind.follow_append (K : Kind) (p q : List ℕ) :
    K.follow own (p ++ q) = (K.follow own p).follow own q := List.foldl_append ..

/-- A walk on which `own` picks every table. -/
theorem Kind.follow_of_own {r : ℕ} {p : List ℕ} (h : ∀ l < p.length, own (p.take (l + 1)) = true) :
    (Kind.priv r []).follow own p = .priv r p := by
  induction p using List.reverseRecOn with
  | nil => rfl
  | append_singleton p i ih =>
    have hinit : ∀ l < p.length, own (p.take (l + 1)) = true := by
      intro l hl
      have := h l (by rw [List.length_append]; omega)
      rwa [List.take_append_of_le_length (by omega)] at this
    have hlast := h p.length (by simp)
    rw [List.take_of_length_le (by simp)] at hlast
    rw [follow_append, ih hinit, follow, List.foldl_cons, List.foldl_nil, child, if_pos hlast]

/-- A private table is private to the root of any walk that reaches it, at that place. -/
theorem Kind.eq_of_follow {r r' : ℕ} {p q : List ℕ}
    (h : (Kind.priv r []).follow own p = .priv r' q) : r' = r ∧ q = p := by
  induction p using List.reverseRecOn generalizing r' q with
  | nil =>
    injection h with hr hq
    exact ⟨hr.symm, hq.symm⟩
  | append_singleton p i ih =>
    rw [follow_append, follow, List.foldl_cons, List.foldl_nil] at h
    cases hK : (Kind.priv r []).follow own p with
    | common d =>
      rw [hK] at h
      exact Kind.noConfusion h
    | priv r'' q' =>
      obtain ⟨rfl, rfl⟩ := ih hK
      rw [hK, child] at h
      split_ifs at h
      injection h with hr hq
      exact ⟨hr.symm, hq.symm⟩

theorem Kind.child_priv {r i : ℕ} {p : List ℕ} (h : own (p ++ [i]) = true) :
    (Kind.priv r p).child own i = .priv r (p ++ [i]) := if_pos h

end kind

/-- Every table leads to tables of the right kind, and every table is on the walk of a root. -/
structure Forest (own : List ℕ → Bool) (m : Memory) (kind : ℕ → Option Kind) (roots : List ℕ) :
    Prop where
  root : ∀ r ∈ roots, kind r = some (.priv r [])
  child : ∀ f K, kind f = some K → K.depth < 3 → ∀ i < 512,
    Pte.present (m.entry f i) = true → kind (Pte.frame (m.entry f i)) = some (K.child own i)
  linked : ∀ f, kind f ≠ none → ∃ r ∈ roots, ∃ p : List ℕ, (∀ i ∈ p, i < 512) ∧ p.length ≤ 3 ∧
    descend m r p = some f

/-- Two walks of one length part somewhere. -/
theorem exists_split {p p' : List ℕ} (hlen : p.length = p'.length) (hne : p ≠ p') :
    ∃ q i j s s', p = q ++ i :: s ∧ p' = q ++ j :: s' ∧ i ≠ j := by
  induction p generalizing p' with
  | nil => exact absurd (List.eq_nil_of_length_eq_zero hlen.symm).symm hne
  | cons i p ih =>
    cases p' with
    | nil => simp at hlen
    | cons j p' =>
      by_cases hij : i = j
      · subst hij
        obtain ⟨q, k, l, s, s', rfl, rfl, hkl⟩ := ih (by simpa using hlen) fun hc => hne (by rw [hc])
        exact ⟨i :: q, k, l, s, s', rfl, rfl, hkl⟩
      · exact ⟨[], i, j, p, p', rfl, rfl, hij⟩

theorem path_lt {virt : BitVec 64} {i : ℕ} (h : i ∈ path virt) : i < 512 := by
  simp only [path, List.mem_cons, List.not_mem_nil, or_false] at h
  rcases h with rfl | rfl | rfl | rfl
  · exact Pte.pml4Index_lt virt
  · exact Pte.pdptIndex_lt virt
  · exact Pte.pdIndex_lt virt
  · exact Pte.ptIndex_lt virt

theorem path_length (virt : BitVec 64) : (path virt).length = 4 := rfl

section walk

variable {own : List ℕ → Bool} {m m' : Memory} {kind : ℕ → Option Kind} {roots : List ℕ}

theorem access_map_fst (m : Memory) (t : ℕ) (p : List ℕ) :
    (access m t p).map Prod.fst = descend m t p := by
  induction p generalizing t with
  | nil => rfl
  | cons i p ih =>
    simp only [access, descend]
    split_ifs
    · rw [Option.map_map, ← ih]
      rfl
    · rfl

theorem descend_append (m : Memory) (t : ℕ) (p q : List ℕ) :
    descend m t (p ++ q) = (descend m t p).bind fun t' => descend m t' q := by
  induction p generalizing t with
  | nil => rfl
  | cons i p ih =>
    simp only [List.cons_append, descend]
    split_ifs
    · exact ih _
    · rfl

theorem access_append (m : Memory) (t : ℕ) (p q : List ℕ) :
    access m t (p ++ q) = (access m t p).bind fun x =>
      (access m x.1 q).map fun y => (y.1, x.2.1 && y.2.1, x.2.2 && y.2.2) := by
  induction p generalizing t with
  | nil => simp [access]
  | cons i p ih =>
    simp only [List.cons_append, access]
    split_ifs
    · rw [ih, Option.bind_map, Option.map_bind]
      congr 1
      funext x
      simp [Function.comp_def, Bool.and_assoc]
    · rfl

/-- The way to a table on an open way is open. -/
theorem access_take {t f : ℕ} {b : Bool} {p : List ℕ} (h : access m t p = some (f, true, b)) (l : ℕ) :
    ∃ f' b', access m t (p.take l) = some (f', true, b') := by
  rw [← List.take_append_drop l p, access_append] at h
  obtain ⟨⟨f', u, b'⟩, hx, hy⟩ := Option.bind_eq_some_iff.mp h
  obtain ⟨y, -, heq⟩ := Option.map_eq_some_iff.mp hy
  have hu : (u && y.2.1) = true := congrArg (fun z => z.2.1) heq
  rw [Bool.and_eq_true] at hu
  exact ⟨f', b', by rw [hx, hu.1]⟩

/-- The last entry of an open way is open. -/
theorem user_of_access {r t i f : ℕ} {b : Bool} {q : List ℕ} (hq : descend m r q = some t)
    (h : access m r (q ++ [i]) = some (f, true, b)) : Pte.user (m.entry t i) = true := by
  rw [access_append] at h
  obtain ⟨⟨t', u, b'⟩, hx, hy⟩ := Option.bind_eq_some_iff.mp h
  have hfst := access_map_fst m r q
  rw [hx, hq] at hfst
  obtain rfl : t' = t := Option.some.inj hfst
  obtain ⟨y, hz, heq⟩ := Option.map_eq_some_iff.mp hy
  have hu : (u && y.2.1) = true := congrArg (fun z => z.2.1) heq
  simp only [access, Option.map_some] at hz
  split_ifs at hz
  obtain rfl := Option.some.inj hz
  rw [Bool.and_true, Bool.and_eq_true] at hu
  exact hu.2

/-- An open way is longer by an open entry. -/
theorem access_snoc {r t i : ℕ} {b : Bool} {q : List ℕ} (hq : access m r q = some (t, true, b))
    (hp : Pte.present (m.entry t i) = true) (hu : Pte.user (m.entry t i) = true) :
    ∃ b', access m r (q ++ [i]) = some (Pte.frame (m.entry t i), true, b') := by
  rw [access_append, hq]
  simp [access, hp, hu]

theorem walk_of_present {t i : ℕ} (hp : Pte.present (m.entry t i) = true) (j : ℕ) (p : List ℕ) :
    walk m t (i :: j :: p) = (walk m (Pte.frame (m.entry t i)) (j :: p)).map
      fun r => (r.1, Pte.user (m.entry t i) && r.2) := by
  rw [walk, if_pos hp]
  simp

/-- A walk ends with the entry in the table that the indices above lead to. -/
theorem walk_snoc (m : Memory) (t : ℕ) (p : List ℕ) (i : ℕ) :
    walk m t (p ++ [i]) = (access m t p).bind fun x =>
      if Pte.present (m.entry x.1 i) then
        some (m.entry x.1 i, x.2.1 && Pte.user (m.entry x.1 i)) else none := by
  induction p generalizing t with
  | nil => simp [walk, access]
  | cons j p ih =>
    by_cases hpres : Pte.present (m.entry t j) = true
    · obtain ⟨k, q, hq⟩ : ∃ k q, p ++ [i] = k :: q := by cases p <;> exact ⟨_, _, rfl⟩
      rw [List.cons_append, hq, walk_of_present hpres, ← hq, ih, access, if_pos hpres,
        Option.bind_map, Option.map_bind]
      congr 1
      funext x
      simp only [Function.comp_def]
      split_ifs <;> simp [Bool.and_assoc]
    · cases p <;> simp [walk, access, hpres]

/-- What a walk finds is what the rest of it finds from the table in between. -/
theorem walk_append_fst (m : Memory) (t : ℕ) (q : List ℕ) (i : ℕ) (s : List ℕ) :
    (walk m t (q ++ i :: s)).map Prod.fst =
      (descend m t q).bind fun t' => (walk m t' (i :: s)).map Prod.fst := by
  induction q generalizing t with
  | nil => rfl
  | cons j q ih =>
    by_cases hpres : Pte.present (m.entry t j) = true
    · obtain ⟨k, p, hp⟩ : ∃ k p, q ++ i :: s = k :: p := by cases q <;> exact ⟨_, _, rfl⟩
      rw [List.cons_append, hp, walk_of_present hpres, ← hp, Option.map_map, descend, if_pos hpres,
        ← ih]
      rfl
    · cases q <;> simp [walk, descend, hpres]

/-- A walk reads the tables that it passes. -/
theorem walk_congr {t n : ℕ} {p : List ℕ}
    (h : ∀ q f, (∀ i ∈ q, i < 512) → q.length ≤ n → descend m t q = some f →
      ∀ i < 512, m'.entry f i = m.entry f i)
    (hlt : ∀ i ∈ p, i < 512) (hlen : p.length ≤ n + 1) : walk m' t p = walk m t p := by
  induction p generalizing t n with
  | nil => rfl
  | cons i p ih =>
    have hi := hlt i List.mem_cons_self
    have hentry : m'.entry t i = m.entry t i := h [] t (by simp) (by simp) rfl i hi
    cases p with
    | nil => simp only [walk, hentry]
    | cons j p =>
      simp only [walk, hentry]
      split_ifs with hpres
      · rw [List.length_cons] at hlen
        obtain ⟨n, rfl⟩ : ∃ k, n = k + 1 := ⟨n - 1, by rw [List.length_cons] at hlen; omega⟩
        have hrest : ∀ q f, (∀ i ∈ q, i < 512) → q.length ≤ n →
            descend m (Pte.frame (m.entry t i)) q = some f →
              ∀ i < 512, m'.entry f i = m.entry f i := by
          intro q f hq hqlen hf
          refine h (i :: q) f (List.forall_mem_cons.mpr ⟨hi, hq⟩) (by simpa using hqlen) ?_
          rw [descend, if_pos hpres, hf]
        rw [ih hrest (fun k hk => hlt k (List.mem_cons_of_mem _ hk)) (by omega)]
      · rfl

/-- So does the way to a table. -/
theorem descend_congr {t n : ℕ} {p : List ℕ}
    (h : ∀ q f, (∀ i ∈ q, i < 512) → q.length ≤ n → descend m t q = some f →
      ∀ i < 512, m'.entry f i = m.entry f i)
    (hlt : ∀ i ∈ p, i < 512) (hlen : p.length ≤ n + 1) : descend m' t p = descend m t p := by
  induction p generalizing t n with
  | nil => rfl
  | cons i p ih =>
    have hi := hlt i List.mem_cons_self
    have hentry : m'.entry t i = m.entry t i := h [] t (by simp) (by simp) rfl i hi
    rw [List.length_cons] at hlen
    simp only [descend, hentry]
    split_ifs with hpres
    · cases n with
      | zero =>
        obtain rfl : p = [] := List.eq_nil_of_length_eq_zero (by omega)
        rfl
      | succ n =>
        refine ih (n := n) (fun q f hq hqlen hf => ?_) (fun k hk => hlt k (List.mem_cons_of_mem _ hk))
          (by omega)
        refine h (i :: q) f (List.forall_mem_cons.mpr ⟨hi, hq⟩) (by simpa using hqlen) ?_
        rw [descend, if_pos hpres, hf]
    · rfl

/-- A walk reaches tables of the kind that its indices say. -/
theorem Forest.kind_descend (h : Forest own m kind roots) {t f : ℕ} {K : Kind} {p : List ℕ}
    (ht : kind t = some K) (hlt : ∀ i ∈ p, i < 512) (hlen : K.depth + p.length ≤ 3)
    (hp : descend m t p = some f) : kind f = some (K.follow own p) := by
  induction p generalizing t K with
  | nil =>
    obtain rfl := Option.some.inj hp
    exact ht
  | cons i p ih =>
    simp only [descend] at hp
    split_ifs at hp with hpres
    rw [List.length_cons] at hlen
    have hchild := h.child t K ht (by omega) i (hlt i List.mem_cons_self) hpres
    exact ih hchild (fun j hj => hlt j (List.mem_cons_of_mem _ hj))
      (by rw [Kind.depth_child]; omega) hp

/-- A private table is where its kind says. -/
theorem Forest.descend_of_priv (h : Forest own m kind roots) {f r : ℕ} {p : List ℕ}
    (hf : kind f = some (.priv r p)) : r ∈ roots ∧ descend m r p = some f := by
  obtain ⟨r', hr', q, hlt, hlen, hq⟩ := h.linked f (by simp [hf])
  have hkind := h.kind_descend (h.root r' hr') hlt (by simpa using hlen) hq
  obtain ⟨rfl, rfl⟩ := Kind.eq_of_follow (Option.some.inj (hkind.symm.trans hf))
  exact ⟨hr', hq⟩

/-- The tables that a walk passes decide what it sees. They all have `Q` if the first has. -/
theorem Forest.access_congr (h : Forest own m kind roots) {Q : Kind → Prop}
    (hchild : ∀ K i, Q K → Q (K.child own i))
    (hsame : ∀ f K, kind f = some K → Q K → ∀ i < 512, m'.entry f i = m.entry f i)
    {t : ℕ} {K : Kind} {p : List ℕ} (ht : kind t = some K) (hK : Q K) (hlt : ∀ i ∈ p, i < 512)
    (hlen : K.depth + p.length ≤ 4) : access m' t p = access m t p := by
  induction p generalizing t K with
  | nil => rfl
  | cons i p ih =>
    have hi := hlt i List.mem_cons_self
    simp only [access, hsame t K ht hK i hi]
    split_ifs with hpres
    · rw [List.length_cons] at hlen
      cases p with
      | nil => rfl
      | cons j p =>
        rw [List.length_cons] at hlen
        have ht' := h.child t K ht (by omega) i hi hpres
        rw [ih ht' (hchild K i hK) (fun j hj => hlt j (List.mem_cons_of_mem _ hj))
          (by rw [Kind.depth_child, List.length_cons]; omega)]
    · rfl

/-- Another root sees what it saw if only private tables of `r` have changed. -/
theorem Forest.access_of_ne (h : Forest own m kind roots) {r r' : ℕ} (hr' : r' ∈ roots)
    (hne : r' ≠ r)
    (hsame : ∀ f K, kind f = some K → ¬K.PrivateTo r → ∀ i < 512, m'.entry f i = m.entry f i)
    (virt : BitVec 64) : access m' r' (path virt) = access m r' (path virt) :=
  h.access_congr (Q := fun K => ¬K.PrivateTo r) (fun _ i hK => Kind.not_privateTo_child hK i) hsame
    (h.root r' hr') hne (fun _ => path_lt) (Nat.le_refl 4)

/-- So it does with the entries at the end of its walks. -/
theorem Forest.walk_of_ne (h : Forest own m kind roots) {r r' : ℕ} (hr' : r' ∈ roots)
    (hne : r' ≠ r)
    (hsame : ∀ f K, kind f = some K → ¬K.PrivateTo r → ∀ i < 512, m'.entry f i = m.entry f i)
    (virt : BitVec 64) : walk m' r' (path virt) = walk m r' (path virt) := by
  refine walk_congr (n := 3) (fun q f hq hlen hf => ?_) (fun _ => path_lt) (Nat.le_refl 4)
  exact hsame f _ (h.kind_descend (h.root r' hr') hq (by simpa using hlen) hf)
    (Kind.not_privateTo_follow (K := .priv r' []) hne q)

/-- What is linked stays linked while present entries lead to the same tables. -/
theorem Forest.descend_mono (h : Forest own m kind roots)
    (hkeep : ∀ f K, kind f = some K → K.depth < 3 → ∀ i < 512, Pte.present (m.entry f i) = true →
      Pte.present (m'.entry f i) = true ∧ Pte.frame (m'.entry f i) = Pte.frame (m.entry f i))
    {t f : ℕ} {K : Kind} {p : List ℕ} (ht : kind t = some K) (hlt : ∀ i ∈ p, i < 512)
    (hlen : K.depth + p.length ≤ 3) (hp : descend m t p = some f) : descend m' t p = some f := by
  induction p generalizing t K with
  | nil => exact hp
  | cons i p ih =>
    rw [List.length_cons] at hlen
    have hi := hlt i List.mem_cons_self
    simp only [descend] at hp ⊢
    split_ifs at hp with hpres
    obtain ⟨hpres', hframe⟩ := hkeep t K ht (by omega) i hi hpres
    rw [if_pos hpres', hframe]
    exact ih (h.child t K ht (by omega) i hi hpres) (fun j hj => hlt j (List.mem_cons_of_mem _ hj))
      (by rw [Kind.depth_child]; omega) hp

/-- A walk leads where it led while entries are only opened to users. -/
theorem Forest.access_opened (h : Forest own m kind roots)
    (hkeep : ∀ f K, kind f = some K → K.depth < 3 → ∀ i < 512, Pte.present (m.entry f i) = true →
      Pte.Opened (m.entry f i) (m'.entry f i))
    {t f : ℕ} {u b : Bool} {K : Kind} {p : List ℕ} (ht : kind t = some K) (hlt : ∀ i ∈ p, i < 512)
    (hlen : K.depth + p.length ≤ 3) (hp : access m t p = some (f, u, b)) :
    ∃ u', access m' t p = some (f, u', b) ∧ (u = true → u' = true) := by
  induction p generalizing t K u b with
  | nil => exact ⟨u, hp, id⟩
  | cons i p ih =>
    rw [List.length_cons] at hlen
    have hi := hlt i List.mem_cons_self
    simp only [access] at hp ⊢
    split_ifs at hp with hpres
    have hopen := hkeep t K ht (by omega) i hi hpres
    obtain ⟨⟨f', u₁, b₁⟩, hx, heq⟩ := Option.map_eq_some_iff.mp hp
    simp only [Prod.mk.injEq] at heq
    obtain ⟨rfl, rfl, rfl⟩ := heq
    obtain ⟨u₂, hrest, hmono⟩ := ih (h.child t K ht (by omega) i hi hpres)
      (fun j hj => hlt j (List.mem_cons_of_mem _ hj)) (by rw [Kind.depth_child]; omega) hx
    rw [if_pos (hopen.present.trans hpres), hopen.frame, hrest, Option.map_some, hopen.writable]
    refine ⟨_, rfl, fun hu => ?_⟩
    rw [Bool.and_eq_true] at hu ⊢
    exact ⟨hopen.user hu.1, hmono hu.2⟩

/-- So a walk that is open to users stays open. -/
theorem Forest.access_mono (h : Forest own m kind roots)
    (hkeep : ∀ f K, kind f = some K → K.depth < 3 → ∀ i < 512, Pte.present (m.entry f i) = true →
      Pte.Opened (m.entry f i) (m'.entry f i))
    {t f : ℕ} {b : Bool} {K : Kind} {p : List ℕ} (ht : kind t = some K) (hlt : ∀ i ∈ p, i < 512)
    (hlen : K.depth + p.length ≤ 3) (hp : access m t p = some (f, true, b)) :
    access m' t p = some (f, true, b) := by
  obtain ⟨u, hu, hmono⟩ := h.access_opened hkeep ht hlt hlen hp
  rw [hu, hmono rfl]

theorem Forest.linked_mono (h : Forest own m kind roots)
    (hkeep : ∀ f K, kind f = some K → K.depth < 3 → ∀ i < 512, Pte.present (m.entry f i) = true →
      Pte.present (m'.entry f i) = true ∧ Pte.frame (m'.entry f i) = Pte.frame (m.entry f i))
    {f : ℕ} (hf : kind f ≠ none) :
    ∃ r ∈ roots, ∃ p : List ℕ, (∀ i ∈ p, i < 512) ∧ p.length ≤ 3 ∧ descend m' r p = some f := by
  obtain ⟨r, hr, p, hlt, hlen, hp⟩ := h.linked f hf
  exact ⟨r, hr, p, hlt, hlen, h.descend_mono hkeep (h.root r hr) hlt
    (by simpa using hlen) hp⟩

/-- Changes that keep what is linked keep the forest. -/
theorem Forest.congr (h : Forest own m kind roots)
    (hsame : ∀ f K, kind f = some K → K.depth < 3 → ∀ i < 512,
      Pte.present (m'.entry f i) = Pte.present (m.entry f i) ∧
        Pte.frame (m'.entry f i) = Pte.frame (m.entry f i)) :
    Forest own m' kind roots where
  root := h.root
  child f K hf hK i hi hp := by
    obtain ⟨hpres, hframe⟩ := hsame f K hf hK i hi
    rw [hframe]
    exact h.child f K hf hK i hi (hpres ▸ hp)
  linked f hf := by
    apply h.linked_mono _ hf
    intro f K hf hK i hi hp
    obtain ⟨hpres, hframe⟩ := hsame f K hf hK i hi
    exact ⟨hpres.trans hp, hframe⟩

/-- An empty table `g` is linked from an entry that was not present. -/
theorem Forest.link (h : Forest own m kind roots) {t i g : ℕ} {K : Kind} (ht : kind t = some K)
    (hK : K.depth < 3) (hi : i < 512) (habsent : Pte.present (m.entry t i) = false)
    (hg : kind g = none) (hempty : ∀ j < 512, Pte.present (m'.entry g j) = false)
    (hpres : Pte.present (m'.entry t i) = true) (hframe : Pte.frame (m'.entry t i) = g)
    (hothers : ∀ f, f ≠ g → ∀ j < 512, ¬(f = t ∧ j = i) → m'.entry f j = m.entry f j) :
    Forest own m' (Function.update kind g (some (K.child own i))) roots := by
  have hne : ∀ {f : ℕ}, kind f ≠ none → f ≠ g := by
    rintro f hf rfl
    exact hf hg
  have hkeep : ∀ f K, kind f = some K → K.depth < 3 → ∀ j < 512,
      Pte.present (m.entry f j) = true →
        Pte.present (m'.entry f j) = true ∧ Pte.frame (m'.entry f j) = Pte.frame (m.entry f j) := by
    intro f K hf _ j hj hp
    have hfj : ¬(f = t ∧ j = i) := by
      rintro ⟨rfl, rfl⟩
      rw [habsent] at hp
      exact Bool.false_ne_true hp
    rw [hothers f (hne (by simp [hf])) j hj hfj]
    exact ⟨hp, rfl⟩
  constructor
  case root =>
    intro r hr
    have hroot := h.root r hr
    rw [Function.update_of_ne (hne (by simp [hroot])), hroot]
  case child =>
    intro f K' hf hK' j hj hp
    by_cases hfg : f = g
    · rw [hfg, hempty j hj] at hp
      exact absurd hp Bool.false_ne_true
    · rw [Function.update_of_ne hfg] at hf
      by_cases hfj : f = t ∧ j = i
      · obtain ⟨rfl, rfl⟩ := hfj
        rw [hframe, Function.update_self, Option.some.inj (ht.symm.trans hf)]
      · rw [hothers f hfg j hj hfj] at hp ⊢
        have hchild := h.child f K' hf hK' j hj hp
        rw [Function.update_of_ne (hne (by simp [hchild])), hchild]
  case linked =>
    intro f hf
    by_cases hfg : f = g
    · obtain ⟨r, hr, p, hlt, hlen, hp⟩ := h.linked t (by simp [ht])
      have hlen3 : (Kind.priv r []).depth + p.length ≤ 3 := by simpa using hlen
      have hkind := h.kind_descend (h.root r hr) hlt hlen3 hp
      have hdepth : K.depth = p.length := by
        rw [Option.some.inj (ht.symm.trans hkind), Kind.depth_follow]
        simp
      refine ⟨r, hr, p ++ [i], ?_, ?_, ?_⟩
      · intro j hj
        rcases List.mem_append.mp hj with hj | hj
        · exact hlt j hj
        · rw [List.mem_singleton.mp hj]
          exact hi
      · rw [List.length_append, List.length_singleton]
        omega
      · rw [descend_append, h.descend_mono hkeep (h.root r hr) hlt hlen3 hp, Option.bind_some]
        simp only [descend, hpres, hframe, if_true, hfg]
    · rw [Function.update_of_ne hfg] at hf
      exact h.linked_mono hkeep hf

end walk

end Nyvela.PageTree
