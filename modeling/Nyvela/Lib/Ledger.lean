import Mathlib.Data.Set.Insert
import Mathlib.Data.List.Perm.Basic
import Mathlib.Data.List.Nodup

/-!
# Who has what

Of the things in use, a component has those on its list, each once, and the rest of the
system has the others. Taking and giving back keep the books exact.
-/

namespace Nyvela

variable {α : Type*}

/-- `held` are the things in use that do not belong to the rest. -/
structure Ledger (used rest : Set α) (held : List α) : Prop where
  nodup : held.Nodup
  apart : ∀ a ∈ held, a ∉ rest
  mem_used : ∀ a, a ∈ used ↔ a ∈ rest ∨ a ∈ held

namespace Ledger

variable {used used' rest : Set α} {held held' : List α} {a : α}

theorem used_of_held (h : Ledger used rest held) (ha : a ∈ held) : a ∈ used :=
  (h.mem_used a).mpr (.inr ha)

theorem take (h : Ledger used rest held) (ha : a ∉ used) (hused : used' = insert a used) :
    Ledger used' rest (a :: held) where
  nodup := List.nodup_cons.mpr ⟨fun hmem => ha (h.used_of_held hmem), h.nodup⟩
  apart := by
    rintro b hb hrest
    rcases List.mem_cons.mp hb with rfl | hb
    · exact ha ((h.mem_used b).mpr (.inl hrest))
    · exact h.apart b hb hrest
  mem_used b := by
    rw [hused, Set.mem_insert_iff, h.mem_used, List.mem_cons]
    tauto

theorem give (h : Ledger used rest (a :: held)) (hused : used' = used \ {a}) :
    Ledger used' rest held where
  nodup := (List.nodup_cons.mp h.nodup).2
  apart b hb := h.apart b (List.mem_cons_of_mem _ hb)
  mem_used b := by
    have hnot := (List.nodup_cons.mp h.nodup).1
    have hrest := h.apart a List.mem_cons_self
    rw [hused, Set.mem_sdiff, Set.mem_singleton_iff, h.mem_used, List.mem_cons]
    constructor
    · tauto
    · rintro (hb | hb)
      · exact ⟨.inl hb, fun he => hrest (he ▸ hb)⟩
      · exact ⟨.inr (.inr hb), fun he => hnot (he ▸ hb)⟩

theorem perm (h : Ledger used rest held) (hp : held.Perm held') : Ledger used rest held' where
  nodup := hp.nodup_iff.mp h.nodup
  apart b hb := h.apart b (hp.mem_iff.mpr hb)
  mem_used b := by rw [h.mem_used, hp.mem_iff]

/-- The rest takes something too. -/
theorem restTake (h : Ledger used rest held) (ha : a ∉ used) {rest' : Set α}
    (hused : used' = insert a used) (hrest : rest' = insert a rest) : Ledger used' rest' held where
  nodup := h.nodup
  apart b hb := by
    rw [hrest, Set.mem_insert_iff]
    rintro (rfl | hb')
    · exact ha (h.used_of_held hb)
    · exact h.apart b hb hb'
  mem_used b := by
    rw [hused, hrest, Set.mem_insert_iff, Set.mem_insert_iff, h.mem_used]
    tauto

/-- Whatever the rest does, as long as what is held stays in use: it has what it had and
still uses, and what it took. -/
theorem others (h : Ledger used rest held) (hkeep : ∀ a ∈ held, a ∈ used') :
    Ledger used' {a | a ∈ used' ∧ (a ∈ rest ∨ a ∉ used)} held where
  nodup := h.nodup
  apart a ha := by
    rintro ⟨-, hrest | hfree⟩
    · exact h.apart a ha hrest
    · exact hfree (h.used_of_held ha)
  mem_used a := by
    have hused := h.mem_used a
    rw [Set.mem_ofPred_eq]
    constructor
    · tauto
    · rintro (ha | ha)
      · exact ha.1
      · exact hkeep a ha

end Ledger

end Nyvela
