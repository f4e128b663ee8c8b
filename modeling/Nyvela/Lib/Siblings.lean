import Mathlib.Data.List.Infix
import Nyvela.Lib.Chain

/-!
# Trees of linked cells

Each cell points to its first child and to its next sibling. `Shows` says that following these
pointers from a cell visits a given finite tree; that no cell is met twice is a property of its
list of nodes. Cells whose paths from the root are distinct and of bounded length show such a
tree.
-/

namespace Nyvela

variable {α β : Type*} {null : α} {child next : α → α}

/-- A first cell with what hangs below it, and the cells after it. -/
inductive Siblings (α : Type*)
  | nil
  | node (n : α) (kids rest : Siblings α)

namespace Siblings

def nodes : Siblings α → List α
  | nil => []
  | node n kids rest => n :: (kids.nodes ++ rest.nodes)

def Shows (null : α) (child next : α → α) : α → Siblings α → Prop
  | p, nil => p = null
  | p, node n kids rest =>
    p = n ∧ n ≠ null ∧ Shows null child next (child n) kids ∧ Shows null child next (next n) rest

/-- Cells with distinct paths, each one step longer than the path of the parent. -/
structure Layout (null : α) (child next : α → α) (P : α → Prop) (path : α → List β) : Prop where
  inj : ∀ m n, P m → P n → path m = path n → m = n
  kids : ∀ n, P n →
    ∃ l, IsChain null next (child n) l ∧ ∀ c ∈ l, P c ∧ ∃ b, path c = path n ++ [b]

theorem Layout.exists_shows {P : α → Prop} {path : α → List β}
    (h : Layout null child next P path) {d k : ℕ} (hd : ∀ n, P n → (path n).length < k + d)
    {p : α} {l : List α} (hl : IsChain null next p l)
    (hk : ∀ c ∈ l, P c ∧ (path c).length = k) :
    ∃ t, Shows null child next p t ∧ t.nodes.Nodup ∧
      ∀ m ∈ t.nodes, P m ∧ ∃ c ∈ l, path c <+: path m := by
  induction d generalizing k p l with
  | zero =>
    cases l with
    | nil => exact ⟨nil, hl, List.nodup_nil, fun m hm => by simp [nodes] at hm⟩
    | cons c l =>
      obtain ⟨hc, hlen⟩ := hk c (by simp)
      have := hd c hc
      omega
  | succ d ihd =>
    induction l generalizing p with
    | nil => exact ⟨nil, hl, List.nodup_nil, fun m hm => by simp [nodes] at hm⟩
    | cons c l ihl =>
      obtain ⟨hc, hlen⟩ := hk c (by simp)
      obtain ⟨lk, hlk, hkids⟩ := h.kids c hc
      have hkids' : ∀ e ∈ lk, P e ∧ (path e).length = k + 1 := by
        intro e he
        obtain ⟨hPe, b, hb⟩ := hkids e he
        exact ⟨hPe, by rw [hb, List.length_append, hlen]; rfl⟩
      obtain ⟨tk, hst, hndk, hmk⟩ := ihd (fun n hn => by have := hd n hn; omega) hlk hkids'
      obtain ⟨tr, hsr, hndr, hmr⟩ := ihl hl.2.2 fun e he => hk e (List.mem_cons_of_mem _ he)
      -- what hangs below `c` has a path that goes on from that of `c`
      have hbelow : ∀ m ∈ tk.nodes, P m ∧ path c <+: path m ∧ k < (path m).length := by
        intro m hm
        obtain ⟨hPm, e, he, hpre⟩ := hmk m hm
        obtain ⟨-, b, hb⟩ := hkids e he
        refine ⟨hPm, List.IsPrefix.trans ⟨[b], hb.symm⟩ hpre, ?_⟩
        have := hpre.length_le
        have := (hkids' e he).2
        omega
      have hnot : ∀ m, path c <+: path m → ∀ e ∈ l, ¬path e <+: path m := by
        intro m hcm e he hem
        obtain ⟨hPe, hle⟩ := hk e (List.mem_cons_of_mem _ he)
        have heq : path c = path e :=
          List.IsPrefix.eq_of_length (List.prefix_of_prefix_length_le hcm hem (by omega))
            (by omega)
        exact (List.nodup_cons.mp hl.nodup).1 (h.inj c e hc hPe heq ▸ he)
      refine ⟨node c tk tr, ⟨hl.1, hl.2.1, hst, hsr⟩, ?_, ?_⟩
      · refine List.nodup_cons.mpr ⟨?_, List.nodup_append.mpr ⟨hndk, hndr, ?_⟩⟩
        · intro hmem
          rcases List.mem_append.mp hmem with hm | hm
          · have := (hbelow c hm).2.2
            omega
          · obtain ⟨-, e, he, hpre⟩ := hmr c hm
            exact hnot c (List.prefix_refl _) e he hpre
        · rintro a ha b hb rfl
          obtain ⟨-, e, he, hpre⟩ := hmr a hb
          exact hnot a (hbelow a ha).2.1 e he hpre
      · intro m hm
        rcases List.mem_cons.mp hm with rfl | hm
        · exact ⟨hc, m, by simp, List.prefix_refl _⟩
        rcases List.mem_append.mp hm with hm | hm
        · exact ⟨(hbelow m hm).1, c, by simp, (hbelow m hm).2.1⟩
        · obtain ⟨hPm, e, he, hpre⟩ := hmr m hm
          exact ⟨hPm, e, List.mem_cons_of_mem _ he, hpre⟩

end Siblings

end Nyvela
