import Nyvela.WindowIsolation

/-!
# Pages handed to another address space

`sys_as_map` maps a page of its caller in another address space. It checks neither that the
caller has the page nor where it is mapped. In the window it changes one page only: there
whatever is open to users is so at all levels, since every call that opens an entry opens
those above it too.
-/

namespace Nyvela

open PageTree Vmm

/-! ## Entries that are open to users -/

/-- In the tables of its own, what is open to users is behind entries that are open. The
entry of the directory for the first gigabyte may be open without. -/
def Nested (m : Memory) (r : ℕ) : Prop :=
  ∀ q t i, windowOwn q = true → descend m r q = some t → i < 512 → q ++ [i] ≠ [0, 0] →
    Pte.present (m.entry t i) = true → Pte.user (m.entry t i) = true →
      ∃ b, access m r q = some (t, true, b)

theorem windowOwn_cases {q : List ℕ} (h : windowOwn q = true) :
    q = [0] ∨ q = [0, 0] ∨ q = [0, 0, 2] ∨ q = [0, 0, 3] := by
  simpa [windowOwn] using h

theorem follow_windowOwn {r : ℕ} {q : List ℕ} (h : windowOwn q = true) :
    (Kind.priv r []).follow windowOwn q = .priv r q := by
  rcases windowOwn_cases h with rfl | rfl | rfl | rfl <;> rfl

theorem lt_of_windowOwn {q : List ℕ} (h : windowOwn q = true) : (∀ i ∈ q, i < 512) ∧ q.length ≤ 3 := by
  rcases windowOwn_cases h with rfl | rfl | rfl | rfl <;> simp

section nested

variable {v w : Vmm} {kind kind' : ℕ → Option Kind} {roots : List ℕ} {e : Effect} {r : ℕ}

theorem Nested.performs (hn : Nested v.mem r) (h : Tables windowOwn v kind roots)
    (ht : Tables windowOwn w kind' roots) (hp : Performs windowOwn e v kind w kind') (hr : r ∈ roots) :
    Nested w.mem r := by
  intro q t i hown hdesc hi hne hpres huser
  obtain ⟨hlt, hlen⟩ := lt_of_windowOwn hown
  have hlen' : (Kind.priv r []).depth + q.length ≤ 3 := by simpa using hlen
  have hkind : kind' t = some (.priv r q) := by
    rw [ht.forest.kind_descend (ht.forest.root r hr) hlt hlen' hdesc, follow_windowOwn hown]
  obtain ⟨hold, hpres', huser'⟩ | ⟨cr3, virt, phys, flags, t', b, -, ⟨l, hl, hK⟩, hacc⟩ :=
    hp.user t _ hkind i hi hpres huser
  · obtain ⟨b, hb⟩ := hn q t i hown (h.forest.descend_of_priv hold).2 hi hne hpres' huser'
    exact ⟨b, h.forest.access_mono hp.opened (h.forest.root r hr) hlt hlen' hb⟩
  · -- the walk of a page that is mapped is opened whole
    obtain ⟨rfl, rfl⟩ := Kind.eq_of_follow hK.symm
    obtain ⟨f, b', hf⟩ := access_take hacc l
    have hl4 : l < 4 := by
      by_contra hge
      rw [List.getElem?_eq_none (by rw [path_length]; omega)] at hl
      exact absurd hl (by simp)
    rw [List.take_take, min_eq_left (by omega)] at hf
    have hft := access_map_fst w.mem (Pte.frame cr3) ((path virt).take l)
    rw [hf, hdesc] at hft
    obtain rfl : f = t := Option.some.inj hft
    exact ⟨b', hf⟩

/-- The tables of an address space have not changed. -/
theorem Nested.of_same (hn : Nested v.mem r) (h : Tables windowOwn v kind roots)
    (hsame : ∀ f, kind f ≠ none → ∀ i < 512, w.mem.entry f i = v.mem.entry f i)
    (hcode : w.codePageCount = v.codePageCount)
    (hused : ∀ f, kind f ≠ none → w.pmm.bitmap.test f = false) (hr : r ∈ roots) : Nested w.mem r :=
  hn.performs (e := ⟨fun _ _ _ _ => False, fun _ _ => False, fun _ => False, fun _ => True⟩) h
    (h.congr hsame hused) (.of_same hcode hsame fun _ _ => .inr trivial) hr

end nested

namespace PageState

/-! ## Along every run -/

/-- The kernel's own tables map the first gigabyte to itself, closed to users. -/
theorem Started.identity {s : PageState} (h : Started s) {i : ℕ} (hi : i < 512) : ∃ t,
    descend s.vmm.mem (Pte.frame 0x9000) [0, 0, i] = some t ∧
      s.vmm.mem.entry (s.vmm.source 0x9000).pd i = Pte.ofFrame t ||| 0x03 ∧ t < 2 ^ 52 ∧
      ∀ j < 512, s.vmm.mem.entry t j = identityEntry i j := by
  obtain ⟨v, cr3, hboot, hinit, hroots, -, -⟩ := h.init
  obtain rfl : (0x9000 : Word) = cr3 := List.singleton_inj.mp (h.roots.symm.trans hroots)
  obtain ⟨-, h4, h3, -, -⟩ := hboot.tables splits_windowOwn hinit
  obtain ⟨t, hlt, hpde, hpte⟩ := hboot.identity hinit hi
  refine ⟨t, (descend_source h4 h3).2.2 i t ?_, hpde, hlt, hpte⟩
  rw [hpde]
  exact leads_ofFrame_or hlt (by decide) (by decide)

end PageState

end Nyvela
