import Nyvela.PageProgress

/-!
# A program's window is its own

The tables on the way to every page of `[0x400000, 0x800000)` belong to one address space,
so calls that edit the window of one address space do not show in another.
-/

namespace Nyvela

open PageTree Vmm

/-- The tables that `kvmm_create_user_pml4` makes for each address space. -/
def windowOwn (p : List ℕ) : Bool := p ∈ [[0], [0, 0], [0, 0, 2], [0, 0, 3]]

theorem splits_windowOwn : Splits windowOwn where
  pdpt := by decide
  pd := by decide
  pt2 := by decide
  pt3 := by decide
  rest i h2 h3 := by simp [windowOwn, h2, h3]

theorem unshared_windowOwn (v : Vmm) (cr3 : Word) : Unshared windowOwn v cr3 where
  pml4 i _ h0 hown := by simp [windowOwn, h0] at hown
  pdpt i _ h0 hown := by simp [windowOwn, h0] at hown

/-- Other address spaces see what they saw if only private tables of `cr3` have changed. -/
theorem Vmm.Edits.access_eq {own : List ℕ → Bool} {v w : Vmm} {kind kind' : ℕ → Option Kind}
    {roots : List ℕ} {r t : ℕ} (he : Edits v kind w kind' fun K _ => K.PrivateTo t)
    (h : Tables own v kind roots) (hr : r ∈ roots) (hne : r ≠ t) (virt : Word) :
    access w.mem r (path virt) = access v.mem r (path virt) :=
  h.forest.access_of_ne hr hne (fun f K hf hK j hj => he.entries f K hf j hj hK) virt

namespace PageState

theorem spares_of_sparesTables {s : PageState} {op : PageOp} (h : SparesTables s op) :
    Spares windowOwn s op := ⟨h, fun cr3 _ => unshared_windowOwn s.vmm cr3⟩

theorem exists_inv {s : PageState} (h : (pageSystem.restrict SparesTables).Reachable s) :
    ∃ kind, Inv windowOwn s kind := by
  apply inv_of_reachable splits_windowOwn
  induction h with
  | init hs => exact .init hs
  | step _ hs ih => exact ih.step ⟨spares_of_sparesTables hs.1, hs.2⟩

theorem Inv.eq_of_frame {own : List ℕ → Bool} {s : PageState} {kind : ℕ → Option Kind}
    (h : Inv own s kind) {r r' : Word} (hr : r ∈ s.roots) (hr' : r' ∈ s.roots)
    (heq : Pte.frame r = Pte.frame r') : r = r' := by
  rw [← h.aligned r hr, ← h.aligned r' hr', Pte.addr_eq_ofFrame, Pte.addr_eq_ofFrame, heq]

/-- The calls on user memory map and unmap in the window of their caller only. -/
theorem window_of_touches {s : PageState} {op : VmOp} {cr3 cr3' virt : Word} (hop : op.Window cr3)
    (h : PageOp.Clears s (.call op) cr3' virt ∨
      ∃ phys flags, PageOp.Maps s (.call op) cr3' virt phys flags) :
    cr3' = cr3 ∧ 0x400000 ≤ virt.toNat ∧ virt.toNat < 0x700000 := by
  obtain h | ⟨phys, flags, h⟩ := h
  · cases h with
    | sysUnmmap hok => exact ⟨hop, userPageOk_bounds hok⟩
    | sysFreePage hok => exact ⟨hop, userPageOk_bounds hok⟩
    | sysUnmmapAndFree hok => exact ⟨hop, userPageOk_bounds hok⟩
  · cases h with
    | sysAllocPage h0 _ =>
      obtain ⟨hlow, hhigh⟩ := userFindFreePage_bounds h0
      exact ⟨hop, by omega, hhigh⟩
    | sysMmap _ hok => exact ⟨hop, userPageOk_bounds hok⟩

/-- What such a call does to the tables. -/
theorem Inv.window {s : PageState} {kind : ℕ → Option Kind} (h : Inv windowOwn s kind) {op : VmOp}
    {t : VmState} {cr3 : Word} (hop : op.Window cr3) (hok : SparesTables s (.call op))
    (hstep : VmState.Step s.toVmState op t) : t.roots = s.roots ∧ cr3 ∈ s.roots ∧
      ∃ kind', Edits s.vmm kind t.vmm kind' fun K _ => K.PrivateTo (Pte.frame cr3) := by
  have hsrc : (PageOp.call op).source = none := by
    cases op with
    | kvmmCreateUserPml4 => exact hop.elim
    | _ => rfl
  have hr : cr3 ∈ s.roots := by
    cases hstep with
    | kvmmCreateUserPml4 => exact hop.elim
    | sysAllocPage hr | sysMmap hr | sysUnmmap hr | sysFreePage hr | sysUnmmapAndFree hr =>
      exact (show _ = cr3 from hop) ▸ hr
  obtain ⟨hroots, -, kind', -, hp⟩ := h.performed (.call hstep) hsrc hok
  refine ⟨hroots, hr, kind', hp.toEdits.mono ?_⟩
  rintro K j ⟨cr3', virt, htouch, hon⟩
  obtain ⟨rfl, hlow, hhigh⟩ := window_of_touches hop htouch
  exact hon.privateTo (splits_windowOwn.ownPath hlow (by omega))

end PageState

end Nyvela
