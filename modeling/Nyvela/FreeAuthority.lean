import Nyvela.IdentityMap

/-!
# Who may free a frame

`sys_free_page` and `sys_unmmap_and_free` free whatever address the last-level
entry holds, without a look at its flags.
-/

namespace Nyvela.Vmm

section

variable {v : Vmm} {cr3 virt : Word}

/-- User code reaches the frame in the entry that the kernel's walk finds. -/
theorem userFrame_eq_some {f : ℕ} (h : v.userFrame cr3 virt = some f) :
    ∃ pt i, v.kgetPteAddrAt cr3 virt = some (pt, i) ∧ Pte.frame (v.mem.entry pt i) = f ∧
      Pte.present (v.mem.entry pt i) = true ∧ Pte.user (v.mem.entry pt i) = true := by
  simp only [userFrame] at h
  split_ifs at h with hopen
  simp only [Bool.and_eq_true] at hopen
  obtain ⟨⟨⟨h4, h3⟩, h2⟩, h1⟩ := hopen
  refine ⟨_, _, ?_, Option.some.inj h, h1⟩
  simp only [kgetPteAddrAt, h4.1, h3.1, h2.1, Bool.not_true, Bool.false_eq_true, if_false]

/-- User code reaches nothing in `[0x600000, 0x800000)`. -/
theorem Layout.userFrame_kernelOnly {own : ℕ → Option Owner} {shared : ℕ → ℕ}
    {spaces : List Space} {sp : Space} (h : v.Layout own shared spaces) (hsp : sp ∈ spaces)
    (hcr3 : Pte.frame cr3 = sp.pml4) (hvirt : virt.toNat / 2 ^ 21 = 3) :
    v.userFrame cr3 virt = none := by
  rw [Option.eq_none_iff_forall_ne_some]
  intro f hf
  obtain ⟨pt, i, hwalk, -, -, huser⟩ := userFrame_eq_some hf
  rw [h.kgetPteAddrAt hsp hcr3 (by omega), hvirt] at hwalk
  obtain ⟨rfl, rfl⟩ := Prod.mk.inj (Option.some.inj hwalk)
  rw [show sp.pt shared 3 = sp.pt3 from rfl, h.kernelOnly sp hsp _ (Pte.ptIndex_lt virt)] at huser
  exact Bool.false_ne_true huser

end

end Nyvela.Vmm
