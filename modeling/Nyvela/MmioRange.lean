import Nyvela.DeviceMemory
import Nyvela.PageMap

/-!
# A range of device pages (`sys_map_mmio` in `src/syscall/syscall.c`)

The first loop of `sys_map_mmio` checks every page of the range, the second one maps them
and makes tables as it goes. A page that the first loop has found free is still free when
the second one comes to it.
-/

namespace Nyvela.Vmm

open PageTree

/-- The pages of a range map the frames of another, and the rest is as it was. -/
structure MapsRange (v w : Vmm) (r : ℕ) (virt phys flags : Word) (n : ℕ) : Prop where
  entry : ∀ i < n, ∃ e, leaf w.mem r (pageAddr virt i) = some e ∧
    Pte.addr e = Pte.addr (pageAddr phys i) ∧ e &&& 0xFFF = flags
  other : ∀ a : Word, (∀ i < n, ¬SamePage a (pageAddr virt i)) → leaf w.mem r a = leaf v.mem r a
  tree : TreeOk w.mem r
  outside : Outside w r

section

variable {v w : Vmm} {cr3 virt phys : Word} {n : ℕ}

theorem samePage_pageAddr {i j : ℕ} (hi : virt.toNat + i * 4096 < 2 ^ 48)
    (hj : virt.toNat + j * 4096 < 2 ^ 48) (h : SamePage (pageAddr virt i) (pageAddr virt j)) :
    i = j := by
  have hlt : ∀ {k : ℕ}, virt.toNat + k * 4096 < 2 ^ 48 → virt.toNat + k * 4096 < 2 ^ 64 :=
    fun hk => hk.trans (by decide)
  have hi' := pageAddr_toNat (hlt hi)
  have hj' := pageAddr_toNat (hlt hj)
  rw [samePage_iff (hi' ▸ hi) (hj' ▸ hj), hi', hj'] at h
  omega

/-- One more page. -/
theorem MapsRange.succ {u : Vmm} {flags : Word} (h : MapsRange v u (Pte.frame cr3) virt phys flags n)
    (hp : Pte.present flags = true) (hlt : flags.toNat < 0x1000)
    (hvirt : virt.toNat + n * 4096 < 2 ^ 48)
    (hmap : u.kvmmapAt cr3 (pageAddr virt n) (pageAddr phys n) flags = some w) :
    MapsRange v w (Pte.frame cr3) virt phys flags (n + 1) := by
  have hu := h.tree.stands h.outside
  obtain ⟨kind', t, hw, hat, hlinks⟩ := hu.kvmmapAt (List.mem_singleton_self _) hmap
  have hpage := hat.mapsPage h.tree hu hw hlinks hp hlt
  refine ⟨fun i hi => ?_, fun a ha => ?_, hpage.tree, hpage.outside⟩
  · by_cases hin : i = n
    · rw [hin]
      exact hpage.entry
    · obtain ⟨e, he, hrest⟩ := h.entry i (by omega)
      refine ⟨e, (hpage.other _ fun hsame => hin ?_).trans he, hrest⟩
      have hle : virt.toNat + i * 4096 ≤ virt.toNat + n * 4096 :=
        Nat.add_le_add_left (Nat.mul_le_mul_right 4096 (by omega)) _
      exact samePage_pageAddr (hle.trans_lt hvirt) hvirt hsame
  · rw [hpage.other a (ha n (by omega)), h.other a fun i hi => ha i (by omega)]

end

end Nyvela.Vmm
