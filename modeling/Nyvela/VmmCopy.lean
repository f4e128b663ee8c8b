import Mathlib.Data.List.Perm.Subperm
import Nyvela.Lib.Ensures
import Nyvela.Lib.Numbering
import Nyvela.VmmLayout

/-!
# Copying page tables

Until it fails, `kvmm_create_user_pml4` only takes frames and writes to the frames
that it has taken. What its copy loops make is said here for any table that is
not itself free.
-/

namespace Nyvela.Vmm

/-- From `v` to `w` the frames `taken` are taken and no others; nothing is said of memory. -/
structure Took (v w : Vmm) (taken : List ℕ) : Prop where
  frameCount : w.pmm.frameCount = v.pmm.frameCount
  kernelEnd : w.pmm.kernelEnd = v.pmm.kernelEnd
  codePageCount : w.codePageCount = v.codePageCount
  mmapEntries : w.mmapEntries = v.mmapEntries
  fresh : ∀ f ∈ taken, f ∈ v.pmm.allocatable
  nodup : taken.Nodup
  test : ∀ f, w.pmm.bitmap.test f = (v.pmm.bitmap.test f && decide (f ∉ taken))

/-- `w` comes from `v` by taking frames and writing to them only. -/
structure Ext (v w : Vmm) (taken : List ℕ) : Prop extends Took v w taken where
  bytes : ∀ a, a / 4096 ∉ taken → w.mem a = v.mem a

section ext

variable {v w : Vmm} {taken : List ℕ} {f i : ℕ}

theorem Took.notMem_of_used (h : Took v w taken) (hf : v.pmm.bitmap.test f = false) :
    f ∉ taken := by
  intro hmem
  have hfree : v.pmm.bitmap.test f = true := (h.fresh f hmem).1
  simp [hf] at hfree

theorem Took.notMem_of_notAllocatable (h : Took v w taken) (hf : f ∉ v.pmm.allocatable) :
    f ∉ taken := fun hmem => hf (h.fresh f hmem)

theorem Took.lt (h : Took v w taken) (hf : f ∈ taken) : f < 2 ^ 52 :=
  (h.fresh f hf).2.2.1.trans v.pmm.frameCount_lt

theorem Took.isSharedUserPage (h : Took v w taken) (virt : ℕ) :
    w.isSharedUserPage virt = v.isSharedUserPage virt := by
  simp only [Vmm.isSharedUserPage, h.codePageCount]

theorem Took.mem_allocatable (h : Took v w taken) (hf : f ∈ v.pmm.allocatable) (hnot : f ∉ taken) :
    f ∈ w.pmm.allocatable := by
  refine ⟨?_, ?_, ?_, hf.2.2.2⟩
  · have hfree : v.pmm.bitmap.test f = true := hf.1
    simpa [Pmm.free, h.test, hnot] using hfree
  · simpa only [Pmm.firstPage, h.kernelEnd] using hf.2.1
  · simpa only [h.frameCount] using hf.2.2.1

/-- A frame that `kpalloc` returns on the way is free at the start and new. -/
theorem Took.kpalloc (h : Took v w taken) (hne : w.kpalloc.1 ≠ 0) :
    ∃ f, IsLeast w.pmm.allocatable f ∧ w.kpalloc.1 = Pte.ofFrame f ∧ f ∉ taken ∧
      Took v w.kpalloc.2 (f :: taken) := by
  obtain ⟨f, hleast, heq⟩ := Pmm.kpalloc_eq_some hne
  have hf : f ∈ w.pmm.allocatable := hleast.1
  have htest : (v.pmm.bitmap.test f && decide (f ∉ taken)) = true := (h.test f).symm.trans hf.1
  rw [Bool.and_eq_true, decide_eq_true_eq] at htest
  have hpmm : w.kpalloc.2 = { w with pmm := { w.pmm with bitmap := w.pmm.bitmap.clear f } } := by
    simp only [Vmm.kpalloc, heq]
  refine ⟨f, hleast, congrArg Prod.fst heq, htest.2, ?_⟩
  rw [hpmm]
  constructor
  case frameCount => exact h.frameCount
  case kernelEnd => exact h.kernelEnd
  case codePageCount => exact h.codePageCount
  case mmapEntries => exact h.mmapEntries
  case fresh =>
    intro g hg
    rcases List.mem_cons.mp hg with rfl | hg
    · refine ⟨htest.1, ?_, ?_, hf.2.2.2⟩
      · simpa only [Pmm.firstPage, h.kernelEnd] using hf.2.1
      · simpa only [h.frameCount] using hf.2.2.1
    · exact h.fresh g hg
  case nodup => exact List.nodup_cons.mpr ⟨htest.2, h.nodup⟩
  case test =>
    intro g
    rw [Bitmap.test_clear, h.test g]
    by_cases hg : g = f
    · simp [hg]
    · simp [hg]

theorem Took.setMem (h : Took v w taken) (m : Memory) : Took v (w.setMem m) taken :=
  ⟨h.frameCount, h.kernelEnd, h.codePageCount, h.mmapEntries, h.fresh, h.nodup, h.test⟩

theorem Took.perm (h : Took v w taken) {taken' : List ℕ} (hperm : taken.Perm taken') :
    Took v w taken' where
  frameCount := h.frameCount
  kernelEnd := h.kernelEnd
  codePageCount := h.codePageCount
  mmapEntries := h.mmapEntries
  fresh f hf := h.fresh f (hperm.mem_iff.mpr hf)
  nodup := hperm.nodup_iff.mp h.nodup
  test f := by simp only [h.test f, hperm.mem_iff]

/-- A frame is given back. -/
theorem Took.kpfree (h : Took v w taken) (hf : f ∈ taken) {u : Vmm}
    (hu : w.kpfree (Pte.ofFrame f) = some u) : Took v u (taken.erase f) := by
  have hframe : Pte.frame (Pte.ofFrame f) = f := Pte.frame_ofFrame (h.lt hf)
  obtain ⟨hnull, -⟩ | ⟨-, -, -, -, rfl⟩ := kpfree_cases hu
  · have hpos : 0 < f := v.pmm.firstPage_pos.trans_le (h.fresh f hf).2.1
    exact absurd hnull (Pmm.physOf_ne_zero (h.lt hf) hpos)
  constructor
  case frameCount => exact h.frameCount
  case kernelEnd => exact h.kernelEnd
  case codePageCount => exact h.codePageCount
  case mmapEntries => exact h.mmapEntries
  case fresh => exact fun g hg => h.fresh g (List.mem_of_mem_erase hg)
  case nodup => exact h.nodup.erase f
  case test =>
    intro g
    have hfree : v.pmm.bitmap.test f = true := (h.fresh f hf).1
    rw [hframe, Bitmap.test_set, h.test g]
    simp only [h.nodup.mem_erase_iff]
    by_cases hg : g = f
    · simp [hg, hfree]
    · simp [hg]

theorem Ext.refl (v : Vmm) : Ext v v [] where
  frameCount := rfl
  kernelEnd := rfl
  codePageCount := rfl
  mmapEntries := rfl
  fresh := by simp
  nodup := List.nodup_nil
  test := by simp
  bytes _ _ := rfl

theorem Ext.entry (h : Ext v w taken) (hf : f ∉ taken) {j : ℕ} (hj : j < 512) :
    w.mem.entry f j = v.mem.entry f j := by
  apply Memory.entry_congr _ hj
  intro k hk
  apply h.bytes
  rwa [show (f * 4096 + k) / 4096 = f by omega]

theorem Ext.kpalloc (h : Ext v w taken) (hne : w.kpalloc.1 ≠ 0) :
    ∃ f, IsLeast w.pmm.allocatable f ∧ w.kpalloc.1 = Pte.ofFrame f ∧ f ∉ taken ∧
      Ext v w.kpalloc.2 (f :: taken) := by
  obtain ⟨f, hleast, hpage, hnew, htook⟩ := h.toTook.kpalloc hne
  refine ⟨f, hleast, hpage, hnew, htook, fun a ha => ?_⟩
  exact h.bytes a fun hmem => ha (List.mem_cons_of_mem _ hmem)

theorem Ext.setMem (h : Ext v w taken) {m : Memory}
    (hm : ∀ a, a / 4096 ∉ taken → m a = w.mem a) : Ext v (w.setMem m) taken :=
  ⟨h.toTook.setMem m, fun a ha => (hm a ha).trans (h.bytes a ha)⟩

theorem Ext.setEntry (h : Ext v w taken) (hf : f ∈ taken) (hi : i < 512) (e : Word) :
    Ext v (w.setEntry f i e) taken := by
  apply h.setMem
  intro a ha
  exact Memory.setEntry_apply_of_ne _ _ hi fun heq => ha (heq ▸ hf)

theorem Ext.zeroFrame (h : Ext v w taken) (hf : f ∈ taken) :
    Ext v (w.setMem (w.mem.zeroFrame f)) taken := by
  apply h.setMem
  intro a ha
  exact Memory.zeroFrame_apply_of_ne _ fun heq => ha (heq ▸ hf)

theorem Ext.copyFrame (h : Ext v w taken) (hf : f ∈ taken) (src : ℕ) :
    Ext v (w.setMem (w.mem.copyFrame f src)) taken := by
  apply h.setMem
  intro a ha
  exact Memory.copyFrame_apply_of_ne _ _ fun heq => ha (heq ▸ hf)

theorem Ext.allocOr (h : Ext v w taken) (cleanup : Vmm → Option Vmm) :
    Ensures (w.allocOr cleanup)
      (fun r => ∃ f, IsLeast w.pmm.allocatable f ∧ r.1 = Pte.ofFrame f ∧ f ∉ taken ∧
        Ext v r.2 (f :: taken) ∧ r.2.mem = w.mem)
      (fun c => c = cleanup w ∧ ¬v.pmm.Plenty (taken.length + 1)) := by
  unfold Vmm.allocOr
  split_ifs with h0
  · have hsame : w.kpalloc.2 = w := by
      have := w.pmm.kpalloc_takes.unchanged h0
      simp only [Vmm.kpalloc, this]
    refine .error ⟨congrArg cleanup hsame, ?_⟩
    rintro ⟨l, hnodup, hlen, hl⟩
    -- every frame that could be handed out is taken
    have hsub : l ⊆ taken := by
      intro f hf
      by_contra hnot
      exact Pmm.kpalloc_eq_null h0 f (h.mem_allocatable (hl f hf) hnot)
    have := (List.subperm_of_subset hnodup hsub).length_le
    omega
  · obtain ⟨f, hleast, hpage, hnew, hext⟩ := h.kpalloc h0
    exact .ok ⟨f, hleast, hpage, hnew, hext, rfl⟩

end ext

/-! ## Copying a table -/

/-- Pages that get a frame of their own in the copy. -/
def isPrivate (v : Vmm) (virt : ℕ) (e : Word) : Bool :=
  Pte.present e && !v.isSharedUserPage virt && Pte.user e

/-- The entry in the copy of a table, with `f` the frame of a private page. -/
def copyOf (v : Vmm) (virt : ℕ) (e : Word) (f : ℕ) : Word :=
  if Pte.present e then
    if v.isPrivate virt e then Pte.ofFrame f ||| (e &&& 0xFFF) else e
  else 0

/-- The page of entry `i` of the table `old`, which maps the addresses from `base` on, is
private. -/
def privateAt (v : Vmm) (old base i : ℕ) : Bool :=
  v.isPrivate (base + i * 4096) (v.mem.entry old i)

/-- The first `n` entries of the table `old` of `v` are copied to the table `new` of `w`.
The copy of page `i` is in frame `page i` if it is private, and `w₀` is the state before. -/
structure Copied (v w₀ w : Vmm) (old new base : ℕ) (taken : List ℕ) (n : ℕ) (page : ℕ → ℕ)
    (made : List ℕ) : Prop where
  ext : Ext v w (made ++ taken)
  entry : ∀ i < n, w.mem.entry new i =
    v.copyOf (base + i * 4096) (v.mem.entry old i) (page i)
  rest : ∀ i, n ≤ i → i < 512 → w.mem.entry new i = 0
  pages : Numbering (v.privateAt old base) n page made
  bytes : ∀ i < n, v.privateAt old base i = true →
    Pte.frame (v.mem.entry old i) ∉ v.pmm.allocatable → ∀ k < 4096,
      w.mem (page i * 4096 + k) = v.mem (Pte.frame (v.mem.entry old i) * 4096 + k)
  others : ∀ a, a / 4096 ∈ taken → a / 4096 ≠ new → w.mem a = w₀.mem a

section copy

variable {v w₀ w : Vmm} {old new base : ℕ} {taken made : List ℕ} {n : ℕ} {page : ℕ → ℕ}

theorem Copied.zero (h : Ext v w taken) (hzero : ∀ i < 512, w.mem.entry new i = 0) :
    Copied v w w old new base taken 0 page [] where
  ext := h
  entry i hi := absurd hi (by omega)
  rest i _ hi := hzero i hi
  pages := .zero _ _
  bytes i hi := absurd hi (by omega)
  others _ _ _ := rfl

/-- A round that takes no frame. -/
theorem Copied.keep (h : Copied v w₀ w old new base taken n page made)
    (hpriv : v.privateAt old base n = false) (hnew : new ∈ taken)
    {w' : Vmm} (hext : Ext v w' (made ++ taken))
    (hentry : ∀ j < 512, w'.mem.entry new j =
      if j = n then v.copyOf (base + n * 4096) (v.mem.entry old n) (page n)
      else w.mem.entry new j)
    (hn : n < 512) (hmem : ∀ a, a / 4096 ≠ new → w'.mem a = w.mem a) :
    Copied v w₀ w' old new base taken (n + 1) page made := by
  constructor
  case ext => exact hext
  case entry =>
    intro i hi
    rw [hentry i (by omega)]
    split_ifs with heq
    · rw [heq]
    · exact h.entry i (by omega)
  case rest =>
    intro i hi hi'
    rw [hentry i hi', if_neg (by omega)]
    exact h.rest i (by omega) hi'
  case pages => exact h.pages.skip hpriv
  case bytes =>
    intro i hi hp hsrc k hk
    have hlt : i < n := by
      rcases Nat.lt_succ_iff_lt_or_eq.mp hi with hi | rfl
      · exact hi
      · simp [hpriv] at hp
    have hne : page i ≠ new := fun heq =>
      List.disjoint_of_nodup_append h.ext.nodup (h.pages.mem i hlt hp) (heq ▸ hnew)
    rw [hmem _ (by omega)]
    exact h.bytes i hlt hp hsrc k hk
  case others =>
    intro a ha hne
    rw [hmem a hne, h.others a ha hne]

/-- A round that takes frame `f` for a private page. -/
theorem Copied.take (h : Copied v w₀ w old new base taken n page made)
    (hpriv : v.privateAt old base n = true) (hnew : new ∈ taken)
    {f : ℕ} (hf : f ∉ made ++ taken) {w' : Vmm} (hext : Ext v w' (f :: (made ++ taken)))
    (hentry : ∀ j < 512, w'.mem.entry new j =
      if j = n then v.copyOf (base + n * 4096) (v.mem.entry old n) f else w.mem.entry new j)
    (hn : n < 512) (hmem : ∀ a, a / 4096 ≠ new → a / 4096 ≠ f → w'.mem a = w.mem a)
    (hcopy : Pte.frame (v.mem.entry old n) ∉ v.pmm.allocatable → ∀ k < 4096,
      w'.mem (f * 4096 + k) = v.mem (Pte.frame (v.mem.entry old n) * 4096 + k)) :
    Copied v w₀ w' old new base taken (n + 1) (Function.update page n f) (f :: made) := by
  have hmade : f ∉ made := fun hmem => hf (List.mem_append_left _ hmem)
  constructor
  case ext => exact hext
  case entry =>
    intro i hi
    rw [hentry i (by omega)]
    split_ifs with heq
    · rw [heq, Function.update_self]
    · rw [Function.update_of_ne heq]
      exact h.entry i (by omega)
  case rest =>
    intro i hi hi'
    rw [hentry i hi', if_neg (by omega)]
    exact h.rest i (by omega) hi'
  case pages => exact h.pages.take hpriv hmade
  case bytes =>
    intro i hi hp hsrc k hk
    by_cases heq : i = n
    · rw [heq] at hsrc ⊢
      rw [Function.update_self]
      exact hcopy hsrc k hk
    · have hpage := h.pages.mem i (by omega) hp
      have hne : page i ≠ new := fun heq =>
        List.disjoint_of_nodup_append h.ext.nodup hpage (heq ▸ hnew)
      have hne' : page i ≠ f := fun heq => hmade (heq ▸ hpage)
      rw [Function.update_of_ne heq, hmem _ (by omega) (by omega)]
      exact h.bytes i (by omega) hp hsrc k hk
  case others =>
    intro a ha hne
    have hne' : a / 4096 ≠ f := fun heq => hf (List.mem_append_right _ (heq ▸ ha))
    rw [hmem a hne hne', h.others a ha hne]

theorem Copied.old_entry (h : Copied v w₀ w old new base taken n page made)
    (hold : old ∉ v.pmm.allocatable) {i : ℕ} (hi : i < 512) :
    w.mem.entry old i = v.mem.entry old i :=
  h.ext.entry (h.ext.notMem_of_notAllocatable hold) hi

/-- One round of the copy loop. -/
theorem Copied.copyEntry (h : Copied v w₀ w old new base taken n page made) (hn : n < 512)
    (hnew : new ∈ taken) (hold : old ∉ v.pmm.allocatable) (cleanup : Vmm → Option Vmm) :
    Ensures (Vmm.copyEntry old new (base + n * 4096) n w cleanup)
      (fun w' => ∃ page made, Copied v w₀ w' old new base taken (n + 1) page made)
      (fun c => c = cleanup w ∧ ¬v.pmm.Plenty ((made ++ taken).length + 1) ∧
        v.privateAt old base n = true) := by
  have hmem : new ∈ made ++ taken := List.mem_append_right _ hnew
  unfold Vmm.copyEntry
  simp only [h.old_entry hold hn, h.ext.isSharedUserPage]
  by_cases hp : Pte.present (v.mem.entry old n) = true
  swap
  · rw [if_pos (by simpa using hp)]
    refine .ok ⟨page, made, h.keep (by simp [privateAt, isPrivate, hp]) hnew h.ext ?_ hn fun _ _ => rfl⟩
    intro j hj
    split_ifs with hc
    · rw [hc, h.rest n le_rfl hn, copyOf, if_neg hp]
    · rfl
  · rw [if_neg (by simpa using hp)]
    -- shared pages and pages of the kernel: the entry itself
    have hsame : v.privateAt old base n = false →
        ∃ page made, Copied v w₀ (w.setEntry new n (v.mem.entry old n)) old new base taken
          (n + 1) page made := by
      intro hpriv
      refine ⟨page, made, h.keep hpriv hnew (h.ext.setEntry hmem hn _) ?_ hn ?_⟩
      · intro j hj
        simp only [setEntry_entry w _ hn hj, copyOf, hp, show v.isPrivate _ _ = false from hpriv,
          true_and, if_true, if_false, Bool.false_eq_true]
      · exact fun a ha => Memory.setEntry_apply_of_ne _ _ hn ha
    split_ifs with hs hu
    · exact .ok (hsame (by simp [privateAt, isPrivate, hs]))
    · have hpriv : v.privateAt old base n = true := by
        simp [privateAt, isPrivate, hp, hs, hu]
      apply (h.ext.allocOr cleanup).bind (fun _ hc => ⟨hc.1, hc.2, hpriv⟩)
      rintro ⟨np, w1⟩ ⟨f, -, hnp, hf, hext, hw1⟩
      simp only at hnp hext hw1
      have hlt : f < 2 ^ 52 := hext.lt List.mem_cons_self
      have hne : new ≠ f := fun heq => hf (heq ▸ hmem)
      rw [hnp, Pte.frame_ofFrame hlt, Pte.addr_ofFrame]
      refine .ok ⟨_, _, h.take hpriv hnew hf ((hext.copyFrame List.mem_cons_self _).setEntry
        (List.mem_cons_of_mem _ hmem) hn _) ?_ hn ?_ ?_⟩
      · intro j hj
        simp only [setEntry_entry _ _ hn hj, copyOf, hp, show v.isPrivate _ _ = true from hpriv,
          true_and, if_true, setMem_mem, Memory.entry_copyFrame_of_ne _ _ hne hj, hw1]
      · intro a ha haf
        rw [Vmm.setEntry, setMem_mem, Memory.setEntry_apply_of_ne _ _ hn ha, setMem_mem,
          Memory.copyFrame_apply_of_ne _ _ haf, hw1]
      · intro hsrc k hk
        have hfree : f ∈ v.pmm.allocatable := hext.fresh f List.mem_cons_self
        have hne' : f ≠ Pte.frame (v.mem.entry old n) := fun heq => hsrc (heq ▸ hfree)
        rw [Vmm.setEntry, setMem_mem, Memory.setEntry_apply_of_ne _ _ hn (by omega), setMem_mem,
          Memory.copyFrame_apply _ hne' hk, hw1]
        apply h.ext.bytes
        rw [show (Pte.frame (v.mem.entry old n) * 4096 + k) / 4096 =
          Pte.frame (v.mem.entry old n) by omega]
        exact h.ext.notMem_of_notAllocatable hsrc
    · exact .ok (hsame (by simp [privateAt, isPrivate, hu]))

/-- The copy loop, up to where it ends or fails. -/
theorem copyEntries_ensures (h : Ext v w taken) (hzero : ∀ i < 512, w.mem.entry new i = 0)
    (hnew : new ∈ taken) (hold : old ∉ v.pmm.allocatable)
    (cleanup : ℕ → Vmm → Option Vmm) (hn : n ≤ 512) :
    Ensures (copyEntries old new base cleanup n w)
      (fun w' => ∃ page made, Copied v w w' old new base taken n page made)
      (fun c => ∃ i < n, ∃ w' page made, Copied v w w' old new base taken i page made ∧
        c = cleanup i w' ∧ ¬v.pmm.Plenty ((made ++ taken).length + 1) ∧
        v.privateAt old base i = true) := by
  induction n with
  | zero => exact .ok ⟨id, [], .zero h hzero⟩
  | succ n ih =>
    refine (ih (by omega)).bind ?_ ?_
    · rintro c ⟨i, hi, hc⟩
      exact ⟨i, by omega, hc⟩
    · rintro w' ⟨page, made, hw'⟩
      apply (hw'.copyEntry (by omega) hnew hold (cleanup n)).mono (fun _ h => h)
      rintro c hc
      exact ⟨n, by omega, w', page, made, hw', hc⟩

end copy

end Nyvela.Vmm
