import Nyvela.VmmCopy

/-!
# What `kvmm_create_user_pml4` makes

For any tree of page tables: the tables of the new address space and the pages it gets
for itself, or, when the frames run out, what the clean-up frees.
-/

namespace Nyvela.Vmm

/-! ## One table of the window -/

/-- Page `i` of the table that entry `slot` of the directory `pd` leads to is private. -/
def isPrivateIn (v : Vmm) (pd slot base i : ℕ) : Bool :=
  Pte.present (v.mem.entry pd slot) && v.privateAt (Pte.frame (v.mem.entry pd slot)) base i

/-- How many of the first `n` pages are private. -/
def privateBefore (v : Vmm) (pd slot base n : ℕ) : ℕ :=
  (List.range n).countP (v.isPrivateIn pd slot base)

/-- An entry that leads to table `t`, open to users if `e` is. -/
def linkTo (t : ℕ) (e : Word) : Word := Pte.ofFrame t ||| 0x03 ||| (e &&& 0x04)

/-- Entry `slot` of the new directory leads to a copy of the old table, with `t` its frame,
or is empty if there is no old table. -/
structure SlotCopy (v w : Vmm) (oldPd newPd slot base : ℕ) (t : Option ℕ) (page : ℕ → ℕ)
    (made : List ℕ) : Prop where
  present : t.isSome = Pte.present (v.mem.entry oldPd slot)
  link : ∀ t' ∈ t, w.mem.entry newPd slot = linkTo t' (v.mem.entry oldPd slot)
  empty : t = none → w.mem.entry newPd slot = 0
  entry : ∀ t' ∈ t, ∀ i < 512, w.mem.entry t' i = v.copyOf (base + i * 4096)
    (v.mem.entry (Pte.frame (v.mem.entry oldPd slot)) i) (page i)
  pages : Numbering (v.isPrivateIn oldPd slot base) 512 page made
  bytes : ∀ i < 512, v.isPrivateIn oldPd slot base i = true →
    Pte.frame (v.mem.entry (Pte.frame (v.mem.entry oldPd slot)) i) ∉ v.pmm.allocatable →
      ∀ k < 4096, w.mem (page i * 4096 + k) =
        v.mem (Pte.frame (v.mem.entry (Pte.frame (v.mem.entry oldPd slot)) i) * 4096 + k)

section slot

variable {v w w' : Vmm} {oldPd newPd slot base : ℕ} {t : Option ℕ} {page : ℕ → ℕ}
  {made taken : List ℕ}

theorem leads_linkTo {t : ℕ} (ht : t < 2 ^ 52) (e : Word) : Leads (linkTo t e) t := by
  have hlt : (e &&& 0x04).toNat < 4096 := by
    rw [BitVec.toNat_and]
    exact Nat.lt_of_le_of_lt Nat.and_le_right (by decide)
  constructor
  · rw [linkTo, Pte.present_or, Pte.present_or, show Pte.present 0x03 = true from by decide]
    simp
  · rw [linkTo, Pte.frame_or _ hlt, Pte.frame_or _ (by decide), Pte.frame_ofFrame ht]

theorem user_linkTo (t : ℕ) (e : Word) : Pte.user (linkTo t e) = Pte.user e := by
  have hand : Pte.user (e &&& 0x04) = Pte.user e := by
    rw [Pte.user_eq, Pte.user_eq, BitVec.getLsbD_and, show (0x04 : Word).getLsbD 2 = true from by
      decide, Bool.and_true]
  rw [linkTo, Pte.user_or, Pte.user_or, Pte.user_ofFrame, hand,
    show Pte.user 0x03 = false from by decide, Bool.false_or, Bool.false_or]

/-- The rest of the creation does not touch the copy. -/
theorem SlotCopy.congr (h : SlotCopy v w oldPd newPd slot base t page made)
    (hslot : w'.mem.entry newPd slot = w.mem.entry newPd slot)
    (hmem : ∀ a, a / 4096 ∈ made ++ t.toList → w'.mem a = w.mem a) :
    SlotCopy v w' oldPd newPd slot base t page made where
  present := h.present
  link t' ht' := hslot.trans (h.link t' ht')
  empty hnone := hslot.trans (h.empty hnone)
  entry t' ht' i hi := by
    rw [← h.entry t' ht' i hi]
    refine Memory.entry_of_frames hmem ?_ hi
    simpa using Or.inr ht'
  pages := h.pages
  bytes i hi hp hsrc k hk := by
    rw [← h.bytes i hi hp hsrc k hk]
    apply hmem
    rw [show (page i * 4096 + k) / 4096 = page i by omega]
    exact List.mem_append_left _ (h.pages.mem i hi hp)

/-- The copy of one table, up to where it ends or fails. -/
theorem copyTable_ensures (h : Ext v w taken) (hslot : slot < 512) (hnew : newPd ∈ taken)
    (hpd : oldPd ∉ v.pmm.allocatable)
    (hold : Pte.present (v.mem.entry oldPd slot) = true →
      Pte.frame (v.mem.entry oldPd slot) ∉ v.pmm.allocatable)
    (hpde : w.mem.entry newPd slot = v.mem.entry oldPd slot)
    (cleanup : Vmm → Option Vmm) (cleanupAt : Word → ℕ → Vmm → Option Vmm) :
    Ensures (w.copyTable oldPd newPd slot base cleanup cleanupAt)
      (fun r => ∃ t page made, r.1 = t.elim 0 Pte.ofFrame ∧
        Ext v r.2 (made ++ (t.toList ++ taken)) ∧
        SlotCopy v r.2 oldPd newPd slot base t page made ∧
        (∀ a, a / 4096 ∈ taken → a / 4096 ≠ newPd → r.2.mem a = w.mem a) ∧
        ∀ j < 512, j ≠ slot → r.2.mem.entry newPd j = w.mem.entry newPd j)
      (fun c => Pte.present (v.mem.entry oldPd slot) = true ∧
        ((c = cleanup w ∧ ¬v.pmm.Plenty (taken.length + 1)) ∨
          ∃ i < 512, ∃ t w₁ w' page made,
            Copied v w₁ w' (Pte.frame (v.mem.entry oldPd slot)) t base (t :: taken) i page made ∧
              c = cleanupAt (Pte.ofFrame t) i w' ∧
              ¬v.pmm.Plenty ((made ++ t :: taken).length + 1) ∧
              v.isPrivateIn oldPd slot base i = true ∧
              ∀ a, a / 4096 ∈ taken → w'.mem a = w.mem a)) := by
  have hentry : w.mem.entry oldPd slot = v.mem.entry oldPd slot :=
    h.entry (h.notMem_of_notAllocatable hpd) hslot
  simp only [Vmm.copyTable, hentry]
  by_cases hp : Pte.present (v.mem.entry oldPd slot) = true
  swap
  · -- nothing to copy
    rw [if_neg hp]
    refine .ok ⟨none, id, [], rfl, h.setEntry hnew hslot 0, ?_, ?_, ?_⟩
    · have hnone : ∀ i, v.isPrivateIn oldPd slot base i = false := fun i => by simp [isPrivateIn, hp]
      constructor
      case present => simpa using hp
      case link => simp
      case empty =>
        intro _
        rw [setEntry_entry _ _ hslot hslot, if_pos ⟨rfl, rfl⟩]
      case entry => simp
      case pages => exact .nil (fun i _ => hnone i) id
      case bytes =>
        intro i _ hpriv
        simp [hnone i] at hpriv
    · exact fun a _ hne => Memory.setEntry_apply_of_ne _ _ hslot hne
    · intro j hj hne
      rw [setEntry_entry _ _ hslot hj, if_neg fun hc => hne hc.2]
  rw [if_pos hp]
  apply (h.allocOr cleanup).bind
  · exact fun c hc => ⟨hp, .inl hc⟩
  rintro ⟨pt, w1⟩ ⟨t, -, hpt, ht, hext, hw1⟩
  simp only at hpt hext hw1
  have hlt : t < 2 ^ 52 := hext.lt List.mem_cons_self
  have hne : ∀ {g}, g ∈ taken → g ≠ t := fun hg heq => ht (heq ▸ hg)
  rw [hpt, Pte.frame_ofFrame hlt, Pte.addr_ofFrame]
  have hext2 := hext.zeroFrame List.mem_cons_self
  generalize hw2 : w1.setMem (w1.mem.zeroFrame t) = w2 at hext2 ⊢
  have hmem : ∀ a, a / 4096 ≠ t → w2.mem a = w.mem a := by
    intro a ha
    rw [← hw2, setMem_mem, Memory.zeroFrame_apply_of_ne _ ha, hw1]
  have hzero : ∀ i < 512, w2.mem.entry t i = 0 := by
    intro i hi
    rw [← hw2, setMem_mem, Memory.entry_zeroFrame _ _ _ hi, if_pos rfl]
  have hothers : ∀ {w' : Vmm} {old i page made},
      Copied v w2 w' old t base (t :: taken) i page made →
        ∀ a, a / 4096 ∈ taken → w'.mem a = w.mem a := by
    intro w' old i page made hcopy a ha
    rw [hcopy.others a (List.mem_cons_of_mem _ ha) (hne ha), hmem a (hne ha)]
  have hloop : Ensures (copyEntries (Pte.frame (v.mem.entry oldPd slot)) t base
      (cleanupAt (Pte.ofFrame t)) 512 w2) _ _ :=
    copyEntries_ensures hext2 hzero List.mem_cons_self (hold hp) _ le_rfl
  apply hloop.bind
  · rintro c ⟨i, hi, w', page, made, hcopy, hc, hk, hpriv⟩
    exact ⟨hp, .inr ⟨i, hi, t, w2, w', page, made, hcopy, hc, hk, by simp [isPrivateIn, hp, hpriv],
      hothers hcopy⟩⟩
  · rintro w' ⟨page, made, hcopy⟩
    have hin : newPd ∈ made ++ t :: taken :=
      List.mem_append_right _ (List.mem_cons_of_mem _ hnew)
    have hnot : newPd ∉ made := fun hm =>
      List.disjoint_of_nodup_append hcopy.ext.nodup hm (List.mem_cons_of_mem _ hnew)
    have hnewPd : ∀ j < 512, w'.mem.entry newPd j = w.mem.entry newPd j := by
      intro j hj
      exact Memory.entry_of_frames (hothers hcopy) hnew hj
    refine .ok ⟨some t, page, made, rfl, hcopy.ext.setEntry hin hslot _, ?_, ?_, ?_⟩
    · constructor
      case present => simpa using hp.symm
      case link =>
        intro t' ht'
        obtain rfl := Option.mem_some_iff.mp ht'
        rw [setEntry_entry _ _ hslot hslot, if_pos ⟨rfl, rfl⟩, hnewPd slot hslot, hpde]
        rfl
      case empty => simp
      case entry =>
        intro t' ht' i hi
        obtain rfl := Option.mem_some_iff.mp ht'
        rw [setEntry_entry _ _ hslot hi, if_neg fun hc => hne hnew hc.1.symm]
        exact hcopy.entry i hi
      case pages => exact hcopy.pages.congr fun i _ => by simp [isPrivateIn, hp]
      case bytes =>
        intro i hi hpriv hsrc k hk
        have hpriv' : v.privateAt (Pte.frame (v.mem.entry oldPd slot)) base i = true := by
          simpa [isPrivateIn, hp] using hpriv
        have hne' : page i ≠ newPd := fun heq => hnot (heq ▸ hcopy.pages.mem i hi hpriv')
        rw [Vmm.setEntry, setMem_mem, Memory.setEntry_apply_of_ne _ _ hslot (by omega)]
        exact hcopy.bytes i hi hpriv' hsrc k hk
    · intro a ha hne'
      rw [Vmm.setEntry, setMem_mem, Memory.setEntry_apply_of_ne _ _ hslot hne']
      exact hothers hcopy a ha
    · intro j hj hne'
      rw [setEntry_entry _ _ hslot hj, if_neg fun hc => hne' hc.2]
      exact hnewPd j hj

end slot

/-! ## Clean-up -/

/-- The addresses in the entries of table `t` below `n` that `sel` picks. -/
def selected (m : Memory) (t : ℕ) (sel : ℕ → Word → Bool) (n : ℕ) : List Word :=
  ((List.range n).filter fun i => sel i (m.entry t i)).map fun i => Pte.addr (m.entry t i)

/-- Entry `i` of the table that a clean-up goes through. Without a table `new_pt2` is `NULL`,
and the clean-up reads the memory at address 0. -/
def cleanupEntry (v : Vmm) (pd slot i : ℕ) : Word :=
  v.mem.entry (if Pte.present (v.mem.entry pd slot) then Pte.frame (v.mem.entry pd slot) else 0) i

/-- `page` is in an entry that `sel` picks and that is no private copy, before the one where
`m` private pages have been copied. -/
def Kept (v : Vmm) (pd slot base m : ℕ) (sel : ℕ → Word → Bool) (page : Word) : Prop :=
  ∃ i < 512, v.privateBefore pd slot base i ≤ m ∧ v.isPrivateIn pd slot base i = false ∧
    sel i (v.cleanupEntry pd slot i) = true ∧ Pte.addr (v.cleanupEntry pd slot i) = page

section cleanup

variable {v w : Vmm} {old t base n : ℕ} {page : ℕ → ℕ} {made : List ℕ} {sel : ℕ → Word → Bool}

theorem freeAll_append (l l' : List Word) (v : Vmm) :
    freeAll (l ++ l') v = (freeAll l v).bind (freeAll l') := List.foldlM_append

theorem freeAll_keeps {pages : List Word} (h : freeAll pages v = some w) :
    w.mem = v.mem ∧ w.codePageCount = v.codePageCount := by
  induction pages generalizing v with
  | nil => rw [Option.some.inj h]; exact ⟨rfl, rfl⟩
  | cons page pages ih =>
    simp only [freeAll, List.foldlM_cons, Option.bind_eq_bind, Option.bind_eq_some_iff] at h
    obtain ⟨u, hu, h⟩ := h
    obtain ⟨hmem, hcode⟩ := ih h
    obtain ⟨-, rfl⟩ | ⟨-, -, -, -, rfl⟩ := kpfree_cases hu
    · exact ⟨hmem, hcode⟩
    · exact ⟨hmem, hcode⟩

/-- The loops that free entries free the addresses in them, one after the other. -/
theorem freeEntries_eq (t : ℕ) (sel : ℕ → Word → Bool) (n : ℕ) (v : Vmm) :
    freeEntries t sel n v = freeAll (selected v.mem t sel n) v := by
  induction n with
  | zero => rfl
  | succ n ih =>
    have hsucc : selected v.mem t sel (n + 1) = selected v.mem t sel n ++
        if sel n (v.mem.entry t n) then [Pte.addr (v.mem.entry t n)] else [] := by
      simp only [selected, List.range_succ, List.filter_append, List.map_append, List.filter_cons,
        List.filter_nil]
      split_ifs <;> rfl
    rw [freeEntries, ih, hsucc, freeAll_append]
    cases hfree : freeAll (selected v.mem t sel n) v with
    | none => rfl
    | some u =>
      simp only [Option.bind_some, (freeAll_keeps hfree).1]
      split_ifs
      · simp only [freeAll, List.foldlM_cons, List.foldlM_nil, Option.bind_eq_bind]
        cases u.kpfree (Pte.addr (v.mem.entry t n)) <;> rfl
      · rfl

theorem freeEntries_bind {f : Vmm → Option Vmm} {l : List Word}
    (hf : ∀ u, u.mem = v.mem → u.codePageCount = v.codePageCount → f u = freeAll l u) :
    (freeEntries t sel n v).bind f = freeAll (selected v.mem t sel n ++ l) v := by
  rw [freeEntries_eq, freeAll_append]
  cases hfree : freeAll (selected v.mem t sel n) v with
  | none => rfl
  | some u => exact hf u (freeAll_keeps hfree).1 (freeAll_keeps hfree).2

theorem addr_copyOf {virt f : ℕ} {e : Word} (hf : f < 2 ^ 52) (hp : v.isPrivate virt e = true) :
    Pte.addr (v.copyOf virt e f) = Pte.ofFrame f := by
  have hlt : (e &&& 0xFFF).toNat < 4096 := by
    rw [BitVec.toNat_and]
    exact Nat.lt_of_le_of_lt Nat.and_le_right (by decide)
  have hpres : Pte.present e = true := by
    simp only [isPrivate, Bool.and_eq_true] at hp
    exact hp.1.1
  rw [copyOf, if_pos hpres, if_pos hp, Pte.addr_eq_ofFrame, Pte.frame_or _ hlt,
    Pte.frame_ofFrame hf]

theorem copyOf_of_not_private {virt f : ℕ} {e : Word} (hp : v.isPrivate virt e = false) :
    v.copyOf virt e f = if Pte.present e then e else 0 := by
  simp [copyOf, hp]

theorem getLsbD_copyOf {virt f k : ℕ} {e : Word} (hp : Pte.present e = true) (hk : k < 12) :
    (v.copyOf virt e f).getLsbD k = e.getLsbD k := by
  rw [copyOf, if_pos hp]
  split_ifs
  · have hmask : ∀ j : Fin 12, (0xFFF : Word).getLsbD j = true := by decide
    have hzero : (Pte.ofFrame f).getLsbD k = false := by
      rw [← Pte.addr_ofFrame, Pte.addr_eq_shift, BitVec.getLsbD_shiftLeft]
      simp [hk]
    rw [BitVec.getLsbD_or, BitVec.getLsbD_and, hmask ⟨k, hk⟩, hzero, Bool.false_or, Bool.and_true]
  · rfl

theorem present_copyOf (v : Vmm) (virt f : ℕ) (e : Word) :
    Pte.present (v.copyOf virt e f) = Pte.present e := by
  by_cases hp : Pte.present e = true
  · rw [Pte.present_eq, getLsbD_copyOf hp (by decide), ← Pte.present_eq]
  · rw [copyOf, if_neg hp, Bool.eq_false_iff.mpr hp]
    decide

theorem user_copyOf {virt f : ℕ} {e : Word} (hp : Pte.present e = true) :
    Pte.user (v.copyOf virt e f) = Pte.user e := by
  rw [Pte.user_eq, getLsbD_copyOf hp (by decide), ← Pte.user_eq]

/-- Of a copied table a clean-up frees the pages that were made for it, and `strays`: pages
of the table that was copied. -/
theorem selected_copy {m : Memory} (sel : ℕ → Word → Bool)
    (hentry : ∀ i < n, m.entry t i = v.copyOf (base + i * 4096) (v.mem.entry old i) (page i))
    (hpages : Numbering (v.privateAt old base) n page made) (hmade : ∀ f ∈ made, f < 2 ^ 52)
    (huser : ∀ i e, Pte.present e = true → Pte.user e = true → sel i e = true)
    (hpres : ∀ i e, sel i e = true → Pte.present e = true) :
    ∃ strays, (selected m t sel n).Perm (made.map Pte.ofFrame ++ strays) ∧
      ∀ a, a ∈ strays ↔ ∃ i < n, v.privateAt old base i = false ∧
        sel i (v.mem.entry old i) = true ∧ Pte.addr (v.mem.entry old i) = a := by
  have hpick : ∀ i < n, v.privateAt old base i = true → sel i (m.entry t i) = true := by
    intro i hi hp
    rw [privateAt, isPrivate] at hp
    simp only [Bool.and_eq_true] at hp
    rw [hentry i hi]
    exact huser _ _ ((present_copyOf ..).trans hp.1.1) ((user_copyOf hp.1.1).trans hp.2)
  refine ⟨(((List.range n).filter fun i => sel i (m.entry t i)).filter
    fun i => !v.privateAt old base i).map fun i => Pte.addr (m.entry t i), ?_, ?_⟩
  · refine ((List.filter_append_perm (v.privateAt old base) _).map _).symm.trans ?_
    rw [List.map_append]
    refine List.Perm.append_right _ ?_
    refine (List.Perm.of_eq ?_).trans (hpages.perm.map Pte.ofFrame)
    rw [List.filter_filter, List.map_map]
    have hfilter : (List.range n).filter (fun i => v.privateAt old base i && sel i (m.entry t i)) =
        (List.range n).filter (v.privateAt old base) := by
      apply List.filter_congr
      intro i hi
      cases hp : v.privateAt old base i with
      | false => rfl
      | true => rw [hpick i (List.mem_range.mp hi) hp, Bool.and_true]
    rw [hfilter]
    apply List.map_congr_left
    intro i hi
    rw [List.mem_filter, List.mem_range] at hi
    rw [hentry i hi.1, Function.comp_apply]
    exact addr_copyOf (hmade _ (hpages.mem i hi.1 hi.2)) hi.2
  · intro a
    simp only [List.mem_map, List.mem_filter, List.mem_range, Bool.not_eq_true', and_assoc]
    refine exists_congr fun i => and_congr_right fun hi => ?_
    rw [and_left_comm]
    refine and_congr_right fun hp => ?_
    rw [hentry i hi, copyOf_of_not_private hp]
    split_ifs with hpe
    · rfl
    · constructor
      · exact fun h => absurd (hpres i _ h.1) (by decide)
      · exact fun h => absurd (hpres i _ h.1) hpe

end cleanup

section kept

variable {v : Vmm} {pd slot base m n : ℕ} {sel : ℕ → Word → Bool} {page : Word}

theorem privateBefore_succ (v : Vmm) (pd slot base n : ℕ) :
    v.privateBefore pd slot base (n + 1) = v.privateBefore pd slot base n +
      if v.isPrivateIn pd slot base n then 1 else 0 := by
  rw [privateBefore, List.range_succ, List.countP_append, List.countP_singleton]
  rfl

theorem privateBefore_mono {i j : ℕ} (h : i ≤ j) :
    v.privateBefore pd slot base i ≤ v.privateBefore pd slot base j :=
  (List.range_sublist.mpr h).countP_le

theorem privateBefore_le (v : Vmm) (pd slot base n : ℕ) : v.privateBefore pd slot base n ≤ n :=
  List.countP_le_length.trans List.length_range.le

/-- Where a copy loop stops, it has gone through the entries before it. -/
theorem kept_iff_of_stop (hp : Pte.present (v.mem.entry pd slot) = true) (hn : n < 512)
    (hstop : v.isPrivateIn pd slot base n = true) :
    v.Kept pd slot base (v.privateBefore pd slot base n) sel page ↔
      ∃ i < n, v.privateAt (Pte.frame (v.mem.entry pd slot)) base i = false ∧
        sel i (v.mem.entry (Pte.frame (v.mem.entry pd slot)) i) = true ∧
        Pte.addr (v.mem.entry (Pte.frame (v.mem.entry pd slot)) i) = page := by
  simp only [Kept, cleanupEntry, hp, if_true, isPrivateIn, Bool.true_and]
  constructor
  · rintro ⟨i, hi, hle, hpriv, hsel⟩
    refine ⟨i, ?_, hpriv, hsel⟩
    by_contra hge
    have hne : i ≠ n := by
      rintro rfl
      simp [isPrivateIn, hp, hpriv] at hstop
    have hmono : v.privateBefore pd slot base (n + 1) ≤ v.privateBefore pd slot base i :=
      privateBefore_mono (by omega)
    rw [privateBefore_succ, hstop, if_pos rfl] at hmono
    omega
  · rintro ⟨i, hi, hpriv, hsel⟩
    exact ⟨i, by omega, privateBefore_mono (by omega), hpriv, hsel⟩

/-- A table that is copied to its end. -/
theorem kept_iff_of_end (hm : v.privateBefore pd slot base 512 ≤ m) :
    v.Kept pd slot base m sel page ↔
      ∃ i < 512, v.isPrivateIn pd slot base i = false ∧ sel i (v.cleanupEntry pd slot i) = true ∧
        Pte.addr (v.cleanupEntry pd slot i) = page := by
  refine exists_congr fun i => and_congr_right fun hi => and_iff_right ?_
  exact (privateBefore_mono hi.le).trans hm

/-- What a clean-up frees of a table that was copied to its end, or of the memory at
address 0. -/
theorem SlotCopy.selected {w : Vmm} {newPd : ℕ} {t : Option ℕ} {num : ℕ → ℕ}
    {made taken : List ℕ} (h : SlotCopy v w pd newPd slot base t num made) (hext : Ext v w taken)
    (hmade : ∀ f ∈ made ++ t.toList, f ∈ taken) (sel : ℕ → Word → Bool)
    (huser : ∀ i e, Pte.present e = true → Pte.user e = true → sel i e = true)
    (hpres : ∀ i e, sel i e = true → Pte.present e = true) :
    ∃ strays, (Vmm.selected w.mem (Pte.frame (t.elim 0 Pte.ofFrame)) sel 512).Perm
        (made.map Pte.ofFrame ++ strays) ∧
      ∀ a, a ∈ strays ↔ ∃ i < 512, v.isPrivateIn pd slot base i = false ∧
        sel i (v.cleanupEntry pd slot i) = true ∧ Pte.addr (v.cleanupEntry pd slot i) = a := by
  have hpages := h.pages
  cases t with
  | some t =>
    have hp : Pte.present (v.mem.entry pd slot) = true := by simpa using h.present.symm
    have hlt : t < 2 ^ 52 := hext.lt (hmade t (by simp))
    rw [Option.elim_some, Pte.frame_ofFrame hlt]
    obtain ⟨strays, hperm, hstrays⟩ := selected_copy sel (h.entry t rfl)
      (hpages.congr fun i _ => by simp [isPrivateIn, hp])
      (fun f hf => hext.lt (hmade f (List.mem_append_left _ hf))) huser hpres
    refine ⟨strays, hperm, fun a => ?_⟩
    simp only [hstrays a, cleanupEntry, hp, if_true, isPrivateIn, Bool.true_and]
  | none =>
    have hp : Pte.present (v.mem.entry pd slot) = false := by simpa using h.present.symm
    have hnone : ∀ i, v.isPrivateIn pd slot base i = false := fun i => by simp [isPrivateIn, hp]
    have hnil : made = [] := by
      apply List.eq_nil_iff_forall_not_mem.mpr
      intro f hf
      obtain ⟨i, -, hpriv, -⟩ := hpages.of_mem f hf
      simp [hnone i] at hpriv
    have hzero : (0 : ℕ) ∉ taken := by
      intro hmem
      have := (hext.fresh 0 hmem).2.1
      have := v.pmm.firstPage_pos
      omega
    have hnull : Pte.frame ((none : Option ℕ).elim 0 Pte.ofFrame) = 0 := by decide
    rw [hnil, List.map_nil, hnull]
    refine ⟨Vmm.selected w.mem 0 sel 512, by rw [List.nil_append], fun a => ?_⟩
    simp only [Vmm.selected, List.mem_map, List.mem_filter, List.mem_range, cleanupEntry, hp, hnone,
      true_and, Bool.false_eq_true, if_false, and_assoc]
    refine exists_congr fun i => and_congr_right fun hi => ?_
    rw [hext.entry hzero hi]

end kept

/-! ## The whole of `kvmm_create_user_pml4` -/

/-- The tables that it reads, whether or not they are there. -/
def source (v : Vmm) (cr3 : Word) : Space :=
  let pml4 := Pte.frame cr3
  let pdpt := Pte.frame (v.mem.entry pml4 0)
  let pd := Pte.frame (v.mem.entry pdpt 0)
  ⟨pml4, pdpt, pd, Pte.frame (v.mem.entry pd 2), Pte.frame (v.mem.entry pd 3)⟩

/-- None of these tables is in a frame that can be handed out. -/
structure Intact (v : Vmm) (sp : Space) : Prop where
  pml4 : sp.pml4 ∉ v.pmm.allocatable
  pdpt : sp.pdpt ∉ v.pmm.allocatable
  pd : sp.pd ∉ v.pmm.allocatable
  pt2 : Pte.present (v.mem.entry sp.pd 2) = true → sp.pt2 ∉ v.pmm.allocatable
  pt3 : Pte.present (v.mem.entry sp.pd 3) = true → sp.pt3 ∉ v.pmm.allocatable

/-- The frames of a new address space: its tables, and the pages `page2 i` and `page3 i` that
it gets for itself. -/
structure NewSpace where
  pml4 : ℕ
  pdpt : ℕ
  pd : ℕ
  pt2 : Option ℕ
  pt3 : Option ℕ
  page2 : ℕ → ℕ
  page3 : ℕ → ℕ
  made2 : List ℕ
  made3 : List ℕ

def NewSpace.frames (new : NewSpace) : List ℕ :=
  new.made3 ++ (new.pt3.toList ++
    (new.made2 ++ (new.pt2.toList ++ [new.pd, new.pdpt, new.pml4])))

/-- `w` has a new address space, made after the tables `sp` of `v`. -/
structure Built (v w : Vmm) (sp : Space) (new : NewSpace) : Prop where
  ext : Ext v w new.frames
  first : IsLeast v.pmm.allocatable new.pml4
  pml4e : w.mem.entry new.pml4 0 = linkTo new.pdpt (v.mem.entry sp.pml4 0)
  pml4 : ∀ i < 512, i ≠ 0 → w.mem.entry new.pml4 i = v.mem.entry sp.pml4 i
  pdpte : w.mem.entry new.pdpt 0 = linkTo new.pd (v.mem.entry sp.pdpt 0)
  pdpt : ∀ i < 512, i ≠ 0 → w.mem.entry new.pdpt i = v.mem.entry sp.pdpt i
  pd : ∀ i < 512, i ≠ 2 → i ≠ 3 → w.mem.entry new.pd i = v.mem.entry sp.pd i
  slot2 : SlotCopy v w sp.pd new.pd 2 userCodeVirt new.pt2 new.page2 new.made2
  slot3 : SlotCopy v w sp.pd new.pd 3 progStackTop new.pt3 new.page3 new.made3

/-- The number of frames taken when the pages of the table of `0x400000` come. -/
def tablesBefore (v : Vmm) (sp : Space) : ℕ :=
  3 + if Pte.present (v.mem.entry sp.pd 2) then 1 else 0

/-- The number of frames taken when the table of `0x600000` comes. -/
def takenBefore (v : Vmm) (sp : Space) : ℕ :=
  v.tablesBefore sp + v.privateBefore sp.pd 2 userCodeVirt 512

def framesNeeded (v : Vmm) (sp : Space) : ℕ :=
  v.takenBefore sp + if Pte.present (v.mem.entry sp.pd 3) then
    1 + v.privateBefore sp.pd 3 progStackTop 512 else 0

/-- `page` is freed by the clean-up after `k` frames were taken, but was not taken. -/
@[irreducible] def Stray (v : Vmm) (sp : Space) (k : ℕ) (page : Word) : Prop :=
  if k < v.tablesBefore sp then False
  else if k = v.takenBefore sp then
    -- here even entries that are not open to users are freed
    v.Kept sp.pd 2 userCodeVirt (k - v.tablesBefore sp) (fun _ e => Pte.present e) page
  else
    v.Kept sp.pd 2 userCodeVirt (k - v.tablesBefore sp) userPresent page ∨
      v.takenBefore sp < k ∧
        v.Kept sp.pd 3 progStackTop (k - v.takenBefore sp - 1) userPresent page

/-- A creation that fails with `taken` all that could be taken, and then frees `pages`. -/
structure Stopped (v : Vmm) (sp : Space) (w : Vmm) (taken : List ℕ) (pages : List Word) :
    Prop where
  ext : Ext v w taken
  scarce : ¬v.pmm.Plenty (taken.length + 1)
  short : taken.length < v.framesNeeded sp
  frees : ∃ strays, pages.Perm (taken.map Pte.ofFrame ++ strays) ∧
    ∀ page ≠ 0, page ∈ strays ↔ v.Stray sp taken.length page

section stopped

variable {v w : Vmm} {sp : Space} {taken : List ℕ} {p4 p3 p2 : ℕ}

theorem present_of_userPresent (i : ℕ) (e : Word) (h : userPresent i e = true) :
    Pte.present e = true := (Bool.and_eq_true _ _ ▸ h : _ ∧ _).1

theorem userPresent_of_user (i : ℕ) (e : Word) (hp : Pte.present e = true)
    (hu : Pte.user e = true) : userPresent i e = true := by rw [userPresent, hp, hu, Bool.and_self]

/-- Before the first page is copied only what was taken is freed. -/
theorem stopped_early (hext : Ext v w taken) (hscarce : ¬v.pmm.Plenty (taken.length + 1))
    (hk : taken.length < v.tablesBefore sp) {frames : List ℕ} (hperm : frames.Perm taken) :
    Stopped v sp w taken (frames.map Pte.ofFrame) where
  ext := hext
  scarce := hscarce
  short := by
    simp only [framesNeeded, takenBefore]
    omega
  frees := by
    refine ⟨[], by rw [List.append_nil]; exact hperm.map _, fun page _ => ?_⟩
    simp [Stray, hk]

/-- In the table of `0x400000`. -/
theorem stopped_copy2 {w₁ : Vmm} {t i : ℕ} {page : ℕ → ℕ} {made : List ℕ}
    (hpt2 : sp.pt2 = Pte.frame (v.mem.entry sp.pd 2))
    (hp : Pte.present (v.mem.entry sp.pd 2) = true) (hi : i < 512)
    (h : Copied v w₁ w sp.pt2 t userCodeVirt (t :: [p2, p3, p4]) i page made)
    (hscarce : ¬v.pmm.Plenty ((made ++ t :: [p2, p3, p4]).length + 1))
    (hstop : v.isPrivateIn sp.pd 2 userCodeVirt i = true) :
    Stopped v sp w (made ++ t :: [p2, p3, p4])
      (selected w.mem t userPresent i ++ [p4, p3, p2, t].map Pte.ofFrame) := by
  obtain ⟨strays, hperm, hstrays⟩ := selected_copy userPresent h.entry h.pages
    (fun f hf => h.ext.lt (List.mem_append_left _ hf)) userPresent_of_user present_of_userPresent
  have hcount : made.length = v.privateBefore sp.pd 2 userCodeVirt i := by
    rw [h.pages.length_eq, hpt2, privateBefore]
    refine List.countP_congr fun j _ => ?_
    rw [isPrivateIn, hp, Bool.true_and]
  have hlen : (made ++ t :: [p2, p3, p4]).length =
      v.tablesBefore sp + v.privateBefore sp.pd 2 userCodeVirt i := by
    simp only [List.length_append, List.length_cons, List.length_nil, hcount, tablesBefore, hp,
      if_true]
    omega
  have hlt : v.privateBefore sp.pd 2 userCodeVirt i < v.privateBefore sp.pd 2 userCodeVirt 512 := by
    have hmono : v.privateBefore sp.pd 2 userCodeVirt (i + 1) ≤ _ := privateBefore_mono hi
    rw [privateBefore_succ, hstop, if_pos rfl] at hmono
    omega
  refine ⟨h.ext, hscarce, ?_, strays, ?_, fun a _ => ?_⟩
  · rw [hlen]
    simp only [framesNeeded, takenBefore]
    omega
  · refine List.perm_iff_count.mpr fun a => ?_
    have hcount := hperm.count_eq a
    simp only [List.map_append, List.map_cons, List.map_nil, List.count_append, List.count_cons,
      List.count_nil] at hcount ⊢
    omega
  · rw [hstrays a, hlen, Stray, if_neg (by omega), if_neg (by simp only [takenBefore]; omega),
      Nat.add_sub_cancel_left, kept_iff_of_stop hp hi hstop, ← hpt2]
    refine (or_iff_left fun hc => ?_).symm
    have := hc.1
    simp only [takenBefore] at this
    omega

theorem SlotCopy.length_eq {newPd slot base : ℕ} {t : Option ℕ} {page : ℕ → ℕ} {made : List ℕ}
    (h : SlotCopy v w sp.pd newPd slot base t page made) :
    made.length = v.privateBefore sp.pd slot base 512 := h.pages.length_eq

theorem length_tables {t : Option ℕ} (ht : t.isSome = Pte.present (v.mem.entry sp.pd 2)) :
    (t.toList ++ [p2, p3, p4]).length = v.tablesBefore sp := by
  rw [tablesBefore, ← ht]
  cases t <;> rfl

/-- The `NULL` that stands for a table that is not there. -/
theorem notMem_null {a : Word} (ha : a ≠ 0) (t : Option ℕ) :
    a ∉ if t = none then [(0 : Word)] else [] := by
  split_ifs
  · exact fun hmem => ha (List.mem_singleton.mp hmem)
  · exact List.not_mem_nil

/-- At the table of `0x600000`. -/
theorem stopped_table3 {t : Option ℕ} {page : ℕ → ℕ} {made : List ℕ}
    (hp : Pte.present (v.mem.entry sp.pd 3) = true)
    (hext : Ext v w (made ++ (t.toList ++ [p2, p3, p4])))
    (h : SlotCopy v w sp.pd p2 2 userCodeVirt t page made)
    (hscarce : ¬v.pmm.Plenty ((made ++ (t.toList ++ [p2, p3, p4])).length + 1)) :
    Stopped v sp w (made ++ (t.toList ++ [p2, p3, p4]))
      (selected w.mem (Pte.frame (t.elim 0 Pte.ofFrame)) (fun _ e => Pte.present e) 512 ++
        [Pte.ofFrame p4, Pte.ofFrame p3, Pte.ofFrame p2, t.elim 0 Pte.ofFrame]) := by
  obtain ⟨strays, hperm, hstrays⟩ := h.selected hext (by simp; tauto) (fun _ e => Pte.present e)
    (fun _ _ hp _ => hp) (fun _ _ hp => hp)
  have hlen : (made ++ (t.toList ++ [p2, p3, p4])).length = v.takenBefore sp := by
    rw [List.length_append, length_tables h.present, h.length_eq, takenBefore]
    omega
  refine ⟨hext, hscarce, ?_, strays ++ if t = none then [0] else [], ?_, fun a ha => ?_⟩
  · rw [hlen, framesNeeded, hp, if_pos rfl]
    omega
  · refine List.perm_iff_count.mpr fun a => ?_
    have hcount := hperm.count_eq a
    cases t <;> simp only [List.map_append, List.map_cons, List.map_nil, List.count_append,
      List.count_cons, List.count_nil, Option.toList_none, Option.toList_some, Option.elim_none,
      Option.elim_some, if_true, if_false, reduceCtorEq] at hcount ⊢ <;> omega
  · rw [List.mem_append, or_iff_left (notMem_null ha t), hstrays a, hlen, Stray,
      if_neg (by simp only [takenBefore]; omega), if_pos rfl, kept_iff_of_end (by simp only [takenBefore]; omega)]

/-- In the table of `0x600000`. -/
theorem stopped_copy3 {w₁ : Vmm} {t3 i : ℕ} {t2 : Option ℕ} {page page2 : ℕ → ℕ}
    {made made2 : List ℕ} (hpt3 : sp.pt3 = Pte.frame (v.mem.entry sp.pd 3))
    (hp : Pte.present (v.mem.entry sp.pd 3) = true) (hi : i < 512)
    (h2 : SlotCopy v w sp.pd p2 2 userCodeVirt t2 page2 made2)
    (h : Copied v w₁ w sp.pt3 t3 progStackTop (t3 :: (made2 ++ (t2.toList ++ [p2, p3, p4]))) i page
      made)
    (hscarce : ¬v.pmm.Plenty
      ((made ++ t3 :: (made2 ++ (t2.toList ++ [p2, p3, p4]))).length + 1))
    (hstop : v.isPrivateIn sp.pd 3 progStackTop i = true) :
    Stopped v sp w (made ++ t3 :: (made2 ++ (t2.toList ++ [p2, p3, p4])))
      (selected w.mem t3 userPresent i ++
        (selected w.mem (Pte.frame (t2.elim 0 Pte.ofFrame)) userPresent 512 ++
          [Pte.ofFrame p4, Pte.ofFrame p3, Pte.ofFrame p2, t2.elim 0 Pte.ofFrame,
            Pte.ofFrame t3])) := by
  obtain ⟨strays, hperm, hstrays⟩ := selected_copy userPresent h.entry h.pages
    (fun f hf => h.ext.lt (List.mem_append_left _ hf)) userPresent_of_user present_of_userPresent
  obtain ⟨strays2, hperm2, hstrays2⟩ := h2.selected h.ext (by simp; tauto) userPresent
    userPresent_of_user present_of_userPresent
  have hcount : made.length = v.privateBefore sp.pd 3 progStackTop i := by
    rw [h.pages.length_eq, hpt3, privateBefore]
    refine List.countP_congr fun j _ => ?_
    rw [isPrivateIn, hp, Bool.true_and]
  have hlen : (made ++ t3 :: (made2 ++ (t2.toList ++ [p2, p3, p4]))).length =
      v.takenBefore sp + 1 + v.privateBefore sp.pd 3 progStackTop i := by
    rw [List.length_append, List.length_cons, List.length_append, length_tables h2.present,
      h2.length_eq, hcount, takenBefore]
    omega
  have hlt : v.privateBefore sp.pd 3 progStackTop i < v.privateBefore sp.pd 3 progStackTop 512 := by
    have hmono : v.privateBefore sp.pd 3 progStackTop (i + 1) ≤ _ := privateBefore_mono hi
    rw [privateBefore_succ, hstop, if_pos rfl] at hmono
    omega
  refine ⟨h.ext, hscarce, ?_, strays ++ (strays2 ++ if t2 = none then [0] else []), ?_,
    fun a ha => ?_⟩
  · rw [hlen, framesNeeded, hp, if_pos rfl]
    omega
  · refine List.perm_iff_count.mpr fun a => ?_
    have hcount := hperm.count_eq a
    have hcount2 := hperm2.count_eq a
    cases t2 <;> simp only [List.map_append, List.map_cons, List.map_nil, List.count_append,
      List.count_cons, List.count_nil, Option.toList_none, Option.toList_some, Option.elim_none,
      Option.elim_some, if_true, if_false, reduceCtorEq] at hcount hcount2 ⊢ <;> omega
  · have hsub : v.takenBefore sp + 1 + v.privateBefore sp.pd 3 progStackTop i -
        v.takenBefore sp - 1 = v.privateBefore sp.pd 3 progStackTop i := by omega
    rw [List.mem_append, List.mem_append, or_iff_left (notMem_null ha t2), or_comm, hstrays a,
      hstrays2 a, hlen, Stray, if_neg (by simp only [takenBefore]; omega),
      if_neg (by omega), kept_iff_of_end (by simp only [takenBefore]; omega), hsub,
      kept_iff_of_stop hp hi hstop, ← hpt3, and_iff_right (by omega)]

end stopped

section spec

variable {v : Vmm} {sp : Space}

/-- The last two links. -/
theorem built_of_slots {w₀ w₂ w₃ : Vmm} {p4 p3 p2 : ℕ} {t2 t3 : Option ℕ} {page2 page3 : ℕ → ℕ}
    {made2 made3 : List ℕ} (hfirst : IsLeast v.pmm.allocatable p4)
    (hpml4 : ∀ i < 512, i ≠ 0 → w₀.mem.entry p4 i = v.mem.entry sp.pml4 i)
    (hpdpt : ∀ i < 512, w₀.mem.entry p3 i = v.mem.entry sp.pdpt i)
    (hpd : ∀ i < 512, w₀.mem.entry p2 i = v.mem.entry sp.pd i)
    (h2 : SlotCopy v w₂ sp.pd p2 2 userCodeVirt t2 page2 made2)
    (hmem2 : ∀ a, a / 4096 ∈ [p2, p3, p4] → a / 4096 ≠ p2 → w₂.mem a = w₀.mem a)
    (hpd2 : ∀ i < 512, i ≠ 2 → w₂.mem.entry p2 i = w₀.mem.entry p2 i)
    (h3 : SlotCopy v w₃ sp.pd p2 3 progStackTop t3 page3 made3)
    (hmem3 : ∀ a, a / 4096 ∈ made2 ++ (t2.toList ++ [p2, p3, p4]) → a / 4096 ≠ p2 →
      w₃.mem a = w₂.mem a)
    (hpd3 : ∀ i < 512, i ≠ 3 → w₃.mem.entry p2 i = w₂.mem.entry p2 i)
    (hext : Ext v w₃ (made3 ++ (t3.toList ++ (made2 ++ (t2.toList ++ [p2, p3, p4]))))) :
    Built v ((w₃.setEntry p4 0 (linkTo p3 (v.mem.entry sp.pml4 0))).setEntry p3 0
      (linkTo p2 (v.mem.entry sp.pdpt 0))) sp
      ⟨p4, p3, p2, t2, t3, page2, page3, made2, made3⟩ := by
  have hnd := hext.nodup
  have hin : ∀ {f}, f ∈ [p2, p3, p4] →
      f ∈ made3 ++ (t3.toList ++ (made2 ++ (t2.toList ++ [p2, p3, p4]))) := fun hf => by simp_all
  simp only [List.nodup_append, List.nodup_cons, List.mem_append, List.mem_cons, List.not_mem_nil,
    or_false, not_or] at hnd
  obtain ⟨-, ⟨-, ⟨-, ⟨-, ⟨⟨h23, h24⟩, h34, -⟩, hd2⟩, hdm2⟩, hd3⟩, hdm3⟩ := hnd
  -- the links are written in the two tables above the directory
  have hmem : ∀ a, a / 4096 ≠ p4 → a / 4096 ≠ p3 →
      ((w₃.setEntry p4 0 (linkTo p3 (v.mem.entry sp.pml4 0))).setEntry p3 0
        (linkTo p2 (v.mem.entry sp.pdpt 0))).mem a = w₃.mem a := by
    intro a h4 h3
    rw [Vmm.setEntry, setMem_mem, Memory.setEntry_apply_of_ne _ _ (by decide) h3, Vmm.setEntry,
      setMem_mem, Memory.setEntry_apply_of_ne _ _ (by decide) h4]
  have hentry : ∀ f i, i < 512 → ¬(f = p4 ∧ i = 0) → ¬(f = p3 ∧ i = 0) →
      ((w₃.setEntry p4 0 (linkTo p3 (v.mem.entry sp.pml4 0))).setEntry p3 0
        (linkTo p2 (v.mem.entry sp.pdpt 0))).mem.entry f i = w₃.mem.entry f i := by
    intro f i hi h4 h3
    rw [setEntry_entry _ _ (by decide) hi, if_neg h3, setEntry_entry _ _ (by decide) hi, if_neg h4]
  have hupper : ∀ f ∈ [p2, p3, p4], f ≠ p2 → ∀ i < 512,
      w₃.mem.entry f i = w₀.mem.entry f i := by
    intro f hf hne i hi
    apply Memory.entry_congr _ hi
    intro k hk
    have hfk : (f * 4096 + k) / 4096 = f := by omega
    have hf' : f ∈ made2 ++ (t2.toList ++ [p2, p3, p4]) := by simp_all
    rw [hmem3 _ (hfk.symm ▸ hf') (hfk.symm ▸ hne), hmem2 _ (hfk.symm ▸ hf) (hfk.symm ▸ hne)]
  constructor
  case ext =>
    have h4 : p4 ∈ [p2, p3, p4] := by simp
    have h3 : p3 ∈ [p2, p3, p4] := by simp
    exact (hext.setEntry (hin h4) (by decide) _).setEntry (hin h3) (by decide) _
  case first => exact hfirst
  case pml4e =>
    rw [setEntry_entry _ _ (by decide) (by decide), if_neg fun hc => h34 hc.1.symm,
      setEntry_entry _ _ (by decide) (by decide), if_pos ⟨rfl, rfl⟩]
  case pml4 =>
    intro i hi h0
    rw [hentry _ _ hi (fun hc => h0 hc.2) (fun hc => h0 hc.2),
      hupper p4 (by simp) (Ne.symm h24) i hi, hpml4 i hi h0]
  case pdpte => rw [setEntry_entry _ _ (by decide) (by decide), if_pos ⟨rfl, rfl⟩]
  case pdpt =>
    intro i hi h0
    rw [hentry _ _ hi (fun hc => h0 hc.2) (fun hc => h0 hc.2),
      hupper p3 (by simp) (Ne.symm h23) i hi, hpdpt i hi]
  case pd =>
    intro i hi hne2 hne3
    rw [hentry _ _ hi (fun hc => h24 hc.1) (fun hc => h23 hc.1), hpd3 i hi hne3, hpd2 i hi hne2,
      hpd i hi]
  case slot2 =>
    have hslot : w₃.mem.entry p2 2 = w₂.mem.entry p2 2 := hpd3 2 (by decide) (by decide)
    refine h2.congr ?_ ?_
    · rw [hentry _ _ (by decide) (fun hc => h24 hc.1) (fun hc => h23 hc.1), hslot]
    · intro a ha
      have hne : ∀ f ∈ [p2, p3, p4], a / 4096 ≠ f := by
        intro f hf heq
        rcases List.mem_append.mp ha with ha | ha
        · exact hdm2 _ ha f (Or.inr (by simpa using hf)) heq
        · exact hd2 _ ha f (by simpa using hf) heq
      rw [hmem a (hne p4 (by simp)) (hne p3 (by simp)), hmem3 a _ (hne p2 (by simp))]
      rw [← List.append_assoc]
      exact List.mem_append_left _ ha
  case slot3 =>
    refine h3.congr (hentry _ _ (by decide) (fun hc => h24 hc.1) fun hc => h23 hc.1) ?_
    intro a ha
    have hne : ∀ f ∈ [p2, p3, p4], a / 4096 ≠ f := by
      intro f hf heq
      rcases List.mem_append.mp ha with ha | ha
      · exact hdm3 _ ha f (Or.inr (Or.inr (Or.inr (by simpa using hf)))) heq
      · exact hd3 _ ha f (Or.inr (Or.inr (by simpa using hf))) heq
    exact hmem a (hne p4 (by simp)) (hne p3 (by simp))

/-- What `kvmm_create_user_pml4` makes, or frees when it fails, for any source. -/
theorem createUserPml4_spec {cr3 : Word} (hsp : sp = v.source cr3) (h : Intact v sp) :
    Ensures (v.createUserPml4 cr3)
      (fun r => ∃ new, r.1 = Pte.ofFrame new.pml4 ∧ Built v r.2 sp new)
      (fun c => ∃ w taken pages, Stopped v sp w taken pages ∧ c = freeAll pages w) := by
  have hpml4 : Pte.frame cr3 = sp.pml4 := by rw [hsp]; rfl
  have hpdpt : sp.pdpt = Pte.frame (v.mem.entry sp.pml4 0) := by rw [hsp]; rfl
  have hpd : sp.pd = Pte.frame (v.mem.entry sp.pdpt 0) := by rw [hsp]; rfl
  have hpt2 : sp.pt2 = Pte.frame (v.mem.entry sp.pd 2) := by rw [hsp]; rfl
  have hpt3 : sp.pt3 = Pte.frame (v.mem.entry sp.pd 3) := by rw [hsp]; rfl
  have hthree : 3 ≤ v.tablesBefore sp := Nat.le_add_right _ _
  unfold Vmm.createUserPml4
  -- the PML4
  apply ((Ext.refl v).allocOr some).bind
  · rintro c ⟨rfl, hk⟩
    exact ⟨v, [], [], stopped_early (Ext.refl v) hk (by simp; omega) (List.Perm.refl _), rfl⟩
  rintro ⟨pml4, v1⟩ ⟨p4, hfirst, hp4, -, hext1, hmem1⟩
  simp only at hp4 hext1 hmem1
  subst hp4
  have hlt4 : p4 < 2 ^ 52 := hext1.lt List.mem_cons_self
  simp only [hpml4, Pte.frame_ofFrame hlt4]
  have hne4 : p4 ≠ sp.pml4 := fun heq => h.pml4 (heq ▸ hfirst.1)
  have hentry1 : ∀ i < 512, i ≠ 0 →
      (v1.setMem ((v1.mem.copyFrame p4 sp.pml4).setEntry p4 0 0)).mem.entry p4 i =
        v.mem.entry sp.pml4 i := by
    intro i hi h0
    rw [setMem_mem, Memory.entry_setEntry _ _ (by decide) hi, if_neg fun hc => h0 hc.2,
      Memory.entry_copyFrame _ hne4 _ hi, if_pos rfl, hmem1]
  replace hext1 := (hext1.copyFrame List.mem_cons_self sp.pml4).setEntry
    (List.mem_cons_self : p4 ∈ [p4]) (show 0 < 512 by decide) 0
  rw [setMem_setEntry] at hext1
  generalize v1.setMem ((v1.mem.copyFrame p4 sp.pml4).setEntry p4 0 0) = v1' at hext1 hentry1
  -- the page-directory pointers
  apply (hext1.allocOr _).bind
  · rintro c ⟨rfl, hk⟩
    exact ⟨v1', [p4], _, stopped_early hext1 hk (by simp; omega) (List.Perm.refl _), rfl⟩
  rintro ⟨pdpt, v2⟩ ⟨p3, -, hp3, hnew3, hext2, hmem2⟩
  simp only at hp3 hext2 hmem2
  subst hp3
  have hlt3 : p3 < 2 ^ 52 := hext2.lt List.mem_cons_self
  have hread3 : Pte.frame (v2.mem.entry sp.pml4 0) = sp.pdpt := by
    rw [hext2.entry (hext2.notMem_of_notAllocatable h.pml4) (by decide), hpdpt]
  simp only [hread3, Pte.frame_ofFrame hlt3]
  have hne3 : p3 ≠ sp.pdpt := fun heq => h.pdpt (heq ▸ hext2.fresh p3 List.mem_cons_self)
  have hentry2 : ∀ i < 512, (v2.setMem (v2.mem.copyFrame p3 sp.pdpt)).mem.entry p3 i =
      v.mem.entry sp.pdpt i := by
    intro i hi
    rw [setMem_mem, Memory.entry_copyFrame _ hne3 _ hi, if_pos rfl,
      hext2.entry (hext2.notMem_of_notAllocatable h.pdpt) hi]
  have hkeep2 : ∀ a, a / 4096 ∈ [p4] →
      (v2.setMem (v2.mem.copyFrame p3 sp.pdpt)).mem a = v1'.mem a := by
    intro a ha
    have hne : a / 4096 ≠ p3 := fun heq => hnew3 (heq ▸ ha)
    rw [setMem_mem, Memory.copyFrame_apply_of_ne _ _ hne, hmem2]
  replace hext2 := hext2.copyFrame List.mem_cons_self sp.pdpt
  generalize v2.setMem (v2.mem.copyFrame p3 sp.pdpt) = v2' at hext2 hentry2 hkeep2
  -- the page directory
  apply (hext2.allocOr _).bind
  · rintro c ⟨rfl, hk⟩
    exact ⟨v2', [p3, p4], _, stopped_early hext2 hk (by simp; omega) (List.Perm.swap ..), rfl⟩
  rintro ⟨pd, v3⟩ ⟨p2, -, hp2, hnew2, hext3, hmem3⟩
  simp only at hp2 hext3 hmem3
  subst hp2
  have hlt2 : p2 < 2 ^ 52 := hext3.lt List.mem_cons_self
  have hread2 : Pte.frame (v3.mem.entry sp.pdpt 0) = sp.pd := by
    rw [hext3.entry (hext3.notMem_of_notAllocatable h.pdpt) (by decide), hpd]
  simp only [hread2, Pte.frame_ofFrame hlt2]
  have hne2 : p2 ≠ sp.pd := fun heq => h.pd (heq ▸ hext3.fresh p2 List.mem_cons_self)
  have hentry3 : ∀ i < 512, (v3.setMem (v3.mem.copyFrame p2 sp.pd)).mem.entry p2 i =
      v.mem.entry sp.pd i := by
    intro i hi
    rw [setMem_mem, Memory.entry_copyFrame _ hne2 _ hi, if_pos rfl,
      hext3.entry (hext3.notMem_of_notAllocatable h.pd) hi]
  have hkeep3 : ∀ a, a / 4096 ∈ [p3, p4] →
      (v3.setMem (v3.mem.copyFrame p2 sp.pd)).mem a = v2'.mem a := by
    intro a ha
    have hne : a / 4096 ≠ p2 := fun heq => hnew2 (heq ▸ ha)
    rw [setMem_mem, Memory.copyFrame_apply_of_ne _ _ hne, hmem3]
  replace hext3 := hext3.copyFrame List.mem_cons_self sp.pd
  generalize v3.setMem (v3.mem.copyFrame p2 sp.pd) = v3' at hext3 hentry3 hkeep3
  -- the table of `0x400000`
  apply (copyTable_ensures hext3 (by decide) List.mem_cons_self h.pd
    (fun hp => hpt2 ▸ h.pt2 hp) (hentry3 2 (by decide)) _ _).bind
  · rintro c ⟨hp, ⟨hc, hk⟩ | ⟨i, hi, t, w₁, w', page, made, hcopy, hc, hk, hstop, -⟩⟩
    · exact ⟨v3', [p2, p3, p4], _, stopped_early hext3 hk
        (by simp [tablesBefore, hp]) (List.reverse_perm [p2, p3, p4]), hc⟩
    · rw [← hpt2] at hcopy
      refine ⟨w', _, _, stopped_copy2 hpt2 hp hi hcopy hk hstop, ?_⟩
      rw [hc, Pte.frame_ofFrame (hcopy.ext.lt (by simp))]
      exact freeEntries_bind fun _ _ _ => rfl
  rintro ⟨pt2, v4⟩ ⟨t2, page2, made2, hpt2', hext4, hslot2, hmem4, hpd4⟩
  simp only at hpt2' hext4 hslot2 hmem4 hpd4
  subst hpt2'
  -- the table of `0x600000`
  have hpde3 : v4.mem.entry p2 3 = v.mem.entry sp.pd 3 := by
    rw [hpd4 3 (by decide) (by decide), hentry3 3 (by decide)]
  apply (copyTable_ensures hext4 (by decide) (by simp) h.pd (fun hp => hpt3 ▸ h.pt3 hp) hpde3
    _ _).bind
  · rintro c ⟨hp, ⟨hc, hk⟩ | ⟨i, hi, t, w₁, w', page, made, hcopy, hc, hk, hstop, hkeep⟩⟩
    · refine ⟨v4, _, _, stopped_table3 hp hext4 hslot2 hk, ?_⟩
      rw [hc]
      exact freeEntries_bind fun _ _ _ => rfl
    · have hslot2' : SlotCopy v w' sp.pd p2 2 userCodeVirt t2 page2 made2 := by
        refine hslot2.congr ?_ fun a ha => hkeep a ?_
        · exact Memory.entry_of_frames hkeep (by simp) (by decide)
        · rw [← List.append_assoc]
          exact List.mem_append_left _ ha
      rw [← hpt3] at hcopy
      refine ⟨w', _, _, stopped_copy3 hpt3 hp hi hslot2' hcopy hk hstop, ?_⟩
      rw [hc, Pte.frame_ofFrame (hcopy.ext.lt (by simp))]
      refine freeEntries_bind fun u hu _ => ?_
      rw [← hu]
      exact freeEntries_bind fun _ _ _ => rfl
  rintro ⟨pt3, v5⟩ ⟨t3, page3, made3, -, hext5, hslot3, hmem5, hpd5⟩
  simp only at hext5 hslot3 hmem5 hpd5
  have hne4' : sp.pdpt ≠ p4 := fun heq => h.pdpt (heq ▸ hfirst.1)
  have hread4 : v5.mem.entry sp.pml4 0 = v.mem.entry sp.pml4 0 :=
    hext5.entry (hext5.notMem_of_notAllocatable h.pml4) (by decide)
  have hread3' : (v5.setEntry p4 0 (linkTo p3 (v.mem.entry sp.pml4 0))).mem.entry sp.pdpt 0 =
      v.mem.entry sp.pdpt 0 := by
    rw [setEntry_entry _ _ (by decide) (by decide), if_neg fun hc => hne4' hc.1,
      hext5.entry (hext5.notMem_of_notAllocatable h.pdpt) (by decide)]
  have hbuilt := built_of_slots hfirst
    (fun i hi h0 => ((Memory.entry_of_frames (hkeep3 · ·) (by simp) hi).trans
      (Memory.entry_of_frames (hkeep2 · ·) (by simp) hi)).trans (hentry1 i hi h0))
    (fun i hi => (Memory.entry_of_frames (hkeep3 · ·) (by simp) hi).trans (hentry2 i hi))
    hentry3 hslot2 hmem4 hpd4 hslot3 hmem5 hpd5 hext5
  refine .ok ⟨⟨p4, p3, p2, t2, t3, page2, page3, made2, made3⟩, rfl, ?_⟩
  simp only [Pte.addr_ofFrame, hread4]
  rw [show Pte.ofFrame p3 ||| 0x03 ||| (v.mem.entry sp.pml4 0 &&& 0x04) =
    linkTo p3 (v.mem.entry sp.pml4 0) from rfl, hread3']
  exact hbuilt

theorem Built.length_eq {w : Vmm} {new : NewSpace} (h : Built v w sp new) :
    new.frames.length = v.framesNeeded sp := by
  simp only [NewSpace.frames, List.length_append, h.slot3.length_eq, h.slot2.length_eq]
  rw [← List.length_append, length_tables h.slot2.present, framesNeeded, takenBefore]
  have h3 := h.slot3.present
  cases ht : new.pt3 with
  | none =>
    have hp : Pte.present (v.mem.entry sp.pd 3) = false := by simpa [ht] using h3.symm
    have hzero : v.privateBefore sp.pd 3 progStackTop 512 = 0 := by
      rw [privateBefore, List.countP_eq_zero]
      simp [isPrivateIn, hp]
    rw [hp, hzero]
    simp
    omega
  | some t =>
    have hp : Pte.present (v.mem.entry sp.pd 3) = true := by simpa [ht] using h3.symm
    rw [hp]
    simp
    omega

/-- It succeeds exactly if there are the frames that it needs. -/
theorem createUserPml4_ok_iff {cr3 : Word} (h : Intact v (v.source cr3)) :
    (∃ r, v.createUserPml4 cr3 = .ok r) ↔ v.pmm.Plenty (v.framesNeeded (v.source cr3)) := by
  have hspec := createUserPml4_spec rfl h
  constructor
  · rintro ⟨r, hr⟩
    obtain ⟨new, -, hbuilt⟩ := hspec.of_ok r hr
    exact ⟨new.frames, hbuilt.ext.nodup, hbuilt.length_eq.ge, hbuilt.ext.fresh⟩
  · rintro ⟨l, hnodup, hlen, hl⟩
    cases hr : v.createUserPml4 cr3 with
    | ok r => exact ⟨r, rfl⟩
    | error c =>
      obtain ⟨w, taken, pages, hs, -⟩ := hspec.of_error c hr
      exact absurd ⟨l, hnodup, hs.short.trans_le hlen, hl⟩ hs.scarce

/-- The root of a new address space is not page zero. -/
theorem Built.root_ne_zero {w : Vmm} {new : NewSpace} (hb : Built v w sp new) :
    Pte.ofFrame new.pml4 ≠ 0 :=
  Pmm.physOf_ne_zero (hb.ext.lt (by simp [NewSpace.frames]))
    (v.pmm.firstPage_pos.trans_le hb.first.1.2.1)

/-- With enough free frames there is a new address space. -/
theorem exists_created {cr3 : Word} (h : Intact v (v.source cr3))
    (henough : v.pmm.Plenty (v.framesNeeded (v.source cr3))) :
    ∃ new w, Built v w (v.source cr3) new ∧
      v.kvmmCreateUserPml4 cr3 = some (Pte.ofFrame new.pml4, w) := by
  obtain ⟨⟨r, w⟩, hr⟩ := (createUserPml4_ok_iff h).mpr henough
  obtain ⟨new, rfl, hb⟩ := (createUserPml4_spec rfl h).of_ok _ hr
  exact ⟨new, w, hb, by rw [kvmmCreateUserPml4, hr]⟩

end spec

/-! ## A small tree -/

section smallTree

variable {spare : BitVec 8} {n : ℕ}

end smallTree

end Nyvela.Vmm
