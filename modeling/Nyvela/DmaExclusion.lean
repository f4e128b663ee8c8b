import Mathlib.Data.Nat.Find
import Nyvela.AllocPage
import Nyvela.Dma
import Nyvela.FreeAuthority

/-!
# Who can reach a page for devices

The bitmap of the pool and the page tables both say whose a page is. They agree as long as no
page that is in use is freed, since `sys_dma_free_page` leaves it mapped, and as long as every
address space has tables of its own in the slot of the PML4 that the pages are mapped through.
-/

namespace Nyvela

open PageTree Vmm

/-- The tables of the window and those behind entry `256` of the PML4. -/
def dmaOwn : List ℕ → Bool
  | 256 :: _ => true
  | p => windowOwn p

theorem splits_dmaOwn : Splits dmaOwn where
  pdpt := by decide
  pd := by decide
  pt2 := by decide
  pt3 := by decide
  rest i h2 h3 := splits_windowOwn.rest i h2 h3

namespace PageState

/-- An address space is only created from one without a page for devices, and the tables are
spared. -/
def NoDma (s : PageState) (op : PageOp) : Prop :=
  SparesTables s op ∧ ∀ cr3 ∈ op.source,
    Pte.present (s.vmm.mem.entry (s.vmm.source cr3).pml4 256) = false

theorem spares_of_noDma {s : PageState} {op : PageOp} (h : NoDma s op) : Spares dmaOwn s op := by
  refine ⟨h.1, fun cr3 hcr3 => ⟨fun i _ h0 hown => ?_, fun i _ h0 hown => ?_⟩⟩
  · obtain rfl : i = 256 := by
      by_contra hne
      have hw : windowOwn [i] = true := by
        unfold dmaOwn at hown
        split at hown <;> simp_all
      simp [windowOwn, h0] at hw
    exact h.2 cr3 hcr3
  · simp [dmaOwn, windowOwn, h0] at hown

theorem exists_inv_dma {s : PageState} (h : (pageSystem.restrict NoDma).Reachable s) :
    ∃ kind, Inv dmaOwn s kind := by
  apply inv_of_reachable splits_dmaOwn
  induction h with
  | init hs => exact .init hs
  | step _ hs ih => exact ih.step ⟨spares_of_noDma hs.1, hs.2⟩

end PageState

namespace DmaState

/-! ## What the tables and the bitmap say -/

/-- User code in address space `r` reaches frame `f`. -/
def UserMaps (s : DmaState) (r : Word) (f : ℕ) : Prop := ∃ virt, s.vmm.userFrame r virt = some f

/-- Pages that are in use are reached from the address space that has allocated them and from no
other, free pages from none. -/
def Exclusive (s : DmaState) : Prop :=
  ∀ i < dmaPageAmount,
    (s.dmaBitmap.test i = true → ∃ cr3 ∈ s.roots, s.owner i = some cr3 ∧
      ∀ r ∈ s.roots, s.UserMaps r (Pte.frame s.dmaPages + i) ↔ r = cr3) ∧
    (s.dmaBitmap.test i = false → ∀ r ∈ s.roots, ¬s.UserMaps r (Pte.frame s.dmaPages + i))

/-- `kdma_init` has just succeeded. The address spaces have no tables in common behind entry
`256`, and no entry for users leads to a frame of the pool. -/
structure Initialised (s : DmaState) : Prop where
  start : ∃ (p : PageState) (u : DmaState), (pageSystem.restrict PageState.NoDma).Reachable p ∧
    u.toVmState = p.toVmState ∧ u.kdmaInit = (true, s)
  fresh : ∀ r ∈ s.roots, ∀ virt e, leaf s.vmm.mem (Pte.frame r) virt = some e →
    Pte.user e = true → ∀ i < dmaPageAmount, Pte.frame e ≠ Pte.frame s.dmaPages + i

/-- No page in use is freed. -/
def KeepsPages (s : DmaState) : DmaOp → Prop
  | .kdmaInit => False
  | .sysDmaAllocPage _ => True
  | .sysDmaFreePage addr => ∀ i < dmaPageAmount, (addr - dmaVirtBase) / 4096 = BitVec.ofNat 64 i →
    s.dmaBitmap.test i = false

/-- The tables agree with the bitmap, down to the entries. -/
structure Tracks (s : DmaState) (base : ℕ) (kind : ℕ → Option Kind) : Prop where
  tables : Tables dmaOwn s.vmm kind (s.roots.map Pte.frame)
  aligned : ∀ r ∈ s.roots, Pte.addr r = r
  pages : s.dmaPages = Pmm.physOf base
  low : 0 < base
  high : base + dmaPageAmount < 2 ^ 52
  only : ∀ r ∈ s.roots, ∀ virt e, leaf s.vmm.mem (Pte.frame r) virt = some e → Pte.user e = true →
    ∀ i < dmaPageAmount, Pte.frame e = base + i → s.dmaBitmap.test i = true ∧ s.owner i = some r
  held : ∀ i < dmaPageAmount, s.dmaBitmap.test i = true → ∃ cr3 ∈ s.roots, s.owner i = some cr3 ∧
    s.vmm.userFrame cr3 (dmaVirt i) = some (base + i)

section

variable {s t : DmaState} {kind : ℕ → Option Kind} {v : Vmm} {cr3 r virt : Word} {base f : ℕ}

theorem leaf_of_userFrame (h : v.userFrame r virt = some f) :
    ∃ e, leaf v.mem (Pte.frame r) virt = some e ∧ Pte.user e = true ∧ Pte.frame e = f := by
  obtain ⟨pt, i, hwalk, hframe, hp, hu⟩ := userFrame_eq_some h
  rw [kgetPteAddrAt_eq] at hwalk
  obtain ⟨t, ht, heq⟩ := Option.map_eq_some_iff.mp hwalk
  obtain ⟨rfl, rfl⟩ := Prod.mk.inj heq
  exact ⟨_, by rw [leaf_eq, ht, Option.bind_some, if_pos hp], hu, hframe⟩

theorem Tracks.frame_eq (h : s.Tracks base kind) : Pte.frame s.dmaPages = base := by
  rw [h.pages]
  exact Pte.frame_ofFrame (by have := h.high; omega)

theorem Tracks.exclusive (h : s.Tracks base kind) : s.Exclusive := by
  unfold Exclusive
  rw [h.frame_eq]
  have honly : ∀ i < dmaPageAmount, ∀ r ∈ s.roots, s.UserMaps r (base + i) →
      s.dmaBitmap.test i = true ∧ s.owner i = some r := by
    rintro i hi r hr ⟨virt, hvirt⟩
    obtain ⟨e, he, hu, hf⟩ := leaf_of_userFrame hvirt
    exact h.only r hr virt e he hu i hi hf
  intro i hi
  constructor
  · intro hset
    obtain ⟨cr3, hr, hown, hframe⟩ := h.held i hi hset
    refine ⟨cr3, hr, hown, fun r hr' => ⟨fun hmaps => ?_, fun heq => ⟨dmaVirt i, heq ▸ hframe⟩⟩⟩
    exact Option.some.inj ((honly i hi r hr' hmaps).2.symm.trans hown)
  · intro hfree r hr hmaps
    exact Bool.false_ne_true (hfree.symm.trans (honly i hi r hr hmaps).1)

/-! ## One step -/

theorem path_dmaVirt {i : ℕ} (hi : i < dmaPageAmount) :
    path (dmaVirt i) = [256, 0, 2, 256 + i] := by
  revert i
  decide

theorem ownPath_dmaVirt {i : ℕ} (hi : i < dmaPageAmount) : OwnPath dmaOwn (path (dmaVirt i)) := by
  rw [path_dmaVirt hi]
  intro l hl
  obtain rfl | rfl | rfl : l = 0 ∨ l = 1 ∨ l = 2 := by omega
  all_goals rfl

theorem access_of_userFrame (h : v.userFrame r virt = some f) :
    ∃ b, access v.mem (Pte.frame r) (path virt) = some (f, true, b) := by
  simp only [userFrame] at h
  split_ifs at h with hopen
  simp only [Bool.and_eq_true] at hopen
  obtain ⟨⟨⟨h4, h3⟩, h2⟩, h1⟩ := hopen
  simp only [path, access, h4.1, h3.1, h2.1, h1.1, h4.2, h3.2, h2.2, h1.2, if_true,
    Option.map_some, Bool.and_true, Option.some.inj h]
  exact ⟨_, rfl⟩

/-- A page of the pool is mapped in `cr3`. Elsewhere the entries are what they were, and the
pages that `cr3` has in the window of the pool stay. -/
theorem Tracks.alloc (h : s.Tracks base kind) (hr : cr3 ∈ s.roots) {i : ℕ}
    (hi : i < dmaPageAmount) (hfree : s.dmaBitmap.test i = false)
    (hmap : s.vmm.kvmmapAt cr3 (dmaVirt i) (Pmm.physOf (base + i)) 0x07 = some v) :
    ∃ kind', ({ s with
      vmm := v
      dmaBitmap := s.dmaBitmap.set i
      owner := Function.update s.owner i (some cr3) } : DmaState).Tracks base kind' := by
  have hmem := List.mem_map_of_mem (f := Pte.frame) hr
  have hown := ownPath_dmaVirt hi
  have hhigh := h.high
  obtain ⟨kind', t, ht, hat⟩ := h.tables.kvmmapAt hmem hmap
  have hpriv : Edits s.vmm kind v kind' fun K _ => K.PrivateTo (Pte.frame cr3) :=
    hat.ext.edits.mono fun _ _ hon => hon.privateTo hown
  have hinj : ∀ r ∈ s.roots, Pte.frame r = Pte.frame cr3 → r = cr3 := by
    intro r hr' heq
    rw [← h.aligned r hr', ← h.aligned cr3 hr, Pte.addr_eq_ofFrame, Pte.addr_eq_ofFrame, heq]
  have hentry : v.mem.entry t (Pte.ptIndex (dmaVirt i)) = Pte.ofFrame (base + i) ||| 0x07 := by
    rw [hat.entry]
    exact congrArg (· ||| 0x07) (Pte.addr_ofFrame _)
  have hleads : Leads (v.mem.entry t (Pte.ptIndex (dmaVirt i))) (base + i) := by
    rw [hentry]
    exact leads_ofFrame_or (by omega) (by decide) (by decide)
  obtain ⟨b, hway⟩ := hat.user (by decide)
  -- other entries
  have hother : ∀ r ∈ s.roots, ∀ a, r ≠ cr3 ∨ path a ≠ path (dmaVirt i) →
      leaf v.mem (Pte.frame r) a = leaf s.vmm.mem (Pte.frame r) a := by
    intro r hr' a hne
    by_cases heq : r = cr3
    · subst heq
      exact hat.ext.edits.leaf_eq h.tables.forest ht.forest hmem hown
        (hne.resolve_left fun hc => hc rfl)
    · rw [leaf, leaf, h.tables.forest.walk_of_ne (List.mem_map_of_mem hr')
        (fun hc => heq (hinj r hr' hc)) (fun f K hf hK j hj => hpriv.entries f K hf j hj hK)]
  refine ⟨kind', ht, h.aligned, h.pages, h.low, h.high, ?_, ?_⟩
  · intro r hr' a e he hu j hj hf
    by_cases hnew : r = cr3 ∧ path a = path (dmaVirt i)
    · obtain ⟨rfl, hpath⟩ := hnew
      have hleaf : leaf v.mem (Pte.frame r) a = leaf v.mem (Pte.frame r) (dmaVirt i) := by
        rw [leaf, leaf, hpath]
      rw [hleaf, leaf_eq, hat.descend_eq, Option.bind_some, if_pos hleads.1] at he
      obtain rfl : j = i := by
        rw [← Option.some.inj he, hleads.2] at hf
        omega
      exact ⟨by simp [Bitmap.test_set], Function.update_self _ _ _⟩
    · rw [hother r hr' a (not_and_or.mp hnew)] at he
      obtain ⟨hset, hownj⟩ := h.only r hr' a e he hu j hj hf
      have hne : j ≠ i := fun hc => Bool.false_ne_true (hfree.symm.trans (hc ▸ hset))
      exact ⟨by simp [Bitmap.test_set, hset], (Function.update_of_ne hne _ _).trans hownj⟩
  · intro j hj hset
    by_cases hji : j = i
    · subst hji
      obtain ⟨b', hacc⟩ := access_snoc hway hleads.1 (by rw [hentry, Pte.user_or]; simp; decide)
      rw [hleads.2] at hacc
      exact ⟨cr3, hr, Function.update_self _ _ _, userFrame_of_access hacc⟩
    · dsimp only at hset
      rw [Bitmap.test_set, decide_eq_false hji, Bool.or_false] at hset
      obtain ⟨c, hc, hownj, hframe⟩ := h.held j hj hset
      refine ⟨c, hc, (Function.update_of_ne hji _ _).trans hownj, ?_⟩
      have hne : path (dmaVirt j) ≠ path (dmaVirt i) := by
        rw [path_dmaVirt hj, path_dmaVirt hi]
        intro heq
        simp only [List.cons.injEq, and_true, true_and] at heq
        omega
      by_cases hcc : c = cr3
      · -- the same table, which is open to users now as it was before
        subst hcc
        obtain ⟨e, he, hu, hf⟩ := leaf_of_userFrame hframe
        have htake : (path (dmaVirt j)).take 3 = (path (dmaVirt i)).take 3 := by
          rw [path_dmaVirt hj, path_dmaVirt hi]
          rfl
        rw [← hother c hc _ (.inr hne), leaf_eq, htake, hat.descend_eq, Option.bind_some] at he
        split_ifs at he with hp
        obtain rfl := Option.some.inj he
        obtain ⟨b', hacc⟩ := access_snoc hway hp hu
        rw [← htake, hf] at hacc
        exact userFrame_of_access hacc
      · obtain ⟨b', hacc⟩ := access_of_userFrame hframe
        rw [← hpriv.access_eq h.tables (List.mem_map_of_mem hc)
          (fun heq => hcc (hinj c hc heq)) (dmaVirt j)] at hacc
        exact userFrame_of_access hacc

theorem Tracks.step (h : s.Tracks base kind) {op : DmaOp} (hok : s.KeepsPages op)
    (hstep : Step s op t) : ∃ kind', t.Tracks base kind' := by
  cases hstep with
  | kdmaInit => exact hok.elim
  | sysDmaAllocPage hr hcall =>
    have hpage : ∀ i, s.dmaPages + BitVec.ofNat 64 (4096 * i) = Pmm.physOf (base + i) := by
      intro i
      rw [h.pages, physOf_add]
    obtain ⟨i, hi, -, -, h0, -⟩ | ⟨i, hi, hfree, -, v, hmap, -, rfl⟩ | ⟨-, -, rfl⟩ :=
      sysDmaAllocPage_cases hcall
    · rw [hpage] at h0
      have hlow := h.low
      have hhigh := h.high
      exact absurd h0 (Pmm.physOf_ne_zero (by omega) (by omega))
    · rw [hpage] at hmap
      exact h.alloc hr hi hfree hmap
    · exact ⟨kind, h⟩
  | sysDmaFreePage =>
    rename_i addr
    obtain heq | ⟨i, hi, hn, heq⟩ := s.sysDmaFreePage_cases addr
    · rw [heq]
      exact ⟨kind, h⟩
    · rw [heq, clear_of_free (hok i hi hn)]
      exact ⟨kind, h⟩

theorem Initialised.tracks (h : s.Initialised) : ∃ base kind, s.Tracks base kind := by
  obtain ⟨p, u, hp, hvm, hinit⟩ := h.start
  have hok : u.kdmaInit.1 = true := congrArg Prod.fst hinit
  obtain rfl : u.kdmaInit.2 = s := congrArg Prod.snd hinit
  obtain ⟨kind, hinv⟩ := PageState.exists_inv_dma hp
  obtain ⟨base, hstart, hlow, hhigh, htest⟩ := u.exists_kdmaInit (of_decide_eq_true hok)
  have hlt : base + dmaPageAmount < 2 ^ 52 := Nat.lt_of_le_of_lt hhigh (Pmm.frameCount_lt _)
  have hframe : Pte.frame u.kdmaInit.2.dmaPages = base := by
    rw [hstart]
    exact Pte.frame_ofFrame (by omega)
  have hforest : Tables dmaOwn u.vmm kind (u.roots.map Pte.frame) := by
    rw [hvm]
    exact hinv.tables
  refine ⟨base, kind, ⟨hforest.forest, fun f hf => ?_⟩, ?_, hstart,
    (Pmm.firstPage_pos _).trans_le hlow, hlt, ?_, ?_⟩
  · rw [Bool.eq_false_iff]
    exact fun hfree => Bool.false_ne_true ((hforest.used f hf).symm.trans ((htest f).mp hfree).1)
  · rw [show u.kdmaInit.2.roots = u.roots from rfl, hvm]
    exact hinv.aligned
  · intro r hr virt e he hu i hi hf
    exact absurd (by rw [hframe]; exact hf) (h.fresh r hr virt e he hu i hi)
  · intro i hi hset
    exact absurd (u.dmaBitmap_kdmaInit hi) (by rw [hset]; decide)

end

/-- In every run in which no page in use is freed, from a pool that has just been set up. -/
theorem dma_pages_exclusive {s₀ s : DmaState} {l : List DmaOp} (h : s₀.Initialised)
    (hrun : (dmaSystem.restrict KeepsPages).Run s₀ l s) : s.Exclusive := by
  obtain ⟨base, kind, htracks⟩ := h.tracks
  have hall : ∃ kind, s.Tracks base kind := by
    refine hrun.invariant (p := fun _ s => ∃ kind, s.Tracks base kind) ⟨kind, htracks⟩ ?_
    rintro l s op s' ⟨kind, hs⟩ ⟨hok, hstep⟩
    exact hs.step hok hstep
  obtain ⟨kind', hs⟩ := hall
  exact hs.exclusive

/-! ## The booted machine with an address space -/

section booted

variable {p : PageState} {w : Vmm} {new : NewSpace} {virt e : Word}

theorem present_of_descend {m : Memory} {r i4 i3 i2 t : ℕ} (h : descend m r [i4, i3, i2] = some t) :
    Pte.present (m.entry r i4) = true ∧
      Pte.present (m.entry (Pte.frame (m.entry r i4)) i3) = true := by
  simp only [descend] at h
  split_ifs at h with h4 h3
  exact ⟨h4, h3⟩

/-- `kvmm_init` opens nothing to users. -/
theorem closed_started (h : p.Started) (he : leaf p.vmm.mem (Pte.frame 0x9000) virt = some e) :
    Pte.user e = false := by
  rw [leaf_eq] at he
  obtain ⟨t, ht, he⟩ := Option.bind_eq_some_iff.mp he
  split_ifs at he with hp
  obtain rfl := Option.some.inj he
  obtain ⟨hp4, hp3⟩ := present_of_descend ht
  have h4 : Pte.pml4Index virt = 0 := by
    by_contra hne
    exact Bool.false_ne_true ((h.pml4 _ (Pte.pml4Index_lt virt) hne).symm.trans hp4)
  rw [h4] at hp3
  have h3 : Pte.pdptIndex virt = 0 := by
    by_contra hne
    exact Bool.false_ne_true ((h.pdpt _ (Pte.pdptIndex_lt virt) hne).symm.trans hp3)
  obtain ⟨t', hdesc, -, -, hpte⟩ := h.identity (Pte.pdIndex_lt virt)
  rw [path, h4, h3, List.take_succ_cons, List.take_succ_cons, List.take_succ_cons, List.take_zero,
    hdesc] at ht
  obtain rfl := Option.some.inj ht
  rw [hpte _ (Pte.ptIndex_lt virt)]
  exact user_identityEntry _ _

theorem inUse_started (h : p.Started) : InUse p.vmm 0x9000 where
  tables q f hq hlen hf := by
    obtain ⟨kind, hinv⟩ := PageState.inv_init splits_windowOwn h.init
    have hkind := hinv.kind_ne_none ⟨0x9000, by simp [h.roots], q, hq, hlen, hf⟩
    exact fun hfree => Bool.false_ne_true ((hinv.tables.used f hkind).symm.trans hfree.1)
  pages virt e b hmap hu := by
    have hleaf : leaf p.vmm.mem (Pte.frame 0x9000) virt = some e := by
      rw [leaf, show walk p.vmm.mem (Pte.frame 0x9000) (path virt) = some (e, b) from hmap]
      rfl
    exact absurd hu (by rw [closed_started h hleaf]; decide)

theorem present_started (h : p.Started) :
    Pte.present (p.vmm.mem.entry (Pte.frame 0x9000) 0) = true ∧
      Pte.present (p.vmm.mem.entry (p.vmm.source 0x9000).pdpt 0) = true := by
  obtain ⟨t, hdesc, -⟩ := h.identity (show 0 < 512 by decide)
  exact present_of_descend hdesc

/-- Nor does `kvmm_create_user_pml4`. -/
theorem closed_created (h : p.Started) (hb : Built p.vmm w (p.vmm.source 0x9000) new)
    (he : leaf w.mem (Pte.frame (Pte.ofFrame new.pml4)) virt = some e) : Pte.user e = false := by
  obtain ⟨h4, h3⟩ := present_started h
  by_cases hin : Pte.pml4Index virt = 0 ∧ Pte.pdptIndex virt = 0 ∧
      (Pte.pdIndex virt = 2 ∨ Pte.pdIndex virt = 3)
  · -- in a copied table
    obtain ⟨hz4, hz3, hslot⟩ := hin
    obtain ⟨i, hi, hpath⟩ : ∃ i < 1024, path virt = path (windowPage i) := by
      have hlt := Pte.ptIndex_lt virt
      refine ⟨(Pte.pdIndex virt - 2) * 512 + Pte.ptIndex virt, by omega, ?_⟩
      rw [path_windowPage (by omega), path, hz4, hz3]
      congr 3
      · omega
      · congr 1
        omega
    rw [leaf, hpath, show walk w.mem _ (path (windowPage i)) = _ from hb.mapping_window h4 h3 hi] at he
    obtain ⟨x, hx, rfl⟩ := Option.map_eq_some_iff.mp he
    obtain ⟨y, hy, rfl⟩ := Option.map_eq_some_iff.mp hx
    have hold : leaf p.vmm.mem (Pte.frame 0x9000) (windowPage i) = some y.1 :=
      congrArg (Option.map Prod.fst) hy
    by_cases hp : Pte.present y.1 = true
    · exact (user_copyOf hp).trans (closed_started h hold)
    · simp only [copyOf, if_neg hp]
      decide
  · rw [leaf, show walk w.mem _ (path virt) = _ from hb.mapping_beside (inUse_started h) h4 h3
      fun hz4 hz3 => not_or.mp fun hslot => hin ⟨hz4, hz3, hslot⟩] at he
    exact closed_started h he

/-- The new address space has its five tables and no pages. -/
theorem frames_created (h : p.Started) (hb : Built p.vmm w (p.vmm.source 0x9000) new) :
    new.frames.length = 5 := by
  have hslot : ∀ i < 512, ∀ base, Pte.present (p.vmm.mem.entry (p.vmm.source 0x9000).pd i) = true ∧
      p.vmm.privateBefore (p.vmm.source 0x9000).pd i base 512 = 0 := by
    intro i hi base
    obtain ⟨t, -, hpde, hlt, hpte⟩ := h.identity hi
    have hleads : Leads (p.vmm.mem.entry (p.vmm.source 0x9000).pd i) t := by
      rw [hpde]
      exact leads_ofFrame_or hlt (by decide) (by decide)
    refine ⟨hleads.1, List.countP_eq_zero.mpr fun j hj => ?_⟩
    rw [isPrivateIn, hleads.2, privateAt, isPrivate, hpte j (List.mem_range.mp hj),
      user_identityEntry, Bool.and_false, Bool.and_false]
    exact Bool.false_ne_true
  rw [hb.length_eq, framesNeeded, takenBefore, tablesBefore, if_pos (hslot 2 (by decide) 0).1,
    if_pos (hslot 3 (by decide) 0).1, (hslot 2 (by decide) _).2, (hslot 3 (by decide) _).2]

/-- So a run of sixteen frames is left. -/
theorem runs_created (h : p.Started) (hb : Built p.vmm w (p.vmm.source 0x9000) new) :
    (w.pmm.runs dmaPageAmount).Nonempty := by
  -- of the first six blocks of sixteen frames, one has none of the five
  obtain ⟨k, hk, hnot⟩ : ∃ k < 6, k ∉ new.frames.map fun f => (f - 0x600) / 16 := by
    by_contra! hall
    have hle := (List.subperm_of_subset List.nodup_range
      fun k hk => hall k (List.mem_range.mp hk)).length_le
    rw [List.length_range, List.length_map, frames_created h hb] at hle
    omega
  refine ⟨0x600 + 16 * k, fun i hi => ?_⟩
  rw [dmaPageAmount] at hi
  refine hb.ext.mem_allocatable ?_ fun hmem => hnot ?_
  · rw [h.allocatable]
    exact ⟨by omega, by omega⟩
  · exact List.mem_map.mpr ⟨_, hmem, by omega⟩

theorem took_kdmaInit {u : DmaState} (h : (u.vmm.pmm.runs dmaPageAmount).Nonempty) :
    u.kdmaInit.1 = true ∧ ∃ base, Took u.vmm u.kdmaInit.2.vmm (List.range' base dmaPageAmount) := by
  have htakes := u.vmm.pmm.takes_pool
  obtain ⟨base, hleast⟩ : ∃ base, IsLeast (u.vmm.pmm.runs dmaPageAmount) base := by
    classical
    exact ⟨Nat.find h, Nat.find_spec h, fun _ hb => Nat.find_min' h hb⟩
  refine ⟨decide_eq_true fun h0 => htakes.null_iff.mp h0 ⟨_, hleast⟩, base,
    htakes.frameCount, htakes.kernelEnd, rfl, rfl, fun f hf => ?_, List.nodup_range', fun f => ?_⟩
  · obtain ⟨hlow, hhigh⟩ := List.mem_range'_1.mp hf
    have hmem := hleast.1 (f - base) (by omega)
    rwa [Nat.add_sub_cancel' hlow] at hmem
  · have hremoved := Set.ext_iff.mp (htakes.removed _ hleast) f
    rw [Bool.eq_iff_iff, Bool.and_eq_true, decide_eq_true_eq, List.mem_range'_1]
    exact hremoved

/-- A pool, and an address space that may use it. -/
theorem exists_initialised : ∃ (s : DmaState) (cr3 : Word), s.Initialised ∧ cr3 ∈ s.roots ∧
    s.vmm.pmm.Plenty 3 ∧ ∀ i < dmaPageAmount, s.dmaBitmap.test i = false := by
  obtain ⟨p, hp⟩ := PageState.exists_started splits_windowOwn
  obtain ⟨new, w, hb, -, hplenty, hspare, hstep⟩ := hp.exists_create splits_windowOwn
  have hnoDma : PageState.NoDma p (.call (.kvmmCreateUserPml4 0x9000)) := by
    refine ⟨hspare, fun cr3 hcr3 => ?_⟩
    obtain rfl : (0x9000 : Word) = cr3 := Option.some.inj hcr3
    exact hp.pml4 256 (by decide) (by decide)
  have hreach : (pageSystem.restrict PageState.NoDma).Reachable
      (p.addRoot w (Pte.ofFrame new.pml4)) := .step (.init hp.init) ⟨hnoDma, hstep⟩
  have hruns : ((boot (p.addRoot w (Pte.ofFrame new.pml4))).vmm.pmm.runs dmaPageAmount).Nonempty :=
    runs_created hp hb
  obtain ⟨hok, base, htook⟩ := took_kdmaInit hruns
  refine ⟨_, Pte.ofFrame new.pml4, ⟨⟨_, _, hreach, rfl, Prod.ext hok rfl⟩, ?_⟩,
    List.mem_cons_self, htook.plenty (Plenty.mono hplenty ?_), fun i => dmaBitmap_kdmaInit _⟩
  · intro r hr virt e he hu
    have hclosed : Pte.user e = false := by
      obtain rfl | hr := List.mem_cons.mp hr
      · exact closed_created hp hb he
      · obtain rfl : r = 0x9000 := List.mem_singleton.mp (hp.roots ▸ hr)
        have hwalk : walk w.mem (Pte.frame 0x9000) (path virt) = _ := (inUse_started hp).walk_eq
          hb.ext (q := []) (by simp) rfl (fun _ => path_lt) (by simp [path]) (by simp)
        exact closed_started hp ((congrArg (Option.map Prod.fst) hwalk).symm.trans he)
    exact absurd hu (by rw [hclosed]; decide)
  · rw [List.length_range', dmaPageAmount]
    decide

/-- A call with a page left maps it. -/
theorem exists_alloc {s : DmaState} (h : s.Initialised) (hplenty : s.vmm.pmm.Plenty 3)
    (hfree : ∀ i < dmaPageAmount, s.dmaBitmap.test i = false) (cr3 : Word) :
    ∃ i < dmaPageAmount, ∃ t, s.sysDmaAllocPage cr3 = some (dmaVirt i, t) ∧
      t.dmaBitmap.test i = true := by
  obtain ⟨base, kind, htracks⟩ := h.tracks
  obtain ⟨r, t, hcall⟩ : ∃ r t, s.sysDmaAllocPage cr3 = some (r, t) := by
    simp only [sysDmaAllocPage]
    split_ifs
    · exact ⟨_, _, rfl⟩
    · have hvmm : s.kdmaPalloc.2.vmm = s.vmm := by
        obtain ⟨i, -, -, heq⟩ | ⟨-, heq⟩ := s.kdmaPalloc_cases <;> rw [heq]
      rw [hvmm]
      obtain ⟨v, hv⟩ := exists_kvmmapAt hplenty cr3 _ s.kdmaPalloc.1 0x07
      rw [hv]
      exact ⟨_, _, rfl⟩
  obtain ⟨i, hi, -, -, h0, -⟩ | ⟨i, hi, -, -, v, -, rfl, rfl⟩ | ⟨hfull, -, -⟩ :=
    sysDmaAllocPage_cases hcall
  · rw [htracks.pages, physOf_add] at h0
    have hlow := htracks.low
    have hhigh := htracks.high
    exact absurd h0 (Pmm.physOf_ne_zero (by omega) (by omega))
  · exact ⟨i, hi, _, hcall, by simp [Bitmap.test_set]⟩
  · exact absurd (hfull 0 (by decide)) (by rw [hfree 0 (by decide)]; decide)

/-- A page in use is freed by its address, whoever calls. -/
theorem sysDmaFreePage_dmaVirt {s : DmaState} {base : ℕ} {kind : ℕ → Option Kind}
    (h : s.Tracks base kind) {i : ℕ} (hi : i < dmaPageAmount) :
    s.sysDmaFreePage (dmaVirt i) = { s with dmaBitmap := s.dmaBitmap.clear i } := by
  have hhigh := h.high
  rw [dmaPageAmount] at hhigh
  refine sysDmaFreePage_eq ?_ hi (dmaVirt_index hi)
  rw [h.pages, Pmm.physOf_toNat (by omega)]
  omega

/-- One page is taken. -/
theorem dma_pages_exclusive_one : ∃ (s₀ s : DmaState) (cr3 : Word), s₀.Initialised ∧
    (dmaSystem.restrict KeepsPages).Run s₀ [.sysDmaAllocPage cr3] s ∧ s.Exclusive := by
  obtain ⟨s₀, cr3, h, hr, hplenty, hfree⟩ := exists_initialised
  obtain ⟨i, -, s, hcall, -⟩ := exists_alloc h hplenty hfree cr3
  have hrun : (dmaSystem.restrict KeepsPages).Run s₀ [.sysDmaAllocPage cr3] s :=
    .snoc .nil ⟨trivial, .sysDmaAllocPage hr hcall⟩
  exact ⟨s₀, s, cr3, h, hrun, dma_pages_exclusive h hrun⟩

/-- The page is freed, and stays mapped. -/
theorem dma_free_leaves_mapped : ∃ (s₀ s : DmaState) (cr3 addr : Word), s₀.Initialised ∧
    cr3 ∈ s₀.roots ∧ dmaSystem.Run s₀ [.sysDmaAllocPage cr3, .sysDmaFreePage addr] s ∧
    ¬s.Exclusive := by
  obtain ⟨s₀, cr3, h, hr, hplenty, hfree⟩ := exists_initialised
  obtain ⟨i, hi, s, hcall, hset⟩ := exists_alloc h hplenty hfree cr3
  obtain ⟨base, kind, htracks⟩ := h.tracks
  have hstep : Step s₀ (.sysDmaAllocPage cr3) s := .sysDmaAllocPage hr hcall
  have hkeeps : s₀.KeepsPages (.sysDmaAllocPage cr3) := trivial
  obtain ⟨kind', htracks'⟩ := htracks.step hkeeps hstep
  have hrun : dmaSystem.Run s₀ [.sysDmaAllocPage cr3, .sysDmaFreePage (dmaVirt i)]
      (s.sysDmaFreePage (dmaVirt i)) := .snoc (.snoc .nil hstep) Step.sysDmaFreePage
  refine ⟨s₀, _, cr3, dmaVirt i, h, hr, hrun, fun hex => ?_⟩
  rw [sysDmaFreePage_dmaVirt htracks' hi] at hex
  obtain ⟨r, hr', -, hframe⟩ := htracks'.held i hi hset
  refine (hex i hi).2 ?_ r hr' ⟨dmaVirt i, ?_⟩
  · simp [Bitmap.test_clear]
  · rw [htracks'.frame_eq]
    exact hframe

end booted

end DmaState

end Nyvela
