import Nyvela.RamfsTree

/-!
# The content of files

A file's bytes are found page by page. A write replaces exactly the bytes it was
given, whatever the pages its chunks fall into, and a read returns them.
-/

namespace Nyvela

namespace Ramfs

theorem Tree.congr {s s' : Ramfs} {addr : List Name → ℕ} (ht : s.Tree addr)
    (hroot : s'.root = s.root) (hname : ∀ n, (s'.node n).name = (s.node n).name)
    (hdir : ∀ n, (s'.node n).isDir = (s.node n).isDir)
    (hchild : ∀ n, (s'.node n).child = (s.node n).child)
    (hsibling : ∀ n, (s'.node n).sibling = (s.node n).sibling) : s'.Tree addr := by
  have hat : ∀ p, s'.DirAt addr p ↔ s.DirAt addr p := by
    intro p
    rw [DirAt, DirAt, hdir]
  constructor
  case root => rw [hroot, ht.root]
  case rootDir => exact (hat []).mpr ht.rootDir
  case inj => exact ht.inj
  case name =>
    intro p a hne
    rw [hname]
    exact ht.name p a hne
  case parent =>
    intro p a hne
    exact (hat p).mpr (ht.parent p a hne)
  case children =>
    intro p hp
    simp only [hchild, hsibling]
    exact ht.children p ((hat p).mp hp)

theorem Shaped.congr {s s' : Ramfs} {addr : List Name → ℕ} (h : s.Shaped addr)
    (hdir : ∀ n, (s'.node n).isDir = (s.node n).isDir)
    (hchild : ∀ n, (s'.node n).child = (s.node n).child) : s'.Shaped addr := by
  refine ⟨h.names, fun p hp => ?_, h.deep⟩
  rw [hdir, hchild]
  exact h.leaf p hp

/-- Whatever the heap does for others. -/
theorem Inv.of_heap {s : Ramfs} {addr : List Name → ℕ} (hi : s.Inv addr) {h : HeapState}
    (hh : h.Inv) (hlive : ∀ p, addr p ≠ 0 → h.live (addr p) = some 168)
    (hused : ∀ p i f, addr p ≠ 0 → i < (s.node (addr p)).pageCount →
      (s.node (addr p)).pages i = f * 4096 → h.heap.pmm.bitmap.test f = false) :
    Inv { s with heap := h } addr := by
  refine ⟨hi.toTree.congr rfl (fun _ => rfl) (fun _ => rfl) (fun _ => rfl) fun _ => rfl, hh,
    hlive, hi.count_le, hi.size_le, fun p i hp hpi => ?_, hi.apart⟩
  obtain ⟨f, hf, hpage, -⟩ := hi.page p i hp hpi
  exact ⟨f, hf, hpage, hused p i f hp hpi hpage⟩

/-- Only the pages of the file `f` differ: there may be more of them. -/
structure Grown (f : ℕ) (s s' : Ramfs) : Prop where
  root : s'.root = s.root
  live : s'.heap.live = s.heap.live
  others : ∀ n, n ≠ f → s'.node n = s.node n
  self : ∃ pages count, s'.node f = { s.node f with pages := pages, pageCount := count } ∧
    (s.node f).pageCount ≤ count ∧ ∀ i < (s.node f).pageCount, pages i = (s.node f).pages i

theorem Grown.refl (f : ℕ) (s : Ramfs) : Grown f s s :=
  ⟨rfl, rfl, fun _ _ => rfl, _, _, rfl, le_rfl, fun _ _ => rfl⟩

theorem Grown.trans {f : ℕ} {s s' s'' : Ramfs} (h : Grown f s s') (h' : Grown f s' s'') :
    Grown f s s'' := by
  obtain ⟨pages, count, hself, hle, hpages⟩ := h.self
  obtain ⟨pages', count', hself', hle', hpages'⟩ := h'.self
  rw [hself] at hself' hle' hpages'
  refine ⟨h'.root.trans h.root, h'.live.trans h.live,
    fun n hn => (h'.others n hn).trans (h.others n hn), pages', count', hself', hle.trans hle', ?_⟩
  intro i hi
  rw [hpages' i (hi.trans_le hle)]
  exact hpages i hi

theorem Grown.tree {f : ℕ} {s s' : Ramfs} {addr : List Name → ℕ} (h : Grown f s s')
    (ht : s.Tree addr) : s'.Tree addr := by
  obtain ⟨pages, count, hself, -⟩ := h.self
  apply ht.congr h.root
  all_goals
    intro n
    by_cases hn : n = f
    · rw [hn, hself]
    · rw [h.others n hn]

theorem Grown.shaped {f : ℕ} {s s' : Ramfs} {addr : List Name → ℕ} (h : Grown f s s')
    (hs : s.Shaped addr) : s'.Shaped addr := by
  obtain ⟨pages, count, hself, -⟩ := h.self
  apply hs.congr
  all_goals
    intro n
    by_cases hn : n = f
    · rw [hn, hself]
    · rw [h.others n hn]

/-- A node's page count only grows, and the old pages stay. -/
theorem Grown.node {f : ℕ} {s s' : Ramfs} (h : Grown f s s') (n : ℕ) :
    (s.node n).pageCount ≤ (s'.node n).pageCount ∧
      ∀ i < (s.node n).pageCount, (s'.node n).pages i = (s.node n).pages i := by
  by_cases hn : n = f
  · obtain ⟨pages, count, hself, hle, hpages⟩ := h.self
    rw [hn, hself]
    exact ⟨hle, hpages⟩
  · rw [h.others n hn]
    exact ⟨le_rfl, fun _ _ => rfl⟩

/-! ## More pages -/

section addPage

variable {s : Ramfs} {addr : List Name → ℕ} {p : List Name}

theorem addPage_node (f page : ℕ) (pmm : Pmm) (n : ℕ) :
    (s.addPage f page pmm).node n =
      if n = f then
        { s.node f with
          pages := Function.update (s.node f).pages (s.node f).pageCount page
          pageCount := (s.node f).pageCount + 1 }
      else s.node n := by
  simp only [addPage, setNode, Function.update_apply]

theorem addPage_heap (f page : ℕ) (pmm : Pmm) : (s.addPage f page pmm).heap =
    (s.heap.setPmm pmm).setMem (s.mem.memset page 0 4096) := by
  simp only [addPage, setNode]

theorem addPage_root (f page : ℕ) (pmm : Pmm) : (s.addPage f page pmm).root = s.root := by
  simp only [addPage, setNode]

theorem addPage_grown (f page : ℕ) (pmm : Pmm) : Grown f s (s.addPage f page pmm) := by
  constructor
  case root => exact addPage_root f page pmm
  case live => rw [addPage_heap, HeapState.setMem_live, HeapState.setPmm_live]
  case others =>
    intro n hn
    rw [addPage_node, if_neg hn]
  case self =>
    refine ⟨Function.update (s.node f).pages (s.node f).pageCount page,
      (s.node f).pageCount + 1, ?_, Nat.le_succ _, fun i hi => ?_⟩
    · rw [addPage_node, if_pos rfl]
    · exact Function.update_of_ne (Nat.ne_of_lt hi) ..

/-- A page of the new file system is an old page of the same file, or the new one. -/
theorem addPage_pages {f page : ℕ} {pmm : Pmm} {n i : ℕ}
    (hi : i < ((s.addPage f page pmm).node n).pageCount) :
    (i < (s.node n).pageCount ∧
        ((s.addPage f page pmm).node n).pages i = (s.node n).pages i) ∨
      (n = f ∧ i = (s.node f).pageCount ∧ ((s.addPage f page pmm).node n).pages i = page) := by
  rw [addPage_node] at hi ⊢
  by_cases hn : n = f
  · rw [if_pos hn] at hi ⊢
    subst hn
    by_cases hlast : i = (s.node n).pageCount
    · exact Or.inr ⟨rfl, hlast, by simp [hlast]⟩
    · have hlt : i < (s.node n).pageCount := by simp only at hi; omega
      exact Or.inl ⟨hlt, by simp [Function.update_of_ne hlast]⟩
  · rw [if_neg hn] at hi ⊢
    exact Or.inl ⟨hi, rfl⟩

theorem addPage_inv (hi : s.Inv addr)
    (hcount : (s.node (addr p)).pageCount < ramfsPagesPerFile)
    (hk : s.heap.heap.pmm.kpalloc.1 ≠ 0) :
    (s.addPage (addr p) s.heap.heap.pmm.kpalloc.1.toNat s.heap.heap.pmm.kpalloc.2).Inv addr ∧
      ∀ q k, addr q ≠ 0 → k < (s.node (addr q)).pageCount * 4096 →
        (s.addPage (addr p) s.heap.heap.pmm.kpalloc.1.toNat
          s.heap.heap.pmm.kpalloc.2).byteAt (addr q) k = s.byteAt (addr q) k := by
  obtain ⟨g, hg, hgpos, -, hfree, htest⟩ := Pmm.kpalloc_frame hk
  rw [hg]
  set s' := s.addPage (addr p) (g * 4096) s.heap.heap.pmm.kpalloc.2 with hs'
  have hgrown : Grown (addr p) s s' := addPage_grown _ _ _
  have hused : ∀ f, s.heap.heap.pmm.bitmap.test f = false →
      s.heap.heap.pmm.kpalloc.2.bitmap.test f = false := by
    intro f hf
    rw [htest, hf, Bool.false_and]
  -- a frame that was free is no page of any file
  have hfresh : ∀ q i, addr q ≠ 0 → i < (s.node (addr q)).pageCount →
      (s.node (addr q)).pages i ≠ g * 4096 := by
    intro q i hq hqi he
    obtain ⟨f, -, hf, hfused⟩ := hi.page q i hq hqi
    have hfg : f = g := by omega
    exact absurd (hfused.symm.trans (hfg ▸ hfree)) (by simp)
  constructor
  · refine ⟨hgrown.tree hi.toTree, ?_, ?_, ?_, ?_, ?_, ?_⟩
    · rw [hs', addPage_heap]
      exact HeapState.inv_mem (HeapState.inv_setPmm hi.heap hused) _
    · rw [hgrown.live]
      exact hi.live
    · intro q hq
      rw [hs', addPage_node]
      split_ifs
      · exact hcount
      · exact hi.count_le q hq
    · intro q hq
      have hsize := hi.size_le q hq
      rw [hs', addPage_node]
      split_ifs with hqp
      · rw [hqp] at hsize
        exact hsize.trans (Nat.mul_le_mul_right _ (Nat.le_succ _))
      · exact hsize
    · intro q i hq hqi
      rcases addPage_pages hqi with ⟨hlt, hpage⟩ | ⟨-, -, hpage⟩
      · obtain ⟨f, hf, hfp, hfused⟩ := hi.page q i hq hlt
        refine ⟨f, hf, hpage.trans hfp, ?_⟩
        rw [hs', addPage_heap, HeapState.setMem_pmm, HeapState.setPmm_pmm]
        exact hused f hfused
      · refine ⟨g, hgpos, hpage, ?_⟩
        rw [hs', addPage_heap, HeapState.setMem_pmm, HeapState.setPmm_pmm, htest,
          decide_eq_false (by simp), Bool.and_false]
    · intro q r i j hq hr hqi hrj heq
      rcases addPage_pages hqi with ⟨hlt, hpage⟩ | ⟨hqf, hlast, hpage⟩ <;>
        rcases addPage_pages hrj with ⟨hlt', hpage'⟩ | ⟨hrf, hlast', hpage'⟩
      · exact hi.apart q r i j hq hr hlt hlt' (hpage.symm.trans (heq.trans hpage'))
      · exact absurd (hpage.symm.trans (heq.trans hpage')) (hfresh q i hq hlt)
      · exact absurd (hpage'.symm.trans (heq.symm.trans hpage)) (hfresh r j hr hlt')
      · exact ⟨hi.inj q r (hqf.trans hrf.symm) hq, hlast.trans hlast'.symm⟩
  · intro q k hq hk'
    have hidx : k / 4096 < (s.node (addr q)).pageCount := by omega
    obtain ⟨f, -, hf, -⟩ := hi.page q _ hq hidx
    have hne := hfresh q _ hq hidx
    have hmod := Nat.mod_lt k (show 0 < 4096 by decide)
    have hmem : s'.mem = s.mem.memset (g * 4096) 0 4096 := by
      rw [mem, hs', addPage_heap, HeapState.setMem_mem]
    rw [byteAt, byteAt, (hgrown.node _).2 _ hidx, hmem, Memory.memset_apply, if_neg]
    omega

/-- `ramfs_ensure_page` changes no byte of any file. It returns the page it was asked for,
unless the file cannot have it or it runs out of frames. -/
theorem ramfsEnsurePage_returns (hi : s.Inv addr) (idx : ℕ) :
    ∃ page s', Returns (fun fuel => ramfsEnsurePage (addr p) idx fuel s) (page, s') ∧
      s'.Inv addr ∧ Grown (addr p) s s' ∧
      (∀ q k, addr q ≠ 0 → k < (s.node (addr q)).pageCount * 4096 →
        s'.byteAt (addr q) k = s.byteAt (addr q) k) ∧
      ((page = 0 ∧ (s.node (addr p)).pageCount ≤ idx ∧ (idx < ramfsPagesPerFile →
          ∀ need, idx < need →
            s.heap.heap.pmm.canTake (need - (s.node (addr p)).pageCount) = false)) ∨
        (page = (s'.node (addr p)).pages idx ∧ idx < (s'.node (addr p)).pageCount ∧
          ∀ need, idx < need →
            s.heap.heap.pmm.canTake (need - (s.node (addr p)).pageCount) =
              s'.heap.heap.pmm.canTake (need - (s'.node (addr p)).pageCount))) := by
  induction hm : idx + 1 - (s.node (addr p)).pageCount generalizing s with
  | zero =>
    have hlt : idx < (s.node (addr p)).pageCount := by omega
    refine ⟨_, s, .succ (fun fuel => ?_) (.const _), hi, .refl _ _, fun _ _ _ _ => rfl,
      Or.inr ⟨rfl, hlt, fun _ _ => rfl⟩⟩
    rw [ramfsEnsurePage, if_neg (by omega)]
  | succ m ih =>
    have hle : (s.node (addr p)).pageCount ≤ idx := by omega
    have hone : ∀ need, idx < need → need - (s.node (addr p)).pageCount =
        need - ((s.node (addr p)).pageCount + 1) + 1 := fun need _ => by omega
    by_cases hfull : ramfsPagesPerFile ≤ (s.node (addr p)).pageCount
    · refine ⟨0, s, .succ (fun fuel => ?_) (.const _), hi, .refl _ _, fun _ _ _ _ => rfl,
        Or.inl ⟨rfl, hle, fun hidx => by omega⟩⟩
      rw [ramfsEnsurePage, if_pos hle, if_pos hfull]
    by_cases hk : s.heap.heap.pmm.kpalloc.1 = 0
    · refine ⟨0, s, .succ (fun fuel => ?_) (.const _), hi, .refl _ _, fun _ _ _ _ => rfl,
        Or.inl ⟨rfl, hle, fun _ need hneed => ?_⟩⟩
      · rw [ramfsEnsurePage, if_pos hle, if_neg hfull]
        refine (if_pos hk).trans ?_
        rw [Pmm.kpalloc_null hk]
        rfl
      · rw [hone need hneed, Pmm.canTake, hk]
        rfl
    obtain ⟨hi₁, hbytes₁⟩ := addPage_inv (p := p) hi (by omega) hk
    have hgrown₁ : Grown (addr p) s (s.addPage (addr p) s.heap.heap.pmm.kpalloc.1.toNat
        s.heap.heap.pmm.kpalloc.2) := addPage_grown _ _ _
    have hcount₁ : ((s.addPage (addr p) s.heap.heap.pmm.kpalloc.1.toNat
        s.heap.heap.pmm.kpalloc.2).node (addr p)).pageCount =
          (s.node (addr p)).pageCount + 1 := by
      rw [addPage_node, if_pos rfl]
    have hpmm₁ : (s.addPage (addr p) s.heap.heap.pmm.kpalloc.1.toNat
        s.heap.heap.pmm.kpalloc.2).heap.heap.pmm = s.heap.heap.pmm.kpalloc.2 := by
      rw [addPage_heap, HeapState.setMem_pmm, HeapState.setPmm_pmm]
    have htake : ∀ need, idx < need →
        s.heap.heap.pmm.canTake (need - (s.node (addr p)).pageCount) =
          s.heap.heap.pmm.kpalloc.2.canTake (need - ((s.node (addr p)).pageCount + 1)) := by
      intro need hneed
      rw [hone need hneed, Pmm.canTake, decide_eq_true hk, Bool.true_and]
    obtain ⟨page, s', hret, hi', hgrown, hbytes, hpage⟩ := ih hi₁ (by omega)
    rw [hcount₁, hpmm₁] at hpage
    refine ⟨page, s', .succ (fun fuel => ?_) hret, hi', hgrown₁.trans hgrown, fun q k hq hkq => ?_, ?_⟩
    · rw [ramfsEnsurePage, if_pos hle, if_neg hfull]
      exact if_neg hk
    · have hle₁ := Nat.mul_le_mul_right 4096 (hgrown₁.node (addr q)).1
      exact (hbytes q k hq (hkq.trans_le hle₁)).trans (hbytes₁ q k hq hkq)
    · refine hpage.imp (fun h => ⟨h.1, hle, fun hidx need hneed => ?_⟩)
        fun h => ⟨h.1, h.2.1, fun need hneed => ?_⟩
      · rw [htake need hneed]
        exact h.2.2 hidx need hneed
      · rw [htake need hneed]
        exact h.2.2 need hneed

end addPage

/-! ## Writing -/

section write

variable {s : Ramfs} {addr : List Name → ℕ} {p : List Name}

theorem copyIn_inv (hi : s.Inv addr) (dest : ℕ) (l : List (BitVec 8)) :
    (s.copyIn dest l).Inv addr :=
  ⟨hi.toTree.congr rfl (fun _ => rfl) (fun _ => rfl) (fun _ => rfl) fun _ => rfl,
    HeapState.inv_mem hi.heap _, hi.live, hi.count_le, hi.size_le, hi.page, hi.apart⟩

theorem copyIn_grown (f : ℕ) (s : Ramfs) (dest : ℕ) (l : List (BitVec 8)) :
    Grown f s (s.copyIn dest l) :=
  ⟨rfl, rfl, fun _ _ => rfl, _, _, rfl, le_rfl, fun _ _ => rfl⟩

/-- A copy that stays inside one page of a file leaves all other bytes alone. -/
theorem byteAt_copyIn_of_not (hi : s.Inv addr) (hp : addr p ≠ 0) {off : ℕ} {l : List (BitVec 8)}
    (hpage : off / 4096 < (s.node (addr p)).pageCount) (hfit : off % 4096 + l.length ≤ 4096)
    {q : List Name} {k : ℕ} (hq : addr q ≠ 0) (hk : k < (s.node (addr q)).pageCount * 4096)
    (hout : ¬(q = p ∧ off ≤ k ∧ k < off + l.length)) :
    (s.copyIn ((s.node (addr p)).pages (off / 4096) + off % 4096) l).byteAt (addr q) k =
      s.byteAt (addr q) k := by
  have hidx : k / 4096 < (s.node (addr q)).pageCount := by omega
  obtain ⟨f, -, hf, -⟩ := hi.page p _ hp hpage
  obtain ⟨g, -, hg, -⟩ := hi.page q _ hq hidx
  apply Memory.write_outside
  change (s.node (addr q)).pages (k / 4096) + k % 4096 < _ ∨
    _ ≤ (s.node (addr q)).pages (k / 4096) + k % 4096
  by_cases hsame : q = p ∧ k / 4096 = off / 4096
  · obtain ⟨rfl, hko⟩ := hsame
    rw [hko]
    have hrange : ¬(off ≤ k ∧ k < off + l.length) := fun h => hout ⟨rfl, h⟩
    omega
  · have hne : (s.node (addr q)).pages (k / 4096) ≠ (s.node (addr p)).pages (off / 4096) :=
      fun he => hsame (hi.apart q p _ _ hq hp hidx hpage he)
    omega

theorem byteAt_copyIn (dest f : ℕ) {off k : ℕ} {l : List (BitVec 8)}
    (hdest : dest = (s.node f).pages (off / 4096) + off % 4096)
    (hfit : off % 4096 + l.length ≤ 4096) (hk : off ≤ k) (hlt : k - off < l.length) :
    l[k - off]? = some ((s.copyIn dest l).byteAt f k) := by
  have hko : k / 4096 = off / 4096 := by omega
  have haddr : (s.node f).pages (k / 4096) + k % 4096 = dest + (k - off) := by
    rw [hko, hdest]
    omega
  rw [List.getElem?_eq_getElem hlt, ← Memory.write_inside s.mem dest l hlt, ← haddr]
  rfl

/-- The loop of `ramfs_write` writes all of the buffer, unless the file runs out of frames or of
pages. It has then overwritten everything in the pages that the file had. -/
theorem writeLoop_returns (hi : s.Inv addr) (hp : addr p ≠ 0) {offset written : ℕ}
    {src : List (BitVec 8)} (hwritten : written ≤ src.length)
    (hstart : offset + written ≤ (s.node (addr p)).pageCount * 4096) :
    ∃ r s', Returns (fun fuel => writeLoop (addr p) offset src fuel s written) (r, s') ∧
      s'.Inv addr ∧ Grown (addr p) s s' ∧
      ((r = .error .nospace ∧ (s.node (addr p)).pageCount * 4096 < offset + src.length ∧
          (offset + src.length ≤ vfsMaxFileSize → s.heap.heap.pmm.canTake
            ((offset + src.length + 4095) / 4096 - (s.node (addr p)).pageCount) = false)) ∨
        (r = .ok src.length ∧ offset + src.length ≤ (s'.node (addr p)).pageCount * 4096 ∧
          s.heap.heap.pmm.canTake
            ((offset + src.length + 4095) / 4096 - (s.node (addr p)).pageCount) = true)) ∧
      (∀ k, offset + written ≤ k → k < offset + src.length →
        (k < (s.node (addr p)).pageCount * 4096 ∨ r = .ok src.length) →
        src[k - offset]? = some (s'.byteAt (addr p) k)) ∧
      ∀ q k, addr q ≠ 0 → k < (s.node (addr q)).pageCount * 4096 →
        ¬(q = p ∧ offset + written ≤ k ∧ k < offset + src.length) →
        s'.byteAt (addr q) k = s.byteAt (addr q) k := by
  induction hm : src.length - written using Nat.strong_induction_on generalizing s written with
  | _ m ih =>
  by_cases hdone : written < src.length
  · set off := offset + written with hoff
    set chunk := chunkAt off (src.length - written) with hchunk
    have hpos : 0 < chunk := by unfold chunkAt at hchunk; omega
    have hle : written + chunk ≤ src.length := by unfold chunkAt at hchunk; omega
    have hfit : off % 4096 + chunk ≤ 4096 := by unfold chunkAt at hchunk; omega
    have hneed : off / 4096 < (offset + src.length + 4095) / 4096 := by omega
    set l := (src.drop written).take chunk with hl
    have hround : ∀ fuel, writeLoop (addr p) offset src (fuel + 1) s written =
        (ramfsEnsurePage (addr p) (off / 4096) fuel s).bind fun r =>
          if r.1 = 0 then some (.error .nospace, r.2)
          else writeLoop (addr p) offset src fuel (r.2.copyIn (r.1 + off % 4096) l)
            (written + chunk) := by
      intro fuel
      rw [writeLoop, if_pos hdone]
    obtain ⟨page, s₁, hret₁, hi₁, hgrown₁, hbytes₁, ⟨hpage, hidx, hcan₁⟩ | ⟨hpage, hidx, hcan₁⟩⟩ :=
      ramfsEnsurePage_returns (p := p) hi (off / 4096)
    · refine ⟨_, s₁, .succ hround (hret₁.bind ?_), hi₁, hgrown₁,
        Or.inl ⟨rfl, by omega, fun hmax => hcan₁ ?_ _ hneed⟩, fun k hk₁ hk₂ hk₃ => ?_,
        fun q k hq hk _ => hbytes₁ q k hq hk⟩
      · simpa only [hpage, if_true] using Returns.const _
      · unfold vfsMaxFileSize at hmax
        unfold ramfsPagesPerFile
        omega
      · rcases hk₃ with hk₃ | hk₃
        · omega
        · cases hk₃
    have hlen : l.length = chunk := by simp only [hl, List.length_take, List.length_drop]; omega
    set dest := (s₁.node (addr p)).pages (off / 4096) + off % 4096 with hdest
    have hne : (s₁.node (addr p)).pages (off / 4096) ≠ 0 := by
      obtain ⟨f, hf, hfp, -⟩ := hi₁.page p _ hp hidx
      omega
    have hmore : (s.node (addr p)).pageCount * 4096 ≤ (s₁.node (addr p)).pageCount * 4096 :=
      Nat.mul_le_mul_right 4096 (hgrown₁.node (addr p)).1
    obtain ⟨r, s', hret, hi', hgrown, hout, hnew, hold⟩ :=
      ih (src.length - (written + chunk)) (by omega)
        (copyIn_inv hi₁ dest l) hle (show _ ≤ (s₁.node (addr p)).pageCount * 4096 by omega) rfl
    refine ⟨r, s', .succ hround (hret₁.bind ?_), hi',
      hgrown₁.trans ((copyIn_grown _ _ _ _).trans hgrown), ?_, fun k hk₁ hk₂ hk₃ => ?_,
      fun q k hq hk hout => ?_⟩
    · simpa only [hpage, hne, if_false] using hret
    · rw [hcan₁ _ hneed]
      refine hout.imp (fun ⟨hr, hlack, hcan⟩ => ⟨hr, ?_, hcan⟩) id
      exact hmore.trans_lt hlack
    · by_cases hlater : offset + (written + chunk) ≤ k
      · exact hnew k hlater hk₂ (hk₃.imp_left fun hk₃ => hk₃.trans_le hmore)
      · have hkp : k < (s₁.node (addr p)).pageCount * 4096 := by omega
        rw [hold p k hp hkp (by omega), ← byteAt_copyIn dest (addr p) hdest (by omega) hk₁ (by omega),
          hl, List.getElem?_take_of_lt (by omega), List.getElem?_drop]
        congr 1
        omega
    · have hkp : k < (s₁.node (addr q)).pageCount * 4096 :=
        hk.trans_le (Nat.mul_le_mul_right 4096 (hgrown₁.node (addr q)).1)
      rw [hold q k hq hkp (fun h => hout ⟨h.1, by omega, h.2.2⟩),
        byteAt_copyIn_of_not hi₁ hp hidx (by omega) hq hkp
          (fun h => hout ⟨h.1, h.2.1, by omega⟩), hbytes₁ q k hq hk]
  · have hend : written = src.length := by omega
    refine ⟨.ok written, s, .succ (fun fuel => ?_) (.const _), hi, .refl _ _,
      Or.inr ⟨by rw [hend], by omega, ?_⟩, fun k _ _ _ => by omega, fun _ _ _ _ _ => rfl⟩
    · rw [writeLoop, if_neg hdone]
    · rw [show (offset + src.length + 4095) / 4096 - (s.node (addr p)).pageCount = 0 by omega]
      rfl

theorem growSize_node (s : Ramfs) (f last n : ℕ) :
    (s.growSize f last).node n =
      if n = f then { s.node f with size := max (s.node f).size last } else s.node n := by
  unfold growSize
  split_ifs with hlt hn hn
  · simp only [setNode, hn, Function.update_self, Nat.max_eq_right hlt.le]
  · simp only [setNode, Function.update_of_ne hn]
  · rw [hn, Nat.max_eq_left (by omega)]
  · rfl

theorem growSize_heap (s : Ramfs) (f last : ℕ) : (s.growSize f last).heap = s.heap := by
  unfold growSize
  split_ifs <;> rfl

theorem growSize_root (s : Ramfs) (f last : ℕ) : (s.growSize f last).root = s.root := by
  unfold growSize
  split_ifs <;> rfl

theorem growSize_byteAt (s : Ramfs) (f last n k : ℕ) :
    (s.growSize f last).byteAt n k = s.byteAt n k := by
  rw [byteAt, byteAt, mem, mem, growSize_heap, growSize_node]
  split_ifs with hn
  · rw [hn]
  · rfl

theorem growSize_inv (hi : s.Inv addr) {last : ℕ}
    (hlast : last ≤ (s.node (addr p)).pageCount * 4096) :
    (s.growSize (addr p) last).Inv addr := by
  have hnode : ∀ q, ((s.growSize (addr p) last).node (addr q)).pages = (s.node (addr q)).pages ∧
      ((s.growSize (addr p) last).node (addr q)).pageCount = (s.node (addr q)).pageCount := by
    intro q
    rw [growSize_node]
    split_ifs with hq
    · rw [hq]
      exact ⟨rfl, rfl⟩
    · exact ⟨rfl, rfl⟩
  refine ⟨?_, ?_, ?_, ?_, ?_, ?_, ?_⟩
  · apply hi.toTree.congr (growSize_root ..)
    all_goals
      intro n
      rw [growSize_node]
      split_ifs with hn
      · rw [hn]
      · rfl
  · rw [growSize_heap]
    exact hi.heap
  · rw [growSize_heap]
    exact hi.live
  · intro q hq
    rw [(hnode q).2]
    exact hi.count_le q hq
  · intro q hq
    rw [(hnode q).2, growSize_node]
    split_ifs with hqp
    · rw [hqp] at hq ⊢
      exact max_le (hi.size_le p hq) hlast
    · exact hi.size_le q hq
  · intro q i hq hqi
    rw [(hnode q).2] at hqi
    rw [(hnode q).1, growSize_heap]
    exact hi.page q i hq hqi
  · intro q r i j hq hr hqi hrj heq
    rw [(hnode q).2] at hqi
    rw [(hnode r).2] at hrj
    rw [(hnode q).1, (hnode r).1] at heq
    exact hi.apart q r i j hq hr hqi hrj heq

theorem growSize_shaped (hs : s.Shaped addr) (f last : ℕ) : (s.growSize f last).Shaped addr := by
  apply hs.congr
  all_goals
    intro n
    rw [growSize_node]
    split_ifs with hn
    · rw [hn]
    · rfl

theorem content_length (s : Ramfs) (f : ℕ) : (s.content f).length = (s.node f).size := by
  simp [content]

theorem content_getElem? (s : Ramfs) (f : ℕ) {k : ℕ} (hk : k < (s.node f).size) :
    (s.content f)[k]? = some (s.byteAt f k) := by
  simp [content, hk]

/-- A write that passes the checks. -/
theorem write_returns (hi : s.Inv addr) (hp : addr p ≠ 0)
    (hfile : (s.node (addr p)).isDir = false) {offset : ℕ} {src : List (BitVec 8)}
    (hoff : offset ≤ (s.node (addr p)).size) (hmax : offset + src.length ≤ vfsMaxFileSize) :
    ∃ r s', Returns (fun fuel => writeLoop (addr p) offset src fuel s 0) (r, s') ∧
      s'.Inv addr ∧ Grown (addr p) s s' ∧
      ((r = .error .nospace ∧ s.heap.heap.pmm.canTake
          ((offset + src.length + 4095) / 4096 - (s.node (addr p)).pageCount) = false) ∨
        (r = .ok src.length ∧ (s'.growSize (addr p) (offset + src.length)).Inv addr ∧
          (s'.growSize (addr p) (offset + src.length)).entryAt addr =
            Function.update (s.entryAt addr) p
              (some (.file (splice (s.content (addr p)) src offset))))) := by
  have hsize := hi.size_le p hp
  obtain ⟨r, s', hret, hi', hgrown, hout, hnew, hold⟩ :=
    writeLoop_returns hi hp (Nat.zero_le _) (hoff.trans hsize)
  refine ⟨r, s', hret, hi', hgrown, hout.imp (fun ⟨hr, _, hcan⟩ => ⟨hr, hcan hmax⟩)
    fun ⟨hr, hend, _⟩ => ⟨hr, growSize_inv hi' hend, ?_⟩⟩
  obtain ⟨pages, count, hself, -, -⟩ := hgrown.self
  funext q
  by_cases hqp : q = p
  · subst hqp
    have hcontent : (s'.growSize (addr q) (offset + src.length)).content (addr q) =
        splice (s.content (addr q)) src offset := by
      have hsize' : ((s'.growSize (addr q) (offset + src.length)).node (addr q)).size =
          max (s.node (addr q)).size (offset + src.length) := by
        rw [growSize_node, if_pos rfl, hself]
      apply List.ext_getElem?
      intro k
      rw [splice_getElem? (by rw [content_length]; exact hoff)]
      by_cases hk : k < max (s.node (addr q)).size (offset + src.length)
      · rw [content_getElem? _ _ (by rw [hsize']; exact hk), growSize_byteAt]
        split_ifs with hin
        · exact (hnew k (by omega) hin.2 (Or.inr hr)).symm
        · have hks : k < (s.node (addr q)).size := by omega
          rw [content_getElem? _ _ hks, hold q k hp (by omega) (by omega)]
      · rw [List.getElem?_eq_none (by rw [content_length, hsize']; omega), if_neg (by omega),
          List.getElem?_eq_none (by rw [content_length]; omega)]
    rw [Function.update_self, entryAt, if_neg hp, hcontent, growSize_node, if_pos rfl, hself]
    simp only [hfile, Bool.false_eq_true, if_false]
  · rw [Function.update_of_ne hqp, entryAt, entryAt]
    by_cases hq : addr q = 0
    · rw [if_pos hq, if_pos hq]
    · have hne : addr q ≠ addr p := fun he => hqp (hi.inj q p he hq)
      have hnode : (s'.growSize (addr p) (offset + src.length)).node (addr q) =
          s.node (addr q) := by
        rw [growSize_node, if_neg hne, hgrown.others _ hne]
      have hcontent : (s'.growSize (addr p) (offset + src.length)).content (addr q) =
          s.content (addr q) := by
        unfold content
        rw [hnode]
        apply List.map_congr_left
        intro k hk
        have hks := hi.size_le q hq
        have hk' := List.mem_range.mp hk
        rw [growSize_byteAt, hold q k hq (by omega) fun h => hqp h.1]
      rw [if_neg hq, if_neg hq, hnode, hcontent]

end write

/-! ## Reading -/

theorem readLoop_returns {s : Ramfs} {addr : List Name → ℕ} {p : List Name} (hi : s.Inv addr)
    (hp : addr p ≠ 0) {offset len done : ℕ} (hlen : offset + len ≤ (s.node (addr p)).size)
    (hdone : done ≤ len) :
    Returns (fun fuel => s.readLoop (addr p) offset len fuel
        ((List.range done).map fun i => s.byteAt (addr p) (offset + i)))
      ((List.range len).map fun i => s.byteAt (addr p) (offset + i)) := by
  induction hm : len - done using Nat.strong_induction_on generalizing done with
  | _ m ih =>
  by_cases hlt : done < len
  · set off := offset + done with hoff
    set chunk := chunkAt off (len - done) with hchunk
    have hpos : 0 < chunk := by unfold chunkAt at hchunk; omega
    have hle : done + chunk ≤ len := by unfold chunkAt at hchunk; omega
    have hfit : off % 4096 + chunk ≤ 4096 := by unfold chunkAt at hchunk; omega
    have hsize := hi.size_le p hp
    -- the bytes of one chunk lie next to each other in one page
    have hread : s.mem.read ((s.node (addr p)).pages (off / 4096) + off % 4096) chunk =
        (List.range chunk).map fun i => s.byteAt (addr p) (off + i) := by
      apply List.map_congr_left
      intro i hik
      have hik' := List.mem_range.mp hik
      rw [byteAt, show (off + i) / 4096 = off / 4096 by omega,
        show (off + i) % 4096 = off % 4096 + i by omega, Nat.add_assoc]
    have hnext := ih (len - (done + chunk)) (by omega) hle rfl
    refine .succ (fun fuel => ?_) hnext
    rw [readLoop]
    simp only [List.length_map, List.length_range]
    rw [if_pos hlt, if_neg (by omega), ← hoff, ← hchunk, hread, List.range_add, List.map_append,
      List.map_map]
    simp only [hoff, Nat.add_assoc, Function.comp_def]
  · obtain rfl : done = len := by omega
    refine .succ (fun fuel => ?_) (.const _)
    simp [readLoop]

theorem content_slice (s : Ramfs) (f : ℕ) {offset len : ℕ}
    (hlen : offset + len ≤ (s.node f).size) :
    ((s.content f).drop offset).take len =
      (List.range len).map fun i => s.byteAt f (offset + i) := by
  apply List.ext_getElem?
  intro k
  by_cases hk : k < len
  · rw [List.getElem?_take_of_lt hk, List.getElem?_drop, content_getElem? _ _ (by omega)]
    simp [hk]
  · rw [List.getElem?_eq_none (by simp; omega), List.getElem?_eq_none (by simp; omega)]

end Ramfs

end Nyvela
