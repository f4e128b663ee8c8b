import Nyvela.HeapFrames
import Nyvela.Vfs

/-!
# The frames that the file system leaves alone

A frame that is in use, and neither the heap's nor a file's, belongs to somebody else: it holds
page tables, a kernel stack or the memory of a program. No call of the file system touches such
a frame, nor does the heap when it serves one.
-/

namespace Nyvela

namespace Ramfs

/-! ## A write to one file -/

def Aligned (s : Ramfs) (f : ℕ) : Prop := ∀ i < (s.node f).pageCount, 4096 ∣ (s.node f).pages i

/-- The frame is not free, and not one of the file's. -/
def Outside (s : Ramfs) (f g : ℕ) : Prop :=
  s.heap.heap.pmm.bitmap.test g = false ∧ ∀ i < (s.node f).pageCount, (s.node f).pages i ≠ g * 4096

/-- Only the pages of the file `f` and free frames are touched. -/
structure Spares (f : ℕ) (s s' : Ramfs) : Prop where
  others : ∀ n, n ≠ f → s'.node n = s.node n
  live : s'.heap.live = s.heap.live
  pages : s'.heap.heap.pages = s.heap.heap.pages
  aligned : s.Aligned f → s'.Aligned f
  outside : s.Aligned f → ∀ g, s.Outside f g → s'.Outside f g
  mem : s.Aligned f → ∀ a, s.Outside f (a / 4096) → s'.mem a = s.mem a

theorem Spares.refl (f : ℕ) (s : Ramfs) : Spares f s s :=
  ⟨fun _ _ => rfl, rfl, rfl, id, fun _ _ => id, fun _ _ _ => rfl⟩

theorem Spares.trans {f : ℕ} {s s' s'' : Ramfs} (h : Spares f s s') (h' : Spares f s' s'') :
    Spares f s s'' := by
  refine ⟨fun n hn => (h'.others n hn).trans (h.others n hn), h'.live.trans h.live,
    h'.pages.trans h.pages, fun ha => h'.aligned (h.aligned ha), fun ha g hg => ?_,
    fun ha a hg => ?_⟩
  · exact h'.outside (h.aligned ha) g (h.outside ha g hg)
  · rw [h'.mem (h.aligned ha) a (h.outside ha _ hg)]
    exact h.mem ha a hg

section write

variable {s s' : Ramfs} {f : ℕ}

theorem addPage_spares (hk : s.heap.heap.pmm.kpalloc.1 ≠ 0) :
    Spares f s (s.addPage f s.heap.heap.pmm.kpalloc.1.toNat s.heap.heap.pmm.kpalloc.2) := by
  obtain ⟨g, hg, -, -, hfree, htest⟩ := Pmm.kpalloc_frame hk
  rw [hg]
  refine ⟨fun n hn => ?_, ?_, ?_, fun ha i hi => ?_, fun _ c hc => ⟨?_, fun i hi => ?_⟩,
    fun _ a hout => ?_⟩
  · rw [addPage_node, if_neg hn]
  · rw [addPage_heap, HeapState.setMem_live, HeapState.setPmm_live]
  · rw [addPage_heap, HeapState.setMem_pages, HeapState.setPmm_pages]
  · rcases addPage_pages hi with ⟨hlt, hpage⟩ | ⟨-, -, hpage⟩
    · rw [hpage]
      exact ha i hlt
    · rw [hpage]
      exact Nat.dvd_mul_left ..
  · rw [addPage_heap, HeapState.setMem_pmm, HeapState.setPmm_pmm, htest, hc.1, Bool.false_and]
  · rcases addPage_pages hi with ⟨hlt, hpage⟩ | ⟨-, -, hpage⟩
    · rw [hpage]
      exact hc.2 i hlt
    · rw [hpage]
      intro heq
      obtain rfl : g = c := by omega
      exact Bool.noConfusion (hfree.symm.trans hc.1)
  · have hne : a / 4096 ≠ g := fun heq => Bool.noConfusion (hfree.symm.trans (heq ▸ hout.1))
    rw [mem, addPage_heap, HeapState.setMem_mem, Memory.memset_apply, if_neg (by omega)]

theorem ramfsEnsurePage_spares {idx fuel page : ℕ}
    (h : ramfsEnsurePage f idx fuel s = some (page, s')) :
    Spares f s s' ∧ (page ≠ 0 → idx < (s'.node f).pageCount ∧ page = (s'.node f).pages idx) := by
  induction fuel generalizing s with
  | zero => cases h
  | succ fuel ih =>
    simp only [ramfsEnsurePage] at h
    split_ifs at h with hle hfull hk
    · obtain ⟨rfl, rfl⟩ := Prod.mk.inj (Option.some.inj h)
      exact ⟨.refl f s, fun h0 => absurd rfl h0⟩
    · obtain ⟨rfl, rfl⟩ := Prod.mk.inj (Option.some.inj h)
      rw [Pmm.kpalloc_null hk]
      exact ⟨.refl f s, fun h0 => absurd rfl h0⟩
    · obtain ⟨hspares, hpage⟩ := ih h
      exact ⟨(addPage_spares hk).trans hspares, hpage⟩
    · obtain ⟨rfl, rfl⟩ := Prod.mk.inj (Option.some.inj h)
      exact ⟨.refl f s, fun _ => ⟨by omega, rfl⟩⟩

theorem copyIn_spares {idx off : ℕ} {l : List (BitVec 8)} (hidx : idx < (s.node f).pageCount)
    (hfit : off + l.length ≤ 4096) : Spares f s (s.copyIn ((s.node f).pages idx + off) l) := by
  refine ⟨fun _ _ => rfl, rfl, rfl, id, fun _ _ => id, fun ha a hout => ?_⟩
  obtain ⟨c, hc⟩ := ha idx hidx
  have hne := hout.2 idx hidx
  apply Memory.write_outside
  omega

theorem writeLoop_spares {offset fuel written : ℕ} {src : List (BitVec 8)} {r : Except VfsErr ℕ}
    (h : writeLoop f offset src fuel s written = some (r, s')) : Spares f s s' := by
  induction fuel generalizing s written with
  | zero => cases h
  | succ fuel ih =>
    simp only [writeLoop] at h
    split_ifs at h with hlt
    · obtain ⟨⟨page, s₁⟩, hensure, h⟩ := Option.bind_eq_some_iff.mp h
      obtain ⟨hspares, hpage⟩ := ramfsEnsurePage_spares hensure
      dsimp only at h
      split_ifs at h with h0
      · obtain ⟨-, rfl⟩ := Prod.mk.inj (Option.some.inj h)
        exact hspares
      · obtain ⟨hidx, rfl⟩ := hpage h0
        refine (hspares.trans (copyIn_spares hidx ?_)).trans (ih h)
        rw [List.length_take, chunkAt]
        omega
    · obtain ⟨-, rfl⟩ := Prod.mk.inj (Option.some.inj h)
      exact .refl f s

theorem growSize_spares (last : ℕ) : Spares f s (s.growSize f last) := by
  unfold growSize
  split_ifs
  · refine ⟨fun n hn => Function.update_of_ne hn _ _, rfl, rfl, fun ha => ?_,
      fun _ g hg => ?_, fun _ _ _ => rfl⟩
    · simpa only [Aligned, setNode, Function.update_self] using ha
    · simpa only [Outside, setNode, Function.update_self] using hg
  · exact .refl f s

end write

/-! ## All frames -/

/-- In use, but neither by the heap nor for a file. -/
structure Foreign (s : Ramfs) (addr : List Name → ℕ) (g : ℕ) : Prop extends
    s.heap.Outside g where
  file : ∀ p, addr p ≠ 0 → ∀ i < (s.node (addr p)).pageCount, (s.node (addr p)).pages i ≠ g * 4096

/-- No page is the heap's and a file's. -/
structure Distinct (s : Ramfs) (addr : List Name → ℕ) : Prop extends Inv s addr where
  pages : ∀ p, addr p ≠ 0 → ∀ i < (s.node (addr p)).pageCount,
    (s.node (addr p)).pages i ∉ s.heap.heap.pages

/-- Foreign frames stay foreign and keep their bytes. -/
structure Keeps (addr addr' : List Name → ℕ) (s s' : Ramfs) : Prop where
  foreign : ∀ g, s.Foreign addr g → s'.Foreign addr' g
  mem : ∀ a, s.Foreign addr (a / 4096) → s'.mem a = s.mem a

theorem Keeps.refl (addr : List Name → ℕ) (s : Ramfs) : Keeps addr addr s s :=
  ⟨fun _ => id, fun _ _ => rfl⟩

section calls

variable {s s' : Ramfs} {addr : List Name → ℕ}

/-- The pages of a file are frames. -/
theorem Inv.aligned (hi : s.Inv addr) {p : List Name} (hp : addr p ≠ 0) : s.Aligned (addr p) := by
  intro i hpi
  obtain ⟨g, -, hg, -⟩ := hi.page p i hp hpi
  rw [hg]
  exact Nat.dvd_mul_left ..

/-- The bytes of files depend on the pages of files only. -/
theorem entryAt_congr {mem : Memory} (hi : s.Inv addr)
    (h : ∀ p, addr p ≠ 0 → ∀ i < (s.node (addr p)).pageCount, ∀ j < 4096,
      mem ((s.node (addr p)).pages i + j) = s.mem ((s.node (addr p)).pages i + j)) (h' : HeapState)
    (hmem : h'.heap.mem = mem) : entryAt { s with heap := h' } addr = s.entryAt addr := by
  funext p
  unfold entryAt
  by_cases hp : addr p = 0
  · rw [if_pos hp, if_pos hp]
  rw [if_neg hp, if_neg hp]
  have hcontent : content { s with heap := h' } (addr p) = s.content (addr p) := by
    unfold content
    apply List.map_congr_left
    intro k hk
    have hsize := hi.size_le p hp
    have hlt := List.mem_range.mp hk
    have hidx : k / 4096 < (s.node (addr p)).pageCount := by
      change k < (s.node (addr p)).size at hlt
      omega
    have hbyte := h p hp (k / 4096) hidx (k % 4096) (Nat.mod_lt _ (by decide))
    unfold byteAt Ramfs.mem
    rw [hmem]
    exact hbyte
  rw [hcontent]

/-! ## The heap -/

theorem Distinct.kmalloc (hd : s.Distinct addr) {fuel size q : ℕ} {h : HeapState}
    (hk : s.heap.kmalloc fuel size = some (q, h)) :
    Distinct { s with heap := h } addr ∧ Keeps addr addr s { s with heap := h } ∧
      entryAt { s with heap := h } addr = s.entryAt addr := by
  obtain ⟨hinv, hmem, hlive⟩ := HeapState.kmalloc_client hd.heap hk
  refine ⟨⟨hd.toInv.of_heap hinv (fun p hp => ?_) fun p i f hp hpi hpage => ?_, fun p hp i hpi => ?_⟩,
    ⟨fun g hg => ⟨hg.toOutside.kmalloc hk, hg.file⟩, fun a _ => congrFun hmem a⟩,
    entryAt_congr hd.toInv (fun _ _ _ _ _ _ => rfl) h hmem⟩
  · rcases hlive with ⟨-, hlive⟩ | ⟨-, hnone, hlive⟩
    · rw [hlive]
      exact hd.live p hp
    · have hne : addr p ≠ q := by
        intro heq
        rw [← heq, hd.live p hp] at hnone
        cases hnone
      rw [hlive, Function.update_of_ne hne]
      exact hd.live p hp
  · obtain ⟨g, -, hg, hused⟩ := hd.page p i hp hpi
    obtain rfl : f = g := by omega
    exact HeapState.kmalloc_used hk hused
  · obtain ⟨g, -, hg, hused⟩ := hd.page p i hp hpi
    have hout : s.heap.Outside g := ⟨hused, hg ▸ hd.pages p hp i hpi⟩
    change (s.node (addr p)).pages i ∉ h.heap.pages
    rw [hg]
    exact (hout.kmalloc hk).heap

/-- A block that is not a node may be given back. -/
theorem Distinct.kfree (hd : s.Distinct addr) {ptr n : ℕ} (hlive : s.heap.live ptr = some n)
    (hnode : ∀ p, addr p ≠ 0 → addr p ≠ ptr) :
    Distinct { s with heap := s.heap.kfree ptr } addr ∧
      Keeps addr addr s { s with heap := s.heap.kfree ptr } ∧
      entryAt { s with heap := s.heap.kfree ptr } addr = s.entryAt addr := by
  have hinv : (s.heap.kfree ptr).Inv :=
    HeapState.inv_kfree hd.heap (Or.inr (by rw [hlive]; rfl))
  have hmem : (s.heap.kfree ptr).heap.mem = s.heap.heap.mem := HeapState.kfree_mem _ ptr
  refine ⟨⟨hd.toInv.of_heap hinv (fun p hp => ?_) fun p i f hp hpi hpage => ?_, fun p hp i hpi => ?_⟩,
    ⟨fun g hg => ⟨hg.toOutside.kfree ptr, hg.file⟩, fun a _ => congrFun hmem a⟩,
    entryAt_congr hd.toInv (fun _ _ _ _ _ _ => rfl) _ hmem⟩
  · change Function.update s.heap.live ptr none (addr p) = some 168
    rw [Function.update_of_ne (hnode p hp)]
    exact hd.live p hp
  · obtain ⟨g, -, hg, hused⟩ := hd.page p i hp hpi
    obtain rfl : f = g := by omega
    exact (s.heap.heap.kfree_frames ptr).1 ▸ hused
  · exact (s.heap.heap.kfree_frames ptr).2 ▸ hd.pages p hp i hpi

/-- Bytes that change outside the pages of files. -/
theorem Distinct.setMem (hd : s.Distinct addr) (mem : Memory)
    (hmem : ∀ p, addr p ≠ 0 → ∀ i < (s.node (addr p)).pageCount, ∀ j < 4096,
      mem ((s.node (addr p)).pages i + j) = s.mem ((s.node (addr p)).pages i + j)) :
    Distinct { s with heap := s.heap.setMem mem } addr ∧
      entryAt { s with heap := s.heap.setMem mem } addr = s.entryAt addr := by
  refine ⟨⟨hd.toInv.of_heap (HeapState.inv_mem hd.heap mem) hd.live fun p i f hp hpi hpage => ?_,
    hd.pages⟩, entryAt_congr hd.toInv hmem (s.heap.setMem mem) rfl⟩
  obtain ⟨g, -, hg, hused⟩ := hd.page p i hp hpi
  obtain rfl : f = g := by omega
  exact hused

theorem Foreign.setMem {g : ℕ} (hg : s.Foreign addr g) (mem : Memory) :
    Foreign { s with heap := s.heap.setMem mem } addr g := ⟨⟨hg.used, hg.heap⟩, hg.file⟩

/-- A frame of the heap, or one that is not the file system's, holds no byte of a file. -/
theorem Distinct.byte_ne (hd : s.Distinct addr) {a : ℕ}
    (ha : s.Foreign addr (a / 4096) ∨ a / 4096 * 4096 ∈ s.heap.heap.pages) {p : List Name}
    (hp : addr p ≠ 0) {i j : ℕ} (hi : i < (s.node (addr p)).pageCount) (hj : j < 4096) :
    a ≠ (s.node (addr p)).pages i + j := by
  obtain ⟨g, -, hg, -⟩ := hd.page p i hp hi
  intro heq
  have hframe : a / 4096 * 4096 = (s.node (addr p)).pages i := by omega
  rcases ha with ha | ha
  · exact ha.file p hp i hi hframe.symm
  · rw [hframe] at ha
    exact hd.pages p hp i hi ha

/-! ## The calls that change files -/

theorem Distinct.spares (hd : s.Distinct addr) (hi' : s'.Inv addr) {p : List Name}
    (hp : addr p ≠ 0) (hs : Spares (addr p) s s') : s'.Distinct addr ∧ Keeps addr addr s s' := by
  have ha := hd.toInv.aligned hp
  have hother : ∀ q, q ≠ p → addr q ≠ 0 → s'.node (addr q) = s.node (addr q) := by
    intro q hqp hq
    exact hs.others _ fun heq => hqp (hd.inj q p heq hq)
  refine ⟨⟨hi', fun q hq i hqi hmem => ?_⟩, ⟨fun g hg => ⟨⟨?_, ?_⟩, fun q hq i hqi => ?_⟩,
    fun a hg => hs.mem ha a ⟨hg.used, hg.file p hp⟩⟩⟩
  · rw [hs.pages] at hmem
    by_cases hqp : q = p
    · subst hqp
      obtain ⟨c, -, hc, -⟩ := hi'.page q i hq hqi
      rw [hc] at hmem
      have hout : s.Outside (addr q) c := by
        refine ⟨HeapState.page_used hd.heap hmem, fun j hj heq => ?_⟩
        exact hd.pages q hq j hj (heq ▸ hmem)
      exact (hs.outside ha c hout).2 i hqi hc
    · rw [hother q hqp hq] at hqi hmem
      exact hd.pages q hq i hqi hmem
  · exact (hs.outside ha g ⟨hg.used, hg.file p hp⟩).1
  · rw [hs.pages]
    exact hg.heap
  · by_cases hqp : q = p
    · subst hqp
      exact (hs.outside ha g ⟨hg.used, hg.file q hq⟩).2 i hqi
    · rw [hother q hqp hq] at hqi ⊢
      exact hg.file q hq i hqi

/-- A write changes nothing, or only the file that it is for. -/
theorem vfsWrite_spares (hi : s.Inv addr) {path : List Char} {buf : List (BitVec 8)} {offset : ℕ}
    {r : Except VfsErr ℕ} (h : Returns (fun fuel => s.vfsWrite fuel path buf offset) (r, s')) :
    s' = s ∨ ∃ p, addr p ≠ 0 ∧ Spares (addr p) s s' := by
  have hsame : ∀ {r₁ : Except VfsErr ℕ},
      Returns (fun _ => some (r₁, s)) (r, s') → s' = s := by
    intro r₁ hret
    exact congrArg Prod.snd (hret.unique (.const _))
  unfold vfsWrite at h
  by_cases hpath : vfsPathOk path = true
  swap
  · simp only [if_neg hpath] at h
    exact Or.inl (hsame h)
  simp only [if_pos hpath, ramfsWrite] at h
  have hroot : s.root ≠ 0 := hi.root ▸ hi.rootDir.1
  simp only [if_neg hroot] at h
  have h := (hi.toTree.ramfsLookup path).of_bind h
  by_cases h0 : resolve addr path = 0
  · simp only [if_pos h0] at h
    exact Or.inl (hsame h)
  simp only [if_neg h0] at h
  split_ifs at h
  iterate 4 exact Or.inl (hsame h)
  obtain ⟨fuel, h⟩ := h.exists_fuel
  obtain ⟨⟨r₁, s₁⟩, hloop, h⟩ := Option.bind_eq_some_iff.mp h
  have hspares := writeLoop_spares hloop
  obtain ⟨p, -, hr, hp, -⟩ := (resolve_find s addr path).resolve_left fun hc => h0 hc.1
  rw [hr] at hspares h
  refine Or.inr ⟨p, hp, ?_⟩
  cases r₁ with
  | error e =>
    obtain ⟨-, rfl⟩ := Prod.mk.inj (Option.some.inj h)
    exact hspares
  | ok n =>
    obtain ⟨-, rfl⟩ := Prod.mk.inj (Option.some.inj h)
    exact hspares.trans (growSize_spares _)

/-- `vfs_write` under the frames of the rest of the system. -/
theorem Distinct.vfsWrite (hd : s.Distinct addr) {path : List Char} {buf : List (BitVec 8)}
    {offset : ℕ} (hlen : buf.length ≤ vfsMaxFileSize) (hok : s.AllocsOk (.write path buf offset)) :
    ∃ s', Returns (fun fuel => s.vfsWrite fuel path buf offset)
        ((FileMap.vfsWrite (s.entryAt addr) path buf offset).1, s') ∧
      s'.Distinct addr ∧ Keeps addr addr s s' ∧
      s'.entryAt addr = (FileMap.vfsWrite (s.entryAt addr) path buf offset).2 ∧
      s'.heap.live = s.heap.live ∧ s'.heap.heap.pages = s.heap.heap.pages := by
  obtain ⟨s', hret, hi', hentry⟩ := vfsWrite_refines hd.toInv hlen hok
  obtain rfl | ⟨p, hp, hs⟩ := vfsWrite_spares hd.toInv hret
  · exact ⟨s', hret, hd, .refl addr s', hentry, rfl, rfl⟩
  · obtain ⟨hd', hkeeps⟩ := hd.spares hi' hp hs
    exact ⟨s', hret, hd', hkeeps, hentry, hs.live, hs.pages⟩

/-- The pointers decide which node a path leads to. -/
theorem Tree.unique {addr' : List Name → ℕ} (h : s.Tree addr) (h' : s.Tree addr') :
    addr = addr' := by
  have hsub : ∀ {a b : List Name → ℕ}, s.Tree a → s.Tree b → ∀ p x, a p = b p →
      a (p ++ [x]) ≠ 0 → a (p ++ [x]) = b (p ++ [x]) := by
    intro a b ha hb p x hp hx
    have hdir := ha.parent p x hx
    have hdir' : s.DirAt b p := by rwa [DirAt, ← hp]
    obtain ⟨l, hl, hmem⟩ := ha.children p hdir
    obtain ⟨l', hl', hmem'⟩ := hb.children p hdir'
    rw [hp] at hl
    obtain rfl := hl.unique hl'
    obtain ⟨-, y, hy⟩ := (hmem' _).mp ((hmem _).mpr ⟨hx, x, rfl⟩)
    have hname := ha.name p x hx
    rw [hy, hb.name p y (hy ▸ hx)] at hname
    rw [hy, hname]
  funext p
  induction p using List.reverseRecOn with
  | nil => rw [h.root, h'.root]
  | append_singleton p x ih =>
    by_cases hx : addr (p ++ [x]) = 0
    · by_cases hx' : addr' (p ++ [x]) = 0
      · rw [hx, hx']
      · exact (hsub h' h p x ih.symm hx').symm
    · exact hsub h h' p x ih hx

theorem Distinct.created (hd : s.Distinct addr) {q : List Name} (hq : s.DirAt addr q) {leaf : Name}
    (h0 : addr (q ++ [leaf]) = 0) (hleaf : NameOk leaf) {fuel n : ℕ} {h : HeapState}
    (hk : s.heap.kmalloc fuel 168 = some (n, h)) (hn : n ≠ 0) (isDir : Bool) :
    (s.created (addr q) leaf isDir n h).Distinct (Function.update addr (q ++ [leaf]) n) ∧
      Keeps addr (Function.update addr (q ++ [leaf]) n) s (s.created (addr q) leaf isDir n h) := by
  obtain ⟨hd₁, hkeeps, -⟩ := hd.kmalloc hk
  have hheap : (s.created (addr q) leaf isDir n h).heap = h := rfl
  -- the new node has no pages, and the others keep theirs
  have hpages : ∀ p, Function.update addr (q ++ [leaf]) n p ≠ 0 → ∀ i <
      ((s.created (addr q) leaf isDir n h).node (Function.update addr (q ++ [leaf]) n p)).pageCount,
      addr p ≠ 0 ∧ i < (s.node (addr p)).pageCount ∧
        ((s.created (addr q) leaf isDir n h).node (Function.update addr (q ++ [leaf]) n p)).pages i =
          (s.node (addr p)).pages i := by
    intro p hp i hi
    by_cases hpq : p = q ++ [leaf]
    · rw [hpq, Function.update_self, created_node_new hd.toInv hleaf hk hn] at hi
      exact absurd hi (Nat.not_lt_zero i)
    · rw [Function.update_of_ne hpq] at hp hi ⊢
      rw [created_node_old hd.toInv hleaf hk hn hp] at hi ⊢
      exact ⟨hp, hi, rfl⟩
  refine ⟨⟨created_inv hd.toInv hq h0 hleaf hk hn, fun p hp i hi => ?_⟩,
    ⟨fun g hg => ?_, fun a ha => ?_⟩⟩
  · obtain ⟨hp', hi', heq⟩ := hpages p hp i hi
    rw [heq, hheap]
    exact hd₁.pages p hp' i hi'
  · have hg₁ := hkeeps.foreign g hg
    refine ⟨hg₁.toOutside, fun p hp i hi => ?_⟩
    obtain ⟨hp', hi', heq⟩ := hpages p hp i hi
    rw [heq]
    exact hg.file p hp' i hi'
  · exact hkeeps.mem a ha

/-- `vfs_create` under the frames of the rest of the system. Without room for the node it changes
nothing. -/
theorem Distinct.vfsCreate (hd : s.Distinct addr) (path : List Char) (isDir : Bool) :
    ∃ r s' addr', Returns (fun fuel => s.vfsCreate fuel path isDir) (r, s') ∧
      s'.Distinct addr' ∧ Keeps addr addr' s s' ∧
      ((r = .error .nospace ∧ s'.entryAt addr' = s.entryAt addr) ∨
        (r, s'.entryAt addr') = FileMap.vfsCreate (s.entryAt addr) path isDir) := by
  obtain ⟨r, s', addr', hret, hi', -, hmap⟩ := vfsCreate_returns hd.toInv path isDir
  have hdone : ∀ {r₁ s₁ addr₁}, Returns (fun fuel => s.vfsCreate fuel path isDir) (r₁, s₁) →
      s₁.Distinct addr₁ → Keeps addr addr₁ s s₁ → (r₁ = .error .nospace →
        s₁.entryAt addr₁ = s.entryAt addr) → ∃ r s' addr',
      Returns (fun fuel => s.vfsCreate fuel path isDir) (r, s') ∧
        s'.Distinct addr' ∧ Keeps addr addr' s s' ∧
        ((r = .error .nospace ∧ s'.entryAt addr' = s.entryAt addr) ∨
          (r, s'.entryAt addr') = FileMap.vfsCreate (s.entryAt addr) path isDir) := by
    intro r₁ s₁ addr₁ hret₁ hd₁ hkeeps hnospace
    obtain ⟨rfl, rfl⟩ := Prod.mk.inj (hret₁.unique hret)
    obtain rfl := hd₁.toTree.unique hi'.toTree
    refine ⟨r₁, s₁, addr₁, hret, hd₁, hkeeps, hmap.imp (fun hr => ⟨hr, hnospace hr⟩) id⟩
  by_cases hpath : vfsPathOk path = true
  swap
  · have hbad : Returns (fun fuel => s.vfsCreate fuel path isDir) (.error .badpath, s) := by
      simp only [Ramfs.vfsCreate, if_neg hpath]
      exact .const _
    exact hdone hbad hd (.refl addr s) fun _ => rfl
  have hret₁ : ∀ {res}, Returns (fun fuel => s.ramfsCreate fuel path isDir) res →
      Returns (fun fuel => s.vfsCreate fuel path isDir) res := by
    intro res h
    simpa only [Ramfs.vfsCreate, if_pos hpath] using h
  obtain ⟨q, leaf, hparse, hname, hq, hcases⟩ | ⟨-, hbad⟩ := ramfsCreate_cases hd.toInv hpath isDir
  · obtain ⟨-, hexists⟩ | ⟨h0, n, h, hk, hcases⟩ := hcases
    · exact hdone (hret₁ hexists) hd (.refl addr s) fun _ => rfl
    obtain ⟨fuel, hk⟩ := hk.exists_fuel
    obtain ⟨rfl, hnull⟩ | ⟨hn, hok⟩ := hcases
    · obtain ⟨hd₁, hkeeps, hentry⟩ := hd.kmalloc hk
      exact hdone (hret₁ hnull) hd₁ hkeeps fun _ => hentry
    · obtain ⟨hd₁, hkeeps⟩ := hd.created hq h0 hname hk hn isDir
      exact hdone (hret₁ hok) hd₁ hkeeps fun hr => by cases hr
  · exact hdone (hret₁ hbad) hd (.refl addr s) fun _ => rfl

end calls

end Ramfs

end Nyvela
