import Nyvela.HeapRealloc
import Nyvela.SpaceConservation

/-!
# The table of address spaces (`src/as/as.c`)

A table of pointers to records, both on the heap. The table has sixteen entries at first and
grows by `krealloc`, up to what a page holds. A call of `kaddrspace_create` can fail in four
places, each of which has to leave the table as it was.
-/

namespace Nyvela

open Vmm

/-! ## The heap under its users -/

/-- What the rest of the kernel may do meanwhile: the heap keeps its blocks, and its pages their
frames and bytes. -/
structure SparesHeap (h h' : HeapState) : Prop where
  current : h'.heap.current = h.heap.current
  hdr : h'.heap.hdr = h.heap.hdr
  pages : h'.heap.pages = h.heap.pages
  live : h'.live = h.live
  used : ∀ P ∈ h.heap.pages, h'.heap.pmm.bitmap.test (P / 4096) = false
  bytes : ∀ P ∈ h.heap.pages, ∀ a, P ≤ a → a < P + 4096 → h'.heap.mem a = h.heap.mem a

/-- Every page has an address of 64 bits. -/
def Heap.Low (h : Heap) : Prop := ∀ P ∈ h.pages, P < 2 ^ 64

namespace Heap

theorem Low.kmalloc {h h' : Heap} {bs : List ℕ} {fuel size q : ℕ} (hlow : h.Low) (hw : h.Wf bs)
    (hr : h.kmalloc fuel size = some (q, h')) : h'.Low := by
  unfold Heap.kmalloc at hr
  split_ifs at hr
  · obtain ⟨-, rfl⟩ : 0 = q ∧ h = h' := by simpa using hr
    exact hlow
  · cases kmallocLoop_outcome hw.chain hr with
    | fail => exact hlow
    | grow =>
      intro P hP
      obtain hP | hP := List.mem_append.mp hP
      · exact hlow P hP
      · rw [List.mem_singleton.mp hP]
        exact BitVec.isLt _
    | take => exact hlow
    | split => exact hlow

theorem Low.kfree {h : Heap} (hlow : h.Low) (ptr : ℕ) : (h.kfree ptr).Low := by
  rw [Low, (h.kfree_frames ptr).2]
  exact hlow

theorem Low.krealloc {h h' : Heap} {bs : List ℕ} {fuel ptr size q : ℕ} (hlow : h.Low)
    (hw : h.Wf bs) (hr : h.krealloc fuel ptr size = some (q, h')) : h'.Low := by
  cases krealloc_outcome hr with
  | null _ hk => exact hlow.kmalloc hw hk
  | free => exact hlow.kfree ptr
  | tooBig => exact hlow
  | stay => exact hlow
  | noRoom _ _ hk => exact hlow.kmalloc hw hk
  | move _ _ _ hk _ =>
    refine Low.kfree ?_ ptr
    have hlow' := hlow.kmalloc hw hk
    exact hlow'

end Heap

namespace HeapState

theorem low_step {s s' : HeapState} {op : HeapOp} (hi : s.Inv) (hlow : s.heap.Low)
    (hs : Step s op s') : s'.heap.Low := by
  obtain ⟨bs, hw, -⟩ := hi
  cases hs with
  | kmalloc hr =>
    obtain ⟨h, hh, rfl⟩ := kmalloc_eq_some hr
    exact hlow.kmalloc hw hh
  | krealloc _ hr =>
    obtain ⟨h, hh, rfl⟩ := krealloc_eq_some hr
    exact hlow.krealloc hw hh
  | kfree _ => exact hlow.kfree _
  | frames _ => exact hlow

/-- A live pointer has 64 bits. -/
theorem live_lt {s : HeapState} (hi : s.Inv) (hlow : s.heap.Low) {p n : ℕ}
    (hp : s.live p = some n) (hn : 0 < n) : p < 2 ^ 64 := by
  obtain ⟨bs, hw, hl⟩ := hi
  obtain ⟨b, hb, rfl, -, hle⟩ := hl p n hp
  obtain ⟨P, hP, hPb, hbP⟩ := hw.inPage b hb
  have hPlt := hlow P hP
  have haligned := hw.aligned P hP
  rw [Heap.last] at hbP
  omega

theorem le_payload {s : HeapState} (hi : s.Inv) {p n : ℕ} (hp : s.live p = some n) :
    n ≤ s.payload p := by
  obtain ⟨bs, hw, hl⟩ := hi
  obtain ⟨b, hb, rfl, -, hle⟩ := hl p n hp
  rwa [payload, Nat.add_sub_cancel]

def write64 (h : HeapState) (a : ℕ) (v : Word) : HeapState := h.setMem (h.heap.mem.write64 a v)

end HeapState

/-- `kvmm_create_user_pml4` spares the heap, unless its clean-up frees pages of it: it takes free
frames, writes to them only, and frees them again and the strays. -/
theorem sparesHeap_create {h : HeapState} (hi : h.Inv) {v w : Vmm} (hpmm : v.pmm = h.heap.pmm)
    (hmem : v.mem = h.heap.mem) {cr3 r : Word} (hintact : Intact v (v.source cr3))
    (hstray : ∀ k page, page ≠ 0 → v.Stray (v.source cr3) k page →
      ∀ P ∈ h.heap.pages, Pte.frame page ≠ P / 4096)
    (hcall : v.kvmmCreateUserPml4 cr3 = some (r, w)) :
    SparesHeap h ((h.setPmm w.pmm).setMem w.mem) := by
  obtain ⟨bs, hw, -⟩ := hi
  have hused : ∀ P ∈ h.heap.pages, v.pmm.bitmap.test (P / 4096) = false := by
    rw [hpmm]
    exact hw.pagesUsed
  have hpage : ∀ P ∈ h.heap.pages, ∀ a, P ≤ a → a < P + 4096 → a / 4096 = P / 4096 := by
    intro P hP a hlo hhi
    have haligned := hw.aligned P hP
    omega
  have hext : ∀ {u : Vmm} {taken : List ℕ}, Ext v u taken →
      (∀ P ∈ h.heap.pages, P / 4096 ∉ taken ∧ u.pmm.bitmap.test (P / 4096) = false) ∧
      ∀ P ∈ h.heap.pages, ∀ a, P ≤ a → a < P + 4096 → u.mem a = h.heap.mem a := by
    intro u taken hext
    have hnot : ∀ P ∈ h.heap.pages, P / 4096 ∉ taken := fun P hP =>
      hext.notMem_of_used (hused P hP)
    refine ⟨fun P hP => ⟨hnot P hP, ?_⟩, fun P hP a hlo hhi => ?_⟩
    · rw [hext.test, hused P hP, Bool.false_and]
    · rw [hext.bytes a (by rw [hpage P hP a hlo hhi]; exact hnot P hP), hmem]
  have hspec := createUserPml4_spec rfl hintact
  rw [Vmm.kvmmCreateUserPml4] at hcall
  cases hc : v.createUserPml4 cr3 with
  | ok x =>
    rw [hc] at hcall
    obtain rfl := Option.some.inj hcall
    obtain ⟨new, -, hbuilt⟩ := hspec.of_ok _ hc
    obtain ⟨htest, hbytes⟩ := hext hbuilt.ext
    exact ⟨rfl, rfl, rfl, rfl, fun P hP => (htest P hP).2, hbytes⟩
  | error c =>
    rw [hc] at hcall
    obtain ⟨w', rfl, hpair⟩ := Option.map_eq_some_iff.mp hcall
    obtain ⟨-, rfl⟩ := Prod.mk.inj hpair
    obtain ⟨u, taken, pages, hstopped, hfree⟩ := hspec.of_error _ hc
    have hfreed := freed_of_freeAll hfree.symm
    obtain ⟨htest, hbytes⟩ := hext hstopped.ext
    obtain ⟨strays, hperm, hstrays⟩ := hstopped.frees
    refine ⟨rfl, rfl, rfl, rfl, fun P hP => ?_, fun P hP a hlo hhi => ?_⟩
    · have htest' : ¬w'.pmm.bitmap.test (P / 4096) = true := by
        rw [hfreed.test, (htest P hP).2]
        rintro (hfalse | ⟨h0, page, hpage, heq⟩)
        · exact absurd hfalse (by decide)
        · obtain hmem | hmem := List.mem_append.mp (hperm.mem_iff.mp hpage)
          · obtain ⟨f, hf, rfl⟩ := List.mem_map.mp hmem
            rw [Pte.frame_ofFrame (hstopped.ext.lt hf)] at heq
            exact (htest P hP).1 (heq ▸ hf)
          · have hpage0 : page ≠ 0 := by
              rintro rfl
              exact h0 heq
            exact hstray _ page hpage0 ((hstrays page hpage0).mp hmem) P hP heq.symm
      simpa using htest'
    · exact (congrFun hfreed.mem a).trans (hbytes P hP a hlo hhi)

theorem freeTable_mem {v w : Vmm} {pd slot base : ℕ} (h : v.freeTable pd slot base = some w) :
    w.mem = v.mem := by
  rw [freeTable] at h
  split_ifs at h
  · rw [freeEntries_eq] at h
    obtain ⟨u, hu, hw⟩ := Option.bind_eq_some_iff.mp h
    exact (kpfree_mem hw).trans (freeAll_keeps hu).1
  · rw [Option.some.inj h]

theorem kvmmFreeUserPml4_mem {v w : Vmm} {cr3 pml4 : Word}
    (h : v.kvmmFreeUserPml4 cr3 pml4 = some w) : w.mem = v.mem := by
  rw [Vmm.kvmmFreeUserPml4] at h
  dsimp only at h
  split_ifs at h
  · rw [Option.some.inj h]
  · rw [Option.some.inj h]
  · exact kpfree_mem h
  · exact (freeAll_keeps h).1
  · obtain ⟨u, hu, h⟩ := Option.bind_eq_some_iff.mp h
    obtain ⟨u', hu', h⟩ := Option.bind_eq_some_iff.mp h
    rw [(freeAll_keeps h).1, freeTable_mem hu', freeTable_mem hu]

/-- `kvmm_free_user_pml4` spares the heap where the address space has no page of it. -/
theorem sparesHeap_free {h : HeapState} (hi : h.Inv) {v w : Vmm} (hpmm : w.pmm = h.heap.pmm)
    (hmem : w.mem = h.heap.mem) {held : Held} (hh : Holds v w held [])
    (hapart : ∀ P ∈ h.heap.pages, P / 4096 ∉ held.frames) {active : Word}
    (hactive : Pte.addr (Pte.ofFrame held.pml4) ≠ Pte.addr active) :
    ∃ u, w.kvmmFreeUserPml4 active (Pte.ofFrame held.pml4) = some u ∧
      SparesHeap h ((h.setPmm u.pmm).setMem u.mem) := by
  obtain ⟨u, hu, hback⟩ := hh.kvmmFreeUserPml4 hactive
  obtain ⟨bs, hw, -⟩ := hi
  have htook : Took v w held.frames := hh.took
  refine ⟨u, hu, rfl, rfl, rfl, rfl, fun P hP => ?_, fun P hP a _ _ => ?_⟩
  · have hused := hw.pagesUsed P hP
    rw [← hpmm, htook.test, decide_eq_true (hapart P hP), Bool.and_true] at hused
    exact (congrArg (fun p : Pmm => p.bitmap.test (P / 4096)) hback).trans hused
  · exact congrFun ((kvmmFreeUserPml4_mem hu).trans hmem) a

/-! ## The table -/

structure AsTable where
  heap : HeapState
  addrspaces : ℕ
  addrspacesLength : ℕ
  addrspacesCap : ℕ

namespace AsTable

/-- `addrspaces[i]`. -/
def entry (s : AsTable) (i : ℕ) : ℕ := (s.heap.heap.mem.read64 (s.addrspaces + 8 * i)).toNat

/-- `addrspaces[i]->cr3`. -/
def cr3 (s : AsTable) (i : ℕ) : Word := s.heap.heap.mem.read64 (s.entry i)

/-- `addrspaces[i]->id`. -/
def id (s : AsTable) (i : ℕ) : Word := s.heap.heap.mem.read64 (s.entry i + 8)

/-- The table is made by the first call. -/
def makeTable (s : AsTable) (fuel : ℕ) : Option (Bool × AsTable) :=
  if s.addrspaces = 0 then
    (s.heap.kmalloc fuel (8 * s.addrspacesCap)).map fun (p, h) =>
      (decide (p ≠ 0), { s with heap := h, addrspaces := p })
  else some (true, s)

/-- A full table is made larger. -/
def growTable (s : AsTable) (fuel : ℕ) : Option (Bool × AsTable) :=
  if s.addrspacesCap ≤ s.addrspacesLength then
    let newCap := s.addrspacesCap * 2
    (s.heap.krealloc fuel s.addrspaces (8 * newCap)).map fun (tmp, h) =>
      if tmp = 0 then (false, { s with heap := h })
      else (true, { s with heap := h, addrspacesCap := newCap, addrspaces := tmp })
  else some (true, s)

def append (s : AsTable) (as : ℕ) : AsTable :=
  { s with
    heap := s.heap.write64 (s.addrspaces + 8 * s.addrspacesLength) (BitVec.ofNat 64 as)
    addrspacesLength := s.addrspacesLength + 1 }

/-- `create` is `kvmm_create_user_pml4` and `free` is `kvmm_free_user_pml4`. -/
def kaddrspaceCreate (create : HeapState → Word × HeapState) (free : Word → HeapState → HeapState)
    (s : AsTable) (fuel : ℕ) : Option (ℕ × AsTable) :=
  (s.makeTable fuel).bind fun (ok, s) =>
    if !ok then some (0, s)
    else (s.heap.kmalloc fuel 16).bind fun (as, h) =>
      if as = 0 then some (0, { s with heap := h })
      else
        let (cr3, h) := create h
        let h := h.write64 as cr3
        let h := h.write64 (as + 8) (BitVec.ofNat 64 (s.addrspacesLength + 1))
        let s := { s with heap := h }
        if cr3 = 0 then some (0, { s with heap := s.heap.kfree as })
        else (s.growTable fuel).map fun (ok, s) =>
          if !ok then (0, { s with heap := (free cr3 s.heap).kfree as })
          else (as, s.append as)

end AsTable

/-! ## What the stages keep -/

/-- The blocks of `own` are live for the same requests and have the same bytes. -/
structure Keeps (own : Set ℕ) (h h' : HeapState) : Prop where
  inv : h'.Inv
  low : h'.heap.Low
  kept : ∀ p ∈ own, ∀ n, h.live p = some n →
    h'.live p = some n ∧ ∀ i < n, h'.heap.mem (p + i) = h.heap.mem (p + i)

namespace Keeps

variable {own : Set ℕ} {h h' h'' : HeapState} {fuel size ptr q : ℕ}

theorem refl (hi : h.Inv) (hlow : h.heap.Low) : Keeps own h h :=
  ⟨hi, hlow, fun _ _ _ hn => ⟨hn, fun _ _ => rfl⟩⟩

theorem trans (h₁ : Keeps own h h') (h₂ : Keeps own h' h'') : Keeps own h h'' where
  inv := h₂.inv
  low := h₂.low
  kept := by
    intro p hp n hn
    obtain ⟨hn', hb'⟩ := h₁.kept p hp n hn
    obtain ⟨hn'', hb''⟩ := h₂.kept p hp n hn'
    exact ⟨hn'', fun i hi => (hb'' i hi).trans (hb' i hi)⟩

theorem mono {own' : Set ℕ} (hk : Keeps own h h') (hsub : own' ⊆ own) : Keeps own' h h' :=
  ⟨hk.inv, hk.low, fun p hp => hk.kept p (hsub hp)⟩

/-- A step of the heap on a pointer that is not among them. -/
theorem of_step {op : HeapOp} (hi : h.Inv) (hlow : h.heap.Low) (hs : HeapState.Step h op h')
    (hown : op.target ∉ own) : Keeps own h h' where
  inv := HeapState.inv_step hi hs
  low := HeapState.low_step hi hlow hs
  kept := by
    intro p hp n hn
    refine HeapState.step_keeps hi hs hn ?_
    rintro rfl
    exact hown hp

theorem of_spares (hi : h.Inv) (hlow : h.heap.Low) (hs : SparesHeap h h') : Keeps own h h' where
  inv := by
    obtain ⟨bs, hw, hl⟩ := hi
    refine ⟨bs, hw.congr hs.current hs.pages hs.used (fun b => by rw [hs.hdr])
      fun b => by rw [hs.hdr], fun p n hn => ?_⟩
    rw [hs.live] at hn
    obtain ⟨b, hb, hp, hu, hle⟩ := hl p n hn
    exact ⟨b, hb, hp, by rwa [hs.hdr], by rwa [hs.hdr]⟩
  low := by
    rw [Heap.Low, hs.pages]
    exact hlow
  kept := by
    intro p _ n hn
    rw [hs.live]
    refine ⟨hn, fun i hin => ?_⟩
    obtain ⟨bs, hw, hl⟩ := hi
    obtain ⟨b, hb, rfl, -, hle⟩ := hl p n hn
    obtain ⟨P, hP, hPb, hbP⟩ := hw.inPage b hb
    rw [Heap.last] at hbP
    exact hs.bytes P hP _ (by omega) (by omega)

/-- A word written into a live block. -/
theorem of_write64 {m a : ℕ} (v : Word) (hi : h.Inv) (hlow : h.heap.Low) (hq : h.live q = some m)
    (hlo : q ≤ a) (hhi : a + 8 ≤ q + m) (hown : q ∉ own) : Keeps own h (h.write64 a v) where
  inv := HeapState.inv_mem hi _
  low := hlow
  kept := by
    intro p hp n hn
    refine ⟨hn, fun i hin => Memory.write64_outside _ _ _ ?_⟩
    have hne : p ≠ q := by
      rintro rfl
      exact hown hp
    have hdisj := HeapState.live_disjoint hi hn hq hne
    omega

/-- A `krealloc` that fails. -/
theorem of_krealloc_null {n : ℕ} (hi : h.Inv) (hlow : h.heap.Low) (hptr : h.live ptr = some n)
    (hsize : 0 < size) (hr : h.krealloc fuel ptr size = some (0, h')) : Keeps own h h' := by
  have hstep : HeapState.Step h (.krealloc ptr size) h' := .krealloc (.inr (by simp [hptr])) hr
  obtain ⟨-, hsame, hothers⟩ := HeapState.krealloc_effect hi hptr hsize hr
  refine ⟨HeapState.inv_step hi hstep, HeapState.low_step hi hlow hstep, fun p _ m hm => ?_⟩
  have hp : HeapState.SameBlock h h' p := by
    by_cases hpp : p = ptr
    · rw [hpp]
      exact hsame rfl
    · exact hothers p (by simp [hm]) hpp
  refine ⟨hp.live.trans hm, fun i hin => hp.bytes i (Nat.lt_of_lt_of_le hin ?_)⟩
  exact HeapState.le_payload hi hm

end Keeps

/-! ## The table over a call -/

namespace AsTable

/-- The blocks of the table and of its records. -/
def own (s : AsTable) : Set ℕ :=
  {p | p ≠ 0 ∧ (p = s.addrspaces ∨ ∃ i < s.addrspacesLength, p = s.entry i)}

/-- The invariant. -/
structure Table (s : AsTable) : Prop where
  inv : s.heap.Inv
  low : s.heap.heap.Low
  room : 16 ≤ s.addrspacesCap ∧ 8 * s.addrspacesCap < 4072
  le : s.addrspacesLength ≤ s.addrspacesCap
  empty : s.addrspaces = 0 → s.addrspacesLength = 0
  live : s.addrspaces ≠ 0 → s.heap.live s.addrspaces = some (8 * s.addrspacesCap)
  record : ∀ i < s.addrspacesLength, s.heap.live (s.entry i) = some 16
  id : ∀ i < s.addrspacesLength, s.id i = BitVec.ofNat 64 (i + 1)

/-- The entries of `s`, and what they lead to, are those of `s'`. -/
def SameEntries (s s' : AsTable) : Prop :=
  ∀ i < s.addrspacesLength, s'.entry i = s.entry i ∧ s'.cr3 i = s.cr3 i ∧ s'.id i = s.id i

/-- A record that is not in the table yet. -/
structure Fresh (s : AsTable) (as : ℕ) : Prop where
  live : s.heap.live as = some 16
  notOwn : as ∉ s.own
  id : s.heap.heap.mem.read64 (as + 8) = BitVec.ofNat 64 (s.addrspacesLength + 1)

variable {s s' : AsTable} {h' : HeapState} {as fuel : ℕ}

theorem SameEntries.refl (s : AsTable) : s.SameEntries s := fun _ _ => ⟨rfl, rfl, rfl⟩

theorem SameEntries.trans {s'' : AsTable} (h₁ : s.SameEntries s') (h₂ : s'.SameEntries s'')
    (hlen : s'.addrspacesLength = s.addrspacesLength) : s.SameEntries s'' := by
  intro i hi
  obtain ⟨he, hc, hd⟩ := h₁ i hi
  obtain ⟨he', hc', hd'⟩ := h₂ i (hlen ▸ hi)
  exact ⟨he'.trans he, hc'.trans hc, hd'.trans hd⟩

/-- The entries, and the bytes that they lead to. -/
theorem sameEntries_of
    (h : ∀ i < s.addrspacesLength, s'.entry i = s.entry i ∧
      ∀ j < 16, s'.heap.heap.mem (s.entry i + j) = s.heap.heap.mem (s.entry i + j)) :
    s.SameEntries s' := by
  intro i hi
  obtain ⟨hentry, hbytes⟩ := h i hi
  refine ⟨hentry, ?_, ?_⟩
  · rw [cr3, hentry]
    exact Memory.read64_congr fun j hj => hbytes j (by omega)
  · rw [id, hentry]
    refine Memory.read64_congr fun j hj => ?_
    have hb := hbytes (8 + j) (by omega)
    rwa [← Nat.add_assoc] at hb

namespace Table

theorem zero_notMem_own (s : AsTable) : 0 ∉ s.own := fun h => h.1 rfl

theorem entry_mem_own (ht : s.Table) {i : ℕ} (hi : i < s.addrspacesLength) : s.entry i ∈ s.own := by
  refine ⟨fun h0 => ?_, .inr ⟨i, hi, rfl⟩⟩
  have hlive := ht.record i hi
  rw [h0, HeapState.live_zero ht.inv] at hlive
  exact absurd hlive (by simp)

theorem addrspaces_ne_zero (ht : s.Table) {i : ℕ} (hi : i < s.addrspacesLength) :
    s.addrspaces ≠ 0 := fun h0 => by
  have hlen := ht.empty h0
  omega

theorem addrspaces_mem_own (h0 : s.addrspaces ≠ 0) : s.addrspaces ∈ s.own := ⟨h0, .inl rfl⟩

/-- Everything in the table is live. -/
theorem live_own (ht : s.Table) {p : ℕ} (hp : p ∈ s.own) : (s.heap.live p).isSome := by
  obtain ⟨h0, rfl | ⟨i, hi, rfl⟩⟩ := hp
  · rw [ht.live h0]
    rfl
  · rw [ht.record i hi]
    rfl

/-- A change that keeps the blocks of the table keeps the table. -/
theorem frame (ht : s.Table) (hk : Keeps s.own s.heap h') :
    Table { s with heap := h' } ∧ s.SameEntries { s with heap := h' } := by
  have hentry : ∀ i < s.addrspacesLength, entry { s with heap := h' } i = s.entry i := by
    intro i hi
    have h0 := ht.addrspaces_ne_zero hi
    obtain ⟨-, hbytes⟩ := hk.kept _ (addrspaces_mem_own h0) _ (ht.live h0)
    refine congrArg BitVec.toNat (Memory.read64_congr fun j hj => ?_)
    have hle := ht.le
    have hb := hbytes (8 * i + j) (by omega)
    rwa [← Nat.add_assoc] at hb
  have hrecord : ∀ i < s.addrspacesLength, h'.live (s.entry i) = some 16 ∧
      ∀ j < 16, h'.heap.mem (s.entry i + j) = s.heap.heap.mem (s.entry i + j) := fun i hi =>
    hk.kept _ (ht.entry_mem_own hi) _ (ht.record i hi)
  have hsame : s.SameEntries { s with heap := h' } :=
    sameEntries_of fun i hi => ⟨hentry i hi, (hrecord i hi).2⟩
  refine ⟨?_, hsame⟩
  exact {
    inv := hk.inv
    low := hk.low
    room := ht.room
    le := ht.le
    empty := ht.empty
    live := fun h0 => (hk.kept _ (addrspaces_mem_own h0) _ (ht.live h0)).1
    record := fun i hi => by
      rw [hentry i hi]
      exact (hrecord i hi).1
    id := fun i hi => (hsame i hi).2.2.trans (ht.id i hi) }

/-- The blocks of the table are still the same. -/
theorem own_frame (ht : s.Table) (hk : Keeps s.own s.heap h') :
    own { s with heap := h' } = s.own := by
  obtain ⟨-, hsame⟩ := ht.frame hk
  ext p
  constructor
  · rintro ⟨h0, hp | ⟨i, hi, hp⟩⟩
    · exact ⟨h0, .inl hp⟩
    · exact ⟨h0, .inr ⟨i, hi, hp.trans (hsame i hi).1⟩⟩
  · rintro ⟨h0, hp | ⟨i, hi, hp⟩⟩
    · exact ⟨h0, .inl hp⟩
    · exact ⟨h0, .inr ⟨i, hi, hp.trans (hsame i hi).1.symm⟩⟩

/-- A change that keeps all blocks keeps a new record, too. -/
theorem frame_fresh (ht : s.Table) (hf : s.Fresh as) (hk : Keeps Set.univ s.heap h') :
    Fresh { s with heap := h' } as := by
  obtain ⟨hlive, hbytes⟩ := hk.kept as trivial 16 hf.live
  refine ⟨hlive, ?_, ?_⟩
  · rw [ht.own_frame (hk.mono (Set.subset_univ _))]
    exact hf.notOwn
  · refine (Memory.read64_congr fun j hj => ?_).trans hf.id
    have hb := hbytes (8 + j) (by omega)
    rwa [← Nat.add_assoc] at hb

/-- The record is given back. -/
theorem kfree (ht : s.Table) (hf : s.Fresh as) :
    Table { s with heap := s.heap.kfree as } ∧ s.SameEntries { s with heap := s.heap.kfree as } :=
  ht.frame (.of_step ht.inv ht.low (.kfree (.inr (by simp [hf.live]))) hf.notOwn)

/-- The table is there. -/
theorem makeTable {ok : Bool} (ht : s.Table) (hcall : s.makeTable fuel = some (ok, s')) :
    s'.Table ∧ s.SameEntries s' ∧ s'.addrspacesLength = s.addrspacesLength ∧
      (ok = true → s'.addrspaces ≠ 0) := by
  rw [AsTable.makeTable] at hcall
  by_cases h0 : s.addrspaces = 0
  · rw [if_pos h0] at hcall
    obtain ⟨⟨p, h⟩, hr, heq⟩ := Option.map_eq_some_iff.mp hcall
    obtain ⟨rfl, rfl⟩ := Prod.mk.inj heq
    have hlen := ht.empty h0
    have hnone : ∀ i, ¬i < s.addrspacesLength := fun i hi => by omega
    obtain ⟨hinv, -, hlive⟩ := HeapState.kmalloc_client ht.inv hr
    refine ⟨⟨hinv, HeapState.low_step ht.inv ht.low (.kmalloc hr), ht.room, ht.le, fun _ => hlen, ?_,
      fun i hi => absurd hi (hnone i), fun i hi => absurd hi (hnone i)⟩,
      fun i hi => absurd hi (hnone i), rfl, of_decide_eq_true⟩
    intro hp
    obtain ⟨hq, -⟩ | ⟨-, -, hlive⟩ := hlive
    · exact absurd hq hp
    · rw [hlive]
      exact Function.update_self ..
  · rw [if_neg h0] at hcall
    obtain ⟨rfl, rfl⟩ := Prod.mk.inj (Option.some.inj hcall)
    exact ⟨ht, .refl s, rfl, fun _ => h0⟩

/-- A new record, with what `kvmm_create_user_pml4` and the two assignments leave. -/
theorem fresh (ht : s.Table) {h : HeapState} (hr : s.heap.kmalloc fuel 16 = some (as, h))
    (h0 : as ≠ 0) (hs : SparesHeap h h') (c : Word) :
    let h₂ := (h'.write64 as c).write64 (as + 8) (BitVec.ofNat 64 (s.addrspacesLength + 1))
    Keeps s.own s.heap h₂ ∧ Fresh { s with heap := h₂ } as := by
  intro h₂
  obtain ⟨hinv, -, hlive⟩ := HeapState.kmalloc_client ht.inv hr
  obtain ⟨-, hnone, hlive⟩ := hlive.resolve_left fun h => h0 h.1
  have hown : as ∉ s.own := by
    intro hmem
    have hsome := ht.live_own hmem
    rw [hnone] at hsome
    exact absurd hsome (by decide)
  have has : h.live as = some 16 := by
    rw [hlive]
    exact Function.update_self ..
  have hmalloc : Keeps s.own s.heap h :=
    .of_step ht.inv ht.low (.kmalloc hr) (zero_notMem_own s)
  have hspare : Keeps s.own h h' := .of_spares hinv hmalloc.low hs
  have has' : h'.live as = some 16 := by rw [hs.live, has]
  have hw₁ : Keeps s.own h' (h'.write64 as c) :=
    .of_write64 c hspare.inv hspare.low has' le_rfl (by omega) hown
  have hw₂ : Keeps s.own (h'.write64 as c) h₂ :=
    .of_write64 _ hw₁.inv hw₁.low has' (by omega) (by omega) hown
  have hk : Keeps s.own s.heap h₂ := ((hmalloc.trans hspare).trans hw₁).trans hw₂
  refine ⟨hk, has', ?_, Memory.read64_write64 _ _ _⟩
  rw [ht.own_frame hk]
  exact hown

/-- A call of `krealloc` that returns a block was asked for less than a page. -/
theorem krealloc_lt {h h' : HeapState} {ptr size q : ℕ} (hptr : ptr ≠ 0) (hsize : size ≠ 0)
    (hr : h.krealloc fuel ptr size = some (q, h')) (hq : q ≠ 0) : size < 4072 := by
  by_contra hbig
  obtain ⟨g, hg, -⟩ := HeapState.krealloc_eq_some hr
  rw [Heap.krealloc, if_neg hptr, if_neg hsize, if_pos (by omega)] at hg
  exact hq (Prod.mk.inj (Option.some.inj hg)).1.symm

/-- Records are smaller than the table, so that none of them is its block. -/
theorem ne_addrspaces (ht : s.Table) (h0 : s.addrspaces ≠ 0) {p : ℕ}
    (hp : s.heap.live p = some 16) : p ≠ s.addrspaces := by
  rintro rfl
  have h16 := Option.some.inj ((ht.live h0).symm.trans hp)
  have hcap := ht.room.1
  omega

/-- The copy of the table. -/
theorem moved (ht : s.Table) (h0 : s.addrspaces ≠ 0) (hf : s.Fresh as) {tmp : ℕ}
    (hr : s.heap.krealloc fuel s.addrspaces (8 * (s.addrspacesCap * 2)) = some (tmp, h'))
    (htmp : tmp ≠ 0) :
    let s' := { s with heap := h', addrspacesCap := s.addrspacesCap * 2, addrspaces := tmp }
    Table s' ∧ s.SameEntries s' ∧ Fresh s' as := by
  intro s'
  obtain ⟨hcap, -⟩ := ht.room
  have hptr := ht.live h0
  have hstep : HeapState.Step s.heap (.krealloc s.addrspaces (8 * (s.addrspacesCap * 2))) h' :=
    .krealloc (.inr (by simp [hptr])) hr
  have hinv := HeapState.inv_step ht.inv hstep
  obtain ⟨hmove, -, hothers⟩ := HeapState.krealloc_effect ht.inv hptr (by omega) hr
  have hmoved := hmove htmp
  have hlt := krealloc_lt h0 (by omega) hr htmp
  have hlive : h'.live tmp = some (8 * (s.addrspacesCap * 2)) := by
    obtain ⟨g, -, rfl⟩ := HeapState.krealloc_eq_some hr
    simp [HeapState.liveAfterRealloc, htmp]
  have hkept : ∀ p, s.heap.live p = some 16 → h'.live p = some 16 ∧
      ∀ j < 16, h'.heap.mem (p + j) = s.heap.heap.mem (p + j) := by
    intro p hp
    have hsame := hothers p (by simp [hp]) (ht.ne_addrspaces h0 hp)
    exact ⟨hsame.live.trans hp,
      fun j hj => hsame.bytes j (Nat.lt_of_lt_of_le hj (HeapState.le_payload ht.inv hp))⟩
  have hentry : ∀ i < s.addrspacesLength, s'.entry i = s.entry i := by
    intro i hi
    refine congrArg BitVec.toNat (Memory.read64_congr fun j hj => ?_)
    have hpayload := HeapState.le_payload ht.inv hptr
    have hle := ht.le
    have hb := hmoved.bytes (8 * i + j) (by omega)
    rwa [← Nat.add_assoc, ← Nat.add_assoc] at hb
  have hsame : s.SameEntries s' :=
    sameEntries_of fun i hi => ⟨hentry i hi, (hkept _ (ht.record i hi)).2⟩
  have hrecord : ∀ i < s.addrspacesLength, h'.live (s'.entry i) = some 16 := fun i hi => by
    rw [hentry i hi]
    exact (hkept _ (ht.record i hi)).1
  refine ⟨⟨hinv, HeapState.low_step ht.inv ht.low hstep, ⟨?_, hlt⟩, ?_, fun h => absurd h htmp,
    fun _ => hlive, hrecord, fun i hi => (hsame i hi).2.2.trans (ht.id i hi)⟩, hsame,
    (hkept as hf.live).1, ?_, ?_⟩
  · change 16 ≤ s.addrspacesCap * 2
    omega
  · have hle := ht.le
    change s.addrspacesLength ≤ s.addrspacesCap * 2
    omega
  · rintro ⟨has0, rfl | ⟨i, hi, heq⟩⟩
    · have h16 := Option.some.inj (hlive.symm.trans (hkept _ hf.live).1)
      omega
    · exact hf.notOwn ⟨has0, .inr ⟨i, hi, heq.trans (hentry i hi)⟩⟩
  · refine (Memory.read64_congr fun j hj => ?_).trans hf.id
    have hb := (hkept as hf.live).2 (8 + j) (by omega)
    rwa [← Nat.add_assoc] at hb

/-- The table has room, or the call fails. -/
theorem growTable {ok : Bool} (ht : s.Table) (h0 : s.addrspaces ≠ 0) (hf : s.Fresh as)
    (hcall : s.growTable fuel = some (ok, s')) :
    s'.Table ∧ s.SameEntries s' ∧ s'.addrspacesLength = s.addrspacesLength ∧ s'.Fresh as ∧
      s'.addrspaces ≠ 0 ∧ (ok = true → s'.addrspacesLength < s'.addrspacesCap) := by
  rw [AsTable.growTable] at hcall
  by_cases hfull : s.addrspacesCap ≤ s.addrspacesLength
  · rw [if_pos hfull] at hcall
    obtain ⟨⟨tmp, h⟩, hr, heq⟩ := Option.map_eq_some_iff.mp hcall
    dsimp only at heq
    obtain ⟨hcap, -⟩ := ht.room
    by_cases htmp : tmp = 0
    · subst htmp
      rw [if_pos rfl] at heq
      obtain ⟨rfl, rfl⟩ := Prod.mk.inj heq
      have hk : Keeps Set.univ s.heap h :=
        .of_krealloc_null ht.inv ht.low (ht.live h0) (by omega) hr
      obtain ⟨ht', hsame⟩ := ht.frame (hk.mono (Set.subset_univ _))
      exact ⟨ht', hsame, rfl, ht.frame_fresh hf hk, h0, fun h => absurd h (by decide)⟩
    · rw [if_neg htmp] at heq
      obtain ⟨rfl, rfl⟩ := Prod.mk.inj heq
      obtain ⟨ht', hsame, hfresh⟩ := ht.moved h0 hf hr htmp
      refine ⟨ht', hsame, rfl, hfresh, htmp, fun _ => ?_⟩
      have hle := ht.le
      change s.addrspacesLength < s.addrspacesCap * 2
      omega
  · rw [if_neg hfull] at hcall
    obtain ⟨rfl, rfl⟩ := Prod.mk.inj (Option.some.inj hcall)
    exact ⟨ht, .refl s, rfl, hf, h0, fun _ => by omega⟩

/-- The new entry. -/
theorem append (ht : s.Table) (h0 : s.addrspaces ≠ 0) (hf : s.Fresh as)
    (hlt : s.addrspacesLength < s.addrspacesCap) :
    (s.append as).Table ∧ s.SameEntries (s.append as) ∧
      (s.append as).entry s.addrspacesLength = as := by
  have hptr := ht.live h0
  have hk : Keeps {p | p ≠ s.addrspaces} s.heap (s.append as).heap :=
    .of_write64 _ ht.inv ht.low hptr (Nat.le_add_right _ _) (by omega) fun h => h rfl
  have hkept : ∀ p, s.heap.live p = some 16 → (s.append as).heap.live p = some 16 ∧
      ∀ j < 16, (s.append as).heap.heap.mem (p + j) = s.heap.heap.mem (p + j) := fun p hp =>
    hk.kept p (ht.ne_addrspaces h0 hp) 16 hp
  have hentry : ∀ i < s.addrspacesLength, (s.append as).entry i = s.entry i := fun i hi =>
    congrArg BitVec.toNat (Memory.read64_write64_of_disjoint _ _ (by
      rw [show (s.append as).addrspaces = s.addrspaces from rfl]
      omega))
  have hnew : (s.append as).entry s.addrspacesLength = as := by
    have hlt64 := HeapState.live_lt ht.inv ht.low hf.live (by decide)
    refine (congrArg BitVec.toNat (Memory.read64_write64 _ _ _)).trans ?_
    rw [BitVec.toNat_ofNat, Nat.mod_eq_of_lt hlt64]
  have hsame : s.SameEntries (s.append as) :=
    sameEntries_of fun i hi => ⟨hentry i hi, (hkept _ (ht.record i hi)).2⟩
  refine ⟨⟨hk.inv, hk.low, ht.room, hlt, fun h => absurd h h0, fun _ => hptr, fun i hi => ?_,
    fun i hi => ?_⟩, hsame, hnew⟩
  · obtain hi | rfl := Nat.lt_succ_iff_lt_or_eq.mp hi
    · rw [hentry i hi]
      exact (hkept _ (ht.record i hi)).1
    · rw [hnew]
      exact (hkept as hf.live).1
  · obtain hi | rfl := Nat.lt_succ_iff_lt_or_eq.mp hi
    · exact (hsame i hi).2.2.trans (ht.id i hi)
    · rw [AsTable.id, hnew]
      refine (Memory.read64_congr fun j hj => ?_).trans hf.id
      have hb := (hkept as hf.live).2 (8 + j) (by omega)
      rwa [← Nat.add_assoc] at hb

/-- What a call leaves: the entries that were there, and one more if it has succeeded. -/
structure Outcome (s : AsTable) (r : ℕ) (s' : AsTable) : Prop where
  table : s'.Table
  same : s.SameEntries s'
  null : r = 0 → s'.addrspacesLength = s.addrspacesLength
  new : r ≠ 0 → s'.addrspacesLength = s.addrspacesLength + 1 ∧ s'.entry s.addrspacesLength = r

theorem Outcome.failed (h : s'.Table) (hsame : s.SameEntries s')
    (hlen : s'.addrspacesLength = s.addrspacesLength) : Outcome s 0 s' :=
  ⟨h, hsame, fun _ => hlen, fun h0 => absurd rfl h0⟩

variable {create : HeapState → Word × HeapState} {free : Word → HeapState → HeapState} {r : ℕ}

theorem kaddrspaceCreate (ht : s.Table) (hcreate : ∀ h, h.Inv → SparesHeap h (create h).2)
    (hfree : ∀ c h, h.Inv → SparesHeap h (free c h))
    (hcall : s.kaddrspaceCreate create free fuel = some (r, s')) : Outcome s r s' := by
  obtain ⟨⟨ok, s₁⟩, hmake, hcall⟩ := Option.bind_eq_some_iff.mp hcall
  obtain ⟨ht₁, hsame₁, hlen₁, hthere⟩ := ht.makeTable hmake
  cases ok with
  | false =>
    obtain ⟨rfl, rfl⟩ := Prod.mk.inj (Option.some.inj hcall)
    exact .failed ht₁ hsame₁ hlen₁
  | true =>
    have h0 := hthere rfl
    obtain ⟨⟨as, h⟩, hr, hcall⟩ := Option.bind_eq_some_iff.mp hcall
    dsimp only at hcall
    by_cases has : as = 0
    · rw [if_pos has] at hcall
      obtain ⟨rfl, rfl⟩ := Prod.mk.inj (Option.some.inj hcall)
      obtain ⟨ht₂, hsame₂⟩ := ht₁.frame
        (.of_step ht₁.inv ht₁.low (.kmalloc hr) (zero_notMem_own s₁))
      exact .failed ht₂ (hsame₁.trans hsame₂ hlen₁) hlen₁
    · rw [if_neg has] at hcall
      have hinv := (HeapState.kmalloc_client ht₁.inv hr).1
      obtain ⟨hk, hfresh⟩ := ht₁.fresh hr has (hcreate h hinv) (create h).1
      obtain ⟨ht₂, hsame₂⟩ := ht₁.frame hk
      by_cases hc : (create h).1 = 0
      · rw [if_pos hc] at hcall
        obtain ⟨rfl, rfl⟩ := Prod.mk.inj (Option.some.inj hcall)
        obtain ⟨ht₃, hsame₃⟩ := ht₂.kfree hfresh
        exact .failed ht₃ ((hsame₁.trans hsame₂ hlen₁).trans hsame₃ hlen₁) hlen₁
      · rw [if_neg hc] at hcall
        obtain ⟨⟨ok, s₃⟩, hgrow, heq⟩ := Option.map_eq_some_iff.mp hcall
        obtain ⟨ht₃, hsame₃, hlen₃, hfresh₃, h0₃, hroom⟩ := ht₂.growTable h0 hfresh hgrow
        have hsame := (hsame₁.trans hsame₂ hlen₁).trans hsame₃ hlen₁
        have hlen : s₃.addrspacesLength = s.addrspacesLength := hlen₃.trans hlen₁
        cases ok with
        | false =>
          obtain ⟨rfl, rfl⟩ := Prod.mk.inj heq
          have hspare : Keeps Set.univ s₃.heap (free (create h).1 s₃.heap) :=
            .of_spares ht₃.inv ht₃.low (hfree _ _ ht₃.inv)
          obtain ⟨ht₄, hsame₄⟩ := ht₃.frame (hspare.mono (Set.subset_univ _))
          obtain ⟨ht₅, hsame₅⟩ := ht₄.kfree (ht₃.frame_fresh hfresh₃ hspare)
          exact .failed ht₅ ((hsame.trans hsame₄ hlen).trans hsame₅ hlen) hlen
        | true =>
          obtain ⟨rfl, rfl⟩ := Prod.mk.inj heq
          obtain ⟨ht₄, hsame₄, hnew⟩ := ht₃.append h0₃ hfresh₃ (hroom rfl)
          refine ⟨ht₄, hsame.trans hsame₄ hlen, fun h => absurd h has, fun _ => ⟨?_, ?_⟩⟩
          · rw [← hlen]
            rfl
          · rw [← hlen]
            exact hnew

end Table

/-! ## Runs -/

/-- A call of `kaddrspace_create` that has returned `r`, or something that other parts of the
kernel do with the heap. -/
inductive AsOp
  | create (r : ℕ)
  | other (op : HeapOp)
  | store

/-- The others use their own blocks. -/
inductive Step : AsTable → AsOp → AsTable → Prop
  | create {s s' : AsTable} {create : HeapState → Word × HeapState}
    {free : Word → HeapState → HeapState} {fuel r : ℕ} :
    (∀ h, h.Inv → SparesHeap h (create h).2) → (∀ c h, h.Inv → SparesHeap h (free c h)) →
    s.kaddrspaceCreate create free fuel = some (r, s') → Step s (.create r) s'
  | other {s : AsTable} {op : HeapOp} {h : HeapState} :
    op.target ∉ s.own → HeapState.Step s.heap op h → Step s (.other op) { s with heap := h }
  | store {s : AsTable} {mem : Memory} :
    (∀ p ∈ s.own, ∀ n, s.heap.live p = some n → ∀ i < n, mem (p + i) = s.heap.heap.mem (p + i)) →
    Step s .store { s with heap := s.heap.setMem mem }

end AsTable

namespace AsTable

variable {s s' : AsTable}

theorem Table.step {op : AsOp} (ht : s.Table) (hs : Step s op s') : s'.Table := by
  cases hs with
  | create hcreate hfree hcall => exact (ht.kaddrspaceCreate hcreate hfree hcall).table
  | other hown hstep => exact (ht.frame (.of_step ht.inv ht.low hstep hown)).1
  | @store mem hmem =>
    have hk : Keeps s.own s.heap (s.heap.setMem mem) :=
      ⟨HeapState.inv_mem ht.inv _, ht.low, fun p hp n hn => ⟨hn, hmem p hp n hn⟩⟩
    exact (ht.frame hk).1

end AsTable

end Nyvela
