import Nyvela.ExecImage
import Nyvela.FileFrames
import Nyvela.Lib.Answers
import Nyvela.PageCopy
import Nyvela.UserAccess

/-!
# The file calls of user programs (`src/syscall/syscall.c`)

`sys_fs_create`, `sys_fs_write`, `sys_fs_read` and `sys_fs_size` as a program makes them: the path
and the data are in its memory, and the bytes go through a buffer from the heap. Programs that
take turns with such calls and with stores to their own memory see one map from paths to byte
strings, and nothing else of the kernel.
-/

namespace Nyvela

/-- What a call leaves in `rax`. -/
def vfsCode : Except VfsErr ℕ → ℤ
  | .ok n => n
  | .error e => e.code

/-- The calls with their registers, and a store by the program itself. -/
inductive FileOp
  | create (rdi rsi : Word)
  | write (rdi rsi rdx r10 : Word)
  | read (rdi rsi rdx r10 : Word)
  | size (rdi : Word)
  | store (virt : Word) (b : BitVec 8)

/-- What a call may report when there is no memory. -/
def FileOp.Excuse : FileOp → ℤ → Prop
  | .create .., rax | .write .., rax | .read .., rax => rax = VfsErr.nospace.code
  | .size .., _ | .store .., _ => False

/-- A call goes on with the path, if there is one; the outer `none` is a page fault. -/
def onPath {α : Type} (path : Option (Option (List Char))) (bad : α)
    (rest : List Char → Option α) : Option α :=
  path.bind fun
    | none => some bad
    | some path => rest path

/-- What `copy_from_user` gives a call to go on with. -/
def fetch {α : Type} (load : Word → Option (BitVec 8)) (rsi rdx : Word) (bad : α)
    (rest : List (BitVec 8) → α) : Option α :=
  if rdx ≠ 0 ∧ userRangeOk rsi rdx = false then some bad
  else (loads load rsi rdx.toNat).map rest

namespace Kernel

def setHeap (k : Kernel) (h : HeapState) : Kernel :=
  { k with threads := { k.threads with heap := h } }

def setRamfs (k : Kernel) (s : Ramfs) : Kernel :=
  { k.setHeap s.heap with root := s.root, node := s.node }

/-- A call that has a buffer of `len` bytes from the heap for what it does. -/
def withBuffer (k : Kernel) (fuel len : ℕ) (body : Kernel → ℕ → Option (ℤ × Kernel)) :
    Option (ℤ × Kernel) :=
  (k.threads.heap.kmalloc fuel len).bind fun (kbuf, h) =>
    if kbuf = 0 then some (VfsErr.nospace.code, k.setHeap h)
    else (body (k.setHeap h) kbuf).map fun (rax, k) =>
      (rax, k.setHeap (k.threads.heap.kfree kbuf))

/-- What it does with bytes of the caller in the buffer. -/
def fromUser (k : Kernel) (cr3 rsi rdx : Word) (kbuf : ℕ)
    (body : Kernel → Option (ℤ × Kernel)) : Option (ℤ × Kernel) :=
  (k.vmm.copyFromUser cr3 rsi (BitVec.ofNat 64 kbuf) rdx).bind fun (c, v) =>
    if c ≠ 0 then some (VfsErr.inval.code, k.setVmm v) else body (k.setVmm v)

/-! ## The calls

The address space `cr3` is the caller's, `none` is a page fault or too little fuel. The kernel
reaches its own memory, the buffer from the heap included, at the physical addresses. -/

def sysFsCreate (k : Kernel) (fuel : ℕ) (cr3 rdi rsi : Word) : Option (ℤ × Kernel) :=
  onPath (copyUserPath (k.vmm.loadAt cr3) rdi) (VfsErr.badpath.code, k) fun path =>
    (k.ramfs.vfsCreate fuel path (rsi != 0)).map fun (r, s) =>
      (vfsCode (r.map fun _ => 0), k.setRamfs s)

def sysFsWrite (k : Kernel) (fuel : ℕ) (cr3 rdi rsi rdx r10 : Word) : Option (ℤ × Kernel) :=
  onPath (copyUserPath (k.vmm.loadAt cr3) rdi) (VfsErr.badpath.code, k) fun path =>
    if syscallMaxBuf < rdx.toNat then some (VfsErr.nospace.code, k)
    else if rdx = 0 then
      (k.ramfs.vfsWrite fuel path [] r10.toNat).map fun (r, s) => (vfsCode r, k.setRamfs s)
    else
      k.withBuffer fuel rdx.toNat fun k kbuf => k.fromUser cr3 rsi rdx kbuf fun k =>
        (k.ramfs.vfsWrite fuel path (k.vmm.mem.read kbuf rdx.toNat) r10.toNat).map fun (r, s) =>
          (vfsCode r, k.setRamfs s)

/-- The part of `sys_fs_read` behind `vfs_read`, which has left what it read in the buffer. -/
def fsReadBuf (k : Kernel) (cr3 rsi : Word) (kbuf : ℕ) :
    Except VfsErr (List (BitVec 8)) → Option (ℤ × Kernel)
  | .error e => some (e.code, k)
  | .ok data =>
    ((k.vmm.setMem (k.vmm.mem.write kbuf data)).copyToUser cr3 rsi (BitVec.ofNat 64 kbuf)
        (BitVec.ofNat 64 data.length)).map fun (c, v) =>
      (if c ≠ 0 then VfsErr.inval.code else data.length, k.setVmm v)

def sysFsRead (k : Kernel) (fuel : ℕ) (cr3 rdi rsi rdx r10 : Word) : Option (ℤ × Kernel) :=
  onPath (copyUserPath (k.vmm.loadAt cr3) rdi) (VfsErr.badpath.code, k) fun path =>
    if syscallMaxBuf < rdx.toNat then some (VfsErr.nospace.code, k)
    else if rdx = 0 then some (0, k)
    else
      k.withBuffer fuel rdx.toNat fun k kbuf =>
        (k.ramfs.vfsRead fuel path rdx.toNat r10.toNat).bind (k.fsReadBuf cr3 rsi kbuf)

def sysFsSize (k : Kernel) (fuel : ℕ) (cr3 rdi : Word) : Option (ℤ × Kernel) :=
  onPath (copyUserPath (k.vmm.loadAt cr3) rdi) (VfsErr.badpath.code, k) fun path =>
    (k.ramfs.vfsSize fuel path).map fun r => (vfsCode r, k)

def runFile (k : Kernel) (fuel : ℕ) (cr3 : Word) : FileOp → Option (ℤ × Kernel)
  | .create rdi rsi => k.sysFsCreate fuel cr3 rdi rsi
  | .write rdi rsi rdx r10 => k.sysFsWrite fuel cr3 rdi rsi rdx r10
  | .read rdi rsi rdx r10 => k.sysFsRead fuel cr3 rdi rsi rdx r10
  | .size rdi => k.sysFsSize fuel cr3 rdi
  | .store virt b =>
    (put (k.vmm.translate cr3) virt [b] k.vmm.mem).map fun m => (0, k.setVmm (k.vmm.setMem m))

/-! ## Runs -/

/-- Behind the `kmalloc` for the buffer there are frames enough for the pages that the file is
short of. -/
def Fits (k : Kernel) (path : List Char) (len offset : ℕ) : Prop :=
  ∀ kbuf h f, Returns (fun fuel => k.threads.heap.kmalloc fuel len) (kbuf, h) → kbuf ≠ 0 →
    Returns (fun fuel => k.ramfs.ramfsLookup fuel path) f → f ≠ 0 → offset ≤ (k.node f).size →
    offset + len ≤ vfsMaxFileSize →
    h.heap.pmm.canTake ((offset + len + 4095) / 4096 - (k.node f).pageCount) = true

/-- The kernel finds the buffer that `kmalloc` gives it in the address space of the caller. -/
def BufferSeen (k : Kernel) (cr3 : Word) (len : ℕ) : Prop :=
  ∀ kbuf h, Returns (fun fuel => k.threads.heap.kmalloc fuel len) (kbuf, h) → kbuf ≠ 0 →
    k.vmm.Seen cr3 kbuf len

/-- The program names its own memory, which does not hide the kernel's buffer, and a write does
not run out of frames. -/
def Proper (k : Kernel) (user : Set ℕ) (cr3 : Word) : FileOp → Prop
  | .create rdi _ => k.vmm.OwnedPath user cr3 rdi
  | .write rdi rsi rdx r10 => k.vmm.OwnedPath user cr3 rdi ∧ k.vmm.OwnedBuf user cr3 rsi rdx.toNat ∧
      k.BufferSeen cr3 rdx.toNat ∧ ∀ path, copyUserPath (k.vmm.loadAt cr3) rdi = some (some path) →
        k.Fits path rdx.toNat r10.toNat
  | .read rdi rsi rdx _ => k.vmm.OwnedPath user cr3 rdi ∧ k.vmm.OwnedBuf user cr3 rsi rdx.toNat ∧
      k.BufferSeen cr3 rdx.toNat
  | .size rdi => k.vmm.OwnedPath user cr3 rdi
  | .store virt _ => virt.toNat < 2 ^ 30 ∧ k.vmm.UserWritable cr3 virt ∧ k.vmm.Owned user cr3 virt

end Kernel

/-- A program's address space, what it does, and what it gets. -/
abbrev FileEvent := Word × FileOp × ℤ

/-- Programs with the address spaces `roots` and memory in the frames `user` take turns. -/
def fileSystem (roots : Set Word) (user : Set ℕ) : System Kernel FileEvent where
  init _ := True
  step k e k' := e.1 ∈ roots ∧ k.Proper user e.1 e.2.1 ∧
    Returns (fun fuel => k.runFile fuel e.1 e.2.1) (e.2.2, k')

/-! ## What the programs see -/

/-- One map from paths to byte strings, and memory. -/
structure FileWorld where
  files : FileMap
  mem : Memory

namespace FileWorld

def load (w : FileWorld) (view : Word → Option ℕ) (virt : Word) : Option (BitVec 8) :=
  (view virt).map w.mem

/-! Each call with `view` for where the program's addresses are in memory; `none` is a page
fault. -/

def create (w : FileWorld) (view : Word → Option ℕ) (rdi rsi : Word) : Option (ℤ × FileWorld) :=
  onPath (copyUserPath (w.load view) rdi) (VfsErr.badpath.code, w) fun path =>
    let r := w.files.vfsCreate path (rsi != 0)
    some (vfsCode (r.1.map fun _ => 0), { w with files := r.2 })

def write (w : FileWorld) (view : Word → Option ℕ) (rdi rsi rdx r10 : Word) :
    Option (ℤ × FileWorld) :=
  onPath (copyUserPath (w.load view) rdi) (VfsErr.badpath.code, w) fun path =>
    if syscallMaxBuf < rdx.toNat then some (VfsErr.nospace.code, w)
    else fetch (w.load view) rsi rdx (VfsErr.inval.code, w) fun data =>
      let r := w.files.vfsWrite path data r10.toNat
      (vfsCode r.1, { w with files := r.2 })

def read (w : FileWorld) (view : Word → Option ℕ) (rdi rsi rdx r10 : Word) :
    Option (ℤ × FileWorld) :=
  onPath (copyUserPath (w.load view) rdi) (VfsErr.badpath.code, w) fun path =>
    if syscallMaxBuf < rdx.toNat then some (VfsErr.nospace.code, w)
    else if rdx = 0 then some (0, w)
    else
      match w.files.vfsRead path rdx.toNat r10.toNat with
      | .error e => some (e.code, w)
      | .ok data =>
        if data ≠ [] ∧ userRangeOk rsi (BitVec.ofNat 64 data.length) = false then
          some (VfsErr.inval.code, w)
        else (put view rsi data w.mem).map fun m => (data.length, { w with mem := m })

def size (w : FileWorld) (view : Word → Option ℕ) (rdi : Word) : Option (ℤ × FileWorld) :=
  onPath (copyUserPath (w.load view) rdi) (VfsErr.badpath.code, w) fun path =>
    some (vfsCode (w.files.vfsSize path), w)

def store (w : FileWorld) (view : Word → Option ℕ) (virt : Word) (b : BitVec 8) :
    Option (ℤ × FileWorld) :=
  (put view virt [b] w.mem).map fun m => (0, { w with mem := m })

def run (w : FileWorld) (view : Word → Option ℕ) : FileOp → Option (ℤ × FileWorld)
  | .create rdi rsi => w.create view rdi rsi
  | .write rdi rsi rdx r10 => w.write view rdi rsi rdx r10
  | .read rdi rsi rdx r10 => w.read view rdi rsi rdx r10
  | .size rdi => w.size view rdi
  | .store virt b => w.store view virt b

/-- A call that needs memory may also report `NOSPACE` and change nothing. -/
def system (view : Word → Word → Option ℕ) : System FileWorld FileEvent where
  init _ := True
  step w e w' := w.run (view e.1) e.2.1 = some (e.2.2, w') ∨
    e.2.1.Excuse e.2.2 ∧ w' = w

end FileWorld

/-! ## What the calls rely on -/

theorem FileMap.vfsRead_length {m : FileMap} {path : List Char} {len offset : ℕ}
    {data : List (BitVec 8)} (h : m.vfsRead path len offset = .ok data) : data.length ≤ len := by
  unfold FileMap.vfsRead FileMap.read at h
  split_ifs at h
  split at h
  · cases h
  · cases h
  · obtain rfl := Except.ok.inj h
    exact List.length_take_le ..

namespace Kernel

/-- The page tables are nobody else's. -/
structure Serving (k : Kernel) (roots : Set Word) (addr : List Name → ℕ) : Prop where
  files : k.ramfs.Distinct addr
  tables : ∀ c ∈ roots, ∀ f ∈ k.vmm.tableFrames c, k.ramfs.Foreign addr f

/-- The kernel's state stands for what the programs see. -/
structure Mirrors (roots : Set Word) (user : Set ℕ) (view : Word → Word → Option ℕ)
    (addr : List Name → ℕ) (k : Kernel) (w : FileWorld) : Prop where
  serving : k.Serving roots addr
  foreign : ∀ g ∈ user, k.ramfs.Foreign addr g
  shows : ∀ c ∈ roots, k.vmm.Shows user c (view c) w.mem
  mem : ∀ a, a / 4096 ∈ user → k.vmm.mem a = w.mem a
  files : k.ramfs.entryAt addr = w.files

/-- The same, wherever the nodes are. -/
def Reflects (roots : Set Word) (user : Set ℕ) (view : Word → Word → Option ℕ) (k : Kernel)
    (w : FileWorld) : Prop :=
  ∃ addr, Mirrors roots user view addr k w

section

variable {roots : Set Word} {user : Set ℕ} {view : Word → Word → Option ℕ}
  {addr addr' : List Name → ℕ} {k : Kernel} {w : FileWorld}

/-- Memory that differs outside the tables only. -/
theorem Mirrors.of_mem (h : Mirrors roots user view addr k w) {s : Ramfs} {w' : FileWorld}
    (hd : s.Distinct addr') (hforeign : ∀ g, k.ramfs.Foreign addr g → s.Foreign addr' g)
    (htables : ∀ c ∈ roots, ∀ a, a / 4096 ∈ k.vmm.tableFrames c → s.mem a = k.ramfs.mem a)
    (hfiles : s.entryAt addr' = w'.files)
    (hmem : ∀ a, a / 4096 ∈ user → s.mem a = w'.mem a) :
    Mirrors roots user view addr' (k.setRamfs s) w' := by
  refine ⟨⟨hd, fun c hc f hf => ?_⟩, fun g hg => hforeign g (h.foreign g hg),
    fun c hc => (h.shows c hc).of_frames (htables c hc) hmem, hmem, hfiles⟩
  have hframes : (k.setRamfs s).vmm.tableFrames c = k.vmm.tableFrames c :=
    Vmm.tableFrames_of_frames (htables c hc)
  rw [hframes] at hf
  exact hforeign f (h.serving.tables c hc f hf)

/-- Whatever keeps the foreign frames is invisible, but for the files. -/
theorem Mirrors.keeps (h : Mirrors roots user view addr k w) {s : Ramfs} {files : FileMap}
    (hd : s.Distinct addr') (hk : Ramfs.Keeps addr addr' k.ramfs s)
    (hfiles : s.entryAt addr' = files) :
    Mirrors roots user view addr' (k.setRamfs s) { w with files := files } := by
  apply h.of_mem hd hk.foreign _ hfiles
  · intro a ha
    rw [hk.mem a (h.foreign _ ha)]
    exact h.mem a ha
  · intro c hc a ha
    exact hk.mem a (h.serving.tables c hc _ ha)

/-- Memory that differs outside the pages of files, and for the programs as `mem'` says. -/
theorem Mirrors.setMem (h : Mirrors roots user view addr k w) {m mem' : Memory}
    (hfiles : ∀ p, addr p ≠ 0 → ∀ i < (k.node (addr p)).pageCount, ∀ j < 4096,
      m ((k.node (addr p)).pages i + j) = k.vmm.mem ((k.node (addr p)).pages i + j))
    (htables : ∀ c ∈ roots, ∀ a, a / 4096 ∈ k.vmm.tableFrames c → m a = k.vmm.mem a)
    (hmem : ∀ a, a / 4096 ∈ user → m a = mem' a) :
    Mirrors roots user view addr (k.setVmm (k.vmm.setMem m)) { w with mem := mem' } := by
  obtain ⟨hd, hentry⟩ := h.serving.files.setMem m hfiles
  have hentry' : Ramfs.entryAt { k.ramfs with heap := k.ramfs.heap.setMem m } addr =
      ({ w with mem := mem' } : FileWorld).files := hentry.trans h.files
  exact h.of_mem hd (fun g hg => hg.setMem m) htables hentry' hmem

/-- Bytes for the memory of the programs. -/
theorem Mirrors.setUser (h : Mirrors roots user view addr k w) {m mem' : Memory}
    (hout : ∀ a, a / 4096 ∉ user → m a = k.vmm.mem a)
    (hmem : ∀ a, a / 4096 ∈ user → m a = mem' a) :
    Mirrors roots user view addr (k.setVmm (k.vmm.setMem m)) { w with mem := mem' } := by
  apply h.setMem _ _ hmem
  · intro p hp i hi j hj
    apply hout
    intro huser
    exact h.serving.files.byte_ne (Or.inl (h.foreign _ huser)) hp hi hj rfl
  · intro c hc a ha
    apply hout
    exact (h.shows c hc).tables _ ha

/-! ## The buffer -/

/-- `kbuf` is a block of `len` bytes in the frame `f`, and not a node. -/
structure Buffer (k : Kernel) (addr : List Name → ℕ) (kbuf len f : ℕ) : Prop where
  live : k.threads.heap.live kbuf = some len
  node : ∀ p, addr p ≠ 0 → addr p ≠ kbuf
  page : f * 4096 ∈ k.threads.heap.heap.pages
  lo : f * 4096 + 24 ≤ kbuf
  hi : kbuf + len ≤ f * 4096 + 4096

theorem Mirrors.kmalloc (h : Mirrors roots user view addr k w) {fuel len kbuf : ℕ} {hp : HeapState}
    (hk : k.threads.heap.kmalloc fuel len = some (kbuf, hp)) :
    Mirrors roots user view addr (k.setHeap hp) w ∧
      (kbuf ≠ 0 → ∃ f, (k.setHeap hp).Buffer addr kbuf len f) := by
  have hd := h.serving.files
  obtain ⟨hd', hkeeps, hentry⟩ := hd.kmalloc hk
  refine ⟨h.keeps hd' hkeeps (hentry.trans h.files), fun h0 => ?_⟩
  obtain ⟨hinv, -, hlive⟩ := HeapState.kmalloc_client hd.heap hk
  obtain ⟨-, hnone, hlive⟩ := hlive.resolve_left fun hc => h0 hc.1
  have hself : hp.live kbuf = some len := by rw [hlive, Function.update_self]
  obtain ⟨f, hpage, hlo, hhi⟩ := HeapState.live_page hinv hself
  refine ⟨f, hself, fun p hp heq => ?_, hpage, hlo, hhi⟩
  have hnode := hd.live p hp
  rw [heq] at hnode
  exact absurd (hnone.symm.trans hnode) (by simp)

section buffer

variable {kbuf len f : ℕ}

theorem Buffer.setVmm (hb : k.Buffer addr kbuf len f) (m : Memory) :
    (k.setVmm (k.vmm.setMem m)).Buffer addr kbuf len f :=
  ⟨hb.live, hb.node, hb.page, hb.lo, hb.hi⟩

theorem Buffer.setRamfs (hb : k.Buffer addr kbuf len f) {s : Ramfs}
    (hlive : s.heap.live = k.threads.heap.live)
    (hpages : s.heap.heap.pages = k.threads.heap.heap.pages) :
    (k.setRamfs s).Buffer addr kbuf len f :=
  ⟨(congrFun hlive kbuf).trans hb.live, hb.node, hpages ▸ hb.page, hb.lo, hb.hi⟩

theorem Mirrors.kfree (h : Mirrors roots user view addr k w) (hb : k.Buffer addr kbuf len f) :
    Reflects roots user view (k.setHeap (k.threads.heap.kfree kbuf)) w := by
  obtain ⟨hd', hkeeps, hentry⟩ := h.serving.files.kfree hb.live hb.node
  exact ⟨addr, h.keeps hd' hkeeps (hentry.trans h.files)⟩

theorem Mirrors.fill (h : Mirrors roots user view addr k w) (hb : k.Buffer addr kbuf len f)
    {l : List (BitVec 8)} (hl : l.length ≤ len) :
    Mirrors roots user view addr (k.setVmm (k.vmm.setMem (k.vmm.mem.write kbuf l))) w := by
  have hlo := hb.lo
  have hhi := hb.hi
  have hout : ∀ a, a / 4096 ≠ f → k.vmm.mem.write kbuf l a = k.vmm.mem a := by
    intro a ha
    apply Memory.write_outside
    omega
  have hforeign : ∀ a, k.ramfs.Foreign addr (a / 4096) → a / 4096 ≠ f :=
    fun a ha heq => ha.heap (heq ▸ hb.page)
  apply h.setMem
  · intro p hp i hi j hj
    apply hout
    intro heq
    exact h.serving.files.byte_ne (Or.inr (heq ▸ hb.page)) hp hi hj rfl
  · intro c hc a ha
    exact hout a (hforeign a (h.serving.tables c hc _ ha))
  · intro a ha
    rw [← h.mem a ha]
    exact hout a (hforeign a (h.foreign _ ha))

theorem Mirrors.hidden (h : Mirrors roots user view addr k w) (hb : k.Buffer addr kbuf len f)
    {c : Word} (hc : c ∈ roots) {n : ℕ} (hn : n ≤ len) : k.vmm.Hidden user c kbuf n := by
  have hlo := hb.lo
  have hhi := hb.hi
  refine ⟨by omega, fun i hi => ?_⟩
  rw [show (kbuf + i) / 4096 = f by omega]
  exact ⟨fun htab => (h.serving.tables c hc f htab).heap hb.page,
    fun huser => (h.foreign f huser).heap hb.page⟩

end buffer

end

/-! ## One call -/

section answers

variable {ω : Type} {R : Kernel → ω → Prop} {w : ω} {excuse : ℤ → Prop} {k : Kernel}

/-- A call with a buffer answers as its body does, or there is none for it. -/
theorem answers_withBuffer {target : Option (ℤ × ω)} {len : ℕ}
    {body : ℕ → Kernel → ℕ → Option (ℤ × Kernel)} (hinv : k.threads.heap.Inv)
    (hexcuse : excuse VfsErr.nospace.code)
    (hbody : ∀ kbuf h, Returns (fun fuel => k.threads.heap.kmalloc fuel len) (kbuf, h) →
      if kbuf = 0 then R (k.setHeap h) w
      else Answers (fun k' w' => R (k'.setHeap (k'.threads.heap.kfree kbuf)) w') w excuse
        (fun fuel => body fuel (k.setHeap h) kbuf) target) :
    Answers R w excuse (fun fuel => k.withBuffer fuel len (body fuel)) target := by
  obtain ⟨⟨kbuf, h⟩, hk⟩ := HeapState.kmalloc_returns hinv len
  have hrest := hbody kbuf h hk
  by_cases h0 : kbuf = 0
  · rw [if_pos h0] at hrest
    refine .excused hexcuse (hk.bind ?_) hrest
    simp only [if_pos h0]
    exact .const _
  · rw [if_neg h0] at hrest
    apply Answers.bind hk
    simp only [if_neg h0]
    exact hrest.map

theorem answers_fromUser {user : Set ℕ} {cr3 rsi rdx : Word} {view : Word → Option ℕ}
    {mem : Memory} {kbuf : ℕ} {body : ℕ → Kernel → Option (ℤ × Kernel)}
    {rest : List (BitVec 8) → ℤ × ω} (hshow : k.vmm.Shows user cr3 view mem)
    (hs : k.vmm.Seen cr3 kbuf rdx.toNat) (hb : k.vmm.Hidden user cr3 kbuf rdx.toNat)
    (ho : rsi.toNat + rdx.toNat ≤ 2 ^ 30 → k.vmm.OwnedBuf user cr3 rsi rdx.toNat) (h0 : rdx ≠ 0)
    (hbad : R k w)
    (hbody : ∀ data, data.length = rdx.toNat → Answers R w excuse
      (fun fuel => body fuel (k.setVmm (k.vmm.setMem (k.vmm.mem.write kbuf data))))
      (some (rest data))) :
    Answers R w excuse (fun fuel => k.fromUser cr3 rsi rdx kbuf (body fuel))
      (fetch (fun virt => (view virt).map mem) rsi rdx (VfsErr.inval.code, w) rest) := by
  have hcopy := hshow.copyFromUser hs hb ho h0
  unfold fromUser fetch
  by_cases hok : userRangeOk rsi rdx = false
  · rw [if_pos hok] at hcopy
    simp only [hcopy, if_pos (And.intro h0 hok)]
    exact .done (.const _) hbad
  · rw [if_neg hok] at hcopy
    simp only [hcopy, if_neg fun hc : rdx ≠ 0 ∧ userRangeOk rsi rdx = false => hok hc.2]
    cases hdata : loads (fun virt => (view virt).map mem) rsi rdx.toNat with
    | none => exact .fault ⟨0, fun _ _ => rfl⟩
    | some data => exact hbody data (loads_length hdata)

end answers

section

variable {roots : Set Word} {user : Set ℕ} {view : Word → Word → Option ℕ}
  {addr : List Name → ℕ} {k : Kernel} {w : FileWorld} {excuse : ℤ → Prop} {c rdi rsi rdx r10 : Word}

theorem Mirrors.onPath (h : Mirrors roots user view addr k w) (hc : c ∈ roots)
    (ho : k.vmm.OwnedPath user c rdi) {f : List Char → ℕ → Option (ℤ × Kernel)}
    {g : List Char → Option (ℤ × FileWorld)}
    (hrest : ∀ path, copyUserPath (k.vmm.loadAt c) rdi = some (some path) →
      Answers (Reflects roots user view) w excuse (f path) (g path)) :
    Answers (Reflects roots user view) w excuse
      (fun fuel => Nyvela.onPath (copyUserPath (k.vmm.loadAt c) rdi) (VfsErr.badpath.code, k)
        fun path => f path fuel)
      (Nyvela.onPath (copyUserPath (w.load (view c)) rdi) (VfsErr.badpath.code, w) g) := by
  have hpath : copyUserPath (w.load (view c)) rdi = copyUserPath (k.vmm.loadAt c) rdi :=
    (h.shows c hc).path ho
  rw [hpath]
  cases hres : copyUserPath (k.vmm.loadAt c) rdi with
  | none => exact .fault ⟨0, fun _ _ => rfl⟩
  | some res =>
    cases res with
    | none => exact .done (.const _) ⟨_, h⟩
    | some path => exact hrest path hres

theorem Mirrors.sysFsSize (h : Mirrors roots user view addr k w) (hc : c ∈ roots)
    (ho : k.vmm.OwnedPath user c rdi) :
    Answers (Reflects roots user view) w excuse (fun fuel => k.sysFsSize fuel c rdi)
      (w.size (view c) rdi) := by
  apply h.onPath hc ho
  intro path _
  have hsize : Returns (fun fuel => k.ramfs.vfsSize fuel path) (w.files.vfsSize path) := by
    rw [← h.files]
    unfold Ramfs.vfsSize FileMap.vfsSize
    cases vfsPathOk path with
    | false => exact .const _
    | true => exact Ramfs.ramfsSize_returns h.serving.files.toInv path
  exact .done (hsize.map _) ⟨_, h⟩

theorem Mirrors.sysFsCreate (h : Mirrors roots user view addr k w) (hc : c ∈ roots)
    (ho : k.vmm.OwnedPath user c rdi) (rsi : Word) (hexcuse : excuse VfsErr.nospace.code) :
    Answers (Reflects roots user view) w excuse (fun fuel => k.sysFsCreate fuel c rdi rsi)
      (w.create (view c) rdi rsi) := by
  apply h.onPath hc ho
  intro path _
  obtain ⟨r, s, addr', hret, hd', hkeeps, hmap⟩ := h.serving.files.vfsCreate path (rsi != 0)
  obtain ⟨rfl, hentry⟩ | hmap := hmap
  · exact .excused hexcuse (hret.map _) ⟨_, h.keeps hd' hkeeps (hentry.trans h.files)⟩
  · rw [h.files] at hmap
    obtain ⟨rfl, hentry⟩ := Prod.mk.inj hmap
    exact .done (hret.map _) ⟨_, h.keeps hd' hkeeps hentry⟩

/-- The frames that the call may take are enough for the file. -/
theorem Mirrors.allocsOk (h : Mirrors roots user view addr k w) {k' : Kernel} {w' : FileWorld}
    (h' : Mirrors roots user view addr k' w') (hnode : k'.node = k.node) {path : List Char}
    {buf : List (BitVec 8)} {offset kbuf : ℕ} {hp : HeapState}
    (hk : Returns (fun fuel => k.threads.heap.kmalloc fuel buf.length) (kbuf, hp)) (h0 : kbuf ≠ 0)
    (hpmm : k'.threads.heap.heap.pmm = hp.heap.pmm) (hfits : k.Fits path buf.length offset) :
    k'.ramfs.AllocsOk (.write path buf offset) := by
  intro f hf hf0 hoff hmax
  have hlookup := h.serving.files.toTree.ramfsLookup path
  obtain rfl := hf.unique (h'.serving.files.toTree.ramfsLookup path)
  have hsize : (k'.ramfs.node (Ramfs.resolve addr path)) = k.node (Ramfs.resolve addr path) :=
    congrFun hnode _
  rw [hsize] at hoff ⊢
  have htake := hfits kbuf hp _ hk h0 hlookup hf0 hoff hmax
  rwa [← hpmm] at htake

theorem Mirrors.allocsOk_nil (h : Mirrors roots user view addr k w) (path : List Char)
    (offset : ℕ) : k.ramfs.AllocsOk (.write path [] offset) := by
  intro f hf hf0 hoff _
  obtain rfl := hf.unique (h.serving.files.toTree.ramfsLookup path)
  obtain ⟨p, -, hr, hp, -⟩ :=
    (Ramfs.resolve_find k.ramfs addr path).resolve_left fun hc => hf0 hc.1
  rw [hr] at hoff ⊢
  have hsize := h.serving.files.size_le p hp
  have hnone : (offset + ([] : List (BitVec 8)).length + 4095) / 4096 -
      (k.ramfs.node (addr p)).pageCount = 0 := by
    rw [List.length_nil]
    omega
  rw [hnone]
  rfl

theorem Mirrors.sysFsWrite (h : Mirrors roots user view addr k w) (hc : c ∈ roots)
    (hp : k.Proper user c (.write rdi rsi rdx r10)) (hexcuse : excuse VfsErr.nospace.code) :
    Answers (Reflects roots user view) w excuse (fun fuel => k.sysFsWrite fuel c rdi rsi rdx r10)
      (w.write (view c) rdi rsi rdx r10) := by
  obtain ⟨hpath, hbuf, hseen, hfits⟩ := hp
  apply h.onPath hc hpath
  intro path hres
  by_cases hmax : syscallMaxBuf < rdx.toNat
  · simp only [if_pos hmax]
    exact .done (.const _) ⟨_, h⟩
  simp only [if_neg hmax]
  by_cases h0 : rdx = 0
  · subst h0
    obtain ⟨s, hret, hd', hkeeps, hentry, -⟩ :=
      h.serving.files.vfsWrite (Nat.zero_le _) (h.allocsOk_nil path r10.toNat)
    rw [h.files] at hret hentry
    exact .done (hret.map _) ⟨_, h.keeps hd' hkeeps hentry⟩
  simp only [if_neg h0]
  apply answers_withBuffer h.serving.files.heap hexcuse
  intro kbuf hp hk
  obtain ⟨fuel, hkf⟩ := hk.exists_fuel
  obtain ⟨h₁, hb⟩ := h.kmalloc hkf
  by_cases hnull : kbuf = 0
  · rw [if_pos hnull]
    exact ⟨_, h₁⟩
  rw [if_neg hnull]
  obtain ⟨f, hb⟩ := hb hnull
  apply answers_fromUser (h₁.shows c hc) ((h.shows c hc).seen (h₁.shows c hc) (hseen kbuf hp hk hnull))
    (h₁.hidden hb hc le_rfl) (fun hlt => (h.shows c hc).ownedBuf (h₁.shows c hc) hlt hbuf) h0
    (h₁.kfree hb)
  intro data hlen
  rw [← hlen] at hb hk
  have h₂ := h₁.fill hb le_rfl
  have hread : ((k.setHeap hp).setVmm ((k.setHeap hp).vmm.setMem
      ((k.setHeap hp).vmm.mem.write kbuf data))).vmm.mem.read kbuf rdx.toNat = data := by
    rw [← hlen]
    exact Memory.read_write _ _ _
  have hallocs := h.allocsOk h₂ rfl hk hnull rfl (by rw [hlen]; exact hfits path hres)
  obtain ⟨s, hret, hd', hkeeps, hentry, hlive, hpages⟩ := h₂.serving.files.vfsWrite
    (by rw [hlen]; exact (Nat.le_of_not_lt hmax).trans (by decide)) hallocs
  rw [h₂.files] at hret hentry
  have hb₃ := (hb.setVmm _).setRamfs hlive hpages
  refine .done ?_ ((h₂.keeps hd' hkeeps hentry).kfree hb₃)
  simp only [hread]
  exact hret.map _

/-- What is done with the bytes that were read. -/
theorem Mirrors.fsReadBuf (h : Mirrors roots user view addr k w) {kbuf len f : ℕ}
    (hb : k.Buffer addr kbuf len f) (hs : k.vmm.Seen c kbuf len) (hc : c ∈ roots)
    {data : List (BitVec 8)} (hlen : data.length ≤ len)
    (ho : rsi.toNat + data.length ≤ 2 ^ 30 → k.vmm.OwnedBuf user c rsi data.length) :
    Answers (fun k' w' => Reflects roots user view (k'.setHeap (k'.threads.heap.kfree kbuf)) w') w
      excuse (fun _ => k.fsReadBuf c rsi kbuf (.ok data))
      (if data ≠ [] ∧ userRangeOk rsi (BitVec.ofNat 64 data.length) = false then
        some (VfsErr.inval.code, w)
      else (Nyvela.put (view c) rsi data w.mem).map fun m =>
        (data.length, { w with mem := m })) := by
  have h₂ := h.fill hb hlen
  have hb₂ := hb.setVmm (k.vmm.mem.write kbuf data)
  have hshow := h₂.shows c hc
  by_cases hnil : data = []
  · subst hnil
    exact .done (.const _) (h₂.kfree hb₂)
  have hs₂ := (h.shows c hc).seen hshow hs
  have ho₂ := fun hlt => (h.shows c hc).ownedBuf hshow hlt (ho hlt)
  have hcopy := hshow.copyToUser ⟨by have := hs₂.1; omega, fun i hi => hs₂.2 i (by omega)⟩
    (h₂.hidden hb₂ hc hlen) ho₂ fun h0 => hnil (List.eq_nil_of_length_eq_zero h0)
  rw [show (k.setVmm (k.vmm.setMem (k.vmm.mem.write kbuf data))).vmm.mem.read kbuf data.length =
    data from Memory.read_write _ _ _] at hcopy
  by_cases hok : userRangeOk rsi (BitVec.ofNat 64 data.length) = false
  · rw [if_pos hok] at hcopy
    rw [if_pos ⟨hnil, hok⟩]
    have hret : k.fsReadBuf c rsi kbuf (.ok data) = _ := congrArg (Option.map _) hcopy
    rw [hret]
    exact .done (.const _) (h₂.kfree hb₂)
  rw [if_neg hok] at hcopy
  rw [if_neg fun hbad => hok hbad.2]
  have hend : rsi.toNat + data.length ≤ 2 ^ 30 := by
    have hlt := hs.1
    exact (Vmm.userRangeOk_ofNat (by omega)
      (fun h0 => hnil (List.eq_nil_of_length_eq_zero h0)) hok).2.trans (by decide)
  have hret : k.fsReadBuf c rsi kbuf (.ok data) = _ := congrArg (Option.map _) hcopy
  rw [hret]
  obtain ⟨hnone, hnone'⟩ | ⟨m, m', hput, hput', hout, hin⟩ := hshow.put hend (ho₂ hend)
  · rw [hnone, hnone']
    exact .fault ⟨0, fun _ _ => rfl⟩
  · rw [hput, hput']
    exact .done (.const _) ((h₂.setUser hout hin).kfree (hb₂.setVmm m))

theorem Mirrors.sysFsRead (h : Mirrors roots user view addr k w) (hc : c ∈ roots)
    (hp : k.Proper user c (.read rdi rsi rdx r10)) (hexcuse : excuse VfsErr.nospace.code) :
    Answers (Reflects roots user view) w excuse (fun fuel => k.sysFsRead fuel c rdi rsi rdx r10)
      (w.read (view c) rdi rsi rdx r10) := by
  obtain ⟨hpath, hbuf, hseen⟩ := hp
  apply h.onPath hc hpath
  intro path hres
  by_cases hmax : syscallMaxBuf < rdx.toNat
  · simp only [if_pos hmax]
    exact .done (.const _) ⟨_, h⟩
  by_cases h0 : rdx = 0
  · simp only [if_neg hmax, if_pos h0]
    exact .done (.const _) ⟨_, h⟩
  simp only [if_neg hmax, if_neg h0]
  apply answers_withBuffer h.serving.files.heap hexcuse
  intro kbuf hp hk
  obtain ⟨fuel, hkf⟩ := hk.exists_fuel
  obtain ⟨h₁, hb⟩ := h.kmalloc hkf
  by_cases hnull : kbuf = 0
  · rw [if_pos hnull]
    exact ⟨_, h₁⟩
  rw [if_neg hnull]
  obtain ⟨f, hb⟩ := hb hnull
  have hread : Returns (fun fuel => (k.setHeap hp).ramfs.vfsRead fuel path rdx.toNat r10.toNat)
      (w.files.vfsRead path rdx.toNat r10.toNat) := by
    rw [← h₁.files]
    unfold Ramfs.vfsRead FileMap.vfsRead
    cases vfsPathOk path with
    | false => exact .const _
    | true =>
      apply Ramfs.ramfsRead_returns h₁.serving.files.toInv
      exact (Nat.le_of_not_lt hmax).trans (by decide)
  apply Answers.bind hread
  cases hdata : w.files.vfsRead path rdx.toNat r10.toNat with
  | error e => exact .done (.const _) (h₁.kfree hb)
  | ok data =>
    have hlen := FileMap.vfsRead_length hdata
    apply h₁.fsReadBuf hb ((h.shows c hc).seen (h₁.shows c hc) (hseen kbuf hp hk hnull)) hc hlen
    intro hlt
    exact (h.shows c hc).ownedBuf (h₁.shows c hc) hlt fun i hi => hbuf i (by omega)

theorem Mirrors.store (h : Mirrors roots user view addr k w) (hc : c ∈ roots) {virt : Word}
    {b : BitVec 8} (hp : k.Proper user c (.store virt b)) :
    Answers (Reflects roots user view) w excuse (fun fuel => k.runFile fuel c (.store virt b))
      (w.store (view c) virt b) := by
  obtain ⟨hvirt, -, ho⟩ := hp
  unfold Kernel.runFile FileWorld.store
  obtain ⟨hnone, hnone'⟩ | ⟨m, m', hput, hput', hout, hin⟩ :=
    (h.shows c hc).put (l := [b]) hvirt ho.buf
  · simp only [hnone, hnone']
    exact .fault ⟨0, fun _ _ => rfl⟩
  · simp only [hput, hput']
    exact .done (.const _) ⟨_, h.setUser hout hin⟩

/-- Every call, and a store. -/
theorem Mirrors.runFile (h : Mirrors roots user view addr k w) (hc : c ∈ roots) {op : FileOp}
    (hp : k.Proper user c op) :
    Answers (Reflects roots user view) w op.Excuse (fun fuel => k.runFile fuel c op)
      (w.run (view c) op) := by
  cases op with
  | create rdi rsi => exact h.sysFsCreate hc hp rsi rfl
  | write rdi rsi rdx r10 => exact h.sysFsWrite hc hp rfl
  | read rdi rsi rdx r10 => exact h.sysFsRead hc hp rfl
  | size rdi => exact h.sysFsSize hc hp
  | store virt b => exact h.store hc hp

theorem Mirrors.step (h : Mirrors roots user view addr k w) {e : FileEvent} {k' : Kernel}
    (hstep : (fileSystem roots user).step k e k') :
    ∃ w', (FileWorld.system view).step w e w' ∧ Reflects roots user view k' w' := by
  obtain ⟨hc, hp, hret⟩ := hstep
  obtain ⟨w', hw', h'⟩ | ⟨hexcuse, h'⟩ := (h.runFile hc hp).of_returns hret
  · exact ⟨w', Or.inl hw', h'⟩
  · exact ⟨w, Or.inr ⟨hexcuse, rfl⟩, h'⟩

end

/-! ## A program with one page -/

end Kernel

end Nyvela
