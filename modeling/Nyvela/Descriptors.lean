import Mathlib.Logic.Function.Basic
import Nyvela.Lib.BitFields

/-!
# Descriptors (`encode_gdt_entry` in `stage_1.s`, `gdt.c`, `idt.c`)

The processor reads the tables of segments and of gates, in which addresses and small fields are
scattered over bytes. Next to each encoder stands what the processor makes of its bytes.
-/

namespace Nyvela

open BitFields

/-! ## Segments -/

/-- A descriptor of eight bytes, as the processor reads it. -/
structure Segment where
  base : BitVec 32
  limit : BitVec 20
  access : BitVec 8
  flags : BitVec 4
deriving DecidableEq

namespace Segment

def decode (b : ℕ → BitVec 8) : Segment where
  base := b 7 ++ b 4 ++ b 3 ++ b 2
  limit := (b 6).extractLsb' 0 4 ++ b 1 ++ b 0
  access := b 5
  flags := (b 6).extractLsb' 4 4

end Segment

/-- The offsets wrap in sixteen bits. -/
def encodeGdtEntry (edi esi : BitVec 32) (ch cl : BitVec 8) (bx : BitVec 16)
    (mem : BitVec 16 → BitVec 8) : BitVec 16 → BitVec 8 :=
  let al (eax : BitVec 32) : BitVec 8 := eax.setWidth 8
  let eax := esi
  let mem := Function.update mem bx (al eax)
  let eax := eax >>> 8
  let mem := Function.update mem (bx + 1) (al eax)
  let eax := eax >>> 8
  let eax := eax &&& 0x0F
  let mem := Function.update mem (bx + 6) (al eax)
  let eax := edi
  let mem := Function.update mem (bx + 2) (al eax)
  let eax := eax >>> 8
  let mem := Function.update mem (bx + 3) (al eax)
  let eax := eax >>> 8
  let mem := Function.update mem (bx + 4) (al eax)
  let eax := eax >>> 8
  let mem := Function.update mem (bx + 7) (al eax)
  let mem := Function.update mem (bx + 5) ch
  let cl := cl <<< 4
  Function.update mem (bx + 6) (mem (bx + 6) ||| cl)

/-- The bytes from `bx` on. -/
def bytesAt (mem : BitVec 16 → BitVec 8) (bx : BitVec 16) (k : ℕ) : BitVec 8 :=
  mem (bx + BitVec.ofNat 16 k)

section

variable (edi esi : BitVec 32) (ch cl : BitVec 8) (bx : BitVec 16) (mem : BitVec 16 → BitVec 8)

/-- The eight bytes. -/
theorem bytesAt_encodeGdtEntry :
    let b := bytesAt (encodeGdtEntry edi esi ch cl bx mem) bx
    (b 0 = esi.extractLsb' 0 8 ∧ b 1 = esi.extractLsb' 8 8 ∧
      b 6 = (esi.extractLsb' 16 4).setWidth 8 ||| cl <<< 4) ∧
    (b 2 = edi.extractLsb' 0 8 ∧ b 3 = edi.extractLsb' 8 8 ∧ b 4 = edi.extractLsb' 16 8 ∧
      b 7 = edi.extractLsb' 24 8) ∧
    b 5 = ch := by
  have hnibble : (esi >>> 16 &&& 15#32).setWidth 8 = (esi.extractLsb' 16 4).setWidth 8 :=
    setWidth_shift_and_ones esi 16 4 8
  simp [bytesAt, encodeGdtEntry, -BitVec.setWidth_and, setWidth_ushiftRight, hnibble,
    ← setWidth_eq_extractLsb']

/-- Nothing but the eight bytes is written. -/
theorem encodeGdtEntry_frame {a : BitVec 16} (h : ∀ k < 8, a ≠ bx + BitVec.ofNat 16 k) :
    encodeGdtEntry edi esi ch cl bx mem a = mem a := by
  have hk : ∀ j : BitVec 16, j.toNat < 8 → a ≠ bx + j := by
    intro j hj
    simpa using h j.toNat hj
  have h0 : a ≠ bx := by simpa using hk 0 (by decide)
  simp only [encodeGdtEntry, Function.update_apply]
  rw [if_neg (hk 6 (by decide)), if_neg (hk 5 (by decide)), if_neg (hk 7 (by decide)),
    if_neg (hk 4 (by decide)), if_neg (hk 3 (by decide)), if_neg (hk 2 (by decide)),
    if_neg (hk 6 (by decide)), if_neg (hk 1 (by decide)), if_neg h0]

end

/-- The byte that the limit and the flags share. -/
theorem shared_byte : ∀ flags high : BitVec 4,
    (high.setWidth 8 ||| flags.setWidth 8 <<< 4).extractLsb' 0 4 = high ∧
      (high.setWidth 8 ||| flags.setWidth 8 <<< 4).extractLsb' 4 4 = flags := by
  decide

theorem limit_of_setWidth (limit : BitVec 20) : (limit.setWidth 32).extractLsb' 0 20 = limit := by
  rw [← setWidth_eq_extractLsb']
  simp

theorem decode_encodeGdtEntry (s : Segment) (bx : BitVec 16) (mem : BitVec 16 → BitVec 8) :
    Segment.decode (bytesAt
      (encodeGdtEntry s.base (s.limit.setWidth 32) s.access (s.flags.setWidth 8) bx mem) bx) = s := by
  obtain ⟨⟨h0, h1, h6⟩, ⟨h2, h3, h4, h7⟩, h5⟩ := bytesAt_encodeGdtEntry s.base
    (s.limit.setWidth 32) s.access (s.flags.setWidth 8) bx mem
  obtain ⟨hhigh, hflags⟩ := shared_byte s.flags ((s.limit.setWidth 32).extractLsb' 16 4)
  simp only [Segment.decode, h0, h1, h2, h3, h4, h5, h6, h7, hhigh, hflags, join_32, join_20,
    limit_of_setWidth]

/-! ## The table of `stage_1.s` -/

/-- The descriptors one after the other. -/
def encodeSegments (mem : BitVec 16 → BitVec 8) (gdt : BitVec 16) : List Segment → BitVec 16 → BitVec 8
  | [] => mem
  | s :: segments =>
    encodeSegments
      (encodeGdtEntry s.base (s.limit.setWidth 32) s.access (s.flags.setWidth 8) gdt mem) (gdt + 8)
      segments

def stage1Gdt : List Segment :=
  [⟨0, 0, 0, 0⟩, ⟨0, 0xFFFFF, 0x9A, 0xC⟩, ⟨0, 0xFFFFF, 0x92, 0xC⟩, ⟨0, 0xFFFFF, 0xFA, 0xA⟩,
    ⟨0, 0xFFFFF, 0xF2, 0xC⟩, ⟨0, 0xFFFFF, 0x9A, 0xA⟩]

theorem encodeSegments_frame {segments : List Segment} {mem : BitVec 16 → BitVec 8}
    {gdt a : BitVec 16} (h : ∀ k < 8 * segments.length, a ≠ gdt + BitVec.ofNat 16 k) :
    encodeSegments mem gdt segments a = mem a := by
  induction segments generalizing mem gdt with
  | nil => rfl
  | cons s segments ih =>
    rw [List.length_cons] at h
    rw [encodeSegments, ih fun k hk => ?_]
    · exact encodeGdtEntry_frame _ _ _ _ _ _ fun k hk => h k (by omega)
    · rw [BitVec.add_assoc, show 8 + BitVec.ofNat 16 k = BitVec.ofNat 16 (8 + k) from
        (BitVec.ofNat_add 8 k).symm]
      exact h (8 + k) (by omega)

/-- The processor reads eight bytes. -/
theorem Segment.decode_congr {b b' : ℕ → BitVec 8} (h : ∀ k < 8, b k = b' k) :
    Segment.decode b = Segment.decode b' := by
  simp only [Segment.decode, h 0 (by decide), h 1 (by decide), h 2 (by decide), h 3 (by decide),
    h 4 (by decide), h 5 (by decide), h 6 (by decide), h 7 (by decide)]

/-- A table that fits into the sixteen bits is read entry by entry: a later entry does not write
into an earlier one. -/
theorem decode_encodeSegments {segments : List Segment} (h : 8 * segments.length ≤ 2 ^ 16)
    (mem : BitVec 16 → BitVec 8) (gdt : BitVec 16) {i : ℕ} (hi : i < segments.length) :
    Segment.decode (bytesAt (encodeSegments mem gdt segments) (gdt + BitVec.ofNat 16 (8 * i))) =
      segments[i] := by
  induction segments generalizing mem gdt i with
  | nil => exact absurd hi (Nat.not_lt_zero i)
  | cons s segments ih =>
    rw [List.length_cons] at h hi
    cases i with
    | zero =>
      refine Eq.trans (Segment.decode_congr fun k hk => ?_) (decode_encodeGdtEntry s gdt mem)
      have hgdt : gdt + BitVec.ofNat 16 (8 * 0) = gdt := BitVec.add_zero gdt
      rw [hgdt, bytesAt, encodeSegments]
      refine encodeSegments_frame fun j hj heq => ?_
      rw [BitVec.add_assoc, BitVec.add_right_inj] at heq
      have hnat := congrArg BitVec.toNat heq
      rw [BitVec.toNat_add, BitVec.toNat_ofNat, BitVec.toNat_ofNat,
        show (8 : BitVec 16).toNat = 8 from rfl] at hnat
      omega
    | succ i =>
      have hgdt : gdt + BitVec.ofNat 16 (8 * (i + 1)) = gdt + 8 + BitVec.ofNat 16 (8 * i) := by
        rw [BitVec.add_assoc, show 8 + BitVec.ofNat 16 (8 * i) = BitVec.ofNat 16 (8 + 8 * i) from
          (BitVec.ofNat_add 8 (8 * i)).symm, Nat.mul_succ, Nat.add_comm]
      rw [hgdt]
      exact ih (by omega) _ _ (by omega)

theorem decode_stage1Gdt (mem : BitVec 16 → BitVec 8) (gdt : BitVec 16) {i : ℕ}
    (hi : i < stage1Gdt.length) :
    Segment.decode (bytesAt (encodeSegments mem gdt stage1Gdt) (gdt + BitVec.ofNat 16 (8 * i))) =
      stage1Gdt[i] :=
  decode_encodeSegments (by decide) mem gdt hi

/-! ## The task state segment -/

/-- A descriptor of sixteen bytes. -/
structure SystemSegment where
  base : BitVec 64
  limit : BitVec 20
  type : BitVec 4
  s : BitVec 1
  dpl : BitVec 2
  p : BitVec 1
  flags : BitVec 4
  reserved : BitVec 32
deriving DecidableEq

def SystemSegment.decode (b : ℕ → BitVec 8) : SystemSegment where
  base := b 11 ++ b 10 ++ b 9 ++ b 8 ++ b 7 ++ b 4 ++ b 3 ++ b 2
  limit := (b 6).extractLsb' 0 4 ++ b 1 ++ b 0
  type := (b 5).extractLsb' 0 4
  s := (b 5).extractLsb' 4 1
  dpl := (b 5).extractLsb' 5 2
  p := (b 5).extractLsb' 7 1
  flags := (b 6).extractLsb' 4 4
  reserved := b 15 ++ b 14 ++ b 13 ++ b 12

def encodeTss (base : BitVec 64) (limit : BitVec 32) (entry : ℕ → BitVec 8) : ℕ → BitVec 8 :=
  let entry := Function.update entry 0 ((limit &&& 0xFF).setWidth 8)
  let entry := Function.update entry 1 ((limit >>> 8 &&& 0xFF).setWidth 8)
  let entry := Function.update entry 2 ((base &&& 0xFF).setWidth 8)
  let entry := Function.update entry 3 ((base >>> 8 &&& 0xFF).setWidth 8)
  let entry := Function.update entry 4 ((base >>> 16 &&& 0xFF).setWidth 8)
  let entry := Function.update entry 5 0x89
  let entry := Function.update entry 6 ((limit >>> 16 &&& 0x0F).setWidth 8)
  let entry := Function.update entry 7 ((base >>> 24 &&& 0xFF).setWidth 8)
  let entry := Function.update entry 8 ((base >>> 32 &&& 0xFF).setWidth 8)
  let entry := Function.update entry 9 ((base >>> 40 &&& 0xFF).setWidth 8)
  let entry := Function.update entry 10 ((base >>> 48 &&& 0xFF).setWidth 8)
  let entry := Function.update entry 11 ((base >>> 56 &&& 0xFF).setWidth 8)
  let entry := Function.update entry 12 0
  let entry := Function.update entry 13 0
  let entry := Function.update entry 14 0
  Function.update entry 15 0

/-- A byte of a word, by shift and mask. -/
theorem byte_of_word {w : ℕ} (x : BitVec w) (start : ℕ) :
    (x >>> start &&& 255#w).setWidth 8 = x.extractLsb' start 8 := by
  rw [show 255#w = BitVec.ofNat w (2 ^ 8 - 1) from rfl, setWidth_shift_and_ones]
  simp

theorem low_byte_of_word {w : ℕ} (x : BitVec w) : (x &&& 255#w).setWidth 8 = x.extractLsb' 0 8 := by
  rw [← byte_of_word, BitVec.ushiftRight_zero]

/-- The sixteen bytes. -/
theorem encodeTss_bytes (base : BitVec 64) (limit : BitVec 32) (entry : ℕ → BitVec 8) :
    let b := encodeTss base limit entry
    (b 0 = limit.extractLsb' 0 8 ∧ b 1 = limit.extractLsb' 8 8 ∧
      b 6 = (limit.extractLsb' 16 4).setWidth 8) ∧
    (b 2 = base.extractLsb' 0 8 ∧ b 3 = base.extractLsb' 8 8 ∧ b 4 = base.extractLsb' 16 8 ∧
      b 7 = base.extractLsb' 24 8 ∧ b 8 = base.extractLsb' 32 8 ∧ b 9 = base.extractLsb' 40 8 ∧
      b 10 = base.extractLsb' 48 8 ∧ b 11 = base.extractLsb' 56 8) ∧
    b 5 = 0x89 ∧ (b 12 = 0 ∧ b 13 = 0 ∧ b 14 = 0 ∧ b 15 = 0) := by
  have hnibble : (limit >>> 16 &&& 15#32).setWidth 8 = (limit.extractLsb' 16 4).setWidth 8 :=
    setWidth_shift_and_ones limit 16 4 8
  simp [encodeTss, -BitVec.setWidth_and, byte_of_word, low_byte_of_word base,
    low_byte_of_word limit, hnibble]

theorem lone_nibble : ∀ high : BitVec 4,
    (high.setWidth 8).extractLsb' 0 4 = high ∧ (high.setWidth 8).extractLsb' 4 4 = 0#4 := by
  decide

theorem decode_encodeTss (base : BitVec 64) (limit : BitVec 20) (entry : ℕ → BitVec 8) :
    SystemSegment.decode (encodeTss base (limit.setWidth 32) entry) =
      ⟨base, limit, 9, 0, 0, 1, 0, 0⟩ := by
  obtain ⟨⟨h0, h1, h6⟩, ⟨h2, h3, h4, h7, h8, h9, h10, h11⟩, h5, h12, h13, h14, h15⟩ :=
    encodeTss_bytes base (limit.setWidth 32) entry
  obtain ⟨hhigh, hflags⟩ := lone_nibble ((limit.setWidth 32).extractLsb' 16 4)
  simp only [SystemSegment.decode, h0, h1, h2, h3, h4, h5, h6, h7, h8, h9, h10, h11, h12, h13, h14,
    h15, hhigh, hflags, join_64, join_20, limit_of_setWidth]
  rfl

/-- **Descriptors.** What the encoders write is read as what was asked for. -/
theorem descriptors_round_trip :
    (∀ (s : Segment) (bx : BitVec 16) (mem : BitVec 16 → BitVec 8),
      let mem' := encodeGdtEntry s.base (s.limit.setWidth 32) s.access (s.flags.setWidth 8) bx mem
      Segment.decode (bytesAt mem' bx) = s ∧
        ∀ a, (∀ k < 8, a ≠ bx + BitVec.ofNat 16 k) → mem' a = mem a) ∧
    ∀ (base : BitVec 64) (limit : BitVec 20) (entry : ℕ → BitVec 8),
      SystemSegment.decode (encodeTss base (limit.setWidth 32) entry) =
        ⟨base, limit, 9, 0, 0, 1, 0, 0⟩ :=
  ⟨fun s bx mem => ⟨decode_encodeGdtEntry s bx mem, fun _ ha => encodeGdtEntry_frame _ _ _ _ _ _ ha⟩,
    decode_encodeTss⟩

/-! ## Gates -/

/-- `idt_entry_t`. -/
structure IdtEntry where
  offsetLow : BitVec 16
  selector : BitVec 16
  istFlags : BitVec 8
  typeAttr : BitVec 8
  offsetMid : BitVec 16
  offsetHigh : BitVec 32
  zero : BitVec 32

/-- The structure is packed, and its words are stored with the lowest byte first. -/
def IdtEntry.bytes (e : IdtEntry) : ℕ → BitVec 8
  | 0 => e.offsetLow.extractLsb' 0 8
  | 1 => e.offsetLow.extractLsb' 8 8
  | 2 => e.selector.extractLsb' 0 8
  | 3 => e.selector.extractLsb' 8 8
  | 4 => e.istFlags
  | 5 => e.typeAttr
  | 6 => e.offsetMid.extractLsb' 0 8
  | 7 => e.offsetMid.extractLsb' 8 8
  | 8 => e.offsetHigh.extractLsb' 0 8
  | 9 => e.offsetHigh.extractLsb' 8 8
  | 10 => e.offsetHigh.extractLsb' 16 8
  | 11 => e.offsetHigh.extractLsb' 24 8
  | 12 => e.zero.extractLsb' 0 8
  | 13 => e.zero.extractLsb' 8 8
  | 14 => e.zero.extractLsb' 16 8
  | 15 => e.zero.extractLsb' 24 8
  | _ => 0

abbrev Idt := Fin 256 → IdtEntry

namespace Idt

def idtSetGateIst (idt : Idt) (vector : Fin 256) (handler : BitVec 64) (ist : BitVec 8) : Idt :=
  let addr := handler
  Function.update idt vector
    { offsetLow := (addr &&& 0xFFFF).setWidth 16
      selector := 0x28
      istFlags := (ist &&& 7) <<< 5
      typeAttr := 0x8E
      offsetMid := (addr >>> 16 &&& 0xFFFF).setWidth 16
      offsetHigh := (addr >>> 32 &&& 0xFFFFFFFF).setWidth 32
      zero := 0 }

def idtSetGate (idt : Idt) (vector : Fin 256) (handler : BitVec 64) : Idt :=
  idt.idtSetGateIst vector handler 0

def idtSetGateUser (idt : Idt) (vector : Fin 256) (handler : BitVec 64) : Idt :=
  let addr := handler
  Function.update idt vector
    { offsetLow := (addr &&& 0xFFFF).setWidth 16
      selector := 0x28
      istFlags := 0
      typeAttr := 0xEE
      offsetMid := (addr >>> 16 &&& 0xFFFF).setWidth 16
      offsetHigh := (addr >>> 32 &&& 0xFFFFFFFF).setWidth 32
      zero := 0 }

end Idt

/-- A gate as the processor reads it. -/
structure Gate where
  offset : BitVec 64
  selector : BitVec 16
  ist : BitVec 3
  reserved : BitVec 5
  type : BitVec 4
  s : BitVec 1
  dpl : BitVec 2
  p : BitVec 1
deriving DecidableEq

namespace Gate

def decode (b : ℕ → BitVec 8) : Gate where
  offset := b 11 ++ b 10 ++ b 9 ++ b 8 ++ b 7 ++ b 6 ++ b 1 ++ b 0
  selector := b 3 ++ b 2
  ist := (b 4).extractLsb' 0 3
  reserved := (b 4).extractLsb' 3 5
  type := (b 5).extractLsb' 0 4
  s := (b 5).extractLsb' 4 1
  dpl := (b 5).extractLsb' 5 2
  p := (b 5).extractLsb' 7 1

/-- A present interrupt gate of the 64-bit code segment. -/
def interrupt (handler : BitVec 64) (ist : BitVec 3) (dpl : BitVec 2) : Gate :=
  ⟨handler, 0x28, ist, 0, 0xE, 0, dpl, 1⟩

end Gate

/-- The three parts of the address, by their bytes. -/
theorem join_offset (addr : BitVec 64) :
    let high := (addr >>> 32 &&& 0xFFFFFFFF).setWidth 32
    let mid := (addr >>> 16 &&& 0xFFFF).setWidth 16
    let low := (addr &&& 0xFFFF).setWidth 16
    high.extractLsb' 24 8 ++ high.extractLsb' 16 8 ++ high.extractLsb' 8 8 ++ high.extractLsb' 0 8 ++
      mid.extractLsb' 8 8 ++ mid.extractLsb' 0 8 ++ low.extractLsb' 8 8 ++ low.extractLsb' 0 8 =
      addr := by
  have hhigh : (addr >>> 32 &&& 0xFFFFFFFF).setWidth 32 = addr.extractLsb' 32 32 :=
    (setWidth_shift_and_ones addr 32 32 32).trans (BitVec.setWidth_eq _)
  have hmid : (addr >>> 16 &&& 0xFFFF).setWidth 16 = addr.extractLsb' 16 16 :=
    (setWidth_shift_and_ones addr 16 16 16).trans (BitVec.setWidth_eq _)
  have hlow : (addr &&& 0xFFFF).setWidth 16 = addr.extractLsb' 0 16 :=
    (setWidth_shift_and_ones addr 0 16 16).trans (BitVec.setWidth_eq _)
  simp only [hhigh, hmid, hlow]
  simp (disch := decide) only [extractLsb'_extractLsb', Nat.reduceAdd, join_64]

/-- The index is in the bits that are to be zero. -/
theorem ist_flags : ∀ ist : BitVec 8, (((ist &&& 7) <<< 5).extractLsb' 0 3 = 0#3) ∧
    ((ist &&& 7) <<< 5).extractLsb' 3 5 = (ist.setWidth 5 <<< 2 : BitVec 5) := by
  decide

theorem decode_idtSetGateIst (idt : Idt) (vector : Fin 256) (handler : BitVec 64) (ist : BitVec 8) :
    Gate.decode (idt.idtSetGateIst vector handler ist vector).bytes =
      { Gate.interrupt handler 0 0 with reserved := ist.setWidth 5 <<< 2 } := by
  obtain ⟨hist, hreserved⟩ := ist_flags ist
  rw [Idt.idtSetGateIst, Function.update_self]
  simp only [Gate.decode, IdtEntry.bytes, hist, hreserved, join_offset]
  rfl

theorem decode_idtSetGateUser (idt : Idt) (vector : Fin 256) (handler : BitVec 64) :
    Gate.decode (idt.idtSetGateUser vector handler vector).bytes =
      Gate.interrupt handler 0 3 := by
  rw [Idt.idtSetGateUser, Function.update_self]
  simp only [Gate.decode, IdtEntry.bytes, join_offset]
  rfl

namespace Idt

theorem idtSetGateIst_of_ne (idt : Idt) {vector v : Fin 256} (hv : v ≠ vector)
    (handler : BitVec 64) (ist : BitVec 8) : idt.idtSetGateIst vector handler ist v = idt v :=
  Function.update_of_ne hv _ _

theorem idtSetGateUser_of_ne (idt : Idt) {vector v : Fin 256} (hv : v ≠ vector)
    (handler : BitVec 64) : idt.idtSetGateUser vector handler v = idt v :=
  Function.update_of_ne hv _ _

/-- Both calls for a vector: the gates are read as they were asked for, and the other vectors keep
theirs. -/
def GatesDecode (idt : Idt) (vector : Fin 256) (handler : BitVec 64) (ist : BitVec 8) : Prop :=
  Gate.decode (idt.idtSetGateIst vector handler ist vector).bytes =
      Gate.interrupt handler (ist.setWidth 3) 0 ∧
    Gate.decode (idt.idtSetGateUser vector handler vector).bytes = Gate.interrupt handler 0 3 ∧
    ∀ v ≠ vector, idt.idtSetGateIst vector handler ist v = idt v ∧
      idt.idtSetGateUser vector handler v = idt v

/-- **Gates.** They are read as asked for without a stack of their own, and only then. -/
theorem gates_decode_iff (idt : Idt) (vector : Fin 256) (handler : BitVec 64) (ist : BitVec 8)
    (h : ist < 8) : idt.GatesDecode vector handler ist ↔ ist = 0 := by
  have hzero : ∀ ist : BitVec 8, ist < 8 → ist.setWidth 5 <<< 2 = 0#5 → ist = 0 := by decide
  rw [GatesDecode, decode_idtSetGateIst]
  constructor
  · rintro ⟨hgate, -, -⟩
    exact hzero ist h (congrArg Gate.reserved hgate)
  · rintro rfl
    exact ⟨rfl, decode_idtSetGateUser idt vector handler, fun v hv =>
      ⟨idtSetGateIst_of_ne idt hv handler 0, idtSetGateUser_of_ne idt hv handler⟩⟩

theorem gates_decode_iff_divide :
    GatesDecode (fun _ => ⟨0, 0, 0, 0, 0, 0, 0⟩) 0x00 0xFFFF800000123456 0 ↔ (0 : BitVec 8) = 0 :=
  gates_decode_iff _ _ _ _ (by decide)

/-- The gate for page faults asks for the first of the stacks. -/
theorem page_fault_gate_without_stack :
    ¬GatesDecode (fun _ => ⟨0, 0, 0, 0, 0, 0, 0⟩) 0x0E 0xFFFF800000123456 1 := by
  rintro ⟨hgate, -⟩
  rw [decode_idtSetGateIst] at hgate
  exact absurd hgate (by decide)

end Idt

/-- The entry points of `isr.s`. -/
structure Isrs where
  isrDe : BitVec 64
  isrPf : BitVec 64
  isrGp : BitVec 64
  isrUd : BitVec 64
  isrDf : BitVec 64
  isrLapicTimer : BitVec 64
  isrPit : BitVec 64
  isrKbd : BitVec 64
  isrSyscall : BitVec 64

namespace Idt

def kidtInit (idt : Idt) (isr : Isrs) : Idt :=
  let idt := idt.idtSetGate 0x00 isr.isrDe
  let idt := idt.idtSetGate 0x06 isr.isrUd
  let idt := idt.idtSetGateIst 0x08 isr.isrDf 2
  let idt := idt.idtSetGateIst 0x0E isr.isrPf 1
  let idt := idt.idtSetGate 0x0D isr.isrGp
  let idt := idt.idtSetGate 0x20 isr.isrPit
  let idt := idt.idtSetGate 0x21 isr.isrKbd
  let idt := idt.idtSetGate 0x30 isr.isrLapicTimer
  idt.idtSetGateUser 0x80 isr.isrSyscall

/-- The gates at boot: the two that ask for a stack of their own have none, and have bits that
are to be zero. -/
theorem kidtInit_gates (idt : Idt) (isr : Isrs) :
    let gate v := Gate.decode (idt.kidtInit isr v).bytes
    (gate 0x0E = { Gate.interrupt isr.isrPf 0 0 with reserved := 4 } ∧
      gate 0x08 = { Gate.interrupt isr.isrDf 0 0 with reserved := 8 }) ∧
    gate 0x00 = Gate.interrupt isr.isrDe 0 0 ∧ gate 0x06 = Gate.interrupt isr.isrUd 0 0 ∧
    gate 0x0D = Gate.interrupt isr.isrGp 0 0 ∧ gate 0x20 = Gate.interrupt isr.isrPit 0 0 ∧
    gate 0x21 = Gate.interrupt isr.isrKbd 0 0 ∧
    gate 0x30 = Gate.interrupt isr.isrLapicTimer 0 0 ∧
    gate 0x80 = Gate.interrupt isr.isrSyscall 0 3 := by
  simp (disch := decide) only [kidtInit, idtSetGate, idtSetGateUser_of_ne, idtSetGateIst_of_ne,
    decode_idtSetGateIst, decode_idtSetGateUser]
  exact ⟨⟨rfl, rfl⟩, rfl, rfl, rfl, rfl, rfl, rfl, trivial⟩

end Idt

end Nyvela
