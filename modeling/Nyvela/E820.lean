import Nyvela.Lib.BitFields
import Nyvela.Lib.PageMemory
import Nyvela.Vmm

/-!
# The memory map that `stage_1` collects

`stage_1` asks the firmware for one region after another (`int 0x15` with `eax = 0xE820`) and
keeps the good answers in a table at `0xD000`, of which `kpmm_init` and `kis_normal_ram` read the
entries.
-/

namespace Nyvela.E820

/-- What the firmware returns to one call: registers, the carry flag and the bytes at `es:di`. -/
structure Response where
  eax : BitVec 32
  ebx : BitVec 32
  ecx : BitVec 32
  carry : Bool
  data : List (BitVec 8)
  ecx_eq : ecx = 0 ∨ ecx = 20 ∨ ecx = 24
  data_length : data.length = ecx.toNat

/-- The registers that live across the calls (`es` is 0), and memory. -/
structure Collector where
  ebx : BitVec 32
  di : BitVec 16
  bp : BitVec 16
  mem : Memory

/-- What comes of the responses that the firmware gives: `waiting` is the next call. -/
inductive Outcome
  | unsupported
  | failed
  | waiting (mem : Memory)
  | done (mem : Memory)

/-- "SMAP" -/
def smap : BitVec 32 := 0x534D4150

namespace Collector

def init (m : Memory) : Collector where
  ebx := 0
  di := 0xD000
  bp := 0
  mem := m

/-- `mov [es:di + 20], dword 1` -/
def request (s : Collector) : Collector :=
  { s with mem := s.mem.write (s.di + 20).toNat [1, 0, 0, 0] }

def int15 (r : Response) (s : Collector) : Collector :=
  { s with ebx := r.ebx, mem := s.mem.write s.di.toNat r.data }

/-- `.bios_mmap_jmpin` and `.bios_mmap_notext` -/
def biosMmapJmpin (r : Response) (s : Collector) : Collector :=
  if r.ecx.setWidth 16 = 0#16 then s
  else if 20#8 < r.ecx.setWidth 8 ∧ s.mem (s.di + 20).toNat &&& 1 = 0 then s
  else if s.mem.read32 (s.di + 8).toNat ||| s.mem.read32 (s.di + 12).toNat = 0 then s
  else { s with bp := s.bp + 1, di := s.di + 24 }

/-- `.e820f` -/
def e820f (s : Collector) : Memory :=
  s.mem.write 0xCFFE [s.bp.setWidth 8, (s.bp >>> 8).setWidth 8]

/-- `.e820_loop`, with `.bios_mmap_skipent` at its end -/
def e820Loop : List Response → Collector → Outcome
  | [], s => if 512 ≤ s.bp then .done s.e820f else .waiting s.request.mem
  | r :: rs, s =>
    if 512 ≤ s.bp then .done s.e820f
    else
      let s := s.request.int15 r
      if r.carry then .done s.e820f
      else
        let s := s.biosMmapJmpin r
        if s.ebx = 0 then .done s.e820f else e820Loop rs s

end Collector

open Collector in
/-- The loop is entered behind the first call, whose answer is checked more closely. -/
def collect (m : Memory) : List Response → Outcome
  | [] => .waiting (init m).request.mem
  | r :: rs =>
    let s := (init m).request.int15 r
    if r.carry then .unsupported
    else if r.eax ≠ smap then .failed
    else if s.ebx = 0 then .failed
    else
      let s := s.biosMmapJmpin r
      if s.ebx = 0 then .done s.e820f else e820Loop rs s

/-! ## What the table is meant to hold -/

namespace Response

def bytes (r : Response) : Memory := fun i => r.data.getD i 0

def regionLength (r : Response) : BitVec 64 := r.bytes.read64 8

/-- Bit 0 of the extended attributes, which only answers longer than 20 bytes have. -/
def Valid (r : Response) : Prop := 20 < r.data.length → r.bytes 20 &&& 1 ≠ 0

instance (r : Response) : Decidable r.Valid := inferInstanceAs (Decidable (_ → _))

def good (r : Response) : Bool := r.ecx ≠ 0 ∧ r.regionLength ≠ 0 ∧ r.Valid

/-- An answer of 20 bytes leaves the attributes that `stage_1` put there. -/
def slot (r : Response) : List (BitVec 8) := (r.data ++ [1, 0, 0, 0]).take 24

/-- The entry as the kernel's `e820_entry_t` has it. -/
def entry (r : Response) : E820Entry where
  baseAddr := (r.bytes.read64 0).toNat
  lengthInBytes := r.regionLength.toNat
  usable := r.bytes.read32 16 = 1

end Response

/-- The answers up to the end of the list: one with the carry flag is not part of it, one with
`ebx = 0` is the last. -/
def readUp : List Response → List Response
  | [] => []
  | r :: rs => if r.carry then [] else if r.ebx = 0 then [r] else r :: readUp rs

/-- The list has an end. -/
def Ended (rs : List Response) : Prop := ∃ r ∈ rs, r.carry = true ∨ r.ebx = 0

def goodOnes (rs : List Response) : List Response := (readUp rs).filter Response.good

/-- The entries as `kpmm_init` reads them: `MMAP_COUNT`, `MMAP_ENTRIES_MAX` and `MMAP_ENTRIES`. -/
def mmapEntries (m : Memory) : List E820Entry :=
  (List.range (min (m 0xCFFF ++ m 0xCFFE).toNat 512)).map fun i =>
    { baseAddr := (m.read64 (0xD000 + 24 * i)).toNat
      lengthInBytes := (m.read64 (0xD000 + 24 * i + 8)).toNat
      usable := m.read32 (0xD000 + 24 * i + 16) = 1 }

/-! ## One answer -/

section Answer

variable {r : Response} {s : Collector} {m : Memory}

theorem Response.length_le (r : Response) : r.data.length ≤ 24 := by
  rw [r.data_length]
  obtain h | h | h := r.ecx_eq <;> rw [h] <;> decide

theorem Response.length_cases (h : r.ecx ≠ 0) : r.data.length = 20 ∨ r.data.length = 24 := by
  rw [r.data_length]
  obtain h₀ | h₀ | h₀ := r.ecx_eq
  · exact absurd h₀ h
  · exact .inl (by rw [h₀]; rfl)
  · exact .inr (by rw [h₀]; rfl)

/-- Memory after a call that finds `es:di` at `d`. -/
def answered (m : Memory) (r : Response) (d : ℕ) : Memory :=
  (m.write (d + 20) [1, 0, 0, 0]).write d r.data

theorem answered_outside {d a : ℕ} (h : a < d ∨ d + 24 ≤ a) : answered m r d a = m a := by
  have hlen := r.length_le
  rw [answered, Memory.write_outside _ _ _ (by omega), Memory.write_outside]
  simp only [List.length_cons, List.length_nil]
  omega

theorem answered_inside {d i : ℕ} (h : i < r.data.length) : answered m r d (d + i) = r.bytes i := by
  rw [answered, Memory.write_inside _ _ _ h, Response.bytes, List.getD_eq_getElem?_getD,
    List.getElem?_eq_getElem h, Option.getD_some]

theorem answered_slot {d : ℕ} (h : r.ecx ≠ 0) : (answered m r d).read d 24 = r.slot := by
  have hdata := Memory.read_write (m.write (d + 20) [1, 0, 0, 0]) d r.data
  obtain hlen | hlen := Response.length_cases h
  · have hrest : (answered m r d).read (d + 20) 4 = [1, 0, 0, 0] := by
      rw [← Memory.read_write m (d + 20) [1, 0, 0, 0]]
      apply Memory.read_congr
      intro i hi
      exact Memory.write_outside _ _ _ (by omega)
    rw [show 24 = 20 + 4 from rfl, Memory.read_add, hrest, ← hlen, answered, hdata,
      Response.slot, List.take_of_length_le (by simp [hlen])]
  · rw [← hlen, answered, hdata, Response.slot, ← hlen, List.take_left]

theorem Response.good_iff : r.good = true ↔ r.ecx ≠ 0 ∧ r.regionLength ≠ 0 ∧ r.Valid := by
  rw [good, decide_eq_true_iff]

theorem Response.long_iff (r : Response) : 20#8 < r.ecx.setWidth 8 ↔ 20 < r.data.length := by
  rw [r.data_length]
  obtain h | h | h := r.ecx_eq <;> rw [h] <;> decide

/-- Both halves of the region's length are zero. -/
theorem answered_region {d : ℕ} (h : r.ecx ≠ 0) :
    (answered m r d).read32 (d + 8) ||| (answered m r d).read32 (d + 12) = 0 ↔
      r.regionLength = 0 := by
  have hlen := Response.length_cases h
  have hread : (answered m r d).read64 (d + 8) = r.regionLength := by
    apply Memory.read64_congr
    intro i hi
    rw [Nat.add_assoc]
    exact answered_inside (by omega)
  rw [← hread]
  exact Memory.read32_or_eq_zero_iff _ _

theorem answered_valid {d : ℕ} :
    (20#8 < r.ecx.setWidth 8 ∧ answered m r d (d + 20) &&& 1 = 0) ↔ ¬r.Valid := by
  rw [r.long_iff, Response.Valid, Classical.not_imp, not_ne_iff]
  apply and_congr_right
  intro h
  rw [answered_inside h]

/-- The test of the code is the intended one. -/
theorem biosMmapJmpin_eq {d : ℕ} (hdi : s.di.toNat = d) (hd : d + 24 ≤ 2 ^ 16)
    (hmem : s.mem = answered m r d) :
    s.biosMmapJmpin r = if r.good then { s with bp := s.bp + 1, di := s.di + 24 } else s := by
  have h8 : (s.di + 8).toNat = d + 8 := by bv_omega
  have h12 : (s.di + 12).toNat = d + 12 := by bv_omega
  have h20 : (s.di + 20).toNat = d + 20 := by bv_omega
  by_cases hecx : r.ecx = 0
  · have hcx : r.ecx.setWidth 16 = 0#16 := by rw [hecx]; rfl
    rw [Collector.biosMmapJmpin, if_pos hcx, if_neg]
    exact fun hg => (Response.good_iff.mp hg).1 hecx
  · have hcx : r.ecx.setWidth 16 ≠ 0#16 := by
      obtain h | h | h := r.ecx_eq
      · exact absurd h hecx
      · rw [h]; decide
      · rw [h]; decide
    simp only [Collector.biosMmapJmpin, if_neg hcx, h8, h12, h20, hmem, answered_valid,
      answered_region hecx, Response.good_iff]
    by_cases hv : r.Valid
    · by_cases hr : r.regionLength = 0
      · rw [if_neg (not_not_intro hv), if_pos hr, if_neg fun h => h.2.1 hr]
      · rw [if_neg (not_not_intro hv), if_neg hr, if_pos ⟨hecx, hr, hv⟩]
    · rw [if_pos hv, if_neg fun h => hv h.2.2]

end Answer

/-! ## The table -/

/-- The collector has kept the answers `kept`, and written nothing else outside the table. -/
structure Holds (m : Memory) (kept : List Response) (s : Collector) : Prop where
  length : kept.length ≤ 512
  bp : s.bp.toNat = kept.length
  di : s.di.toNat = (0xD000 + 24 * kept.length) % 2 ^ 16
  table : ∀ (i : ℕ) (hi : i < kept.length), s.mem.read (0xD000 + 24 * i) 24 = kept[i].slot
  outside : ∀ a, a < 0xD000 ∨ 0x10000 ≤ a → s.mem a = m a

/-- The table and its count as `stage_1` leaves them. -/
structure Left (m : Memory) (kept : List Response) (m' : Memory) : Prop where
  table : ∀ (i : ℕ) (hi : i < kept.length), m'.read (0xD000 + 24 * i) 24 = kept[i].slot
  count : (m' 0xCFFF ++ m' 0xCFFE).toNat = kept.length
  outside : ∀ a, a < 0xCFFE ∨ 0x10000 ≤ a → m' a = m a

section Table

variable {m : Memory} {kept : List Response} {s : Collector} {r : Response} {rs : List Response}

theorem holds_init (m : Memory) : Holds m [] (Collector.init m) where
  length := Nat.zero_le _
  bp := rfl
  di := rfl
  table := fun _ hi => absurd hi (Nat.not_lt_zero _)
  outside := fun _ _ => rfl

namespace Holds

/-- There is room for a slot at `es:di`. -/
theorem di_of_lt (h : Holds m kept s) (hlt : kept.length < 512) :
    s.di.toNat = 0xD000 + 24 * kept.length := by
  rw [h.di, Nat.mod_eq_of_lt (by omega)]

theorem called (h : Holds m kept s) (hlt : kept.length < 512) (r : Response) :
    (s.request.int15 r).mem = answered s.mem r (0xD000 + 24 * kept.length) := by
  have hdi := h.di_of_lt hlt
  have h20 : (s.di + 20).toNat = s.di.toNat + 20 := by bv_omega
  simp only [Collector.int15, Collector.request, answered, h20, hdi]

/-- A slot that is not kept is free for the next answer. -/
theorem call (h : Holds m kept s) (hlt : kept.length < 512) (r : Response) :
    Holds m kept (s.request.int15 r) where
  length := h.length
  bp := h.bp
  di := h.di
  table := by
    intro i hi
    rw [h.called hlt, ← h.table i hi]
    apply Memory.read_congr
    intro j hj
    exact answered_outside (by omega)
  outside := by
    intro a ha
    rw [h.called hlt, answered_outside (by omega)]
    exact h.outside a ha

theorem keep (h : Holds m kept s) (hlt : kept.length < 512)
    (hslot : s.mem.read (0xD000 + 24 * kept.length) 24 = r.slot) :
    Holds m (kept ++ [r]) { s with bp := s.bp + 1, di := s.di + 24 } where
  length := by
    rw [List.length_append]
    exact hlt
  bp := by
    have hbp := h.bp
    rw [List.length_append, List.length_singleton, ← hbp]
    bv_omega
  di := by
    have hdi := h.di_of_lt hlt
    rw [List.length_append, List.length_singleton, BitVec.toNat_add, hdi]
    rfl
  table := by
    intro i hi
    rw [List.length_append, List.length_singleton] at hi
    rw [List.getElem_append]
    split
    · next hlt' => exact h.table i hlt'
    · next hge =>
      obtain rfl : i = kept.length := by omega
      simpa using hslot
  outside := h.outside

/-- One answer of the firmware. -/
theorem answer (h : Holds m kept s) (hlt : kept.length < 512) (r : Response) :
    Holds m (kept ++ [r].filter Response.good) ((s.request.int15 r).biosMmapJmpin r) := by
  have hcall := h.call hlt r
  have hmem := h.called hlt r
  rw [biosMmapJmpin_eq (hcall.di_of_lt hlt) (by omega) hmem]
  cases hg : r.good with
  | false =>
    rw [List.filter_cons_of_neg (by rw [hg]; decide), List.filter_nil, List.append_nil]
    exact hcall
  | true =>
    rw [List.filter_cons_of_pos hg, List.filter_nil]
    have hecx := (Response.good_iff.mp hg).1
    exact hcall.keep hlt (hmem ▸ answered_slot hecx)

theorem left (h : Holds m kept s) : Left m kept s.e820f where
  table := by
    intro i hi
    rw [← h.table i hi]
    apply Memory.read_congr
    intro j hj
    exact Memory.write_outside _ _ _ (by simp only [List.length_cons, List.length_nil]; omega)
  count := by
    have hlow : s.e820f 0xCFFE = s.bp.setWidth 8 := rfl
    have hhigh : s.e820f 0xCFFF = (s.bp >>> 8).setWidth 8 := rfl
    have hjoin : (s.bp >>> 8).setWidth 8 ++ s.bp.setWidth 8 = s.bp := by
      rw [BitFields.setWidth_ushiftRight, BitFields.setWidth_eq_extractLsb',
        BitVec.extractLsb'_append_extractLsb'_eq_extractLsb' (show 8 = 0 + 8 from rfl)]
      exact BitVec.extractLsb'_eq_self
    rw [hlow, hhigh, hjoin, h.bp]
  outside := by
    intro a ha
    rw [Collector.e820f, Memory.write_outside _ _ _
      (by simp only [List.length_cons, List.length_nil]; omega)]
    exact h.outside a (by omega)

end Holds

/-- Asking for one more answer writes inside the table. -/
theorem Holds.request_outside (h : Holds m kept s) (hlt : kept.length < 512) {a : ℕ}
    (ha : a < 0xD000 ∨ 0x10000 ≤ a) : s.request.mem a = m a := by
  have hdi := h.di_of_lt hlt
  have h20 : (s.di + 20).toNat = s.di.toNat + 20 := by bv_omega
  calc s.request.mem a = s.mem a := Memory.write_outside _ _ _
        (by simp only [List.length_cons, List.length_nil]; omega)
    _ = m a := h.outside a ha

end Table

/-! ## The loop -/

section Loop

variable {m : Memory} {kept : List Response} {s : Collector} {r : Response} {rs : List Response}

@[simp] theorem biosMmapJmpin_ebx (r : Response) (s : Collector) :
    (s.biosMmapJmpin r).ebx = s.ebx := by
  unfold Collector.biosMmapJmpin
  split_ifs <;> rfl

theorem goodOnes_of_carry (h : r.carry = true) : goodOnes (r :: rs) = [] := by
  rw [goodOnes, readUp, if_pos h, List.filter_nil]

theorem goodOnes_of_last (h : ¬r.carry = true) (hebx : r.ebx = 0) :
    goodOnes (r :: rs) = [r].filter Response.good := by
  rw [goodOnes, readUp, if_neg h, if_pos hebx]

theorem goodOnes_cons (h : ¬r.carry = true) (hebx : r.ebx ≠ 0) :
    goodOnes (r :: rs) = [r].filter Response.good ++ goodOnes rs := by
  rw [goodOnes, readUp, if_neg h, if_neg hebx, goodOnes, ← List.filter_append,
    List.singleton_append]

theorem ended_cons : Ended (r :: rs) ↔ (r.carry = true ∨ r.ebx = 0) ∨ Ended rs := by
  simp only [Ended, List.mem_cons, exists_eq_or_imp]

theorem ended_cons_of_more (h : ¬r.carry = true) (hebx : r.ebx ≠ 0) :
    Ended (r :: rs) ↔ Ended rs := by
  rw [ended_cons, or_iff_right]
  exact not_or_intro h hebx

/-- The loop is done when the list has ended or the table is full, and waits otherwise. -/
def Settles (m : Memory) (rs good : List Response) : Outcome → Prop
  | .done m' => (Ended rs ∨ 512 ≤ good.length) ∧ Left m (good.take 512) m'
  | .waiting m' => ¬(Ended rs ∨ 512 ≤ good.length) ∧
      ∀ a, a < 0xD000 ∨ 0x10000 ≤ a → m' a = m a
  | _ => False

theorem Settles.of_ended_iff {rs' good : List Response} (hiff : Ended rs' ↔ Ended rs)
    {o : Outcome} (h : Settles m rs good o) : Settles m rs' good o := by
  cases o with
  | unsupported => exact h
  | failed => exact h
  | waiting m' => exact ⟨by rw [hiff]; exact h.1, h.2⟩
  | done m' => exact ⟨by rw [hiff]; exact h.1, h.2⟩

theorem Holds.settles_of_full (h : Holds m kept s) (hfull : 512 ≤ s.bp) (good : List Response) :
    Settles m rs (kept ++ good) (.done s.e820f) := by
  have hlen : kept.length = 512 := Nat.le_antisymm h.length (h.bp ▸ hfull)
  refine ⟨.inr ?_, ?_⟩
  · rw [List.length_append, hlen]
    exact Nat.le_add_right _ _
  · rw [← hlen, List.take_left]
    exact h.left

theorem Holds.settles_of_ended (h : Holds m kept s) (hend : Ended rs) :
    Settles m rs kept (.done s.e820f) := by
  refine ⟨.inl hend, ?_⟩
  rw [List.take_of_length_le h.length]
  exact h.left

theorem e820Loop_settles (h : Holds m kept s) :
    Settles m rs (kept ++ goodOnes rs) (s.e820Loop rs) := by
  -- the answers `kept` are those before the ones that are still to come
  induction rs generalizing kept s with
  | nil =>
    rw [Collector.e820Loop]
    by_cases hfull : 512 ≤ s.bp
    · rw [if_pos hfull]
      exact h.settles_of_full hfull _
    · rw [if_neg hfull]
      have hlt : kept.length < 512 := h.bp ▸ Nat.lt_of_not_le hfull
      refine ⟨?_, fun a ha => h.request_outside hlt ha⟩
      rintro (⟨r, hr, -⟩ | hlen)
      · exact absurd hr List.not_mem_nil
      · rw [goodOnes, readUp, List.filter_nil, List.append_nil] at hlen
        omega
  | cons r rs ih =>
    rw [Collector.e820Loop]
    by_cases hfull : 512 ≤ s.bp
    · rw [if_pos hfull]
      exact h.settles_of_full hfull _
    rw [if_neg hfull]
    have hlt : kept.length < 512 := h.bp ▸ Nat.lt_of_not_le hfull
    dsimp only
    by_cases hc : r.carry = true
    · rw [if_pos hc, goodOnes_of_carry hc, List.append_nil]
      exact (h.call hlt r).settles_of_ended (ended_cons.mpr (.inl (.inl hc)))
    rw [if_neg hc, biosMmapJmpin_ebx]
    change Settles _ _ _ (if r.ebx = 0 then _ else _)
    have hans := h.answer hlt r
    by_cases hebx : r.ebx = 0
    · rw [if_pos hebx, goodOnes_of_last hc hebx]
      exact hans.settles_of_ended (ended_cons.mpr (.inl (.inr hebx)))
    · rw [if_neg hebx, goodOnes_cons hc hebx, ← List.append_assoc]
      exact (ih hans).of_ended_iff (ended_cons_of_more hc hebx)

/-- The first call, whose answer has to be valid and not the only one. -/
theorem collect_settles (hc : r.carry = false) (hsmap : r.eax = smap) (hebx : r.ebx ≠ 0) :
    Settles m (r :: rs) (goodOnes (r :: rs)) (collect m (r :: rs)) := by
  have hc' : ¬r.carry = true := by rw [hc]; decide
  have hans := (holds_init m).answer (by decide) r
  have hrun : collect m (r :: rs) = Collector.e820Loop rs
      (((Collector.init m).request.int15 r).biosMmapJmpin r) := by
    rw [collect]
    dsimp only
    rw [if_neg hc', if_neg (not_not_intro hsmap), biosMmapJmpin_ebx]
    exact (if_neg hebx).trans (if_neg hebx)
  rw [hrun, goodOnes_cons hc' hebx]
  exact (e820Loop_settles hans).of_ended_iff (ended_cons_of_more hc' hebx)

end Loop

/-! ## The kernel's view -/

section Entries

variable {m m' : Memory} {kept : List Response} {r : Response}

theorem bytes_of_slot {a j : ℕ} (h : m.read a 24 = r.slot) (hr : r.ecx ≠ 0) (hj : j < 20) :
    m (a + j) = r.bytes j := by
  have hlen := Response.length_cases hr
  have hread : (m.read a 24).getD j 0 = m (a + j) := by
    rw [List.getD_eq_getElem?_getD, List.getElem?_eq_getElem (by rw [Memory.read_length]; omega)]
    simp [Memory.read]
  rw [← hread, h, Response.slot, Response.bytes, List.getD_eq_getElem?_getD,
    List.getD_eq_getElem?_getD, List.getElem?_take_of_lt (by omega),
    List.getElem?_append_left (by omega)]

/-- `kpmm_init` finds what the firmware reported. -/
theorem Left.mmapEntries_eq (h : Left m kept m') (hlen : kept.length ≤ 512)
    (hgood : ∀ r ∈ kept, r.good = true) : mmapEntries m' = kept.map Response.entry := by
  rw [mmapEntries, h.count, Nat.min_eq_left hlen]
  apply List.ext_getElem
  · rw [List.length_map, List.length_map, List.length_range]
  · intro i hi _
    rw [List.length_map, List.length_range] at hi
    have hecx := (Response.good_iff.mp (hgood _ (List.getElem_mem hi))).1
    have hbytes := fun j => bytes_of_slot (j := j) (h.table i hi) hecx
    have h64 : ∀ k ≤ 8, m'.read64 (0xD000 + 24 * i + k) = kept[i].bytes.read64 k := by
      intro k hk
      apply Memory.read64_congr
      intro j hj
      rw [Nat.add_assoc]
      exact hbytes _ (by omega)
    have h32 : m'.read32 (0xD000 + 24 * i + 16) = kept[i].bytes.read32 16 := by
      apply Memory.read32_congr
      intro j hj
      rw [Nat.add_assoc]
      exact hbytes _ (by omega)
    simp only [List.getElem_map, List.getElem_range, Response.entry, Response.regionLength,
      h64 8 (by decide), h32]
    rw [← h64 0 (by decide), Nat.add_zero]

end Entries

/-- For every list of answers of which the first is valid and not the last: when the list ends or
has 512 good answers, the table holds the first 512 good ones in order, the count is their number,
the kernel reads them as its memory map, and nothing from `0x10000` on is written. A list without
an end leaves the loop waiting for the next answer, with nothing written there either. -/
theorem e820_collection (m : Memory) (r : Response) (rs : List Response)
    (hcarry : r.carry = false) (hsmap : r.eax = smap) (hmore : r.ebx ≠ 0) :
    let good := (readUp (r :: rs)).filter Response.good
    let kept := good.take 512
    (Ended (r :: rs) ∨ 512 ≤ good.length → ∃ m', collect m (r :: rs) = .done m' ∧
      (∀ (i : ℕ) (hi : i < kept.length), m'.read (0xD000 + 24 * i) 24 = kept[i].slot) ∧
      (m' 0xCFFF ++ m' 0xCFFE).toNat = kept.length ∧
      mmapEntries m' = kept.map Response.entry ∧
      ∀ a, 0x10000 ≤ a → m' a = m a) ∧
    (¬(Ended (r :: rs) ∨ 512 ≤ good.length) → ∃ m', collect m (r :: rs) = .waiting m' ∧
      ∀ a, 0x10000 ≤ a → m' a = m a) := by
  intro good kept
  have hsettles : Settles m (r :: rs) good (collect m (r :: rs)) :=
    collect_settles hcarry hsmap hmore
  cases hrun : collect m (r :: rs) with
  | unsupported =>
    rw [hrun] at hsettles
    exact hsettles.elim
  | failed =>
    rw [hrun] at hsettles
    exact hsettles.elim
  | waiting m' =>
    rw [hrun] at hsettles
    exact ⟨fun h => absurd h hsettles.1, fun _ => ⟨m', rfl, fun a ha => hsettles.2 a (.inr ha)⟩⟩
  | done m' =>
    rw [hrun] at hsettles
    have hleft : Left m kept m' := hsettles.2
    have hgood : ∀ x ∈ kept, x.good = true := by
      intro x hx
      exact List.of_mem_filter (List.mem_of_mem_take hx)
    refine ⟨fun _ => ⟨m', rfl, hleft.table, hleft.count, ?_, ?_⟩, fun h => absurd hsettles.1 h⟩
    · exact hleft.mmapEntries_eq (List.length_take_le _ _) hgood
    · exact fun a ha => hleft.outside a (.inr ha)

/-- Low memory, in an answer of 20 bytes. -/
def lowRegion : Response where
  eax := smap
  ebx := 1
  ecx := 20
  carry := false
  data := [0, 0, 0, 0, 0, 0, 0, 0, 0, 0xFC, 9, 0, 0, 0, 0, 0, 1, 0, 0, 0]
  ecx_eq := .inr (.inl rfl)
  data_length := rfl

def noMore : Response where
  eax := 0
  ebx := 0
  ecx := 0
  carry := true
  data := []
  ecx_eq := .inl rfl
  data_length := rfl

theorem e820_collection_one_region : ∃ m', collect (fun _ => 0) [lowRegion, noMore] = .done m' ∧
    (m' 0xCFFF ++ m' 0xCFFE).toNat = 1 ∧ mmapEntries m' = [⟨0, 0x9FC00, true⟩] := by
  have hends : Ended [lowRegion, noMore] := ⟨noMore, by simp, .inl rfl⟩
  obtain ⟨m', hdone, -, hcount, hentries, -⟩ :=
    (e820_collection (fun _ => 0) lowRegion [noMore] rfl rfl (by decide)).1 (.inl hends)
  exact ⟨m', hdone, hcount, hentries⟩

end Nyvela.E820
