import LlamaRafaelia.Lib.Bits

/-!
# The bit streams of BITRAF

A stream is a buffer and a position in it.  `raf_bitstream_reset` goes back to the start and keeps the buffer,
`raf_bitstream_clear` zeroes it.  A write sets the bits that are one in the value and leaves the others *as they are
in the buffer*.

* `Wrote bs l bs'` - **what writing does**: the bits `l` are or-ed into the buffer at the position of `bs`;
* **`roundTrip_exact`** - when the values come back.
-/

namespace Bitraf

open List Bits

/-! ### The operations -/

/-- `raf_bitstream`; `buffer_size` is the length of the buffer. -/
structure Bitstream where
  buffer : List UInt8
  bytePos : ℕ
  bitPos : ℕ
  bitPos_lt : bitPos < 8

/-- `raf_bitstream_create`. -/
def create (bufferSize : ℕ) : Bitstream where
  buffer := List.replicate bufferSize 0
  bytePos := 0
  bitPos := 0
  bitPos_lt := by decide

/-- `raf_bitstream_reset`: the buffer stays. -/
def reset (bs : Bitstream) : Bitstream :=
  { bs with bytePos := 0, bitPos := 0, bitPos_lt := by decide }

/-- `raf_bitstream_clear`. -/
def clear (bs : Bitstream) : Bitstream where
  buffer := List.replicate bs.buffer.length 0
  bytePos := 0
  bitPos := 0
  bitPos_lt := by decide

/-- `bs->bit_pos++`, and on to the next byte after eight. -/
def advance (bs : Bitstream) : Bitstream :=
  if h : bs.bitPos + 1 < 8 then { bs with bitPos := bs.bitPos + 1, bitPos_lt := h }
  else { bs with bytePos := bs.bytePos + 1, bitPos := 0, bitPos_lt := by decide }

/-- `raf_bitstream_write_bit`; `none` is the return value -1, which leaves the stream alone. -/
def writeBit (bs : Bitstream) (bit : UInt8) : Option Bitstream :=
  if bs.bytePos ≥ bs.buffer.length then none
  else
    let buffer :=
      if bit ≠ 0 then
        bs.buffer.set bs.bytePos (bs.buffer.getD bs.bytePos 0 ||| (1 <<< UInt8.ofNat (7 - bs.bitPos)))
      else bs.buffer
    some (advance { bs with buffer := buffer })

/-- The loop of `raf_bitstream_write_bits` with the bits below `i` to go. -/
def writeBitsLoop (value : UInt32) : ℕ → Bitstream → ℤ × Bitstream
  | 0, bs => (0, bs)
  | i + 1, bs =>
    match writeBit bs ((value >>> UInt32.ofNat i) &&& 1).toUInt8 with
    | none => (-1, bs)
    | some bs' => writeBitsLoop value i bs'

/-- `raf_bitstream_write_bits`. -/
def writeBits (bs : Bitstream) (value : UInt32) (numBits : UInt8) : ℤ × Bitstream :=
  if numBits > 32 then (-1, bs) else writeBitsLoop value numBits.toNat bs

/-- `raf_bitstream_read_bit`; `none` is the return value -1. -/
def readBit (bs : Bitstream) : Option (UInt8 × Bitstream) :=
  if bs.bytePos ≥ bs.buffer.length then none
  else some ((bs.buffer.getD bs.bytePos 0 >>> UInt8.ofNat (7 - bs.bitPos)) &&& 1, advance bs)

/-- The loop of `raf_bitstream_read_bits` with `n` bits to go. -/
def readBitsLoop : ℕ → UInt32 → Bitstream → ℤ × UInt32 × Bitstream
  | 0, value, bs => (0, value, bs)
  | n + 1, value, bs =>
    match readBit bs with
    | none => (-1, value, bs)
    | some (bit, bs') => readBitsLoop n ((value <<< 1) ||| bit.toUInt32) bs'

/-- `raf_bitstream_read_bits`; `value` is what `*value` held before. -/
def readBits (bs : Bitstream) (value : UInt32) (numBits : UInt8) : ℤ × UInt32 × Bitstream :=
  if numBits > 32 then (-1, value, bs) else readBitsLoop numBits.toNat 0 bs

/-! ### A client that writes a list of values and reads it back -/

/-- The values written one after the other, with the return values of the calls. -/
def writeAll : Bitstream → List (UInt32 × UInt8) → List ℤ × Bitstream
  | bs, [] => ([], bs)
  | bs, item :: items =>
    let (code, bs') := writeBits bs item.1 item.2
    let (codes, bs'') := writeAll bs' items
    (code :: codes, bs'')

/-- The values read one after the other, with the return values of the calls. -/
def readAll : Bitstream → List UInt8 → List (ℤ × UInt32) × Bitstream
  | bs, [] => ([], bs)
  | bs, width :: widths =>
    let (code, value, bs') := readBits bs 0 width
    let (rest, bs'') := readAll bs' widths
    ((code, value) :: rest, bs'')

def allBits (items : List (UInt32 × UInt8)) : List Bool :=
  items.flatMap fun item => msb item.2.toNat item.1.toNat

def totalWidth (items : List (UInt32 × UInt8)) : ℕ := (items.map fun item => item.2.toNat).sum

/-- Every write succeeds, and after `raf_bitstream_reset` the same widths read the values back, each of them
modulo two to its width. -/
def RoundTrip (bs : Bitstream) (items : List (UInt32 × UInt8)) : Prop :=
  (∀ code ∈ (writeAll bs items).1, code = 0) ∧
    (readAll (reset (writeAll bs items).2) (items.map Prod.snd)).1 =
      items.map fun item => (0, UInt32.ofNat (item.1.toNat % 2 ^ item.2.toNat))

instance (bs : Bitstream) (items : List (UInt32 × UInt8)) : Decidable (RoundTrip bs items) :=
  inferInstanceAs (Decidable (_ ∧ _))

theorem allBits_length (items : List (UInt32 × UInt8)) : (allBits items).length = totalWidth items := by
  simp [allBits, totalWidth, length_flatMap]

/-! ### Positions -/

namespace Bitstream

def position (bs : Bitstream) : ℕ := 8 * bs.bytePos + bs.bitPos

theorem position_div (bs : Bitstream) : bs.position / 8 = bs.bytePos := by
  have := bs.bitPos_lt
  unfold position
  omega

theorem position_mod (bs : Bitstream) : bs.position % 8 = bs.bitPos := by
  have := bs.bitPos_lt
  unfold position
  omega

theorem bytePos_lt {bs : Bitstream} (h : bs.position < 8 * bs.buffer.length) : bs.bytePos < bs.buffer.length := by
  unfold position at h
  omega

end Bitstream

@[simp] theorem reset_position (bs : Bitstream) : (reset bs).position = 0 := rfl

@[simp] theorem clear_position (bs : Bitstream) : (clear bs).position = 0 := rfl

@[simp] theorem reset_buffer (bs : Bitstream) : (reset bs).buffer = bs.buffer := rfl

@[simp] theorem advance_buffer (bs : Bitstream) : (advance bs).buffer = bs.buffer := by
  unfold advance
  split <;> rfl

@[simp] theorem advance_position (bs : Bitstream) : (advance bs).position = bs.position + 1 := by
  have := bs.bitPos_lt
  unfold advance
  split
  · rfl
  · simp only [Bitstream.position]
    omega

/-! ### What writing does -/

/-- `bs'` is `bs` with the bits `l` or-ed into the buffer, and the position behind them. -/
structure Wrote (bs : Bitstream) (l : List Bool) (bs' : Bitstream) : Prop where
  length : bs'.buffer.length = bs.buffer.length
  position : bs'.position = bs.position + l.length
  bits : ∀ k, bitAt bs'.buffer k =
    (bitAt bs.buffer k || (decide (bs.position ≤ k) && l.getD (k - bs.position) false))

theorem Wrote.refl (bs : Bitstream) : Wrote bs [] bs where
  length := rfl
  position := rfl
  bits := by
    intro k
    simp

theorem Wrote.trans {bs bs' bs'' : Bitstream} {l l' : List Bool} (h : Wrote bs l bs') (h' : Wrote bs' l' bs'') :
    Wrote bs (l ++ l') bs'' where
  length := h'.length.trans h.length
  position := by rw [h'.position, h.position, length_append, Nat.add_assoc]
  bits := by
    intro k
    rw [h'.bits, h.bits, h.position, Bool.or_assoc]
    congr 1
    by_cases hk : k < bs.position + l.length
    · by_cases hlow : bs.position ≤ k
      · rw [getD_append _ _ _ _ (by omega)]
        simp [show ¬ bs.position + l.length ≤ k by omega]
      · simp [show ¬ bs.position + l.length ≤ k by omega, hlow]
    · rw [getD_append_right _ _ _ _ (by omega), getD_eq_default l false (by omega),
        show k - (bs.position + l.length) = k - bs.position - l.length by omega]
      simp [show bs.position + l.length ≤ k by omega, show bs.position ≤ k by omega]

theorem writeBit_wrote {bs : Bitstream} (h : bs.position < 8 * bs.buffer.length) (bit : UInt8) :
    ∃ bs', writeBit bs bit = some bs' ∧ Wrote bs [decide (bit ≠ 0)] bs' := by
  have hbyte := Bitstream.bytePos_lt h
  unfold writeBit
  rw [if_neg (by omega)]
  refine ⟨_, rfl, ?_, ?_, ?_⟩
  · rw [advance_buffer]
    split <;> simp
  · rw [advance_position]
    rfl
  · intro k
    have hone : (decide (bs.position ≤ k) && [decide (bit ≠ 0)].getD (k - bs.position) false) =
        (decide (bit ≠ 0) && decide (k = bs.position)) := by
      by_cases hk : k = bs.position
      · simp [hk]
      · by_cases hle : bs.position ≤ k
        · obtain ⟨d, hd⟩ : ∃ d, k - bs.position = d + 1 := ⟨k - bs.position - 1, by omega⟩
          simp [hd, hk]
        · simp [hle, hk]
    rw [advance_buffer, hone]
    by_cases hbit : bit ≠ 0
    · have hset := @bitAt_set_or bs.buffer bs.position (by rw [bs.position_div]; exact hbyte) k
      rw [bs.position_div, bs.position_mod] at hset
      rw [if_pos hbit, hset]
      simp [hbit]
    · rw [if_neg hbit]
      simp [hbit]

theorem writeBits_bit (value : UInt32) {i : ℕ} (hi : i < 32) :
    decide (((value >>> UInt32.ofNat i) &&& 1).toUInt8 ≠ 0) = value.toNat.testBit i := by
  have hmod : i % 4294967296 % 32 = i := by omega
  have hval : ((value >>> UInt32.ofNat i) &&& 1).toUInt8.toNat = value.toNat / 2 ^ i % 2 := by
    simp only [UInt32.toNat_toUInt8, UInt32.toNat_and, UInt32.toNat_shiftRight, UInt32.toNat_ofNat',
      UInt32.toNat_ofNat, Nat.reducePow, hmod]
    rw [show (1 : ℕ) % 4294967296 = 1 from rfl, Nat.and_one_is_mod, Nat.shiftRight_eq_div_pow]
    omega
  rw [Nat.testBit_eq_decide_div_mod_eq]
  apply decide_eq_decide.mpr
  rw [ne_eq, ← UInt8.toNat_inj, hval]
  show ¬ value.toNat / 2 ^ i % 2 = 0 ↔ _
  omega

theorem writeBitsLoop_wrote (value : UInt32) {n : ℕ} (hn : n ≤ 32) {bs : Bitstream}
    (h : bs.position + n ≤ 8 * bs.buffer.length) :
    ∃ bs', writeBitsLoop value n bs = (0, bs') ∧ Wrote bs (msb n value.toNat) bs' := by
  induction n generalizing bs with
  | zero => exact ⟨bs, rfl, Wrote.refl bs⟩
  | succ n ih =>
    obtain ⟨bs₁, hstep, hwrote⟩ := writeBit_wrote (by omega : bs.position < 8 * bs.buffer.length)
      ((value >>> UInt32.ofNat n) &&& 1).toUInt8
    have hpos := hwrote.position
    obtain ⟨bs₂, hloop, hrest⟩ := @ih (by omega) bs₁ (by
      rw [hwrote.length, hpos, length_singleton]
      omega)
    rw [writeBits_bit value (by omega)] at hwrote
    refine ⟨bs₂, ?_, hwrote.trans hrest⟩
    rw [writeBitsLoop, hstep]
    exact hloop

theorem writeBits_wrote {bs : Bitstream} {value : UInt32} {numBits : UInt8} (hn : numBits ≤ 32)
    (h : bs.position + numBits.toNat ≤ 8 * bs.buffer.length) :
    ∃ bs', writeBits bs value numBits = (0, bs') ∧ Wrote bs (msb numBits.toNat value.toNat) bs' := by
  have hle : numBits.toNat ≤ 32 := UInt8.le_iff_toNat_le.mp hn
  rw [writeBits, if_neg (UInt8.not_lt.mpr hn)]
  exact writeBitsLoop_wrote value hle h

theorem writeAll_wrote {items : List (UInt32 × UInt8)} (hw : ∀ item ∈ items, item.2 ≤ 32) {bs : Bitstream}
    (h : bs.position + totalWidth items ≤ 8 * bs.buffer.length) :
    (∀ code ∈ (writeAll bs items).1, code = 0) ∧ Wrote bs (allBits items) (writeAll bs items).2 := by
  induction items generalizing bs with
  | nil => exact ⟨by simp [writeAll], Wrote.refl bs⟩
  | cons item items ih =>
    have htotal : totalWidth (item :: items) = item.2.toNat + totalWidth items := by simp [totalWidth]
    obtain ⟨bs₁, hfirst, hwrote⟩ := @writeBits_wrote bs item.1 item.2 (hw item (mem_cons_self ..)) (by omega)
    obtain ⟨hcodes, hrest⟩ := @ih (fun item' h' => hw item' (mem_cons_of_mem _ h')) bs₁ (by
      rw [hwrote.length, hwrote.position, msb_length]
      omega)
    rw [writeAll, hfirst]
    exact ⟨forall_mem_cons.mpr ⟨rfl, hcodes⟩, hwrote.trans hrest⟩

/-! ### What reading finds -/

/-- The `n` bits of a byte string from bit `p` on. -/
def bitsFrom (buf : List UInt8) : ℕ → ℕ → List Bool
  | _, 0 => []
  | p, n + 1 => bitAt buf p :: bitsFrom buf (p + 1) n

@[simp] theorem bitsFrom_length (buf : List UInt8) (p n : ℕ) : (bitsFrom buf p n).length = n := by
  induction n generalizing p with
  | zero => rfl
  | succ n ih => rw [bitsFrom, length_cons, ih]

theorem bitsFrom_add (buf : List UInt8) (p m n : ℕ) :
    bitsFrom buf p (m + n) = bitsFrom buf p m ++ bitsFrom buf (p + m) n := by
  induction m generalizing p with
  | zero => simp [bitsFrom]
  | succ m ih =>
    rw [Nat.succ_add, bitsFrom, ih, bitsFrom, cons_append]
    congr 3
    omega

theorem bitsFrom_getElem (buf : List UInt8) (p : ℕ) {n k : ℕ} (hk : k < (bitsFrom buf p n).length) :
    (bitsFrom buf p n)[k] = bitAt buf (p + k) := by
  induction n generalizing p k with
  | zero => simp [bitsFrom] at hk
  | succ n ih =>
    cases k with
    | zero => rfl
    | succ k =>
      have hk' : k < (bitsFrom buf (p + 1) n).length := by simpa using hk
      calc (bitsFrom buf p (n + 1))[k + 1] = (bitsFrom buf (p + 1) n)[k] := rfl
        _ = bitAt buf (p + 1 + k) := ih (p + 1) hk'
        _ = bitAt buf (p + (k + 1)) := by congr 1; omega

theorem readBit_spec {bs : Bitstream} (h : bs.position < 8 * bs.buffer.length) :
    readBit bs = some (if bitAt bs.buffer bs.position then 1 else 0, advance bs) := by
  have hbyte := Bitstream.bytePos_lt h
  have hlt := bs.bitPos_lt
  rw [readBit, if_neg (by omega), shift_and_one _ (by omega), bitAt, bs.position_div, bs.position_mod]

theorem shift_in (value : UInt32) (b : Bool) :
    ((value <<< 1) ||| (if b then (1 : UInt8) else 0).toUInt32).toNat = (value.toNat * 2 + b.toNat) % 2 ^ 32 := by
  have hlow : (if b then (1 : UInt8) else 0).toUInt32.toNat = b.toNat := by
    cases b <;> rfl
  have hb : b.toNat < 2 ^ 1 := Bool.toNat_lt b
  have hhigh : (value <<< 1).toNat = 2 ^ 1 * (value.toNat % 2 ^ 31) := by
    rw [UInt32.toNat_shiftLeft, show (1 : UInt32).toNat % 32 = 1 from rfl, Nat.shiftLeft_eq]
    omega
  rw [UInt32.toNat_or, hlow, hhigh, ← Nat.two_pow_add_eq_or_of_lt hb]
  omega

theorem readBitsLoop_spec {n : ℕ} (value : UInt32) {bs : Bitstream}
    (h : bs.position + n ≤ 8 * bs.buffer.length) :
    ∃ value' bs', readBitsLoop n value bs = (0, value', bs') ∧ bs'.buffer = bs.buffer ∧
      bs'.position = bs.position + n ∧
      value'.toNat = (value.toNat * 2 ^ n + ofMsb (bitsFrom bs.buffer bs.position n)) % 2 ^ 32 := by
  induction n generalizing value bs with
  | zero => exact ⟨value, bs, rfl, rfl, rfl, by simp [bitsFrom, ofMsb, Nat.mod_eq_of_lt value.toNat_lt]⟩
  | succ n ih =>
    have hbit := readBit_spec (by omega : bs.position < 8 * bs.buffer.length)
    obtain ⟨value', bs', hloop, hbuffer, hpos, hvalue⟩ := @ih
      ((value <<< 1) ||| (if bitAt bs.buffer bs.position then (1 : UInt8) else 0).toUInt32) (advance bs) (by
        rw [advance_buffer, advance_position]
        omega)
    refine ⟨value', bs', ?_, hbuffer.trans (advance_buffer bs), ?_, ?_⟩
    · rw [readBitsLoop, hbit]
      exact hloop
    · rw [hpos, advance_position]
      omega
    · rw [hvalue, shift_in, advance_buffer, advance_position, bitsFrom, ofMsb, bitsFrom_length]
      rw [Nat.add_mod, Nat.mod_mul_mod, ← Nat.add_mod]
      congr 1
      ring

theorem readBits_spec {bs : Bitstream} {numBits : UInt8} (hn : numBits ≤ 32) (value : UInt32)
    (h : bs.position + numBits.toNat ≤ 8 * bs.buffer.length) :
    ∃ value' bs', readBits bs value numBits = (0, value', bs') ∧ bs'.buffer = bs.buffer ∧
      bs'.position = bs.position + numBits.toNat ∧
      value'.toNat = ofMsb (bitsFrom bs.buffer bs.position numBits.toNat) := by
  have hle : numBits.toNat ≤ 32 := UInt8.le_iff_toNat_le.mp hn
  obtain ⟨value', bs', hloop, hbuffer, hpos, hvalue⟩ := readBitsLoop_spec 0 h
  refine ⟨value', bs', ?_, hbuffer, hpos, ?_⟩
  · rw [readBits, if_neg (UInt8.not_lt.mpr hn)]
    exact hloop
  · have hlt : ofMsb (bitsFrom bs.buffer bs.position numBits.toNat) < 2 ^ 32 :=
      calc ofMsb (bitsFrom bs.buffer bs.position numBits.toNat)
          < 2 ^ (bitsFrom bs.buffer bs.position numBits.toNat).length := ofMsb_lt _
        _ ≤ 2 ^ 32 := Nat.pow_le_pow_right (by decide) (by rw [bitsFrom_length]; exact hle)
    rw [hvalue, UInt32.toNat_zero, Nat.zero_mul, Nat.zero_add, Nat.mod_eq_of_lt hlt]

/-- **What is read is what was written** exactly when the bits from the position on are those of the values. -/
theorem readAll_iff {items : List (UInt32 × UInt8)} (hw : ∀ item ∈ items, item.2 ≤ 32) {bs : Bitstream}
    (h : bs.position + totalWidth items ≤ 8 * bs.buffer.length) :
    ((readAll bs (items.map Prod.snd)).1 =
        items.map fun item => (0, UInt32.ofNat (item.1.toNat % 2 ^ item.2.toNat))) ↔
      bitsFrom bs.buffer bs.position (totalWidth items) = allBits items := by
  induction items generalizing bs with
  | nil => simp [readAll, totalWidth, allBits, bitsFrom]
  | cons item items ih =>
    have htotal : totalWidth (item :: items) = item.2.toNat + totalWidth items := by simp [totalWidth]
    obtain ⟨value, bs', hread, hbuffer, hpos, hvalue⟩ :=
      @readBits_spec bs item.2 (hw item (mem_cons_self ..)) 0 (by omega)
    have hrest := @ih (fun item' h' => hw item' (mem_cons_of_mem _ h')) bs' (by
      rw [hbuffer, hpos]
      omega)
    -- the first value agrees when its bits do
    have hfirst : value = UInt32.ofNat (item.1.toNat % 2 ^ item.2.toNat) ↔
        bitsFrom bs.buffer bs.position item.2.toNat = msb item.2.toNat item.1.toNat := by
      have hlt : item.1.toNat % 2 ^ item.2.toNat < 2 ^ 32 :=
        lt_of_le_of_lt (Nat.mod_le _ _) item.1.toNat_lt
      rw [← UInt32.toNat_inj, hvalue, UInt32.toNat_ofNat', Nat.mod_eq_of_lt hlt, ← ofMsb_msb]
      constructor
      · exact fun heq => ofMsb_inj (by simp) heq
      · exact fun heq => by rw [heq]
    rw [map_cons, map_cons, readAll, hread, htotal, bitsFrom_add]
    show ((0, value) :: (readAll bs' (items.map Prod.snd)).1 = _ :: _) ↔ _ ++ _ = msb _ _ ++ allBits items
    rw [List.cons.injEq, hrest, Prod.mk.injEq, hfirst, hbuffer, hpos]
    constructor
    · rintro ⟨⟨-, h1⟩, h2⟩
      rw [h1, h2]
    · intro heq
      obtain ⟨h1, h2⟩ := append_inj heq (by simp)
      exact ⟨⟨rfl, h1⟩, h2⟩

/-! ### When the values come back -/

/-- The two ways in which a stream goes back to its start. -/
inductive Rewind
  | reset
  | clear
  deriving DecidableEq

def rewind (bs : Bitstream) : Rewind → Bitstream
  | .reset => reset bs
  | .clear => clear bs

theorem bitAt_clear (bs : Bitstream) (k : ℕ) : bitAt (clear bs).buffer k = false := by
  have hzero : (List.replicate bs.buffer.length (0 : UInt8)).getD (k / 8) 0 = 0 := by
    rw [getD_eq_getElem?_getD, getElem?_replicate]
    split <;> rfl
  show ((List.replicate bs.buffer.length (0 : UInt8)).getD (k / 8) 0).toNat.testBit _ = false
  rw [hzero]
  simp

theorem roundTrip_iff {bs : Bitstream} (hpos : bs.position = 0) {items : List (UInt32 × UInt8)}
    (hw : ∀ item ∈ items, item.2 ≤ 32) (hfit : totalWidth items ≤ 8 * bs.buffer.length) :
    RoundTrip bs items ↔
      ∀ k < totalWidth items, bitAt bs.buffer k = true → (allBits items).getD k false = true := by
  obtain ⟨hcodes, hwrote⟩ := @writeAll_wrote items hw bs (by omega)
  have hread := @readAll_iff items hw (reset (writeAll bs items).2) (by
    rw [reset_position, reset_buffer, hwrote.length]
    omega)
  rw [RoundTrip, and_iff_right hcodes, hread, reset_position, reset_buffer]
  constructor
  · intro heq k hk hset
    have hbit := hwrote.bits k
    rw [hpos, Nat.sub_zero, hset, Bool.true_or] at hbit
    rw [← heq, getD_eq_getElem _ _ (by simpa using hk), bitsFrom_getElem, Nat.zero_add]
    exact hbit
  · intro hkeep
    refine ext_getElem (by rw [bitsFrom_length, allBits_length]) fun k h1 h2 => ?_
    have hk : k < totalWidth items := by simpa using h1
    have hbit := hwrote.bits k
    rw [hpos, Nat.sub_zero, getD_eq_getElem _ _ h2] at hbit
    rw [bitsFrom_getElem, Nat.zero_add, hbit]
    cases hset : bitAt bs.buffer k with
    | false => simp
    | true =>
      have hone := hkeep k hk hset
      rw [getD_eq_getElem _ _ h2] at hone
      rw [hone]
      rfl

/-- **The values written into a rewound stream come back** exactly when it was cleared, or when no bit that an
earlier use left set in the buffer is at a place where a zero is written now. -/
theorem roundTrip_exact (bs : Bitstream) (how : Rewind) (items : List (UInt32 × UInt8))
    (hw : ∀ item ∈ items, item.2 ≤ 32) (hfit : totalWidth items ≤ 8 * bs.buffer.length) :
    RoundTrip (rewind bs how) items ↔
      (how = .clear ∨ ∀ k < totalWidth items, bitAt bs.buffer k = true → (allBits items).getD k false = true) := by
  cases how with
  | reset =>
    rw [show rewind bs .reset = reset bs from rfl, roundTrip_iff (reset_position bs) hw hfit]
    simp
  | clear =>
    have hlen : (clear bs).buffer.length = bs.buffer.length := by simp [clear]
    rw [show rewind bs .clear = clear bs from rfl,
      roundTrip_iff (clear_position bs) hw (by rw [hlen]; exact hfit)]
    simp [bitAt_clear]

/-- Two values across a byte boundary, in a fresh stream. -/
theorem roundTrip_exact_fresh : RoundTrip (rewind (create 3) .reset) [(0x2B, 5), (0x1234, 13)] :=
  (roundTrip_exact (create 3) .reset [(0x2B, 5), (0x1234, 13)] (by simp) (by decide)).mpr
    (.inr (by decide +kernel))

/-- A stream that held the byte `0xFF` and was reset: the byte zero is written without an error, and `0xFF` is
read back. -/
theorem zero_over_ones : ¬ RoundTrip (rewind (writeBits (create 1) 0xFF 8).2 .reset) [(0, 8)] := by
  decide +kernel

end Bitraf
