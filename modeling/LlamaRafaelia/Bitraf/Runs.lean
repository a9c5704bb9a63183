import LlamaRafaelia.Bitraf.Bitstream
import LlamaRafaelia.Lib.RunLength

/-!
# The bit runs of BITRAF

`raf_bitraf_encode_runs` goes over the bits of a byte string and counts equal ones in 32 bits; when the counter reaches
`UINT32_MAX` the run is stored and the counter begins again.  `raf_bitraf_decode_runs` writes the runs into a zeroed buffer,
after a check of the total in 64 bits and with a check before every bit.

* `encodeRuns_eq` - **the encoder**: it stores what `RunLength.emit` writes, if that fits;
* `decodeRuns_spec` - **the decoder**: it succeeds exactly if there is a run and all bits fit, and the bits of the output
  are those of the runs;
* **`runs_roundTrip`** - what is encoded comes back, and how many runs it takes;
* `noFullRun_iff` - when a run without bits is stored.
-/

namespace Bitraf

open List Bits RunLength

/-- `raf_bit_run`. -/
structure BitRun where
  runLength : UInt32
  bitValue : UInt8
  deriving DecidableEq, Repr

/-! ### `raf_bitraf_encode_runs` -/

/-- The variables of the loop; `run_count` is the number of runs. -/
structure EncodeState where
  currentBit : UInt8
  runLength : UInt32
  runs : List BitRun

def EncodeState.storeRun (maxRuns : ℕ) (s : EncodeState) : Option (List BitRun) :=
  if s.runs.length ≥ maxRuns then none else some (s.runs ++ [⟨s.runLength, s.currentBit⟩])

/-- `UINT32_MAX`. -/
def uint32Max : UInt32 := 0xFFFFFFFF

def encodeBit (maxRuns : ℕ) (s : EncodeState) (bit : UInt8) : Option EncodeState :=
  if bit = s.currentBit then
    let s := { s with runLength := s.runLength + 1 }
    if s.runLength = uint32Max then do
      let runs ← s.storeRun maxRuns
      return { s with runLength := 0, runs := runs }
    else some s
  else do
    let runs ← s.storeRun maxRuns
    return { currentBit := bit, runLength := 1, runs := runs }

/-- `(data[byte_idx] >> bit_idx) & 1`. -/
def bitOf (byte : UInt8) (bitIdx : ℕ) : UInt8 := (byte >>> UInt8.ofNat bitIdx) &&& 1

/-- `raf_bitraf_encode_runs`, with room for `maxRuns` runs; `none` is the return value -1. -/
def encodeRuns (data : List UInt8) (maxRuns : ℕ) : Option (List BitRun) :=
  match data with
  | [] => none
  | byte :: _ => do
    let s ← data.foldlM (fun s byte =>
      [7, 6, 5, 4, 3, 2, 1, 0].foldlM (fun s bitIdx => encodeBit maxRuns s (bitOf byte bitIdx)) s)
      { currentBit := bitOf byte 7, runLength := 0, runs := [] }
    if 0 < s.runLength then s.storeRun maxRuns else return s.runs

/-! ### `raf_bitraf_decode_runs` -/

/-- The output and the place of the next bit. -/
structure DecodeState where
  output : List UInt8
  bytePos : ℕ
  bitPos : ℕ
  bitPos_lt : bitPos < 8

/-- The body of the inner loop; `none` is the return value -1. -/
def decodeBit (bitValue : UInt8) (s : DecodeState) : Option DecodeState :=
  if s.bytePos ≥ s.output.length then none
  else
    let output :=
      if bitValue ≠ 0 then
        s.output.set s.bytePos (s.output.getD s.bytePos 0 ||| (1 <<< UInt8.ofNat s.bitPos))
      else s.output
    if s.bitPos = 0 then some { output := output, bytePos := s.bytePos + 1, bitPos := 7, bitPos_lt := by decide }
    else some { s with output := output, bitPos := s.bitPos - 1, bitPos_lt := Nat.lt_of_le_of_lt (Nat.sub_le _ _) s.bitPos_lt }

/-- The inner loop with `n` bits to go. -/
def decodeRun (bitValue : UInt8) : ℕ → DecodeState → Option DecodeState
  | 0, s => some s
  | n + 1, s => (decodeBit bitValue s).bind (decodeRun bitValue n)

/-- `total_bits`, a sum of 64 bits. -/
def totalBits (runs : List BitRun) : ℕ := runs.foldl (fun total run => (total + run.runLength.toNat) % 2 ^ 64) 0

/-- `raf_bitraf_decode_runs`: the output buffer, or `none` for the return value -1. -/
def decodeRuns (runs : List BitRun) (outputSize : ℕ) : Option (List UInt8) :=
  if runs.length = 0 then none
  else if outputSize < (totalBits runs + 7) % 2 ^ 64 / 8 then none
  else do
    let s ← runs.foldlM (fun s run => decodeRun run.bitValue run.runLength.toNat s)
      { output := List.replicate outputSize 0, bytePos := 0, bitPos := 7, bitPos_lt := by decide }
    return s.output

/-! ### The bits of a byte string -/

def bitsOf (data : List UInt8) : List UInt8 := data.flatMap fun byte => [7, 6, 5, 4, 3, 2, 1, 0].map (bitOf byte)

theorem bitAt_cons (byte : UInt8) (data : List UInt8) (k : ℕ) : bitAt (byte :: data) (k + 8) = bitAt data k := by
  rw [bitAt, bitAt, Nat.add_div_right k (by decide), Nat.add_mod_right]
  rfl

theorem bitsFrom_cons (byte : UInt8) (data : List UInt8) (p n : ℕ) :
    bitsFrom (byte :: data) (p + 8) n = bitsFrom data p n := by
  induction n generalizing p with
  | zero => rfl
  | succ n ih => rw [bitsFrom, bitsFrom, bitAt_cons, show p + 8 + 1 = p + 1 + 8 by omega, ih]

theorem bitOf_ne_zero (byte : UInt8) {bitIdx : ℕ} (h : bitIdx < 8) :
    decide (bitOf byte bitIdx ≠ 0) = byte.toNat.testBit bitIdx := by
  rw [bitOf, shift_and_one byte h]
  cases byte.toNat.testBit bitIdx with
  | false => rfl
  | true => rfl

theorem bitsOf_eq (data : List UInt8) :
    (bitsOf data).map (fun bit => decide (bit ≠ 0)) = bitsFrom data 0 (8 * data.length) := by
  induction data with
  | nil => rfl
  | cons byte data ih =>
    have hbyte : [7, 6, 5, 4, 3, 2, 1, 0].map (fun i => decide (bitOf byte i ≠ 0)) = bitsFrom (byte :: data) 0 8 := by
      simp only [map_cons, map_nil]
      rw [bitOf_ne_zero byte (by decide), bitOf_ne_zero byte (by decide), bitOf_ne_zero byte (by decide),
        bitOf_ne_zero byte (by decide), bitOf_ne_zero byte (by decide), bitOf_ne_zero byte (by decide),
        bitOf_ne_zero byte (by decide), bitOf_ne_zero byte (by decide)]
      rfl
    rw [length_cons, show 8 * (data.length + 1) = 8 + 8 * data.length by omega, bitsFrom_add, bitsFrom_cons, ← ih,
      ← hbyte, bitsOf, flatMap_cons, map_append, map_map]
    rfl

theorem eq_of_bitAt {data data' : List UInt8} (hlen : data.length = data'.length)
    (h : ∀ k < 8 * data.length, bitAt data k = bitAt data' k) : data = data' := by
  refine ext_getElem hlen fun i hi hi' => ?_
  apply UInt8.toNat_inj.mp
  apply Nat.eq_of_testBit_eq
  intro j
  by_cases hj : j < 8
  · have hbit := h (8 * i + (7 - j)) (by omega)
    rw [bitAt, bitAt, show (8 * i + (7 - j)) / 8 = i by omega, show 7 - (8 * i + (7 - j)) % 8 = j by omega,
      getD_eq_getElem _ _ hi, getD_eq_getElem _ _ hi'] at hbit
    exact hbit
  · have hpow : 2 ^ 8 ≤ 2 ^ j := Nat.pow_le_pow_right (by decide) (by omega)
    have hlt : ∀ b : UInt8, b.toNat < 2 ^ j := fun b => lt_of_lt_of_le b.toNat_lt hpow
    rw [Nat.testBit_lt_two_pow (hlt _), Nat.testBit_lt_two_pow (hlt _)]

/-! ### The decoder -/

def DecodeState.toStream (s : DecodeState) : Bitstream where
  buffer := s.output
  bytePos := s.bytePos
  bitPos := 7 - s.bitPos
  bitPos_lt := by omega

theorem decodeBit_stream (bitValue : UInt8) (s : DecodeState) :
    (decodeBit bitValue s).map DecodeState.toStream = writeBit s.toStream bitValue := by
  have hlt := s.bitPos_lt
  have hback : 7 - (7 - s.bitPos) = s.bitPos := by omega
  unfold decodeBit writeBit
  by_cases hfull : s.bytePos ≥ s.output.length
  · rw [if_pos hfull, if_pos (show s.toStream.bytePos ≥ s.toStream.buffer.length from hfull)]
    rfl
  · rw [if_neg hfull, if_neg (show ¬s.toStream.bytePos ≥ s.toStream.buffer.length from hfull)]
    show Option.map DecodeState.toStream (if s.bitPos = 0 then _ else _) = some (advance { s.toStream with
      buffer := if bitValue ≠ 0 then s.output.set s.bytePos (s.output.getD s.bytePos 0
        ||| (1 <<< UInt8.ofNat (7 - (7 - s.bitPos)))) else s.output })
    rw [hback]
    unfold advance
    by_cases hzero : s.bitPos = 0
    · rw [if_pos hzero, dif_neg (by show ¬7 - s.bitPos + 1 < 8; omega)]
      rfl
    · rw [if_neg hzero, dif_pos (by show 7 - s.bitPos + 1 < 8; omega)]
      have hbit : 7 - (s.bitPos - 1) = 7 - s.bitPos + 1 := by omega
      simp only [Option.map_some, DecodeState.toStream, hbit]

/-- The bits `l` are written when they fit, and otherwise the function fails. -/
def Writes (f : DecodeState → Option DecodeState) (l : List Bool) : Prop :=
  ∀ s : DecodeState, s.toStream.position ≤ 8 * s.output.length →
    if s.toStream.position + l.length ≤ 8 * s.output.length
    then ∃ s', f s = some s' ∧ Wrote s.toStream l s'.toStream else f s = none

theorem Writes.nil : Writes some [] := by
  intro s hs
  rw [if_pos (show s.toStream.position + [].length ≤ _ from hs)]
  exact ⟨s, rfl, Wrote.refl _⟩

theorem Writes.append {f g : DecodeState → Option DecodeState} {l l' : List Bool} (hf : Writes f l) (hg : Writes g l') :
    Writes (fun s => (f s).bind g) (l ++ l') := by
  intro s hs
  have hfirst := hf s hs
  rw [length_append]
  dsimp only
  by_cases hfit : s.toStream.position + l.length ≤ 8 * s.output.length
  · rw [if_pos hfit] at hfirst
    obtain ⟨s₁, hs₁, hwrote⟩ := hfirst
    have hlen : s₁.output.length = s.output.length := hwrote.length
    have hpos := hwrote.position
    have hsecond := hg s₁ (by omega)
    rw [hpos, hlen, Nat.add_assoc] at hsecond
    rw [hs₁]
    by_cases hboth : s.toStream.position + (l.length + l'.length) ≤ 8 * s.output.length
    · rw [if_pos hboth] at hsecond ⊢
      obtain ⟨s₂, hs₂, hwrote'⟩ := hsecond
      exact ⟨s₂, hs₂, hwrote.trans hwrote'⟩
    · rw [if_neg hboth] at hsecond ⊢
      exact hsecond
  · rw [if_neg hfit] at hfirst
    rw [hfirst, if_neg (by omega)]
    rfl

theorem decodeBit_writes (bitValue : UInt8) : Writes (decodeBit bitValue) [decide (bitValue ≠ 0)] := by
  intro s hs
  have hstream := decodeBit_stream bitValue s
  split
  · rename_i hfit
    obtain ⟨bs, hbs, hwrote⟩ := writeBit_wrote (show s.toStream.position < 8 * s.toStream.buffer.length from hfit) bitValue
    rw [hbs] at hstream
    obtain ⟨s', hs', rfl⟩ := Option.map_eq_some_iff.mp hstream
    exact ⟨s', hs', hwrote⟩
  · rename_i hfit
    rw [length_singleton] at hfit
    have hpos : 8 * s.bytePos + (7 - s.bitPos) = s.toStream.position := rfl
    rw [decodeBit, if_pos (by omega)]

theorem decodeRun_writes (bitValue : UInt8) (n : ℕ) :
    Writes (decodeRun bitValue n) (List.replicate n (decide (bitValue ≠ 0))) := by
  induction n with
  | zero => exact Writes.nil
  | succ n ih => exact (decodeBit_writes bitValue).append ih

def runBits (runs : List BitRun) : List Bool := expand (runs.map fun run => (decide (run.bitValue ≠ 0), run.runLength.toNat))

theorem runBits_length (runs : List BitRun) : (runBits runs).length = (runs.map fun run => run.runLength.toNat).sum := by
  rw [runBits, expand_length, map_map]
  rfl

theorem decodeLoop_writes (runs : List BitRun) :
    Writes (fun s => runs.foldlM (fun s run => decodeRun run.bitValue run.runLength.toNat s) s) (runBits runs) := by
  induction runs with
  | nil => exact Writes.nil
  | cons run runs ih => exact (decodeRun_writes run.bitValue run.runLength.toNat).append ih

theorem totalBits_le (runs : List BitRun) : totalBits runs ≤ (runBits runs).length := by
  have hfold : ∀ total, runs.foldl (fun total run => (total + run.runLength.toNat) % 2 ^ 64) total
      ≤ total + (runs.map fun run => run.runLength.toNat).sum := by
    induction runs with
    | nil => exact fun total => le_rfl
    | cons run runs ih =>
      intro total
      have hrest := ih ((total + run.runLength.toNat) % 2 ^ 64)
      have hmod := Nat.mod_le (total + run.runLength.toNat) (2 ^ 64)
      rw [foldl_cons, map_cons, sum_cons]
      omega
  rw [runBits_length, ← Nat.zero_add (List.sum _)]
  exact hfold 0

theorem bitAt_zeros (n k : ℕ) : bitAt (List.replicate n 0) k = false := by
  have hzero := bitAt_clear (create n) k
  rwa [show (clear (create n)).buffer = List.replicate n 0 by simp [clear, create]] at hzero

/-- **The decoder** succeeds exactly if there is a run and all bits fit, and its output are the bits of the runs, and
zeros behind them. -/
theorem decodeRuns_spec {runs : List BitRun} (hne : runs ≠ []) (outputSize : ℕ) :
    if (runBits runs).length ≤ 8 * outputSize then
      ∃ output, decodeRuns runs outputSize = some output ∧ output.length = outputSize ∧
        ∀ k, bitAt output k = (runBits runs).getD k false
    else decodeRuns runs outputSize = none := by
  have hloop := decodeLoop_writes runs
    { output := List.replicate outputSize 0, bytePos := 0, bitPos := 7, bitPos_lt := by decide } (Nat.zero_le _)
  have hlen : (List.replicate outputSize (0 : UInt8)).length = outputSize := length_replicate
  have hposition : Bitstream.position (DecodeState.toStream
    { output := List.replicate outputSize 0, bytePos := 0, bitPos := 7, bitPos_lt := by decide }) = 0 := rfl
  have hsome : runs.length ≠ 0 := fun h => hne (length_eq_zero_iff.mp h)
  rw [hposition, Nat.zero_add, hlen] at hloop
  unfold decodeRuns
  rw [if_neg hsome]
  dsimp only at hloop
  by_cases hfit : (runBits runs).length ≤ 8 * outputSize
  · rw [if_pos hfit] at hloop ⊢
    obtain ⟨s', hs', hwrote⟩ := hloop
    have htotal := totalBits_le runs
    rw [if_neg (by omega), hs']
    refine ⟨s'.output, rfl, ?_, ?_⟩
    · have hsize := hwrote.length
      exact hsize.trans hlen
    · intro k
      have hbits := hwrote.bits k
      rw [hposition, Nat.sub_zero] at hbits
      rw [show bitAt s'.output k = bitAt s'.toStream.buffer k from rfl, hbits]
      show (bitAt (List.replicate outputSize 0) k || _) = _
      rw [bitAt_zeros]
      rfl
  · rw [if_neg hfit] at hloop ⊢
    rw [hloop]
    split
    · rfl
    · rfl

/-! ### The encoder -/

def toRun (r : UInt8 × ℕ) : BitRun := ⟨UInt32.ofNat r.2, r.1⟩

def EncodeState.finish (maxRuns : ℕ) (s : EncodeState) : Option (List BitRun) :=
  if 0 < s.runLength then s.storeRun maxRuns else some s.runs

theorem foldlM_bits (data : List UInt8) (maxRuns : ℕ) (s : EncodeState) :
    data.foldlM (fun s byte => [7, 6, 5, 4, 3, 2, 1, 0].foldlM (fun s bitIdx => encodeBit maxRuns s (bitOf byte bitIdx)) s) s
      = (bitsOf data).foldlM (encodeBit maxRuns) s := by
  induction data generalizing s with
  | nil => rfl
  | cons byte data ih =>
    rw [bitsOf, flatMap_cons, List.foldlM_append, foldlM_cons, foldlM_map]
    congr 1
    funext s'
    exact ih s'

/-- The runs `l` behind what is stored already, if there is room. -/
def stored (maxRuns : ℕ) (runs : List BitRun) (l : List (UInt8 × ℕ)) : Option (List BitRun) :=
  if runs.length + l.length ≤ maxRuns then some (runs ++ l.map toRun) else none

theorem storeRun_bind {maxRuns : ℕ} {s : EncodeState} {l : List (UInt8 × ℕ)} {k : List BitRun → Option (List BitRun)}
    (hk : s.runs.length + 1 ≤ maxRuns → k (s.runs ++ [⟨s.runLength, s.currentBit⟩])
      = stored maxRuns (s.runs ++ [⟨s.runLength, s.currentBit⟩]) l) :
    (s.storeRun maxRuns).bind k = stored maxRuns s.runs ((s.currentBit, s.runLength.toNat) :: l) := by
  rw [EncodeState.storeRun]
  by_cases hfull : s.runs.length ≥ maxRuns
  · rw [if_pos hfull, stored, length_cons, if_neg (by omega)]
    rfl
  · rw [if_neg hfull, Option.bind_some, hk (by omega), stored, stored, length_append, length_singleton,
      length_cons, map_cons, toRun, UInt32.ofNat_toNat, append_assoc, Nat.add_assoc, Nat.add_comm 1 l.length]
    rfl

/-- **The encoder stores what is written**, as long as there is room. -/
theorem encodeLoop_eq (maxRuns : ℕ) (bits : List UInt8) {s : EncodeState} (hlt : s.runLength < uint32Max)
    (hroom : s.runs.length ≤ maxRuns) : (bits.foldlM (encodeBit maxRuns) s).bind (EncodeState.finish maxRuns)
      = stored maxRuns s.runs (emit uint32Max.toNat s.currentBit s.runLength.toNat bits) := by
  induction bits generalizing s with
  | nil =>
    show s.finish maxRuns = _
    rw [EncodeState.finish, emit]
    by_cases hzero : s.runLength.toNat = 0
    · have hnot : ¬0 < s.runLength := by
        rw [UInt32.lt_iff_toNat_lt, hzero]
        exact Nat.lt_irrefl 0
      rw [if_neg hnot, if_pos hzero, stored, if_pos (show s.runs.length + [].length ≤ maxRuns from hroom), map_nil,
        append_nil]
    · have hpos : 0 < s.runLength := UInt32.lt_iff_toNat_lt.mpr (Nat.pos_of_ne_zero hzero)
      rw [if_pos hpos, if_neg hzero, ← Option.bind_fun_some (s.storeRun maxRuns)]
      apply storeRun_bind
      intro hfit
      rw [stored, if_pos (by rw [length_append]; exact hfit), map_nil, append_nil]
  | cons bit bits ih =>
    have hnat : s.runLength.toNat < 4294967295 := UInt32.lt_iff_toNat_lt.mp hlt
    have hnext : (s.runLength + 1).toNat = s.runLength.toNat + 1 := by
      rw [UInt32.toNat_add, UInt32.toNat_one, Nat.mod_eq_of_lt (by omega)]
    have hlen : ∀ r : BitRun, s.runs.length + 1 ≤ maxRuns → (s.runs ++ [r]).length ≤ maxRuns := by
      intro r hfit
      rw [length_append]
      exact hfit
    rw [foldlM_cons, emit]
    show ((encodeBit maxRuns s bit).bind fun s' => bits.foldlM (encodeBit maxRuns) s').bind _ = _
    rw [Option.bind_assoc, encodeBit]
    by_cases hbit : bit = s.currentBit
    · rw [if_pos hbit, if_pos hbit]
      dsimp only
      by_cases hmax : s.runLength + 1 = uint32Max
      · -- the counter is full
        have hmaxNat : s.runLength.toNat + 1 = uint32Max.toNat := by rw [← hnext, hmax]
        rw [if_pos hmax, if_pos hmaxNat, ← hmaxNat, ← hnext, hmax]
        show (Option.bind _ _).bind _ = _
        rw [Option.bind_assoc]
        apply storeRun_bind (s := { s with runLength := uint32Max })
        intro hfit
        exact ih (by show (0 : UInt32) < uint32Max; decide) (hlen _ hfit)
      · have hne : s.runLength.toNat + 1 ≠ uint32Max.toNat := by
          intro heq
          exact hmax (UInt32.toNat_inj.mp (hnext.trans heq))
        have hless : s.runLength + 1 < uint32Max := by
          rw [UInt32.lt_iff_toNat_lt, hnext]
          have hword : uint32Max.toNat = 4294967295 := rfl
          omega
        rw [if_neg hmax, if_neg hne, Option.bind_some, ← hnext]
        exact ih hless hroom
    · rw [if_neg hbit, if_neg hbit]
      show (Option.bind _ _).bind _ = _
      rw [Option.bind_assoc]
      apply storeRun_bind
      intro hfit
      exact ih (by show (1 : UInt32) < uint32Max; decide) (hlen _ hfit)

def writtenRuns (data : List UInt8) : List (UInt8 × ℕ) := emit uint32Max.toNat (bitOf (data.headD 0) 7) 0 (bitsOf data)

theorem encodeRuns_eq {data : List UInt8} (hne : data ≠ []) (maxRuns : ℕ) :
    encodeRuns data maxRuns = stored maxRuns [] (writtenRuns data) := by
  cases data with
  | nil => exact absurd rfl hne
  | cons byte data =>
    have hloop := encodeLoop_eq maxRuns (bitsOf (byte :: data))
      (s := { currentBit := bitOf byte 7, runLength := 0, runs := [] }) (by show (0 : UInt32) < uint32Max; decide)
      (Nat.zero_le _)
    rw [encodeRuns, foldlM_bits]
    exact hloop

/-! ### There and back -/

/-- The maximal runs of equal bits, each of them cut into pieces of at most `UINT32_MAX`. -/
def neededRuns (data : List UInt8) : List (UInt8 × ℕ) := (groups (bitsOf data)).flatMap (cut uint32Max.toNat)

/-- No run of equal bits that another one follows is a multiple of `UINT32_MAX` long. -/
def NoFullRun (data : List UInt8) : Prop := ∀ r ∈ (groups (bitsOf data)).dropLast, r.2 % uint32Max.toNat ≠ 0

theorem bitsOf_cons (byte : UInt8) (data : List UInt8) : ∃ bits, bitsOf (byte :: data) = bitOf byte 7 :: bits := ⟨_, rfl⟩

theorem writtenRuns_eq {data : List UInt8} (hne : data ≠ []) (h : NoFullRun data) : writtenRuns data = neededRuns data := by
  cases data with
  | nil => exact absurd rfl hne
  | cons byte data =>
    obtain ⟨bits, hbits⟩ := bitsOf_cons byte data
    rw [NoFullRun, hbits] at h
    rw [writtenRuns, neededRuns, hbits]
    exact emit_eq (by decide) _ _ h

theorem encodeRuns_eq_some {data : List UInt8} (hne : data ≠ []) {maxRuns : ℕ} {runs : List BitRun}
    (h : encodeRuns data maxRuns = some runs) : runs = (writtenRuns data).map toRun := by
  rw [encodeRuns_eq hne, stored, nil_append] at h
  split at h
  · exact (Option.some.inj h).symm
  · cases h

/-- **When no empty run is stored.**  Behind a run of full pieces the counter stands at 0, and the other bit stores it. -/
theorem noFullRun_iff {data : List UInt8} (hne : data ≠ []) {maxRuns : ℕ} {runs : List BitRun}
    (h : encodeRuns data maxRuns = some runs) : NoFullRun data ↔ ∀ run ∈ runs, 1 ≤ run.runLength := by
  rw [encodeRuns_eq_some hne h]
  constructor
  · intro hfull run hrun
    rw [writtenRuns_eq hne hfull] at hrun
    obtain ⟨r, hr, rfl⟩ := mem_map.mp hrun
    obtain ⟨g, -, hcut⟩ := mem_flatMap.mp hr
    obtain ⟨hpos, hle⟩ := cut_pos (by decide) hcut
    have hmax : uint32Max.toNat = 4294967295 := rfl
    rw [UInt32.le_iff_toNat_le]
    show 1 ≤ (UInt32.ofNat r.2).toNat
    rw [UInt32.toNat_ofNat_of_lt' (by show r.2 < 4294967296; omega)]
    exact hpos
  · intro hall r hr hmod
    cases data with
    | nil => exact hne rfl
    | cons byte data =>
      obtain ⟨bits, hbits⟩ := bitsOf_cons byte data
      rw [hbits] at hr
      obtain ⟨p, hp, hzero⟩ := emit_empty (by decide) _ _ hr hmod
      rw [← hbits] at hp
      have hone := hall (toRun p) (mem_map_of_mem hp)
      rw [toRun, hzero] at hone
      exact absurd hone (by show ¬(1 : UInt32) ≤ 0; decide)

theorem runBits_written (data : List UInt8) : runBits ((writtenRuns data).map toRun) = bitsFrom data 0 (8 * data.length) := by
  have hword : ∀ r ∈ writtenRuns data, (UInt32.ofNat r.2).toNat = r.2 := by
    intro r hr
    have hle := emit_le (by decide) _ (by decide : 0 < uint32Max.toNat) _ r hr
    have hmax : uint32Max.toNat = 4294967295 := rfl
    exact UInt32.toNat_ofNat_of_lt' (by
      show r.2 < 4294967296
      omega)
  have hexpand : expand (writtenRuns data) = bitsOf data := expand_emit _ 0 _
  have hmap : ((writtenRuns data).map toRun).map (fun run => (decide (run.bitValue ≠ 0), run.runLength.toNat))
      = (writtenRuns data).map fun r => (decide (r.1 ≠ 0), r.2) := by
    rw [map_map]
    apply map_congr_left
    intro r hr
    show (decide (r.1 ≠ 0), (UInt32.ofNat r.2).toNat) = _
    rw [hword r hr]
  rw [runBits, hmap, expand_map fun bit : UInt8 => decide (bit ≠ 0), hexpand, bitsOf_eq]

/-- **Bit runs there and back.**  The encoder of a byte string that is not empty succeeds exactly if there is room for its
runs, cut into pieces, and stores no empty run, provided that no run but the last is a multiple of `UINT32_MAX` long;
whatever it stores, the decoder turns it into the string again.  For every list of runs that is not empty the decoder
succeeds exactly if the bits fit the output. -/
theorem runs_roundTrip (data : List UInt8) (hne : data ≠ []) (maxRuns : ℕ) :
    (NoFullRun data → ((encodeRuns data maxRuns).isSome ↔ (neededRuns data).length ≤ maxRuns) ∧
      ∀ runs, encodeRuns data maxRuns = some runs → ∀ run ∈ runs, 1 ≤ run.runLength) ∧
    (∀ runs, encodeRuns data maxRuns = some runs → decodeRuns runs data.length = some data) ∧
    ∀ runs : List BitRun, runs ≠ [] → ∀ outputSize, (decodeRuns runs outputSize).isSome ↔
      (runs.map fun run => run.runLength.toNat).sum ≤ 8 * outputSize := by
  refine ⟨fun hfull => ?_, fun runs hruns => ?_, fun runs hruns outputSize => ?_⟩
  · refine ⟨?_, fun runs hruns => (noFullRun_iff hne hruns).mp hfull⟩
    rw [encodeRuns_eq hne, writtenRuns_eq hne hfull, stored, length_nil, Nat.zero_add]
    by_cases hroom : (neededRuns data).length ≤ maxRuns
    · rw [if_pos hroom]
      exact iff_of_true rfl hroom
    · rw [if_neg hroom]
      exact iff_of_false (by decide) hroom
  · obtain rfl := encodeRuns_eq_some hne hruns
    have hbits := runBits_written data
    have hlen : (runBits ((writtenRuns data).map toRun)).length = 8 * data.length := by rw [hbits, bitsFrom_length]
    -- the string has a bit, so there is a run
    have hrun : (writtenRuns data).map toRun ≠ [] := by
      intro hnil
      rw [hnil] at hlen
      have hzero : 8 * data.length = 0 := hlen.symm
      exact hne (length_eq_zero_iff.mp (by omega))
    have hspec := decodeRuns_spec hrun data.length
    rw [if_pos hlen.le] at hspec
    obtain ⟨output, houtput, hsize, hat⟩ := hspec
    rw [houtput, eq_of_bitAt hsize fun k hk => ?_]
    rw [hat, hbits, getD_eq_getElem _ _ (by rw [bitsFrom_length]; omega), bitsFrom_getElem, Nat.zero_add]
  · have hspec := decodeRuns_spec hruns outputSize
    rw [runBits_length] at hspec
    by_cases hfit : (runs.map fun run => run.runLength.toNat).sum ≤ 8 * outputSize
    · rw [if_pos hfit] at hspec
      obtain ⟨output, houtput, -⟩ := hspec
      rw [houtput]
      exact iff_of_true rfl hfit
    · rw [if_neg hfit] at hspec
      rw [hspec]
      exact iff_of_false (by decide) hfit

/-- Two bytes with three runs. -/
theorem runs_roundTrip_bytes : ((encodeRuns [0xF0, 0x01] 3).isSome ↔ (neededRuns [0xF0, 0x01]).length ≤ 3) ∧
    (∀ runs, encodeRuns [0xF0, 0x01] 3 = some runs → decodeRuns runs 2 = some [0xF0, 0x01]) ∧
    ((decodeRuns [⟨3, 1⟩] 1).isSome ↔ 3 ≤ 8 * 1) := by
  have hfull : NoFullRun [0xF0, 0x01] := by
    show ∀ r ∈ (groups (bitsOf [0xF0, 0x01])).dropLast, r.2 % uint32Max.toNat ≠ 0
    decide
  have hboth := runs_roundTrip [0xF0, 0x01] (by decide) 3
  exact ⟨(hboth.1 hfull).1, hboth.2.1, hboth.2.2 [⟨3, 1⟩] (by decide) 1⟩

/-- No runs fit every output, and are refused. -/
theorem no_runs_refused : (([] : List BitRun).map fun run => run.runLength.toNat).sum ≤ 8 * 1 ∧ decodeRuns [] 1 = none := by
  decide

end Bitraf
