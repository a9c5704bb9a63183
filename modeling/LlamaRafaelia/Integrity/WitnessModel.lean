import LlamaRafaelia.Integrity.WitnessQ4
import Mathlib.Algebra.Order.Group.Nat

/-!
# The witness of a tensor

`witness_tensor` goes over a buffer in pieces of `stride` bytes.  The CRC is carried on; the XOR fold puts byte `i` of
a piece into lane `i % 8`, so pieces at other offsets are folded differently than in a single pass.

* `tensorLoop_pieces` - **the loop takes every byte once**: it adds up pieces whose concatenation is the buffer;
* **`witness_stride_iff`** - the CRC and the number of bytes never depend on the stride, and the report of every buffer of a
  size is that of a single pass exactly if the stride is 0, not less than the size, or a multiple of eight.
-/

namespace Integrity.WitnessModel

open List

/-! ### The report -/

/-- `witness_report` of the models. -/
structure WitnessReport where
  crc32c : BitVec 32 := 0#32
  xorfold : BitVec 64 := 0#64
  bytesSampled : ℕ := 0
  ok : Bool := false
  deriving DecidableEq, Repr

/-- `xorfold_bytes`. -/
def xorfoldBytes (data : List UInt8) : BitVec 64 :=
  data.zipIdx.foldl (fun acc p => acc ^^^ (BitVec.setWidth 64 p.1.toBitVec <<< (p.2 % 8 * 8))) 0#64

/-- The body of the loop of `witness_tensor`, for one piece. -/
def addPiece (report : WitnessReport) (piece : List UInt8) : WitnessReport :=
  { report with
    crc32c := crc32cExtend report.crc32c piece
    xorfold := report.xorfold ^^^ xorfoldBytes piece
    bytesSampled := report.bytesSampled + piece.length }

/-- The loop of `witness_tensor` on the bytes from `offset` on; `none` when the fuel is used up.  A buffer has less than
`2 ^ 63` bytes, so that `offset += step` does not wrap. -/
def tensorLoop (step : ℕ) : ℕ → List UInt8 → WitnessReport → Option WitnessReport
  | _, [], report => some report
  | 0, _ :: _, _ => none
  | fuel + 1, b :: rest, report =>
    tensorLoop step fuel ((b :: rest).drop step) (addPiece report ((b :: rest).take step))

def finalize (report : WitnessReport) : WitnessReport :=
  { report with crc32c := crc32cFinalize report.crc32c, ok := decide (0 < report.bytesSampled) }

/-- `witness_tensor`; a null pointer is `none`. -/
def witnessTensor (data : Option (List UInt8)) (stride : ℕ) : Option WitnessReport :=
  match data with
  | none => some {}
  | some [] => some {}
  | some (b :: bytes) =>
    let step := if 0 < stride then stride else (b :: bytes).length
    (tensorLoop step (b :: bytes).length (b :: bytes) {}).map finalize

def singlePass (data : List UInt8) : WitnessReport where
  crc32c := crc32cCompute data
  xorfold := xorfoldBytes data
  bytesSampled := data.length
  ok := true

/-! ### Lanes -/

/-- The fold of bytes the first of which goes to lane `k`. -/
def xorfoldFrom (k : ℕ) : List UInt8 → BitVec 64
  | [] => 0#64
  | b :: data => (BitVec.setWidth 64 b.toBitVec <<< (k % 8 * 8)) ^^^ xorfoldFrom (k + 1) data

theorem xorfoldBytes_eq (data : List UInt8) : xorfoldBytes data = xorfoldFrom 0 data := by
  have hfold : ∀ (k : ℕ) (acc : BitVec 64), (data.zipIdx k).foldl
      (fun acc p => acc ^^^ (BitVec.setWidth 64 p.1.toBitVec <<< (p.2 % 8 * 8))) acc = acc ^^^ xorfoldFrom k data := by
    induction data with
    | nil =>
      intro k acc
      exact BitVec.xor_zero.symm
    | cons b data ih =>
      intro k acc
      rw [zipIdx_cons, foldl_cons, ih, xorfoldFrom, BitVec.xor_assoc]
  rw [xorfoldBytes, hfold, BitVec.zero_xor]

theorem xorfoldFrom_append (k : ℕ) (data data' : List UInt8) :
    xorfoldFrom k (data ++ data') = xorfoldFrom k data ^^^ xorfoldFrom (k + data.length) data' := by
  induction data generalizing k with
  | nil => exact BitVec.zero_xor.symm
  | cons b data ih =>
    rw [cons_append, xorfoldFrom, ih, xorfoldFrom, BitVec.xor_assoc, length_cons,
      show k + 1 + data.length = k + (data.length + 1) by omega]

theorem xorfoldFrom_congr {k k' : ℕ} (h : k % 8 = k' % 8) (data : List UInt8) : xorfoldFrom k data = xorfoldFrom k' data := by
  induction data generalizing k k' with
  | nil => rfl
  | cons b data ih => rw [xorfoldFrom, xorfoldFrom, h, ih (show (k + 1) % 8 = (k' + 1) % 8 by omega)]

theorem xorfoldFrom_zeros (k n : ℕ) : xorfoldFrom k (List.replicate n 0) = 0#64 := by
  induction n generalizing k with
  | zero => rfl
  | succ n ih =>
    rw [replicate_succ, xorfoldFrom, ih, BitVec.xor_zero]
    exact BitVec.zero_shiftLeft _

/-! ### The loop -/

/-- Stretches of `step` bytes, the last one perhaps shorter. -/
def Stretches (step : ℕ) (pieces : List (List UInt8)) : Prop :=
  (∀ piece ∈ pieces, 0 < piece.length ∧ piece.length ≤ step) ∧ ∀ piece ∈ pieces.dropLast, piece.length = step

theorem Stretches.cons {step : ℕ} {pieces : List (List UInt8)} (h : Stretches step pieces) {b : UInt8} {rest : List UInt8}
    (hstep : 0 < step) (hflat : pieces.flatten = (b :: rest).drop step) :
    Stretches step ((b :: rest).take step :: pieces) := by
  have hlen : ((b :: rest).take step).length = min step (rest.length + 1) := by rw [length_take, length_cons]
  refine ⟨forall_mem_cons.mpr ⟨by omega, h.1⟩, ?_⟩
  cases pieces with
  | nil => exact fun piece hmem => absurd hmem not_mem_nil
  | cons piece pieces =>
    rw [dropLast_cons_cons, forall_mem_cons]
    refine ⟨?_, h.2⟩
    have hpos := (h.1 piece mem_cons_self).1
    have hdrop := congrArg List.length hflat
    rw [flatten_cons, length_append, length_drop, length_cons] at hdrop
    omega

theorem tensorLoop_pieces {step : ℕ} (hstep : 0 < step) {fuel : ℕ} {rest : List UInt8} (hfuel : rest.length ≤ fuel)
    (report : WitnessReport) : ∃ pieces : List (List UInt8), pieces.flatten = rest ∧ Stretches step pieces ∧
      tensorLoop step fuel rest report = some (pieces.foldl addPiece report) := by
  induction fuel generalizing rest report with
  | zero =>
    obtain rfl := length_eq_zero_iff.mp (Nat.le_zero.mp hfuel)
    exact ⟨[], rfl, by simp [Stretches], rfl⟩
  | succ fuel ih =>
    cases rest with
    | nil => exact ⟨[], rfl, by simp [Stretches], rfl⟩
    | cons b rest =>
      have hshort : ((b :: rest).drop step).length ≤ fuel := by
        rw [length_drop]
        omega
      obtain ⟨pieces, hflat, hpieces, hloop⟩ := ih hshort (addPiece report ((b :: rest).take step))
      refine ⟨(b :: rest).take step :: pieces, ?_, hpieces.cons hstep hflat, hloop⟩
      rw [flatten_cons, hflat, take_append_drop]

theorem addPieces_eq (pieces : List (List UInt8)) (report : WitnessReport) :
    (pieces.foldl addPiece report).crc32c = crc32cExtend report.crc32c pieces.flatten ∧
    (pieces.foldl addPiece report).bytesSampled = report.bytesSampled + pieces.flatten.length := by
  induction pieces generalizing report with
  | nil => exact ⟨(crc32cExtend_chunks report.crc32c []), rfl⟩
  | cons piece pieces ih =>
    obtain ⟨hcrc, hbytes⟩ := ih (addPiece report piece)
    rw [foldl_cons, hcrc, hbytes, flatten_cons]
    refine ⟨crc32cExtend_append report.crc32c piece pieces.flatten, ?_⟩
    rw [length_append, ← Nat.add_assoc]
    rfl

def loopFold (step : ℕ) : ℕ → List UInt8 → BitVec 64
  | _, [] => 0#64
  | 0, _ :: _ => 0#64
  | fuel + 1, b :: rest => xorfoldBytes ((b :: rest).take step) ^^^ loopFold step fuel ((b :: rest).drop step)

theorem tensorLoop_xorfold {step fuel : ℕ} {rest : List UInt8} {report report' : WitnessReport}
    (h : tensorLoop step fuel rest report = some report') : report'.xorfold = report.xorfold ^^^ loopFold step fuel rest := by
  induction fuel generalizing rest report with
  | zero =>
    cases rest with
    | nil =>
      obtain rfl := Option.some.inj h
      exact BitVec.xor_zero.symm
    | cons b rest => cases h
  | succ fuel ih =>
    cases rest with
    | nil =>
      obtain rfl := Option.some.inj h
      exact BitVec.xor_zero.symm
    | cons b rest =>
      rw [ih h, loopFold, ← BitVec.xor_assoc]
      rfl

theorem loopFold_whole {step fuel : ℕ} {rest : List UInt8} (hlen : rest.length ≤ step) (hfuel : rest.length ≤ fuel) :
    loopFold step fuel rest = xorfoldBytes rest := by
  cases rest with
  | nil => cases fuel <;> rfl
  | cons b rest =>
    obtain ⟨fuel, rfl⟩ : ∃ n, fuel = n + 1 := ⟨fuel - 1, by rw [length_cons] at hfuel; omega⟩
    rw [loopFold, take_of_length_le hlen, drop_eq_nil_of_le hlen]
    cases fuel <;> exact BitVec.xor_zero

theorem loopFold_aligned {step : ℕ} (hstep : 0 < step) (h8 : 8 ∣ step) {fuel : ℕ} {rest : List UInt8}
    (hfuel : rest.length ≤ fuel) : loopFold step fuel rest = xorfoldBytes rest := by
  induction fuel generalizing rest with
  | zero =>
    obtain rfl := length_eq_zero_iff.mp (Nat.le_zero.mp hfuel)
    rfl
  | succ fuel ih =>
    by_cases hlen : rest.length ≤ step
    · exact loopFold_whole hlen hfuel
    · cases rest with
      | nil => rfl
      | cons b rest =>
        have hshort : ((b :: rest).drop step).length ≤ fuel := by
          rw [length_drop]
          omega
        have htake : ((b :: rest).take step).length = step := by
          rw [length_take]
          omega
        obtain ⟨m, rfl⟩ := h8
        have hlane : xorfoldFrom 0 ((b :: rest).drop (8 * m)) = xorfoldFrom (0 + 8 * m) ((b :: rest).drop (8 * m)) :=
          xorfoldFrom_congr (by omega) _
        rw [loopFold, ih hshort, xorfoldBytes_eq, xorfoldBytes_eq, hlane]
        conv_rhs => rw [xorfoldBytes_eq, ← take_append_drop (8 * m) (b :: rest), xorfoldFrom_append, htake]

/-! ### The stride -/

theorem witnessTensor_eq {data : List UInt8} (hne : data ≠ []) (stride : ℕ) : witnessTensor (some data) stride
    = some { singlePass data with xorfold := loopFold (if 0 < stride then stride else data.length) data.length data } := by
  obtain ⟨b, bytes, rfl⟩ := exists_cons_of_ne_nil hne
  have hstep : 0 < if 0 < stride then stride else (b :: bytes).length := by
    split
    · assumption
    · exact Nat.succ_pos _
  obtain ⟨pieces, hflat, -, hloop⟩ := tensorLoop_pieces hstep (le_refl (b :: bytes).length) {}
  obtain ⟨hcrc, hbytes⟩ := addPieces_eq pieces {}
  have hxor := tensorLoop_xorfold hloop
  rw [hflat] at hcrc hbytes
  rw [witnessTensor, hloop]
  show some (finalize (pieces.foldl addPiece {})) = _
  have hcount : ({} : WitnessReport).bytesSampled + (b :: bytes).length = (b :: bytes).length := Nat.zero_add _
  rw [finalize, hcrc, hbytes, hxor, hcount]
  congr 2
  exact BitVec.zero_xor

/-- A buffer with a single byte that is not zero, at position `stride`. -/
def spike (size stride : ℕ) : List UInt8 := List.replicate stride 0 ++ 1 :: List.replicate (size - stride - 1) 0

theorem loopFold_zeros {step : ℕ} (fuel n : ℕ) : loopFold step fuel (List.replicate n 0) = 0#64 := by
  induction fuel generalizing n with
  | zero => cases n <;> rfl
  | succ fuel ih =>
    cases n with
    | zero => rfl
    | succ n =>
      rw [replicate_succ, loopFold, ← replicate_succ, take_replicate, drop_replicate, ih, xorfoldBytes_eq,
        xorfoldFrom_zeros]
      rfl

theorem spike_folds {size stride : ℕ} (hpos : 0 < stride) (hlt : stride < size) :
    loopFold stride size (spike size stride) = 1#64 ∧
    xorfoldBytes (spike size stride) = 1#64 <<< (stride % 8 * 8) := by
  have hone : BitVec.setWidth 64 (1 : UInt8).toBitVec = 1#64 := rfl
  constructor
  · obtain ⟨n, rfl⟩ : ∃ n, size = n + 2 := ⟨size - 2, by omega⟩
    obtain ⟨m, rfl⟩ : ∃ m, stride = m + 1 := ⟨stride - 1, by omega⟩
    have htake : (spike (n + 2) (m + 1)).take (m + 1) = List.replicate (m + 1) 0 := take_left' length_replicate
    have hdrop : (spike (n + 2) (m + 1)).drop (m + 1) = 1 :: List.replicate (n + 2 - (m + 1) - 1) 0 :=
      drop_left' length_replicate
    have hcons : spike (n + 2) (m + 1) = 0 :: (List.replicate m 0 ++ 1 :: List.replicate (n + 2 - (m + 1) - 1) 0) := rfl
    rw [hcons, loopFold, ← hcons, htake, hdrop, loopFold, take_succ_cons, drop_succ_cons, take_replicate,
      drop_replicate, loopFold_zeros, xorfoldBytes_eq, xorfoldBytes_eq, xorfoldFrom_zeros, xorfoldFrom,
      xorfoldFrom_zeros, hone]
    rfl
  · rw [xorfoldBytes_eq, spike, xorfoldFrom_append, xorfoldFrom_zeros, length_replicate, xorfoldFrom, xorfoldFrom_zeros,
      Nat.zero_add, BitVec.xor_zero, BitVec.zero_xor, hone]

/-- **When the stride does not matter.**  For every buffer and stride the pieces of the loop are the stretches of that many
bytes and make up the buffer, and the CRC and the number of bytes are those of a single pass.  All buffers of a size have the report of a single pass exactly if the
stride is 0, not less than the size, or a multiple of eight. -/
theorem witness_stride_iff :
    (∀ (data : List UInt8) (stride : ℕ), data ≠ [] → ∃ (pieces : List (List UInt8)) (report : WitnessReport),
      pieces.flatten = data ∧ Stretches (if 0 < stride then stride else data.length) pieces ∧
      witnessTensor (some data) stride = some report ∧ report = finalize (pieces.foldl addPiece {}) ∧
      report.crc32c = crc32cCompute data ∧ report.bytesSampled = data.length ∧ report.ok = true) ∧
    ∀ size stride, 0 < size →
      ((∀ data : List UInt8, data.length = size → witnessTensor (some data) stride = some (singlePass data)) ↔
        stride = 0 ∨ size ≤ stride ∨ 8 ∣ stride) := by
  constructor
  · intro data stride hne
    obtain ⟨b, bytes, rfl⟩ := exists_cons_of_ne_nil hne
    have hstep : 0 < if 0 < stride then stride else (b :: bytes).length := by
      split
      · assumption
      · exact Nat.succ_pos _
    obtain ⟨pieces, hflat, hstretches, hloop⟩ := tensorLoop_pieces hstep (le_refl (b :: bytes).length) {}
    have hreport := witnessTensor_eq hne stride
    have hpieces : witnessTensor (some (b :: bytes)) stride = some (finalize (pieces.foldl addPiece {})) := by
      rw [witnessTensor, hloop]
      rfl
    refine ⟨pieces, _, hflat, hstretches, hpieces, rfl, ?_⟩
    rw [← Option.some.inj (hreport.symm.trans hpieces)]
    exact ⟨rfl, rfl, rfl⟩
  · intro size stride hsize
    have hfold : ∀ data : List UInt8, data.length = size → (witnessTensor (some data) stride = some (singlePass data) ↔
        loopFold (if 0 < stride then stride else size) size data = xorfoldBytes data) := by
      intro data hlen
      have hne : data ≠ [] := by
        rintro rfl
        rw [length_nil] at hlen
        omega
      rw [witnessTensor_eq hne stride, hlen]
      constructor
      · intro h
        exact congrArg WitnessReport.xorfold (Option.some.inj h)
      · intro h
        rw [h]
        rfl
    constructor
    · intro h
      by_contra hnot
      obtain ⟨hstride, hless, h8⟩ : stride ≠ 0 ∧ ¬size ≤ stride ∧ ¬8 ∣ stride := by
        refine ⟨fun h0 => hnot (.inl h0), fun hle => hnot (.inr (.inl hle)), fun hdvd => hnot (.inr (.inr hdvd))⟩
      have hlt : stride < size := by omega
      have hlen : (spike size stride).length = size := by
        simp only [spike, length_append, length_cons, length_replicate]
        omega
      have hspike := (hfold _ hlen).mp (h _ hlen)
      obtain ⟨hloop, hbytes⟩ := spike_folds (Nat.pos_of_ne_zero hstride) hlt
      rw [if_pos (Nat.pos_of_ne_zero hstride), hloop, hbytes] at hspike
      have hlane : stride % 8 ≠ 0 := fun h0 => h8 (Nat.dvd_of_mod_eq_zero h0)
      have hbound : stride % 8 < 8 := Nat.mod_lt _ (by decide)
      have hlanes : ∀ lane < 8, lane ≠ 0 → 1#64 ≠ 1#64 <<< (lane * 8) := by decide
      exact hlanes _ hbound hlane hspike
    · intro hcond data hlen
      rw [hfold data hlen]
      by_cases hstride : 0 < stride
      · rw [if_pos hstride]
        rcases hcond with h0 | hle | h8
        · omega
        · exact loopFold_whole (by omega) hlen.le
        · exact loopFold_aligned hstride h8 hlen.le
      · rw [if_neg hstride]
        exact loopFold_whole hlen.le hlen.le

theorem witness_stride_three : (∃ (pieces : List (List UInt8)) (report : WitnessReport),
      pieces.flatten = [1, 2, 3] ∧ Stretches 2 pieces ∧ witnessTensor (some [1, 2, 3]) 2 = some report ∧
      report = finalize (pieces.foldl addPiece {}) ∧ report.crc32c = crc32cCompute [1, 2, 3] ∧
      report.bytesSampled = [1, 2, 3].length ∧ report.ok = true) ∧
    ((∀ data : List UInt8, data.length = 3 → witnessTensor (some data) 2 = some (singlePass data)) ↔
      2 = 0 ∨ 3 ≤ 2 ∨ 8 ∣ 2) :=
  ⟨(witness_stride_iff).1 [1, 2, 3] 2 (by decide), (witness_stride_iff).2 3 2 (by decide)⟩

/-- Two bytes in pieces of one. -/
theorem stride_matters : (witnessTensor (some [0, 1]) 1).map WitnessReport.xorfold = some 0x1#64 ∧
    (singlePass [0, 1]).xorfold = 0x100#64 := by
  decide +kernel

end Integrity.WitnessModel
