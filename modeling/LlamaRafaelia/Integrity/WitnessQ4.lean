import LlamaRafaelia.Lib.Crc

/-!
# CRC-32C, and the witness of a Q4 block

The repository computes CRC-32C twice: `crc32c_extend` from a table of 256 words, and `crc32c_update` of `witness_q4`
bit by bit.  Both are the register of `Crc` with the polynomial `0x82f63b78`, inverted before and after.

* **`witness_is_crc32c`** - the implementations agree, the witness is the CRC of weights and meta, and a
  corruption within 32 consecutive bits changes it.
-/

namespace Integrity

open List Crc BitVec

/-! ### The table-driven CRC -/

/-- `kCrc32cPolynomial`. -/
def crc32cPolynomial : BitVec 32 := 0x82f63b78#32

/-- The inner loop of `init_table`, once. -/
def tableStep (crc : BitVec 32) : BitVec 32 :=
  if crc &&& 1#32 ≠ 0#32 then (crc >>> 1) ^^^ crc32cPolynomial else crc >>> 1

/-- `g_table` as `init_table` fills it; the first `crc32c_extend` of a program does so. -/
def initTable : List (BitVec 32) := (List.range 256).map fun i => tableStep^[8] (BitVec.ofNat 32 i)

/-- The loop of `crc32c_extend`, once. -/
def extendStep (crc : BitVec 32) (b : UInt8) : BitVec 32 :=
  initTable.getD ((crc ^^^ b.toBitVec.setWidth 32) &&& 0xff#32).toNat 0#32 ^^^ (crc >>> 8)

/-- `crc32c_extend`. -/
def crc32cExtend (crc : BitVec 32) (data : List UInt8) : BitVec 32 := ~~~ data.foldl extendStep (~~~ crc)

/-- `crc32c_finalize`. -/
def crc32cFinalize (crc : BitVec 32) : BitVec 32 := crc

/-- `crc32c_compute`. -/
def crc32cCompute (data : List UInt8) : BitVec 32 := crc32cFinalize (crc32cExtend 0#32 data)

/-! ### The witness -/

/-- `witness_mode`. -/
inductive WitnessMode
  | xorFold
  | crc32c
  deriving DecidableEq, Repr

/-- `fallback_mode`. -/
inductive FallbackMode
  | none
  | zero
  | quarantine
  deriving DecidableEq, Repr

/-- `q4_block_view` and `q4_block_mut_view`.  A null pointer is `none`; the sizes are the lengths. -/
structure Q4BlockView where
  weights : Option (List UInt8) := none
  metaData : Option (List UInt8) := none
  witness : BitVec 32 := 0#32

/-- `witness_config`. -/
structure WitnessConfig where
  mode : WitnessMode := .xorFold
  warmup : Bool := false
  fallback : FallbackMode := .none

/-- `witness_report`. -/
structure WitnessReport where
  ok : Bool := true
  computed : BitVec 32 := 0#32

/-- `xor_fold_update`: byte `i` goes to byte `i % 4` of the word. -/
def xorFoldUpdate (acc : BitVec 32) : Option (List UInt8) → BitVec 32
  | none => acc
  | some data => data.zipIdx.foldl (fun acc p => acc ^^^ (setWidth 32 p.1.toBitVec <<< (p.2 % 4 * 8))) acc

/-- The inner loop of `crc32c_update`, once. -/
def serialStep (crc : BitVec 32) : BitVec 32 :=
  let mask := -(crc &&& 1#32)
  (crc >>> 1) ^^^ (0x82F63B78#32 &&& mask)

/-- `crc32c_update`. -/
def crc32cUpdate (crc : BitVec 32) : Option (List UInt8) → BitVec 32
  | none => crc
  | some [] => crc
  | some data => ~~~ data.foldl (fun crc b => serialStep^[8] (crc ^^^ b.toBitVec.setWidth 32)) (~~~ crc)

/-- `compute_witness`. -/
def computeWitness (data : Option (List UInt8)) (mode : WitnessMode) : BitVec 32 :=
  match mode with
  | .crc32c => crc32cUpdate 0#32 data
  | .xorFold => xorFoldUpdate 0#32 data

/-- `compute_q4_witness`. -/
def computeQ4Witness (view : Q4BlockView) (mode : WitnessMode) : BitVec 32 :=
  match mode with
  | .crc32c => crc32cUpdate (crc32cUpdate 0#32 view.weights) view.metaData
  | .xorFold => xorFoldUpdate (xorFoldUpdate 0#32 view.weights) view.metaData

/-- `verify_q4_block` on a read-only view; the warm-up reads the pages and changes nothing. -/
def verifyQ4Block (view : Q4BlockView) (config : WitnessConfig) : WitnessReport :=
  let computed := computeQ4Witness view config.mode
  { ok := computed == view.witness, computed := computed }

/-- `apply_fallback`. -/
def applyFallback (data : Option (List UInt8)) (mode : FallbackMode) : Option (List UInt8) :=
  match mode with
  | .none => data
  | .zero => data.map fun bytes => List.replicate bytes.length 0
  | .quarantine => data.map fun bytes => List.replicate bytes.length 0xFF

/-- `verify_q4_block` on a mutable view: a block that fails is overwritten. -/
def verifyQ4BlockMut (view : Q4BlockView) (config : WitnessConfig) : WitnessReport × Q4BlockView :=
  let report := verifyQ4Block view config
  if report.ok then (report, view)
  else
    (report, { view with
      weights := applyFallback view.weights config.fallback
      metaData := applyFallback view.metaData config.fallback })

/-! ### Both are the same register -/

theorem and_one_ne_zero (crc : BitVec 32) : crc &&& 1#32 ≠ 0#32 ↔ crc.getLsbD 0 = true := by
  rw [and_one_eq_setWidth_ofBool_getLsbD]
  cases crc.getLsbD 0 <;> decide

theorem tableStep_eq (crc : BitVec 32) : tableStep crc = shift crc32cPolynomial crc := by
  unfold tableStep shift
  by_cases h : crc.getLsbD 0 = true
  · rw [if_pos ((and_one_ne_zero crc).mpr h), if_pos h]
  · rw [if_neg (mt (and_one_ne_zero crc).mp h), if_neg h, xor_zero]

theorem serialStep_eq (crc : BitVec 32) : serialStep crc = shift crc32cPolynomial crc := by
  have hmask : (0x82F63B78#32 &&& -(crc &&& 1#32)) = if crc.getLsbD 0 then crc32cPolynomial else 0#32 := by
    rw [and_one_eq_setWidth_ofBool_getLsbD]
    cases crc.getLsbD 0 <;> decide
  show (crc >>> 1) ^^^ (0x82F63B78#32 &&& -(crc &&& 1#32)) = _
  rw [hmask, shift]

theorem initTable_getD {i : BitVec 32} (hi : i.toNat < 256) :
    initTable.getD i.toNat 0#32 = shifts crc32cPolynomial 8 i := by
  rw [initTable, getD_eq_getElem _ _ (by simpa using hi), getElem_map, getElem_range,
    BitVec.ofNat_toNat, BitVec.setWidth_eq, shifts, funext tableStep_eq]

theorem extendStep_eq (crc : BitVec 32) (b : UInt8) :
    extendStep crc b = shifts crc32cPolynomial 8 (crc ^^^ b.toBitVec.setWidth 32) := by
  have hlow : ((crc ^^^ b.toBitVec.setWidth 32) &&& 0xff#32).toNat < 256 := by
    rw [BitVec.toNat_and]
    exact Nat.lt_of_le_of_lt Nat.and_le_right (by decide)
  have hhigh : (crc ^^^ b.toBitVec.setWidth 32) >>> 8 = crc >>> 8 := by
    have hbyte : (b.toBitVec.setWidth 32) >>> 8 = 0#32 := by
      refine eq_of_getLsbD_eq fun i hi => ?_
      rw [getLsbD_ushiftRight, getLsbD_setWidth, getLsbD_of_ge _ _ (by omega),
        getLsbD_zero, Bool.and_false]
    rw [ushiftRight_xor_distrib, hbyte, xor_zero]
  have hmask : BitVec.ofNat 32 (2 ^ 8 - 1) = 0xff#32 := rfl
  rw [extendStep, initTable_getD hlow, shifts_split crc32cPolynomial 8 (crc ^^^ b.toBitVec.setWidth 32), hhigh, hmask]

theorem crc32cExtend_eq (crc : BitVec 32) (data : List UInt8) :
    crc32cExtend crc data = ~~~ feed crc32cPolynomial (~~~ crc) (lsbBits data) := by
  have hstep : extendStep = fun crc b => shifts crc32cPolynomial 8 (crc ^^^ b.toBitVec.setWidth 32) := by
    funext crc b
    exact extendStep_eq crc b
  rw [crc32cExtend, hstep, feed_lsbBits crc32cPolynomial (by decide)]

theorem crc32cUpdate_eq (crc : BitVec 32) (data : Option (List UInt8)) :
    crc32cUpdate crc data = ~~~ feed crc32cPolynomial (~~~ crc) (lsbBits (data.getD [])) := by
  have hempty : crc = ~~~ feed crc32cPolynomial (~~~ crc) (lsbBits []) := (BitVec.not_not).symm
  match data with
  | none => exact hempty
  | some [] => exact hempty
  | some (b :: data) =>
    have hstep : serialStep^[8] = shifts crc32cPolynomial 8 := by
      rw [funext serialStep_eq]
      rfl
    rw [feed_lsbBits crc32cPolynomial (by decide), crc32cUpdate, hstep]
    · rfl
    · simp

theorem crc32cExtend_append (crc : BitVec 32) (data data' : List UInt8) :
    crc32cExtend (crc32cExtend crc data) data' = crc32cExtend crc (data ++ data') := by
  rw [crc32cExtend_eq, crc32cExtend_eq, crc32cExtend_eq, BitVec.not_not, ← feed_append, lsbBits, lsbBits, lsbBits,
    flatMap_append]

theorem crc32cExtend_chunks (crc : BitVec 32) (chunks : List (List UInt8)) :
    chunks.foldl crc32cExtend crc = crc32cExtend crc chunks.flatten := by
  induction chunks generalizing crc with
  | nil => exact (BitVec.not_not).symm
  | cons chunk chunks ih => rw [foldl_cons, ih, flatten_cons, crc32cExtend_append]

/-! ### Corruption -/

/-- `weights||meta`. -/
def Q4BlockView.bytes (view : Q4BlockView) : List UInt8 := view.weights.getD [] ++ view.metaData.getD []

/-- The block is changed, in at most 32 consecutive bits of `weights||meta`; the sizes stay. -/
structure Q4BlockView.Corrupted (view view' : Q4BlockView) : Prop where
  weights : (view'.weights.getD []).length = (view.weights.getD []).length
  metaData : (view'.metaData.getD []).length = (view.metaData.getD []).length
  changed : view.bytes ≠ view'.bytes
  burst : ∃ a, DiffersWithin (lsbBits view.bytes) (lsbBits view'.bytes) a 32

theorem computeQ4Witness_eq (view : Q4BlockView) : computeQ4Witness view .crc32c = crc32cCompute view.bytes := by
  show crc32cUpdate (crc32cUpdate 0#32 view.weights) view.metaData = crc32cExtend 0#32 view.bytes
  rw [Q4BlockView.bytes, ← crc32cExtend_append, crc32cUpdate_eq, crc32cUpdate_eq, crc32cExtend_eq, crc32cExtend_eq]

theorem crc32cCompute_burst {data data' : List UInt8} (hlen : data'.length = data.length) (hne : data ≠ data')
    {a : ℕ} (hwithin : DiffersWithin (lsbBits data) (lsbBits data') a 32) :
    crc32cCompute data' ≠ crc32cCompute data := by
  intro heq
  have hregister : feed crc32cPolynomial (~~~ 0#32) (lsbBits data') = feed crc32cPolynomial (~~~ 0#32) (lsbBits data) := by
    have h : crc32cExtend 0#32 data' = crc32cExtend 0#32 data := heq
    rw [crc32cExtend_eq, crc32cExtend_eq] at h
    exact BitVec.not_inj.mp h
  exact feed_burst (by decide) (by rw [lsbBits_length, lsbBits_length, hlen]) (mt lsbBits_injective hne) hwithin _
    hregister.symm

theorem computeQ4Witness_corrupted {view view' : Q4BlockView} (h : view.Corrupted view') :
    computeQ4Witness view' .crc32c ≠ computeQ4Witness view .crc32c := by
  obtain ⟨a, hwithin⟩ := h.burst
  rw [computeQ4Witness_eq, computeQ4Witness_eq]
  refine crc32cCompute_burst ?_ h.changed hwithin
  rw [Q4BlockView.bytes, Q4BlockView.bytes, length_append, length_append, h.weights, h.metaData]

theorem differsWithin_of_lt {data data' : List UInt8} {a n : ℕ}
    (h : ∀ i < 8 * max data.length data'.length, (lsbBits data).getD i false ≠ (lsbBits data').getD i false → a ≤ i ∧ i < a + n) :
    DiffersWithin (lsbBits data) (lsbBits data') a n := by
  intro i hdiff
  by_cases hi : i < 8 * max data.length data'.length
  · exact h i hi hdiff
  · have hout : (lsbBits data).getD i false = (lsbBits data').getD i false := by
      rw [getD_eq_default _ _ (by rw [lsbBits_length]; omega),
        getD_eq_default _ _ (by rw [lsbBits_length]; omega)]
    exact absurd hout hdiff

theorem verifyQ4BlockMut_report (view : Q4BlockView) (config : WitnessConfig) :
    (verifyQ4BlockMut view config).1 = verifyQ4Block view config := by
  by_cases h : (verifyQ4Block view config).ok
  · simp [verifyQ4BlockMut, h]
  · simp [verifyQ4BlockMut, h]

/-- **The witness in `crc32c` mode.**  Every way of cutting a byte string into chunks gives the CRC of the whole
string, and the bit-serial implementation gives the same; the witness of a block is the CRC of its weights followed
by its meta; and when at most 32 consecutive bits of these were corrupted, the witness is another one and both
forms of `verify_q4_block` report it. -/
theorem witness_is_crc32c :
    (∀ chunks : List (List UInt8), chunks.foldl crc32cExtend 0#32 = crc32cCompute chunks.flatten ∧
      crc32cCompute chunks.flatten = computeWitness (some chunks.flatten) .crc32c) ∧
    (∀ view : Q4BlockView, computeQ4Witness view .crc32c = crc32cCompute (view.weights.getD [] ++ view.metaData.getD [])) ∧
    (∀ view view' : Q4BlockView, view.Corrupted view' →
      computeQ4Witness view' .crc32c ≠ computeQ4Witness view .crc32c ∧
      ∀ config : WitnessConfig, config.mode = .crc32c → view'.witness = computeQ4Witness view .crc32c →
        (verifyQ4Block view' config).ok = false ∧ (verifyQ4BlockMut view' config).1.ok = false) := by
  refine ⟨fun chunks => ⟨crc32cExtend_chunks 0#32 chunks, ?_⟩, computeQ4Witness_eq, fun view view' h => ?_⟩
  · show crc32cExtend 0#32 chunks.flatten = crc32cUpdate 0#32 (some chunks.flatten)
    rw [crc32cExtend_eq, crc32cUpdate_eq]
    rfl
  · have hne := computeQ4Witness_corrupted h
    refine ⟨hne, fun config hmode hwitness => ?_⟩
    have hreport : (verifyQ4Block view' config).ok = false := by
      show (computeQ4Witness view' config.mode == view'.witness) = false
      rw [hmode, hwitness]
      exact beq_eq_false_iff_ne.mpr hne
    exact ⟨hreport, by rw [verifyQ4BlockMut_report, hreport]⟩

/-- A corruption across the end of the weights. -/
theorem witness_is_crc32c_boundary :
    (verifyQ4Block
      { weights := some [0x10, 0x32, 0x54], metaData := some [0x77, 0x98, 0xBA]
        witness := computeQ4Witness { weights := some [0x10, 0x32, 0xD4], metaData := some [0x76, 0x98, 0xBA] } .crc32c }
      { mode := .crc32c }).ok = false :=
  (((witness_is_crc32c).2.2
      { weights := some [0x10, 0x32, 0xD4], metaData := some [0x76, 0x98, 0xBA] }
      { weights := some [0x10, 0x32, 0x54], metaData := some [0x77, 0x98, 0xBA]
        witness := computeQ4Witness { weights := some [0x10, 0x32, 0xD4], metaData := some [0x76, 0x98, 0xBA] } .crc32c }
      { weights := rfl
        metaData := rfl
        changed := by decide
        burst := ⟨23, differsWithin_of_lt (by decide +kernel)⟩ }).2 { mode := .crc32c } rfl rfl).1

end Integrity
