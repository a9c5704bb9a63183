import LlamaRafaelia.Kv.StateIO
import LlamaRafaelia.Kv.CacheInvariant

/-!
# What `state_write` writes

The ranges that `state_write` collects are the cells to be written, in order.  For a transposed V this needs offsets
that fit into 32 bits (`OffsetsFit`).
-/

namespace KvParams

/-- The offset of the last element of a transposed V fits into 32 bits, and so does its index. -/
def OffsetsFit (kp : KvParams) : Prop :=
  kp.vTrans = true → ∀ l ∈ kp.layers,
    (l.nEmbdVGqa * kp.kvSize - 1) * l.vSizeEl < 2 ^ 32 ∧ l.nEmbdVGqa * kp.kvSize ≤ 2 ^ 32

end KvParams

namespace KvCache

open Checked KvCells

variable {kp : KvParams} {st : KvCache} {c : KvCells} {seqId : ℤ}

/-! ### The ranges -/

/-- The cells that are written: those of the sequence, or all that are not empty. -/
def Written (c : KvCells) (seqId : ℤ) (i : ℕ) : Prop :=
  c.pos i ≠ -1 ∧ (seqId = -1 ∨ seqId.toNat ∈ c.seq i)

instance (c : KvCells) (seqId : ℤ) (i : ℕ) : Decidable (Written c seqId i) :=
  inferInstanceAs (Decidable (_ ∧ _))

def writtenCells (c : KvCells) (seqId : ℤ) : List ℕ := (List.range c.size).filter fun i => Written c seqId i

theorem isWritten_value (c : KvCells) (seqId : ℤ) (i : ℕ) :
    (isWritten c seqId i).value = decide (Written c seqId i) := by
  by_cases hp : c.pos i = -1
  · simp [isWritten, isEmpty, Written, hp]
  · by_cases hs : seqId = -1
    · simp [isWritten, isEmpty, Written, hp, hs]
    · simp [isWritten, isEmpty, seqHas, Written, hp, hs]

theorem rangeCells_append (l m : List (ℕ × ℕ)) : rangeCells (l ++ m) = rangeCells l ++ rangeCells m :=
  List.flatMap_append

theorem rangeCells_single (a b : ℕ) : rangeCells [(a, b)] = List.range' a (b - a) := by
  simp [rangeCells]

theorem rangeCells_length (data : List (ℕ × ℕ)) :
    (rangeCells data).length = (data.map fun r => r.2 - r.1).sum := by
  simp [rangeCells, List.length_flatMap]

/-- The loop before cell `i`: the ranges that were closed, and the open one, cover what was found. -/
structure RangesTo (c : KvCells) (seqId : ℤ) (i : ℕ) (a : RangeScan) : Prop where
  count : a.count = ((List.range i).filter fun j => Written c seqId j).length
  bounds : ∀ r ∈ a.data, r.1 < r.2 ∧ r.2 ≤ c.size
  cells : (a.start = c.size ∧ rangeCells a.data = (List.range i).filter fun j => Written c seqId j) ∨
    (a.start < i ∧
      rangeCells (a.data ++ [(a.start, i)]) = (List.range i).filter fun j => Written c seqId j)

theorem rangeStep_to {i : ℕ} {a : RangeScan} (hi : i < c.size) (h : RangesTo c seqId i a) :
    RangesTo c seqId (i + 1) (rangeStep c seqId a i).value := by
  have hval : (rangeStep c seqId a i).value =
      if Written c seqId i then ⟨a.count + 1, if a.start = c.size then i else a.start, a.data⟩
      else if a.start ≠ c.size then ⟨a.count, c.size, a.data ++ [(a.start, i)]⟩ else a := by
    simp only [rangeStep, bind_value, isWritten_value, decide_eq_true_eq, ite_value, pure_value]
  rw [hval]
  by_cases hw : Written c seqId i
  · -- the cell opens a range or extends the open one
    rw [if_pos hw]
    have hfilter : (List.range (i + 1)).filter (fun j => Written c seqId j)
        = (List.range i).filter (fun j => Written c seqId j) ++ [i] := by
      rw [List.range_succ, List.filter_append]
      simp [hw]
    refine ⟨?_, h.bounds, Or.inr ?_⟩
    · rw [hfilter, List.length_append, h.count]
      rfl
    · rcases h.cells with ⟨hstart, hcells⟩ | ⟨hlt, hcells⟩
      · refine ⟨by simp [hstart], ?_⟩
        rw [rangeCells_append, hcells, hfilter]
        simp [hstart, rangeCells_single]
      · have hne : a.start ≠ c.size := by omega
        refine ⟨by simp [hne]; omega, ?_⟩
        rw [hfilter, ← hcells]
        simp only [hne, if_false, rangeCells_append, rangeCells_single, List.append_assoc]
        rw [Nat.succ_sub (by omega), List.range'_concat]
        congr 3
        omega
  · -- the cell closes the open range
    rw [if_neg hw]
    have hfilter : (List.range (i + 1)).filter (fun j => Written c seqId j)
        = (List.range i).filter (fun j => Written c seqId j) := by
      rw [List.range_succ, List.filter_append]
      simp [hw]
    rcases h.cells with ⟨hstart, hcells⟩ | ⟨hlt, hcells⟩
    · rw [if_neg (not_not.mpr hstart)]
      exact ⟨hfilter ▸ h.count, h.bounds, Or.inl ⟨hstart, hfilter ▸ hcells⟩⟩
    · rw [if_pos (by omega)]
      refine ⟨hfilter ▸ h.count, fun r hr => ?_, Or.inl ⟨rfl, hfilter ▸ hcells⟩⟩
      rcases List.mem_append.mp hr with hr | hr
      · exact h.bounds r hr
      · obtain rfl := List.mem_singleton.mp hr
        exact ⟨hlt, by omega⟩

theorem cellRanges_spec (c : KvCells) (seqId : ℤ) :
    let r := (cellRanges c seqId).value
    r.1 = (writtenCells c seqId).length ∧ rangeCells r.2 = writtenCells c seqId ∧
      (∀ x ∈ r.2, x.1 < x.2 ∧ x.2 ≤ c.size) ∧ (cellRanges c seqId).checks = true := by
  have h := loopRange_value_rule (f := rangeStep c seqId) (fun i a => RangesTo c seqId i a) c.size
    (s := ⟨0, c.size, []⟩) ⟨rfl, by simp, Or.inl ⟨rfl, rfl⟩⟩ (fun i a hi ha => rangeStep_to hi ha)
  have hchecks : (loopRange c.size (rangeStep c seqId) ⟨0, c.size, []⟩).checks = true := by
    refine loop_checks (fun a i => ?_) _ _
    simp only [rangeStep, isWritten, isEmpty, seqHas, bind_checks, assert_checks, ite_checks, pure_checks,
      Bool.and_self, ite_self]
  generalize hr : loopRange c.size (rangeStep c seqId) ⟨0, c.size, []⟩ = r at h hchecks
  have hcells : rangeCells (if r.value.start ≠ c.size then r.value.data ++ [(r.value.start, c.size)]
      else r.value.data) = writtenCells c seqId := by
    rcases h.cells with ⟨hstart, hc⟩ | ⟨hlt, hc⟩
    · rw [if_neg (not_not.mpr hstart)]
      exact hc
    · rw [if_pos (by omega)]
      exact hc
  have hcount : r.value.count = (writtenCells c seqId).length := h.count
  simp only [cellRanges, bind_value, bind_checks, pure_value, pure_checks, check_checks, Bool.and_true, hr]
  refine ⟨hcount, hcells, fun x hx => ?_, ?_⟩
  · split at hx
    · rcases List.mem_append.mp hx with hx | hx
      · exact h.bounds x hx
      · obtain rfl := List.mem_singleton.mp hx
        rcases h.cells with ⟨hstart, -⟩ | ⟨hlt, -⟩
        · contradiction
        · exact ⟨hlt, le_rfl⟩
    · exact h.bounds x hx
  · rw [hchecks, Bool.true_and, decide_eq_true_eq, hcount, ← hcells, rangeCells_length]

/-! ### The records of the cells -/

/-- The sequences of cell `i` that are written. -/
def keptSeqIds (kp : KvParams) (c : KvCells) (seqId : ℤ) (i : ℕ) : List ℕ :=
  (List.range kp.nSeqMax).filter fun s => ((s : ℤ) = seqId ∨ seqId = -1) ∧ s ∈ c.seq i

def cellBytes (pos : ℤ) (ids : List ℕ) : List UInt8 :=
  i32 pos ++ u32 ids.length ++ ids.flatMap fun s : ℕ => i32 s

theorem writtenSeqIds_value (c : KvCells) (seqId : ℤ) (i : ℕ) :
    (writtenSeqIds kp c seqId i).value = keptSeqIds kp c seqId i := by
  refine loopRange_value_rule (fun n ids => ids = (List.range n).filter fun (s : ℕ) =>
    ((s : ℤ) = seqId ∨ seqId = -1) ∧ s ∈ c.seq i) kp.nSeqMax rfl fun n ids _ h => ?_
  rw [List.range_succ, List.filter_append, ← h]
  by_cases hs : (n : ℤ) = seqId ∨ seqId = -1
  · by_cases hm : n ∈ c.seq i <;> simp [hs, hm, seqHas]
  · simp [hs]

theorem foldl_append_flatMap {α β : Type} (f : α → List β) (l : List α) (out : List β) :
    l.foldl (fun out x => out ++ f x) out = out ++ l.flatMap f := by
  induction l generalizing out with
  | nil => simp
  | cons x l ih => rw [List.foldl_cons, ih, List.flatMap_cons, List.append_assoc]

theorem stateWriteMeta_value (c : KvCells) (data : List (ℕ × ℕ)) (seqId : ℤ) :
    (stateWriteMeta kp c data seqId).value
      = (rangeCells data).flatMap fun i => cellBytes (c.pos i) (keptSeqIds kp c seqId i) := by
  rw [stateWriteMeta, loop_value]
  simp only [bind_value, pure_value, writtenSeqIds_value, posGet]
  rw [← List.nil_append (List.flatMap _ _), ← foldl_append_flatMap]
  simp only [cellBytes, List.append_assoc]

/-! ### The rows of the tensors -/

/-- The row of cell `i` in a tensor. -/
def rowAt (mem : ℕ → UInt8) (sizeRow i : ℕ) : List UInt8 := slice mem (i * sizeRow) sizeRow

/-- The element of cell `i` in row `j` of a transposed tensor. -/
def elemAt (mem : ℕ → UInt8) (size sizeEl j i : ℕ) : List UInt8 := slice mem ((i + j * size) * sizeEl) sizeEl

@[simp] theorem rowAt_length (mem : ℕ → UInt8) (sizeRow i : ℕ) : (rowAt mem sizeRow i).length = sizeRow :=
  slice_length ..

@[simp] theorem elemAt_length (mem : ℕ → UInt8) (size sizeEl j i : ℕ) :
    (elemAt mem size sizeEl j i).length = sizeEl := slice_length ..

theorem writeRows_value (mem : ℕ → UInt8) (type sizeRow : ℕ) (data : List (ℕ × ℕ)) :
    writeRows mem type sizeRow data
      = i32 type ++ u64 sizeRow ++ (rangeCells data).flatMap (rowAt mem sizeRow) := by
  rw [writeRows, rangeCells, List.flatMap_assoc]
  congr 1
  refine List.flatMap_congr fun r _ => ?_
  have h := slice_rows mem 0 sizeRow r.1 (r.2 - r.1)
  simp only [Nat.zero_add] at h
  exact h

theorem writeTrans_value (mem : ℕ → UInt8) {size : ℕ} (type : ℕ) {sizeEl nEmbd : ℕ} {data : List (ℕ × ℕ)}
    (hdata : ∀ r ∈ data, r.1 < r.2 ∧ r.2 ≤ size) (hfit : (nEmbd * size - 1) * sizeEl < 2 ^ 32) :
    writeTrans mem size type sizeEl nEmbd data
      = i32 type ++ u32 sizeEl ++ u32 nEmbd ++ (List.range nEmbd).flatMap fun j =>
          (rangeCells data).flatMap (elemAt mem size sizeEl j) := by
  rw [writeTrans]
  congr 1
  refine List.flatMap_congr fun j hj => ?_
  rw [rangeCells, List.flatMap_assoc]
  refine List.flatMap_congr fun r hr => ?_
  obtain ⟨hlt, hle⟩ := hdata r hr
  -- the offset of an element is at most that of the last one
  have hidx : r.1 + j * size ≤ nEmbd * size - 1 := by
    have hj' : (j + 1) * size ≤ nEmbd * size := Nat.mul_le_mul_right size (List.mem_range.mp hj)
    rw [Nat.succ_mul] at hj'
    omega
  have hoff : (r.1 + j * size) * sizeEl < 2 ^ 32 :=
    lt_of_le_of_lt (Nat.mul_le_mul_right sizeEl hidx) hfit
  have h := slice_rows mem (j * size * sizeEl) sizeEl r.1 (r.2 - r.1)
  rw [Nat.mod_eq_of_lt hoff, Nat.add_mul, Nat.add_comm (r.1 * sizeEl), h]
  refine List.flatMap_congr fun i _ => ?_
  rw [elemAt, Nat.add_mul, Nat.add_comm (i * sizeEl)]

/-- What is written of layer `x` for the cells `l` of stream `t`: the K part. -/
def kBytes (st : KvCache) (t : ℕ) (l : List ℕ) (x : KvLayer × ℕ) : List UInt8 :=
  i32 x.1.kType ++ u64 x.1.kSizeRow ++ l.flatMap (rowAt (st.kData x.2 t) x.1.kSizeRow)

/-- What is written of layer `x` for the cells `l` of stream `t`: the V part. -/
def vBytes (kp : KvParams) (st : KvCache) (t : ℕ) (l : List ℕ) (x : KvLayer × ℕ) : List UInt8 :=
  if kp.vTrans then
    i32 x.1.vType ++ u32 x.1.vSizeEl ++ u32 x.1.nEmbdVGqa ++ (List.range x.1.nEmbdVGqa).flatMap fun j =>
      l.flatMap (elemAt (st.vData x.2 t) kp.kvSize x.1.vSizeEl j)
  else i32 x.1.vType ++ u64 x.1.vSizeRow ++ l.flatMap (rowAt (st.vData x.2 t) x.1.vSizeRow)

def dataBytes (kp : KvParams) (st : KvCache) (t : ℕ) (l : List ℕ) : List UInt8 :=
  u32 (if kp.vTrans then 1 else 0) ++ u32 kp.layers.length ++
    kp.layers.zipIdx.flatMap (kBytes st t l) ++ kp.layers.zipIdx.flatMap (vBytes kp st t l)

theorem stateWriteData_value (hfit : kp.OffsetsFit) {t : ℕ} (hsize : (st.vCells t).size = kp.kvSize)
    {data : List (ℕ × ℕ)} (hdata : ∀ r ∈ data, r.1 < r.2 ∧ r.2 ≤ kp.kvSize) :
    st.stateWriteData kp t data = dataBytes kp st t (rangeCells data) := by
  rw [stateWriteData, dataBytes]
  congr 1
  · congr 1
    refine List.flatMap_congr fun x _ => ?_
    rw [writeRows_value, kBytes]
  · refine List.flatMap_congr fun x hx => ?_
    rw [vBytes]
    split
    · next hv =>
      obtain ⟨hoff, -⟩ := hfit hv x.1 (List.fst_mem_of_mem_zipIdx hx)
      rw [hsize, writeTrans_value _ _ hdata hoff]
    · rw [writeRows_value]

/-! ### All streams -/

/-- What is written of the cells `l` of one stream. -/
def blockBytes (kp : KvParams) (st : KvCache) (seqId : ℤ) (t : ℕ) (l : List ℕ) : List UInt8 :=
  if l = [] then u32 0
  else u32 l.length ++
    (l.flatMap fun i => cellBytes ((st.vCells t).pos i) (keptSeqIds kp (st.vCells t) seqId i)) ++
    dataBytes kp st t l

/-- **What `state_write` writes**: the number of streams, and for each the cells of the sequence. -/
theorem stateWrite_value (hfit : kp.OffsetsFit) (hsize : ∀ t < kp.nStream, (st.vCells t).size = kp.kvSize) :
    (st.stateWrite kp seqId).value = u32 kp.nStream ++ (List.range kp.nStream).flatMap fun t =>
      blockBytes kp st seqId t (writtenCells (st.vCells t) seqId) := by
  rw [stateWrite, loopRange, loop_value, ← foldl_append_flatMap]
  refine List.foldl_ext _ _ _ fun out t ht => ?_
  have hs := hsize t (List.mem_range.mp ht)
  obtain ⟨hcount, hcells, hdata, -⟩ := cellRanges_spec (st.vCells t) seqId
  rw [hs] at hdata
  simp only [bind_value, ite_value, pure_value, hcount, List.length_eq_zero_iff, blockBytes,
    stateWriteMeta_value, hcells, stateWriteData_value hfit hs hdata]
  split
  · next hnil => rw [hnil]; rfl
  · simp only [List.append_assoc]

theorem stateWrite_checks (kp : KvParams) (st : KvCache) (seqId : ℤ) :
    (st.stateWrite kp seqId).checks = true := by
  refine loop_checks (fun out t => ?_) _ _
  obtain ⟨-, -, -, hranges⟩ := cellRanges_spec (st.vCells t) seqId
  have hmeta : (stateWriteMeta kp (st.vCells t) (cellRanges (st.vCells t) seqId).value.2 seqId).checks = true := by
    refine loop_checks (fun out i => ?_) _ _
    have hids : (writtenSeqIds kp (st.vCells t) seqId i).checks = true := by
      refine loop_checks (fun ids cur => ?_) _ _
      simp only [seqHas, bind_checks, ite_checks, assert_checks, pure_checks, Bool.and_self, ite_self]
    simp only [bind_checks, hids, posGet, assert_checks, pure_checks, Bool.and_self]
  simp only [bind_checks, ite_checks, hranges, hmeta, pure_checks, Bool.and_self, ite_self]

end KvCache
