import LlamaRafaelia.Kv.Cells

/-!
# The KV cache: parameters, state and sequence operations (`llama-kv-cache.cpp`)

`KvParams` holds the constant members of `llama_kv_cache`, `KvCache` those that change: one head and one
`llama_kv_cells` for each stream, the pending stream copies, and the bytes of the K and V tensors.  A unified cache
has one stream, otherwise sequence `s` lives in stream `s`.
-/

/-- `llama_swa_type`. -/
inductive SwaType where
  | none
  | standard
  | chunked
  | symmetric
  deriving DecidableEq, Repr

/-- What the state code reads of a layer: tensor types, row sizes in bytes and, for a transposed V,
the element size and the number of rows. -/
structure KvLayer where
  kType : ℕ
  kSizeRow : ℕ
  vType : ℕ
  vSizeRow : ℕ
  vSizeEl : ℕ
  nEmbdVGqa : ℕ
  kType_lt : kType < 2 ^ 31
  kSizeRow_lt : kSizeRow < 2 ^ 64
  vType_lt : vType < 2 ^ 31
  vSizeRow_lt : vSizeRow < 2 ^ 64
  vSizeEl_lt : vSizeEl < 2 ^ 32
  nEmbdVGqa_lt : nEmbdVGqa < 2 ^ 32

/-- The constant members of `llama_kv_cache`. -/
structure KvParams where
  unified : Bool
  kvSize : ℕ
  nSeqMax : ℕ
  nSwa : ℕ
  swaType : SwaType
  /-- `hparams.n_pos_per_embd()` -/
  nPosPerEmbd : ℕ
  vTrans : Bool
  layers : List KvLayer
  nPosPerEmbd_pos : 0 < nPosPerEmbd
  nSeqMax_pos : 0 < nSeqMax
  nSeqMax_le : nSeqMax ≤ llamaMaxSeq
  kvSize_lt : kvSize < 2 ^ 32
  layers_lt : layers.length < 2 ^ 32

/-- The largest value of `llama_pos`. -/
def llamaPosMax : ℤ := 2147483647

/-- `(int32_t) n` for an unsigned 32-bit `n`. -/
def int32 (n : ℕ) : ℤ := Int.bmod n (2 ^ 32)

/-- `llama_hparams::is_masked_swa`.  The positions are not negative, so the unsigned arithmetic of
the chunked case is exact. -/
def isMaskedSwa (nSwa : ℕ) (swaType : SwaType) (p0 p1 : ℤ) : Checked Bool := do
  Checked.assert (0 ≤ p0 ∧ 0 ≤ p1)
  return match swaType with
    | .none => false
    | .standard => int32 nSwa ≤ p1 - p0
    | .chunked => p0 < p1 / nSwa * nSwa
    | .symmetric =>
        let half := (int32 nSwa).tdiv 2
        p1 - p0 < -half ∨ half < p1 - p0

namespace KvParams

variable (kp : KvParams)

/-- `n_stream`. -/
def nStream : ℕ := if kp.unified then 1 else kp.nSeqMax

/-- `seq_to_stream`, as the constructor fills it. -/
def seqToStream : List ℕ :=
  if 1 < kp.nStream then List.range kp.nStream else List.replicate llamaMaxSeq 0

/-- `seq_to_stream[s]`. -/
def streamOf (s : ℕ) : ℕ := kp.seqToStream.getD s 0

/-- `llama_kv_cache::is_masked_swa`. -/
def isMasked (p0 p1 : ℤ) : Checked Bool := isMaskedSwa kp.nSwa kp.swaType p0 p1

end KvParams

abbrev TensorData := ℕ → ℕ → ℕ → UInt8

/-- The members of `llama_kv_cache` that change. -/
structure KvCache where
  vHeads : ℕ → ℕ
  vCells : ℕ → KvCells
  /-- `sc_info`: the pairs `(ssrc, sdst)` -/
  scInfo : List (ℕ × ℕ)
  kData : TensorData
  vData : TensorData

namespace KvCache

open Checked

/-- What the constructor builds: every stream empty, the buffers cleared. -/
def init (kp : KvParams) : KvCache where
  vHeads := fun _ => 0
  vCells := fun _ => KvCells.resize kp.kvSize
  scInfo := []
  kData := fun _ _ _ => 0
  vData := fun _ _ _ => 0

variable (kp : KvParams) (st : KvCache)

/-- Replace the cells and the head of stream `t`. -/
def setStream (t : ℕ) (c : KvCells) (head : ℕ) : KvCache :=
  { st with vCells := Function.update st.vCells t c, vHeads := Function.update st.vHeads t head }

/-- "If we freed up a slot, set head to it so searching can start there." -/
def freedHead (size newHead head : ℕ) : ℕ := if newHead ≠ size ∧ newHead < head then newHead else head

/-- The first index that was freed: `size` stands for "none yet". -/
def noteFreed (size i : ℕ) (freed : Bool) (newHead : ℕ) : ℕ :=
  if freed ∧ newHead = size then i else newHead

def clear (data : Bool) : KvCache :=
  { st with
    vCells := fun t => if t < kp.nStream then (st.vCells t).reset else st.vCells t
    vHeads := fun t => if t < kp.nStream then 0 else st.vHeads t
    kData := if data then fun _ _ _ => 0 else st.kData
    vData := if data then fun _ _ _ => 0 else st.vData }

/-! ### `seq_rm` -/

/-- One iteration of the loop of `seq_rm` for one sequence; the state is the cells and `new_head`. -/
def seqRmStep (s : ℕ) (p0 p1 : ℤ) (size : ℕ) (a : KvCells × ℕ) (i : ℕ) : Checked (KvCells × ℕ) := do
  if ← a.1.posIn i p0 p1 then
    if ← a.1.seqHas i s then
      let r ← a.1.seqRm i s
      return (r.1, noteFreed size i r.2 a.2)
    else return a
  else return a

/-- One iteration of the loop of `seq_rm` for any sequence. -/
def rmStep (p0 p1 : ℤ) (size : ℕ) (a : KvCells × ℕ) (i : ℕ) : Checked (KvCells × ℕ) := do
  if ← a.1.posIn i p0 p1 then
    let c ← a.1.rm i
    return (c, noteFreed size i true a.2)
  else return a

/-- A loop over the cells of stream `t` that keeps track of the first freed index. -/
def streamLoop (t : ℕ) (step : ℕ → KvCells × ℕ → ℕ → Checked (KvCells × ℕ)) : Checked (KvCells × ℕ) :=
  let c := st.vCells t
  loopRange c.size (step c.size) (c, c.size)

/-- The lower end of a range of positions: negative means "from the start". -/
def rangeLo (p0 : ℤ) : ℤ := if p0 < 0 then 0 else p0

/-- The upper end of a range of positions: negative means "to the end". -/
def rangeHi (p1 : ℤ) : ℤ := if p1 < 0 then llamaPosMax else p1

def seqRm (seqId p0 p1 : ℤ) : Checked KvCache := do
  check (seqId = -1 ∨ (0 ≤ seqId ∧ seqId < kp.seqToStream.length))
  if 0 ≤ seqId then
    let t := kp.streamOf seqId.toNat
    let r ← st.streamLoop t (seqRmStep seqId.toNat (rangeLo p0) (rangeHi p1))
    return st.setStream t r.1 (freedHead (st.vCells t).size r.2 (st.vHeads t))
  else
    loopRange kp.nStream (fun st t => do
      let r ← st.streamLoop t (rmStep (rangeLo p0) (rangeHi p1))
      return st.setStream t r.1 (freedHead (st.vCells t).size r.2 (st.vHeads t))) st

/-! ### `seq_cp` -/

/-- One iteration of the loop of `seq_cp` inside one stream. -/
def seqCpSameStep (src dst : ℕ) (p0 p1 : ℤ) (c : KvCells) (i : ℕ) : Checked KvCells := do
  if ← c.posIn i p0 p1 then
    if ← c.seqHas i src then c.seqAdd i dst else return c
  else return c

/-- The position under which `seq_cp` stores a cell in the other stream: the pending shift is taken
back. -/
def seqCpOrigin (c : KvCells) (i : ℕ) : Checked ℤ := do
  let pos ← c.posGet i
  let shift ← c.getShift i
  if shift ≠ 0 then
    assert (0 ≤ pos - shift)
    return pos - shift
  else return pos

def seqCpReshift (c : KvCells) (i : ℕ) (shift : ℤ) : Checked KvCells := do
  if shift ≠ 0 then
    let r ← c.posAdd i shift
    return r.1
  else return c

/-- One iteration of the loop of `seq_cp` across streams: reads `c0`, changes `c1`. -/
def seqCpCrossStep (src dst : ℕ) (c0 c1 : KvCells) (i : ℕ) : Checked KvCells := do
  if ← c0.seqHas i src then
    let pos ← seqCpOrigin c0 i
    let shift ← c0.getShift i
    let ext ← c0.extGet i
    let c1 ← c1.posSet i pos
    let c1 ← c1.seqAdd i dst
    let c1 ← seqCpReshift c1 i shift
    c1.extSet i ext
  else return c1

/-- `get_size()`. -/
def getSize : ℕ := (st.vCells (kp.streamOf 0)).size

/-- `is_full`: the range does not stop short inside the buffer. -/
def seqCpIsFull (p0 p1 : ℤ) : Bool :=
  ¬(0 < p0 ∧ p0 + 1 < st.getSize kp) ∧ ¬(0 < p1 ∧ p1 + 1 < st.getSize kp)

def seqCp (src dst p0 p1 : ℤ) : Checked KvCache := do
  check (0 ≤ src ∧ src < kp.seqToStream.length)
  check (0 ≤ dst ∧ dst < kp.seqToStream.length)
  let s0 := kp.streamOf src.toNat
  let s1 := kp.streamOf dst.toNat
  if s0 = s1 then
    if src = dst then return st
    else
      let c ← loopRange (st.vCells s0).size
        (seqCpSameStep src.toNat dst.toNat (rangeLo p0) (rangeHi p1)) (st.vCells s0)
      return st.setStream s0 c (st.vHeads s0)
  else
    check (st.seqCpIsFull kp p0 p1)
    let c0 := st.vCells s0
    let c1 ← loopRange c0.size (seqCpCrossStep src.toNat dst.toNat c0) (st.vCells s1).reset
    return { st.setStream s1 c1 (st.vHeads s0) with scInfo := st.scInfo ++ [(s0, s1)] }

/-! ### `seq_keep`, `seq_add` and `seq_div` -/

/-- One iteration of the loop of `seq_keep`. -/
def seqKeepStep (s size : ℕ) (a : KvCells × ℕ) (i : ℕ) : Checked (KvCells × ℕ) := do
  let r ← a.1.seqKeep i s
  return (r.1, noteFreed size i r.2 a.2)

def seqKeep (seqId : ℤ) : Checked KvCache := do
  check (0 ≤ seqId ∧ seqId < kp.seqToStream.length)
  let t := kp.streamOf seqId.toNat
  let r ← st.streamLoop t (seqKeepStep seqId.toNat)
  return st.setStream t r.1 (freedHead (st.vCells t).size r.2 (st.vHeads t))

/-- One iteration of the loop of `seq_add`. -/
def seqAddStep (s : ℕ) (p0 p1 shift : ℤ) (size : ℕ) (a : KvCells × ℕ) (i : ℕ) :
    Checked (KvCells × ℕ) := do
  if ← a.1.posIn i p0 p1 then
    if ← a.1.seqHas i s then
      let r ← a.1.posAdd i shift
      return (r.1, noteFreed size i r.2 a.2)
    else return a
  else return a

def seqAdd (seqId p0 p1 shift : ℤ) : Checked KvCache := do
  check (0 ≤ seqId ∧ seqId < kp.seqToStream.length)
  check (kp.nPosPerEmbd = 1)
  let t := kp.streamOf seqId.toNat
  if shift = 0 ∨ rangeLo p0 = rangeHi p1 then return st
  else
    let r ← st.streamLoop t (seqAddStep seqId.toNat (rangeLo p0) (rangeHi p1) shift)
    -- a freed slot becomes the head, otherwise the next search starts from the beginning
    return st.setStream t r.1 (if r.2 ≠ (st.vCells t).size then r.2 else 0)

/-- One iteration of the loop of `seq_div`. -/
def seqDivStep (s : ℕ) (p0 p1 d : ℤ) (c : KvCells) (i : ℕ) : Checked KvCells := do
  if ← c.posIn i p0 p1 then
    if ← c.seqHas i s then c.posDiv i d else return c
  else return c

def seqDiv (seqId p0 p1 d : ℤ) : Checked KvCache := do
  check (0 ≤ seqId ∧ seqId < kp.seqToStream.length)
  check (kp.nPosPerEmbd = 1)
  let t := kp.streamOf seqId.toNat
  if d = 1 ∨ rangeLo p0 = rangeHi p1 then return st
  else
    let c ← loopRange (st.vCells t).size
      (seqDivStep seqId.toNat (rangeLo p0) (rangeHi p1) d) (st.vCells t)
    return st.setStream t c (st.vHeads t)

def seqPosMin (seqId : ℤ) : Checked ℤ := do
  check (0 ≤ seqId ∧ seqId < kp.seqToStream.length)
  (st.vCells (kp.streamOf seqId.toNat)).seqPosMin seqId.toNat

def seqPosMax (seqId : ℤ) : Checked ℤ := do
  check (0 ≤ seqId ∧ seqId < kp.seqToStream.length)
  (st.vCells (kp.streamOf seqId.toNat)).seqPosMax seqId.toNat

/-! ### `update` -/

/-- `get_has_shift()`. -/
def getHasShift : Bool := (List.range kp.nStream).any fun t => (st.vCells t).getHasShift

/-- The buffer copies of `update`: each pending pair copies the K and V tensors of one stream. -/
def copyStreams (data : TensorData) (copies : List (ℕ × ℕ)) : TensorData :=
  copies.foldl (fun data p il t => if t = p.2 then data il p.1 else data il t) data

/-- `init_update` followed by `update`: pending stream copies, then the K-shift.  `shifted` is what
the K-shift graph leaves in the K tensors, `none` when it could not be allocated or computed. -/
def update (shifted : Option TensorData) : KvCache :=
  let st1 := { st with
    kData := copyStreams st.kData st.scInfo, vData := copyStreams st.vData st.scInfo, scInfo := [] }
  match st.getHasShift kp, shifted with
  | true, some k => { st1 with
      kData := k
      vCells := fun t => if t < kp.nStream then (st.vCells t).resetShift else st.vCells t }
  | _, _ => st1

end KvCache
