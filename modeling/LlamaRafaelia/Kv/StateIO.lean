import LlamaRafaelia.Kv.Slots
import LlamaRafaelia.Lib.Bytes
import LlamaRafaelia.Lib.Fallible

/-!
# Saving and restoring the cache: `state_write` and `state_read` (`llama-kv-cache.cpp`)

`state_write` writes for each stream the number of its cells, their positions and sequences (`state_write_meta`) and
their rows (`state_write_data`).  `state_read` reads one sequence into a contiguous slot, or the whole cache to the
start of each stream.  Offsets into a transposed V are computed from 32-bit numbers.
-/

/-- Why `state_read` throws. -/
inductive StateError where
  /-- "unexpectedly reached end of buffer" -/
  | endOfBuffer
  /-- "n_stream mismatch" -/
  | nStreamMismatch
  /-- "failed to restore kv cache" -/
  | restoreFailed
  deriving DecidableEq, Repr

/-- The bytes of a `uint32_t`. -/
def u32 (n : ℕ) : List UInt8 := leBytes 4 n

/-- The bytes of an `int32_t`, in two's complement. -/
def i32 (z : ℤ) : List UInt8 := leBytes 4 (z % 2 ^ 32).toNat

/-- The bytes of a `uint64_t`. -/
def u64 (n : ℕ) : List UInt8 := leBytes 8 n

namespace SlotInfo

/-- `head()`: the first cell of a slot in one stream. -/
def head (si : SlotInfo) : Checked ℕ := do
  Checked.check (si.idxs.length = 1)
  Checked.check ((si.idxs.getD 0 []) ≠ [])
  return (si.idxs.getD 0 []).headD 0

end SlotInfo

namespace KvCache

open Checked Fallible

variable (kp : KvParams) (st : KvCache)

/-! ### `state_write` -/

/-- The loop that collects the ranges: `cell_count`, `cell_range_begin` and `cr.data`. -/
structure RangeScan where
  count : ℕ
  start : ℕ
  data : List (ℕ × ℕ)

def isWritten (c : KvCells) (seqId : ℤ) (i : ℕ) : Checked Bool := do
  if ← c.isEmpty i then return false
  else if seqId = -1 then return true
  else c.seqHas i seqId.toNat

def rangeStep (c : KvCells) (seqId : ℤ) (a : RangeScan) (i : ℕ) : Checked RangeScan := do
  if ← isWritten c seqId i then
    return ⟨a.count + 1, if a.start = c.size then i else a.start, a.data⟩
  else if a.start ≠ c.size then return ⟨a.count, c.size, a.data ++ [(a.start, i)]⟩
  else return a

def cellRanges (c : KvCells) (seqId : ℤ) : Checked (ℕ × List (ℕ × ℕ)) := do
  let a ← loopRange c.size (rangeStep c seqId) ⟨0, c.size, []⟩
  let data := if a.start ≠ c.size then a.data ++ [(a.start, c.size)] else a.data
  check (a.count = (data.map fun r => r.2 - r.1).sum)
  return (a.count, data)

def rangeCells (data : List (ℕ × ℕ)) : List ℕ := data.flatMap fun r => List.range' r.1 (r.2 - r.1)

/-- `seq_ids`: the sequences of the cell that are written. -/
def writtenSeqIds (c : KvCells) (seqId : ℤ) (i : ℕ) : Checked (List ℕ) :=
  loopRange kp.nSeqMax (fun ids cur => do
    if (cur : ℤ) = seqId ∨ seqId = -1 then
      if ← c.seqHas i cur then return ids ++ [cur] else return ids
    else return ids) []

def stateWriteMeta (c : KvCells) (data : List (ℕ × ℕ)) (seqId : ℤ) : Checked (List UInt8) :=
  loop (fun out i => do
    let ids ← writtenSeqIds kp c seqId i
    let pos ← c.posGet i
    return out ++ i32 pos ++ u32 ids.length ++ ids.flatMap fun s : ℕ => i32 s) [] (rangeCells data)

def writeRows (mem : ℕ → UInt8) (type sizeRow : ℕ) (data : List (ℕ × ℕ)) : List UInt8 :=
  i32 type ++ u64 sizeRow ++ data.flatMap fun r => slice mem (r.1 * sizeRow) ((r.2 - r.1) * sizeRow)

def writeTrans (mem : ℕ → UInt8) (size type sizeEl nEmbd : ℕ) (data : List (ℕ × ℕ)) : List UInt8 :=
  i32 type ++ u32 sizeEl ++ u32 nEmbd ++ (List.range nEmbd).flatMap fun j =>
    data.flatMap fun r => slice mem ((r.1 + j * size) * sizeEl % 2 ^ 32) ((r.2 - r.1) * sizeEl)

def stateWriteData (t : ℕ) (data : List (ℕ × ℕ)) : List UInt8 :=
  u32 (if kp.vTrans then 1 else 0) ++ u32 kp.layers.length ++
    (kp.layers.zipIdx.flatMap fun x => writeRows (st.kData x.2 t) x.1.kType x.1.kSizeRow data) ++
    kp.layers.zipIdx.flatMap fun x =>
      if kp.vTrans then
        writeTrans (st.vData x.2 t) (st.vCells t).size x.1.vType x.1.vSizeEl x.1.nEmbdVGqa data
      else writeRows (st.vData x.2 t) x.1.vType x.1.vSizeRow data

def stateWrite (seqId : ℤ) : Checked (List UInt8) :=
  loopRange kp.nStream (fun out t => do
    let r ← cellRanges (st.vCells t) seqId
    -- skip empty streams
    if r.1 = 0 then return out ++ u32 r.1
    else
      let cells ← stateWriteMeta kp (st.vCells t) r.2 seqId
      return out ++ u32 r.1 ++ cells ++ st.stateWriteData kp t r.2) (u32 kp.nStream)

/-! ### Reading -/

/-- What `state_read` works on: the cache, and what is left of the buffer. -/
structure ReadState where
  cache : KvCache
  bytes : List UInt8

abbrev Reader := Fallible ReadState StateError

/-- `io.read`. -/
def read (n : ℕ) : Reader (List UInt8) := do
  let s ← get
  if s.bytes.length < n then throw .endOfBuffer
  else
    set ⟨s.cache, s.bytes.drop n⟩
    return s.bytes.take n

def readU32 : Reader ℕ := do
  let l ← read 4
  return leNat l

def readI32 : Reader ℤ := do
  let l ← read 4
  return int32 (leNat l)

def readU64 : Reader ℕ := do
  let l ← read 8
  return leNat l

def onCache (f : KvCache → Checked KvCache) : Reader Unit := do
  let s ← get
  let cache ← lift (f s.cache)
  set ⟨cache, s.bytes⟩

/-- An operation on the cells of stream `t`. -/
def onCells (t : ℕ) (f : KvCells → Checked KvCells) : Reader Unit :=
  onCache fun st => do
    let c ← f (st.vCells t)
    return st.setStream t c (st.vHeads t)

def setHead (t head : ℕ) : KvCache := { st with vHeads := Function.update st.vHeads t head }

/-! ### `state_read_meta` -/

/-- The positions of the `n` cells of one sequence; `none` when a cell does not have one sequence. -/
def readSeqCells : ℕ → Reader (Option (List ℤ))
  | 0 => pure (some [])
  | n + 1 => do
    let pos ← readI32
    let nSeqId ← readU32
    if nSeqId ≠ 1 then return none
    else
      -- the sequence id is read and discarded
      let _ ← readI32
      let rest ← readSeqCells n
      return rest.map fun l => pos :: l

def restoreUbatch (s : ℕ) (pos : List ℤ) : Ubatch :=
  { BatchAllocr.ubatchReserve kp.nPosPerEmbd pos.length 1 with
    pos := pos
    seqId := List.replicate pos.length [s]
    seqIdUnq := [s] }

def slotCheck (c : KvCells) (head : ℕ) (pos : List ℤ) (s : ℕ) : Checked Unit := do
  check (head + pos.length ≤ c.size)
  let first ← c.posGet head
  check (first = pos.headD 0)
  let last ← c.posGet (head + pos.length - 1)
  check (last = pos.getLastD 0)
  let hasFirst ← c.seqHas head s
  check hasFirst
  let hasLast ← c.seqHas (head + pos.length - 1) s
  check hasLast

/-- `state_read_meta` for one sequence. -/
def readMetaSeq (t count s : ℕ) : Reader Bool := do
  onCache fun st => st.seqRm kp s (-1) (-1)
  match ← readSeqCells count with
  | none => return false
  | some pos =>
    let u := restoreUbatch kp s pos
    let r ← get
    match ← lift (r.cache.findSlot kp u true) with
    | none => return false
    | some si =>
      onCache fun st => st.applyUbatch kp si u
      let head ← lift si.head
      onCache fun st => pure (st.setHead t head)
      let r ← get
      lift (slotCheck (r.cache.vCells t) head pos s)
      return true

/-- One sequence id of cell `i`. -/
def readSeqId (t i : ℕ) : Reader Bool := do
  let seqId ← readI32
  if seqId < 0 ∨ (kp.nSeqMax : ℤ) ≤ seqId then return false
  else
    onCells t fun c => c.seqAdd i seqId.toNat
    return true

/-- Cell `i` of a stream. -/
def readCell (t i : ℕ) : Reader Bool := do
  let pos ← readI32
  let nSeqId ← readU32
  onCells t fun c => c.posSet i pos
  (List.range nSeqId).allM fun _ => readSeqId kp t i

/-- `state_read_meta` for the whole cache. -/
def readMetaAll (t count : ℕ) : Reader Bool := do
  let r ← get
  if (r.cache.vCells t).size < count then return false
  else
    onCache fun st => pure (st.clear kp true)
    if ← (List.range count).allM (readCell kp t) then
      onCache fun st => pure (st.setHead t 0)
      return true
    else return false

def stateReadMeta (t count : ℕ) (destSeqId : ℤ) : Reader Bool :=
  if destSeqId ≠ -1 then readMetaSeq kp t count destSeqId.toNat else readMetaAll kp t count

/-! ### `state_read_data` -/

/-- `ggml_backend_tensor_set`. -/
def tensorSet (data : TensorData) (il t off : ℕ) (l : List UInt8) : TensorData :=
  Function.update data il (Function.update (data il) t (blit (data il t) off l))

def setK (il t off : ℕ) (l : List UInt8) : KvCache := { st with kData := tensorSet st.kData il t off l }

def setV (il t off : ℕ) (l : List UInt8) : KvCache := { st with vData := tensorSet st.vData il t off l }

/-- The rows of a tensor whose row is a cell; `put` writes them into layer and stream. -/
def readRows (put : KvCache → ℕ → List UInt8 → KvCache) (type sizeRow t count : ℕ) : Reader Bool := do
  let typeRef ← readI32
  if (type : ℤ) ≠ typeRef then return false
  else
    let sizeRowRef ← readU64
    if sizeRow ≠ sizeRowRef then return false
    else if count = 0 then return true
    else
      let l ← read (count * sizeRow)
      onCache fun st => pure (put st (st.vHeads t * sizeRow) l)
      return true

/-- Row `j` of a transposed V. -/
def readElems (il t count sizeEl j : ℕ) : Reader Unit := do
  let l ← read (count * sizeEl)
  onCache fun st => pure (st.setV il t ((st.vHeads t + j * (st.vCells t).size) % 2 ^ 32 * sizeEl) l)

def readTrans (il type sizeEl nEmbd t count : ℕ) : Reader Bool := do
  let typeRef ← readI32
  if (type : ℤ) ≠ typeRef then return false
  else
    let sizeElRef ← readU32
    if sizeEl ≠ sizeElRef then return false
    else
      let nEmbdRef ← readU32
      if nEmbd ≠ nEmbdRef then return false
      else if count = 0 then return true
      else
        (List.range nEmbd).forM (readElems il t count sizeEl)
        return true

def readK (t count : ℕ) (x : KvLayer × ℕ) : Reader Bool :=
  readRows (fun st off l => st.setK x.2 t off l) x.1.kType x.1.kSizeRow t count

def readV (t count : ℕ) (x : KvLayer × ℕ) : Reader Bool :=
  if kp.vTrans then readTrans x.2 x.1.vType x.1.vSizeEl x.1.nEmbdVGqa t count
  else readRows (fun st off l => st.setV x.2 t off l) x.1.vType x.1.vSizeRow t count

def stateReadData (t count : ℕ) : Reader Bool := do
  let vTrans ← readU32
  let nLayer ← readU32
  let r ← get
  if nLayer ≠ kp.layers.length then return false
  else if (r.cache.vCells t).size < count then return false
  else if kp.vTrans ≠ decide (vTrans ≠ 0) then return false
  else if ← kp.layers.zipIdx.allM (readK t count) then
    kp.layers.zipIdx.allM (readV kp t count)
  else return false

/-! ### `state_read` -/

/-- `state_read_meta` and `state_read_data` of one stream. -/
def readBlock (t count : ℕ) (seqId : ℤ) : Reader Bool := do
  if ← stateReadMeta kp t count seqId then stateReadData kp t count else return false

/-- What `state_read` does when a block was rejected. -/
def cleanUp (seqId : ℤ) : Reader Unit :=
  onCache fun st => if seqId = -1 then pure (st.clear kp true) else st.seqRm kp seqId (-1) (-1)

/-- One stream of `state_read`. -/
def readStream (seqId : ℤ) (s : ℕ) : Reader Unit := do
  let count ← readU32
  if count = 0 then return ()
  else
    let t := if seqId = -1 then s else kp.streamOf seqId.toNat
    if ← readBlock kp t count seqId then return ()
    else
      cleanUp kp seqId
      throw .restoreFailed

def stateRead (seqId : ℤ) : Reader Unit := do
  lift (check (seqId = -1 ∨ (0 ≤ seqId ∧ seqId < kp.seqToStream.length)))
  let nStream ← readU32
  if nStream ≠ kp.nStream then throw .nStreamMismatch
  else (List.range kp.nStream).forM (readStream kp seqId)

end KvCache
