import LlamaRafaelia.Kv.Positions
import LlamaRafaelia.Batch.Partition

/-!
# Two caches in step (`llama-kv-cache-iswa.cpp`)

A model with a sliding window in some layers keeps two KV caches: `kv_base`, and a smaller `kv_swa`.  Every operation
goes to both; positions are reported by `kv_swa` alone.  If the simple split does not fit, `init_batch` tries the
equal split.
-/

/-- The constant members of `llama_kv_cache_iswa`: those of the two caches, as the constructor sets them. -/
structure IswaParams where
  base : KvParams
  swa : KvParams
  base_none : base.swaType = .none
  unified_eq : base.unified = swa.unified
  nSeqMax_eq : base.nSeqMax = swa.nSeqMax
  nPosPerEmbd_eq : base.nPosPerEmbd = swa.nPosPerEmbd

/-- The number of cells of `kv_swa`, padded to `nPad`. -/
def sizeSwa (swaFull unified : Bool) (kvSize nSeqMax nUbatch nPad nSwa : ℕ) : ℕ :=
  let need := nSwa * (if unified then nSeqMax else 1) + nUbatch
  if swaFull then kvSize else min kvSize ((need + nPad - 1) / nPad * nPad)

/-- `llama_kv_cache_iswa`. -/
structure Iswa where
  base : KvCache
  swa : KvCache

namespace Iswa

open Checked KvCache BatchAllocr

variable (ip : IswaParams) (x : Iswa)

def init : Iswa := ⟨KvCache.init ip.base, KvCache.init ip.swa⟩

def clear (data : Bool) : Iswa := ⟨x.base.clear ip.base data, x.swa.clear ip.swa data⟩

def seqRm (seqId p0 p1 : ℤ) : Checked Iswa := do
  let base ← x.base.seqRm ip.base seqId p0 p1
  let swa ← x.swa.seqRm ip.swa seqId p0 p1
  return ⟨base, swa⟩

def seqCp (src dst p0 p1 : ℤ) : Checked Iswa := do
  let base ← x.base.seqCp ip.base src dst p0 p1
  let swa ← x.swa.seqCp ip.swa src dst p0 p1
  return ⟨base, swa⟩

def seqKeep (seqId : ℤ) : Checked Iswa := do
  let base ← x.base.seqKeep ip.base seqId
  let swa ← x.swa.seqKeep ip.swa seqId
  return ⟨base, swa⟩

def seqAdd (seqId p0 p1 shift : ℤ) : Checked Iswa := do
  let base ← x.base.seqAdd ip.base seqId p0 p1 shift
  let swa ← x.swa.seqAdd ip.swa seqId p0 p1 shift
  return ⟨base, swa⟩

/-- `seq_pos_max`: "we can just check the SWA cache". -/
def seqPosMax (seqId : ℤ) : Checked ℤ := x.swa.seqPosMax ip.swa seqId

/-- `init_update` followed by `update`, in both caches. -/
def update (base swa : Option TensorData) : Iswa := ⟨x.base.update ip.base base, x.swa.update ip.swa swa⟩

/-- One of the two attempts of `init_batch`: the ubatches with their slots in both caches. -/
def tryBatch (sp : Splitter) (a : BatchAllocr) (nUbatch : ℕ) :
    Checked (Iswa × Option (List ((SlotInfo × Ubatch) × (SlotInfo × Ubatch)))) := do
  let r ← splitLoop (sp.split nUbatch) (a.nTokens + 1) a.splitReset []
  -- failed to find a suitable split
  if r.2.nUsed < r.2.nTokens then return (x, none)
  else
    let b ← x.base.prepare ip.base r.1
    if b.2 = [] then return (⟨b.1, x.swa⟩, none)
    else
      let s ← x.swa.prepare ip.swa r.1
      if s.2 = [] then return (⟨b.1, s.1⟩, none)
      else
        Checked.assert (b.2.length = s.2.length)
        return (⟨b.1, s.1⟩, some ((b.2.zip r.1).zip (s.2.zip r.1)))

/-- `init_batch`: the simple split if the cache is unified, then the equal split. -/
def initBatch (a : BatchAllocr) (nUbatch : ℕ) :
    Checked (Iswa × Option (List ((SlotInfo × Ubatch) × (SlotInfo × Ubatch)))) := do
  let r ← if ip.swa.unified then x.tryBatch ip .simple a nUbatch else pure (x, none)
  match r.2 with
  | some l => return (r.1, some l)
  | none => r.1.tryBatch ip (.equal !ip.swa.unified) a nUbatch

/-- What a call of `decode` depends on besides the caches; see `DecodeArgs`. -/
structure DecodeArgs where
  batch : Batch
  nVocab : ℕ
  nUbatch : ℕ
  outputAll : Bool
  shiftedBase : Option TensorData
  shiftedSwa : Option TensorData

/-- `decode` of a batch that is applied as a whole, up to what is computed into the tensors; `false` when it
is refused or does not fit. -/
def decode (args : DecodeArgs) : Checked (Bool × Iswa) := do
  let m ← x.swa.memory ip.swa
  match ← BatchAllocr.init ip.swa.nPosPerEmbd args.nVocab args.batch (some m) ip.swa.batchSeqMax args.outputAll with
  | .error _ => return (false, x)
  | .ok a =>
    let r ← (x.update ip args.shiftedBase args.shiftedSwa).initBatch ip a args.nUbatch
    match r.2 with
    | none => return (false, r.1)
    | some l =>
      let base ← applyAll ip.base r.1.base (l.map Prod.fst)
      let swa ← applyAll ip.swa r.1.swa (l.map Prod.snd)
      return (true, ⟨base, swa⟩)

end Iswa
