import LlamaRafaelia.Batch.Alloc
import LlamaRafaelia.Kv.Cache

/-!
# Placing ubatches: `find_slot`, `apply_ubatch` and `prepare` (`llama-kv-cache.cpp`)

`find_slot` looks for one usable cell for each token, separately in each stream; `apply_ubatch` puts the tokens there
and purges the positions below the evicted ones; `prepare` tries a list of ubatches and undoes the placements.  The
search runs on fuel; the bound in `findStream` is never used up.
-/

namespace Ubatch

/-- The 2D position of token `i`. -/
def extAt (u : Ubatch) (i : ℕ) : KvCellExt := ⟨u.posAt (i + u.nTokens * 2), u.posAt (i + u.nTokens)⟩

end Ubatch

/-- `llama_kv_cache::slot_info`. -/
structure SlotInfo where
  s0 : ℕ
  s1 : ℕ
  strm : List ℕ
  idxs : List (List ℕ)
  deriving DecidableEq, Repr

namespace SlotInfo

variable (si : SlotInfo)

def nStream : ℕ := si.strm.length

/-- `size()`: the number of tokens in each stream. -/
def size : ℕ := (si.idxs.getD 0 []).length

/-- `strm[s]`. -/
def strmAt (s : ℕ) : ℕ := si.strm.getD s 0

/-- `idxs[s]`. -/
def idxsAt (s : ℕ) : List ℕ := si.idxs.getD s []

/-- The cells in the order in which `apply_ubatch` fills them: stream, index, and number of the token
inside the ubatch. -/
def places : List (ℕ × ℕ × ℕ) :=
  (List.range si.nStream).flatMap fun s =>
    (List.range si.size).map fun ii => (si.strmAt s, (si.idxsAt s).getD ii 0, s * si.size + ii)

end SlotInfo

namespace KvCache

open Checked

variable (kp : KvParams) (st : KvCache)

/-! ### `find_slot` -/

/-- Can the cell be used?  Either it is empty, or a single sequence occupies it and the sliding window
hides it from the next token of that sequence. -/
def canUse (c : KvCells) (idx : ℕ) : Checked Bool := do
  if ← c.isEmpty idx then return true
  else
    let n ← c.seqCount idx
    if n = 1 then
      let posCell ← c.posGet idx
      let seqIdCell ← c.seqGet idx
      let posMax ← c.seqPosMax seqIdCell.toNat
      kp.isMasked posCell (posMax + 1)
    else return false

/-- Where a search stands: `head_cur`, `n_tested` and the indices found. -/
structure Search where
  headCur : ℕ
  nTested : ℕ
  idxs : List ℕ

/-- The inner `for` of `find_slot`: tests `k` cells, and stops at the first one that cannot be used
when the slot has to be contiguous. -/
def scan (c : KvCells) (cont : Bool) : ℕ → Search → Checked Search
  | 0, a => pure a
  | k + 1, a => do
    if ← canUse kp c a.headCur then
      scan c cont k ⟨a.headCur + 1, a.nTested + 1, a.idxs ++ [a.headCur]⟩
    else if cont then return ⟨a.headCur + 1, a.nTested + 1, a.idxs⟩
    else scan c cont k ⟨a.headCur + 1, a.nTested + 1, a.idxs⟩

/-- The `while (true)` of `find_slot` for `n` tokens; `none` is the empty slot. -/
def findLoop (c : KvCells) (cont : Bool) (n nTest : ℕ) : ℕ → Search → Checked (Option (List ℕ))
  | 0, _ => pure none
  | fuel + 1, a =>
    if c.size < a.headCur + nTest then
      findLoop c cont n nTest fuel ⟨0, a.nTested + (c.size - a.headCur), a.idxs⟩
    else do
      let a ← scan kp c cont nTest a
      if a.idxs.length = n then return some a.idxs
      else if c.size ≤ a.nTested then return none
      else findLoop c cont n nTest fuel { a with idxs := if cont then [] else a.idxs }

/-- The head from which the search starts: with enough unused cells before the current head, it is
better to start from the beginning of the cache. -/
def searchHead (c : KvCells) (head n : ℕ) : ℕ := if c.getUsed + 2 * n < head then 0 else head

def findStream (c : KvCells) (head n : ℕ) (cont : Bool) : Checked (Option (List ℕ)) :=
  if c.size < n then pure none
  else findLoop kp c cont n (if cont then n else 1) (2 * c.size + 2) ⟨searchHead c head n, 0, []⟩

/-- `n_seqs`: with several streams, the ubatch has one block of tokens for each unique sequence. -/
def slotSeqs (u : Ubatch) : ℕ := if 1 < kp.nStream then u.nSeqsUnq else 1

/-- `n_tokens`: the number of tokens in each stream. -/
def slotTokens (u : Ubatch) : ℕ := u.nTokens / slotSeqs kp u

/-- The body of the loop of `find_slot` over the streams of the ubatch. -/
def findStep (u : Ubatch) (cont : Bool) (res : Option SlotInfo) (s : ℕ) : Checked (Option SlotInfo) :=
  match res with
  | none => pure none
  | some r => do
    assert (s < u.seqIdUnq.length)
    let seqId := u.seqIdUnq.getD s 0
    let n := slotTokens kp u
    check (1 < kp.nStream → (u.seqAt (s * n)).length = 1)
    check (1 < kp.nStream → (u.seqAt (s * n)).headD 0 = seqId)
    assert (seqId < kp.seqToStream.length)
    let t := kp.streamOf seqId
    let idxs ← findStream kp (st.vCells t) (st.vHeads t) n cont
    return idxs.map fun l => ⟨min r.s0 t, max r.s1 t, r.strm ++ [t], r.idxs ++ [l]⟩

/-- `find_slot`; `none` is the empty slot. -/
def findSlot (u : Ubatch) (cont : Bool) : Checked (Option SlotInfo) := do
  -- a division by zero stops the process as a failed check does
  check (1 < kp.nStream → u.nSeqsUnq ≠ 0 ∧ u.nTokens % u.nSeqsUnq = 0)
  loopRange (slotSeqs kp u) (st.findStep kp u cont) (some ⟨llamaMaxSeq, 0, [], []⟩)

/-! ### `apply_ubatch` -/

/-- What is in the way is removed; `seq_pos_max_rm` keeps the largest position that was evicted from
each sequence. -/
def evict (c : KvCells) (rm : ℕ → ℤ) (idx : ℕ) : Checked (KvCells × (ℕ → ℤ)) := do
  if ← c.isEmpty idx then return (c, rm)
  else
    let n ← c.seqCount idx
    assert (n = 1)
    let seqId ← c.seqGet idx
    let pos ← c.posGet idx
    let c ← c.rm idx
    return (c, Function.update rm seqId.toNat (max (rm seqId.toNat) pos))

def placeExt (c : KvCells) (u : Ubatch) (idx i : ℕ) : Checked KvCells :=
  if u.isPos2d then c.extSet idx (u.extAt i) else pure c

/-- Token `i` of the ubatch goes into the empty cell `idx`. -/
def placeToken (c : KvCells) (u : Ubatch) (idx i : ℕ) : Checked KvCells := do
  let c ← c.posSet idx (u.posAt i)
  let c ← placeExt c u idx i
  loop (fun c s => c.seqAdd idx s) c (u.seqAt i)

/-- One token: the state is the streams and `seq_pos_max_rm`. -/
def applyStep (u : Ubatch) (a : (ℕ → KvCells) × (ℕ → ℤ)) (x : ℕ × ℕ × ℕ) :
    Checked ((ℕ → KvCells) × (ℕ → ℤ)) := do
  let r ← evict (a.1 x.1) a.2 x.2.1
  let c ← placeToken r.1 u x.2.1 x.2.2
  return (Function.update a.1 x.1 c, r.2)

/-- Purge the positions of sequence `s` that are less than those that were overwritten. -/
def purgeStep (rm : ℕ → ℤ) (st : KvCache) (s : ℕ) : Checked KvCache := do
  if rm s = -1 then return st
  else
    check (s < kp.seqToStream.length)
    let posMin ← (st.vCells (kp.streamOf s)).seqPosMin s
    if posMin ≤ rm s then st.seqRm kp s posMin (rm s + 1) else return st

/-- "Move the head at the end of the slot." -/
def moveHeads (si : SlotInfo) : KvCache :=
  let heads := (List.range si.nStream).foldl
    (fun heads s => Function.update heads (si.strmAt s) ((si.idxsAt s).getLastD 0 + 1)) st.vHeads
  { st with vHeads := heads }

def applyUbatch (si : SlotInfo) (u : Ubatch) : Checked KvCache := do
  check (si.idxs.length = si.strm.length ∧ si.idxs ≠ [])
  assert (u.nTokens = si.nStream * si.size)
  let r ← loop (applyStep u) (st.vCells, fun _ => -1) si.places
  let st ← loopRange llamaMaxSeq (purgeStep kp r.2) { st with vCells := r.1 }
  return st.moveHeads si

/-! ### `prepare` -/

/-- `state_t`: what is needed to undo one placement. -/
structure PrepState where
  sinfo : SlotInfo
  vHeadsOld : ℕ → ℕ
  vCells : List KvCells

def snapshot (si : SlotInfo) : Checked (List KvCells) :=
  loopRange si.nStream (fun l s => do
    let c ← (st.vCells (si.strmAt s)).cpIdxs (si.idxsAt s)
    return l ++ [c]) []

/-- The first loop of `prepare`: `states` is the recovery stack, the last placement first; the flag is
`success`. -/
def prepareLoop : KvCache → List PrepState → List Ubatch → Checked (KvCache × List PrepState × Bool)
  | st, states, [] => pure (st, states, true)
  | st, states, u :: us => do
    match ← st.findSlot kp u false with
    | none => return (st, states, false)
    | some si =>
      let cells ← st.snapshot si
      let st' ← st.applyUbatch kp si u
      prepareLoop st' (⟨si, st.vHeads, cells⟩ :: states) us

/-- Undo one placement.  The saved heads are read at the index of the stream inside the slot. -/
def restore (ps : PrepState) : Checked KvCache :=
  loopRange ps.sinfo.nStream (fun st s => do
    let t := ps.sinfo.strmAt s
    let c ← (st.vCells t).setIdxs (ps.sinfo.idxsAt s) (ps.vCells.getD s (KvCells.resize 0))
    return st.setStream t c (ps.vHeadsOld s)) st

/-- `prepare`: the state it leaves, and the slots found (none on failure). -/
def prepare (us : List Ubatch) : Checked (KvCache × List SlotInfo) := do
  let r ← prepareLoop kp st [] us
  check (r.2.1 ≠ [] ∨ r.2.2 = false)
  let st ← loop restore r.1 r.2.1
  return (st, if r.2.2 then (r.2.1.map (·.sinfo)).reverse else [])

end KvCache
