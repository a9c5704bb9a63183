import LlamaRafaelia.Kv.Cells

/-!
# Batches: validation and splitting (`llama-batch.cpp`)

`llama_batch_allocr::init` checks a batch and fills in what is missing; the splitters cut it into ubatches.  The
statistics that `init` stores are functions of the batch here.  The embeddings are left out.
-/

/-- `llama_batch`: a missing array is `none`.  `n_seq_id` is the lengths of the lists of `seqId`. -/
structure Batch where
  nTokens : ℕ
  token : Option (List ℤ)
  pos : Option (List ℤ)
  seqId : Option (List (List ℤ))
  logits : Option (List Bool)
  token_length : ∀ l ∈ token, l.length = nTokens
  pos_length : ∀ l ∈ pos, nTokens ≤ l.length
  seqId_length : ∀ l ∈ seqId, l.length = nTokens
  logits_length : ∀ l ∈ logits, l.length = nTokens

/-- Every token lists a sequence.  `init` does not check it, and `seq_id[i][0]` is read of every token that is
placed: of an empty list that is memory behind the list, `0` here. -/
def Batch.Listed (b : Batch) : Prop := ∀ l ∈ b.seqId, [] ∉ l

instance (b : Batch) : Decidable b.Listed := inferInstanceAs (Decidable (∀ l ∈ b.seqId, [] ∉ l))

def Batch.text (pos : List ℤ) (seqId : List (List ℤ)) (hlen : seqId.length = pos.length) : Batch where
  nTokens := pos.length
  token := some (List.replicate pos.length 0)
  pos := some pos
  seqId := some seqId
  logits := none
  token_length := by simp
  pos_length := by simp
  seqId_length := by simpa using hlen
  logits_length := by simp

/-- What `init` reads of a `llama_memory_i`. -/
structure Memory where
  seqPosMin : ℕ → ℤ
  seqPosMax : ℕ → ℤ

/-- `llama_ubatch`. -/
structure Ubatch where
  bEqualSeqs : Bool
  nTokens : ℕ
  nSeqTokens : ℕ
  nSeqs : ℕ
  nPos : ℕ
  token : Option (List ℤ)
  pos : List ℤ
  /-- `seq_id[i]`, a list of `n_seq_id[i]` entries -/
  seqId : List (List ℕ)
  seqIdUnq : List ℕ
  seqIdx : List ℤ
  output : List Bool

namespace Ubatch

variable (u : Ubatch)

/-- `n_seqs_unq`. -/
def nSeqsUnq : ℕ := u.seqIdUnq.length

def isPos2d : Bool := 3 ≤ u.nPos

/-- `pos[i]`. -/
def posAt (i : ℕ) : ℤ := u.pos.getD i 0

/-- `seq_id[i]`. -/
def seqAt (i : ℕ) : List ℕ := u.seqId.getD i []

end Ubatch

/-- Why `init` refuses a batch. -/
inductive BatchError where
  | tooManySequences
  | invalidToken
  | invalidSeqId
  | inconsistentPositions
  | notContinuous
  | diverged
  | incompatibleSets
  | decreasingPositions
  deriving DecidableEq, Repr

/-- `llama_batch_allocr`, after the missing fields of the batch were filled in. -/
structure BatchAllocr where
  nPosPerEmbd : ℕ
  nSeqMax : ℕ
  nTokens : ℕ
  token : Option (List ℤ)
  pos : List ℤ
  seqId : List (List ℕ)
  logits : List Bool
  outIds : List ℕ
  nUsed : ℕ
  used : List Bool

namespace BatchAllocr

/-! ### Filling in the missing fields -/

def fillSeqId (b : Batch) : List (List ℕ) :=
  match b.seqId with
  | none => List.replicate b.nTokens [0]
  | some l => l.map fun ids => ids.map Int.toNat

/-- `p0[s]`: the position at which sequence `s` continues. -/
def startPos (memory : Option Memory) (s : ℕ) : ℤ :=
  match memory with
  | none => 0
  | some m => m.seqPosMax s + 1

def autoPos : List (List ℕ) → (ℕ → ℤ) → List ℤ
  | [], _ => []
  | ids :: rest, p0 =>
    let p := p0 (ids.headD 0)
    p :: autoPos rest fun s => if s ∈ ids then p + 1 else p0 s

def fillPos (b : Batch) (memory : Option Memory) : List ℤ :=
  match b.pos with
  | none => autoPos (fillSeqId b) (startPos memory)
  | some l => l

def fillLogits (b : Batch) (outputAll : Bool) : List Bool :=
  match b.logits with
  | none =>
    if outputAll then List.replicate b.nTokens true else List.replicate (b.nTokens - 1) false ++ [true]
  | some l => if outputAll ∧ false ∈ l then List.replicate b.nTokens true else l

def sanitize (nPosPerEmbd : ℕ) (b : Batch) (memory : Option Memory) (nSeqMax : ℕ) (outputAll : Bool) :
    BatchAllocr where
  nPosPerEmbd := nPosPerEmbd
  nSeqMax := nSeqMax
  nTokens := b.nTokens
  token := b.token
  pos := fillPos b memory
  seqId := fillSeqId b
  logits := fillLogits b outputAll
  outIds := []
  nUsed := 0
  used := []

variable (a : BatchAllocr)

/-- `batch.pos[i]`. -/
def posAt (i : ℕ) : ℤ := a.pos.getD i 0

/-- `batch.seq_id[i]`. -/
def seqAt (i : ℕ) : List ℕ := a.seqId.getD i []

/-! ### Statistics of the batch -/

/-- The tokens of sequence `s`, in batch order. -/
def tokensOf (s : ℕ) : List ℕ := (List.range a.nTokens).filter fun i => s ∈ a.seqAt i

/-- `seq_pos[s]`. -/
def seqPos (s : ℕ) : Finset ℤ := ((a.tokensOf s).map a.posAt).toFinset

def seqPosMin (s : ℕ) : ℤ := (a.seqPos s).min.untopD (-1)

def seqPosMax (s : ℕ) : ℤ := (a.seqPos s).max.unbotD (-1)

/-- The pairs `(s1, s0)` that are marked in `seq_cpl`: some token lists `s0` first and `s1` after it. -/
def seqCpl : List (ℕ × ℕ) :=
  (List.range a.nTokens).flatMap fun i => (a.seqAt i).tail.map fun s1 => (s1, (a.seqAt i).headD 0)

def hasCpl : Bool := (List.range a.nTokens).any fun i => 1 < (a.seqAt i).length

/-- `seq_set[i]`. -/
def seqSet (i : ℕ) : Finset ℕ := (a.seqAt i).toFinset

/-- `seq_set_map[s]`: the tokens whose sequence set is `s`. -/
def seqSetMap (s : Finset ℕ) : List ℕ := (List.range a.nTokens).filter fun i => a.seqSet i = s

/-- The unique sequence ids of the tokens `idxs`, in increasing order. -/
def seqIdUnq (idxs : List ℕ) : List ℕ :=
  (List.range a.nSeqMax).filter fun s => ∃ i ∈ idxs, s ∈ a.seqAt i

/-- `seq_idx[s]`, for all sequences: the index of `s` among the unique ones, `-1` if it is not there. -/
def seqIdx (unq : List ℕ) : List ℤ :=
  (List.range llamaMaxSeq).map fun s => if s ∈ unq then (unq.idxOf s : ℤ) else -1

/-! ### Validation -/

def tokensOk (nVocab : ℕ) (b : Batch) : Bool :=
  match b.token with
  | none => true
  | some l => l.all fun t => 0 ≤ t ∧ t < nVocab

def seqIdsOk (nSeqMax : ℕ) (b : Batch) : Bool :=
  match b.seqId with
  | none => true
  | some l => l.all fun ids => ids.all fun s => 0 ≤ s ∧ s < nSeqMax

/-- `p0` of the consistency checks: the last position in the memory. -/
def lastPos (memory : Option Memory) (s : ℕ) : ℤ :=
  match memory with
  | none => -1
  | some m => m.seqPosMax s

/-- The consistency check of sequence `s` for M-RoPE: positions may jump forward only. -/
def checkMrope (memory : Option Memory) (s : ℕ) : Except BatchError Unit :=
  let p0 := lastPos memory s
  if a.seqPos s = ∅ then .ok ()
  else if a.token.isSome then
    if 0 ≤ p0 ∧ a.seqPosMin s ≤ p0 then .error .inconsistentPositions else .ok ()
  else
    -- embedding inputs can have overlapping positions
    if 0 ≤ p0 ∧ a.seqPosMin s < p0 then .error .inconsistentPositions else .ok ()

/-- The consistency check of sequence `s` with one position for each token. -/
def checkSeqPos (memory : Option Memory) (s : ℕ) : Except BatchError Unit :=
  let p0 := lastPos memory s
  if a.seqPos s = ∅ then .ok ()
  else if 0 ≤ p0 ∧ a.seqPosMin s ≠ p0 + 1 then .error .inconsistentPositions
  else if ((a.seqPos s).card : ℤ) < a.seqPosMax s - a.seqPosMin s + 1 then .error .notContinuous
  else .ok ()

/-- Sequences that are marked as coupled must not have diverged in the memory. -/
def checkCoupled (memory : Option Memory) (x : ℕ × ℕ) : Except BatchError Unit :=
  match memory with
  | none => .ok ()
  | some m =>
    if m.seqPosMin x.1 ≠ m.seqPosMin x.2 ∨ m.seqPosMax x.1 ≠ m.seqPosMax x.2 then .error .diverged
    else .ok ()

/-- `cur_seq_pos[s]`, which the loop below never updates. -/
def curSeqPos (_ : ℕ) : ℤ := -1

/-- One token and one of its sequences in the last loop of `init`; the state is `cur_seq_set`. -/
def checkSetStep (cur : ℕ → Finset ℕ) (x : ℕ × ℕ) : Except BatchError (ℕ → Finset ℕ) :=
  let cur := Function.update cur x.2 (cur x.2 ∩ a.seqSet x.1)
  if cur x.2 = ∅ then .error .incompatibleSets
  else if a.posAt x.1 < curSeqPos x.2 then .error .decreasingPositions
  else .ok cur

def memberships : List (ℕ × ℕ) :=
  (List.range a.nTokens).flatMap fun i => (a.seqAt i).map fun s => (i, s)

/-- The checks of `init` once the fields are filled in. -/
def validate (memory : Option Memory) : Except BatchError Unit := do
  (List.range a.nSeqMax).forM
    (if 1 < a.nPosPerEmbd then a.checkMrope memory else a.checkSeqPos memory)
  a.seqCpl.forM (checkCoupled memory)
  let _ ← a.memberships.foldlM a.checkSetStep fun _ => Finset.range llamaMaxSeq
  return ()

/-- "Call once before splitting the batch." -/
def splitReset : BatchAllocr :=
  { a with outIds := [], nUsed := 0, used := List.replicate a.nTokens false }

/-- `llama_batch_allocr::init`; `error` is the return value `false`. -/
def init (nPosPerEmbd nVocab : ℕ) (b : Batch) (memory : Option Memory) (nSeqMax : ℕ) (outputAll : Bool) :
    Checked (Except BatchError BatchAllocr) := do
  Checked.check (0 < b.nTokens)
  return do
    if llamaMaxSeq < nSeqMax then throw .tooManySequences
    if ¬tokensOk nVocab b then throw .invalidToken
    if ¬seqIdsOk nSeqMax b then throw .invalidSeqId
    let a := sanitize nPosPerEmbd b memory nSeqMax outputAll
    a.validate memory
    return a.splitReset

/-! ### Splitting -/

/-- `ubatch_add`: the ubatch of the tokens `idxs`, in `nSeqs` blocks. -/
def ubatchAdd (idxs : List ℕ) (nSeqs : ℕ) (equalSeqs : Bool) : Checked (Ubatch × BatchAllocr) := do
  Checked.assert (idxs.length % nSeqs = 0)
  -- text has one position for all sections, other input has its own
  let srcOff := fun j => if a.token.isSome then 0 else j * a.nTokens
  let unq := a.seqIdUnq idxs
  let u : Ubatch :=
    { bEqualSeqs := equalSeqs
      nTokens := idxs.length
      nSeqTokens := idxs.length / nSeqs
      nSeqs := nSeqs
      nPos := a.nPosPerEmbd
      token := a.token.map fun l => idxs.map fun i => l.getD i 0
      pos := (List.range a.nPosPerEmbd).flatMap fun j => idxs.map fun i => a.posAt (srcOff j + i)
      seqId := idxs.map a.seqAt
      seqIdUnq := unq
      seqIdx := seqIdx unq
      output := idxs.map fun i => a.logits.getD i false }
  return (u, { a with outIds := a.outIds ++ idxs.filter fun i => a.logits.getD i false })

/-- `ubatch_reserve`: a ubatch to be filled in, with `nSeqs` sequences of `nSeqTokens` tokens. -/
def ubatchReserve (nPosPerEmbd nSeqTokens nSeqs : ℕ) : Ubatch where
  bEqualSeqs := true
  nTokens := nSeqTokens * nSeqs
  nSeqTokens := nSeqTokens
  nSeqs := nSeqs
  nPos := nPosPerEmbd
  token := some (List.replicate (nSeqTokens * nSeqs) 0)
  pos := List.replicate (nSeqTokens * nSeqs) 0
  seqId := List.replicate (nSeqTokens * nSeqs) []
  seqIdUnq := List.range nSeqs
  seqIdx := (List.range llamaMaxSeq).map fun s => if s < nSeqs then (s : ℤ) else -1
  output := List.replicate (nSeqTokens * nSeqs) false

/-- Marks the tokens `idxs`; `n_used` counts them. -/
def use (idxs : List ℕ) : BatchAllocr :=
  { a with
    used := idxs.foldl (fun used i => used.set i true) a.used
    nUsed := a.nUsed + idxs.length }

/-- `used[i]`. -/
def usedAt (i : ℕ) : Bool := a.used.getD i false

def firstUnused : ℕ := a.used.findIdx fun b => !b

/-- The loop of `split_simple`, with `k` tokens left in the batch. -/
def simpleLoop (nUbatch : ℕ) : ℕ → ℕ → List ℕ → List ℕ
  | 0, _, idxs => idxs
  | k + 1, curIdx, idxs =>
    let idxs := idxs ++ [curIdx]
    if nUbatch ≤ idxs.length then idxs else simpleLoop nUbatch k (curIdx + 1) idxs

/-- `split_simple`; `none` is the empty ubatch. -/
def splitSimple (nUbatch : ℕ) : Checked (Option Ubatch × BatchAllocr) := do
  let curIdx := a.firstUnused
  if a.used.length ≤ curIdx then return (none, a)
  else
    let idxs := simpleLoop nUbatch (a.used.length - curIdx) curIdx []
    let r ← (a.use idxs).ubatchAdd idxs idxs.length false
    return (some r.1, r.2)

/-- The first loop of `split_equal`, over the tokens: the sequence sets of this ubatch, which do not
overlap.  With `sequential` the sequence ids have to be consecutive. -/
def equalSets (nUbatch : ℕ) (sequential : Bool) : List ℕ → List (Finset ℕ) → ℤ → List (Finset ℕ)
  | [], cur, _ => cur
  | i :: is, cur, last =>
    if a.usedAt i then equalSets nUbatch sequential is cur last
    else
      let seqId : ℤ := (a.seqAt i).headD 0
      if (∀ set ∈ cur, set ∩ a.seqSet i = ∅) ∧ (sequential → cur = [] ∨ seqId = last + 1) then
        let cur := cur ++ [a.seqSet i]
        if nUbatch < cur.length then cur else equalSets nUbatch sequential is cur seqId
      else equalSets nUbatch sequential is cur last

/-- The loop of `split_equal` that takes one more token of every set, as long as all of them have one
and the ubatch does not get too large.  A set is what is left of its tokens and what was taken. -/
def equalLoop (nUbatch : ℕ) : ℕ → List (List ℕ × List ℕ) → List (List ℕ × List ℕ)
  | 0, sets => sets
  | fuel + 1, sets =>
    if ∀ x ∈ sets, x.1 ≠ [] then
      let sets := sets.map fun x => (x.1.tail, x.2 ++ [x.1.headD 0])
      if nUbatch < ((sets.headD ([], [])).2.length + 1) * sets.length then sets
      else equalLoop nUbatch fuel sets
    else sets

/-- `split_equal`; `none` is the empty ubatch. -/
def splitEqual (nUbatch : ℕ) (sequential : Bool) : Checked (Option Ubatch × BatchAllocr) := do
  if sequential ∧ a.hasCpl then return (none, a)
  else
    let cur := a.equalSets nUbatch sequential (List.range a.nTokens) [] (-1)
    if cur = [] then return (none, a)
    else
      -- each set starts at its first unused token
      let sets := cur.map fun set => ((a.seqSetMap set).dropWhile a.usedAt, [])
      let idxs := (equalLoop nUbatch a.nTokens sets).flatMap Prod.snd
      let r ← (a.use idxs).ubatchAdd idxs cur.length true
      return (some r.1, r.2)

/-- The loop of `split_seq` over the tokens behind the last one taken; `cur` is `cur_seq_set`. -/
def seqLoop (nUbatch : ℕ) : List ℕ → Finset ℕ → List ℕ → List ℕ
  | [], _, idxs => idxs
  | i :: is, cur, idxs =>
    if nUbatch ≤ idxs.length then idxs
    else if a.usedAt i ∨ cur ∩ a.seqSet i ≠ a.seqSet i then seqLoop nUbatch is cur idxs
    else seqLoop nUbatch is (a.seqSet i) (idxs ++ [i])

/-- `split_seq`; `none` is the empty ubatch. -/
def splitSeq (nUbatch : ℕ) : Checked (Option Ubatch × BatchAllocr) := do
  let curIdx := a.firstUnused
  if a.used.length ≤ curIdx then return (none, a)
  else
    let rest := List.range' (curIdx + 1) (a.nTokens - (curIdx + 1))
    let idxs := a.seqLoop nUbatch rest (a.seqSet curIdx) [curIdx]
    let r ← (a.use idxs).ubatchAdd idxs 1 true
    return (some r.1, r.2)

/-- The loop of `init_batch` that collects the ubatches. -/
def splitLoop (split : BatchAllocr → Checked (Option Ubatch × BatchAllocr)) :
    ℕ → BatchAllocr → List Ubatch → Checked (List Ubatch × BatchAllocr)
  | 0, a, us => pure (us, a)
  | fuel + 1, a, us => do
    match ← split a with
    | (none, a) => return (us, a)
    | (some u, a) => splitLoop split fuel a (us ++ [u])

end BatchAllocr
