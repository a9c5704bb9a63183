import LlamaRafaelia.Recurrent.Tails
import LlamaRafaelia.Kv.StateScan

/-!
# Restoring the recurrent memory (`state_read`)

`state_read` gets the cells from a stream that anybody may have written.  Of a sequence id in it only the sign and
whether it was there before are checked; the id is then an index into `cells`.

* `readCells_scan` - **the loop and the scan agree** on any bytes;

What is read of the tensors goes into them and is not looked at, so `state_read_data` only scans here.
-/

/-- A tensor of a layer with a row for each cell. -/
structure RsTensor where
  type : ℕ
  sizeRow : ℕ

/-- `r_l[il]` and `s_l[il]`. -/
structure RsLayer where
  r : Option RsTensor
  s : Option RsTensor

/-- What the restore reads of the hyperparameters. -/
structure RsParams where
  nPosPerEmbd : ℕ
  layers : List RsLayer

namespace Recurrent

open List Checked Fallible KvCache

/-! ### `state_read` -/

/-- How a restore ends early. -/
inductive LoadError where
  /-- "unexpectedly reached end of buffer" -/
  | endOfBuffer
  /-- "failed to restore kv cache" -/
  | restoreFailed
  /-- an index beyond the end of `cells`; nothing is known of what follows -/
  | outOfRange
  deriving DecidableEq, Repr

/-- What `state_read` works on: the memory, and what is left of the buffer. -/
structure LoadState where
  mem : Recurrent
  bytes : List UInt8

abbrev Loader := Fallible LoadState LoadError

/-- `io.read_to`, for a scanner that takes the next bytes. -/
def readTo {α : Type} (p : Scanner α) : Loader α := fun s =>
  match p s.bytes with
  | .done a rest => pure (.ok a, ⟨s.mem, rest⟩)
  | _ => pure (.error .endOfBuffer, s)

/-- A part of the reader that leaves the cells alone and returns whether it accepts what it reads. -/
def accept (p : Scanner Unit) : Loader Bool := fun s =>
  match p s.bytes with
  | .done _ rest => pure (.ok true, ⟨s.mem, rest⟩)
  | .rejected => pure (.ok false, s)
  | .cut => pure (.error .endOfBuffer, s)

def onMem (f : Recurrent → Recurrent) : Loader Unit := fun s => pure (.ok (), ⟨f s.mem, s.bytes⟩)

/-- The positions of the cells of one sequence; `none` when a cell has sequences. -/
def readPositions : ℕ → Loader (Option (List ℤ))
  | 0 => pure (some [])
  | n + 1 => do
    let pos ← readTo scanI32
    let nSeqId ← readTo scanU32
    if nSeqId ≠ 0 then return none
    else
      let rest ← readPositions n
      return rest.map fun l => pos :: l

/-- "make sure the recurrent states will keep their restored state": the loop at the end of `state_read_meta`. -/
def keepRestored (count : ℕ) (st : Recurrent) : Recurrent :=
  (List.range count).foldl (fun st i => st.setSrc (st.head + i) (some (st.head + i))) st

/-- `state_read_meta` for one sequence. -/
def readMetaSeq (rp : RsParams) (count s : ℕ) : Loader Bool := do
  onMem fun st => (st.seqRm s (-1) (-1)).2
  if count = 0 then return true
  else
    match ← readPositions count with
    | none => return false
    | some pos =>
      let u := { BatchAllocr.ubatchReserve rp.nPosPerEmbd count 1 with pos := pos, seqId := [[s]] }
      let r ← get
      let found ← lift (r.mem.findSlot u)
      onMem fun _ => found.2
      if ¬ found.1 then return false
      else
        let st := found.2
        lift (check (st.head + count ≤ st.size))
        lift (check (st.pos st.head = u.posAt 0))
        lift (check (st.pos (st.head + count - 1) = u.posAt (count - 1)))
        lift (check (s ∈ st.seqId st.head))
        lift (check (s ∈ st.seqId (st.head + count - 1)))
        onMem (keepRestored count)
        return true

/-- One sequence id of cell `i`. -/
def readSeqId (i : ℕ) : Loader Bool := do
  let seqId ← readTo scanI32
  if seqId < 0 then return false
  else
    onMem fun st => st.setSeqId i (insert seqId.toNat (st.seqId i))
    let r ← get
    if r.mem.size ≤ seqId.toNat then throw .outOfRange
    else if r.mem.tail seqId.toNat ≠ none then return false
    else
      onMem fun st => st.setTail seqId.toNat (some i)
      return true

/-- Cell `i`. -/
def readCell (i : ℕ) : Loader Bool := do
  let pos ← readTo scanI32
  let nSeqId ← readTo scanU32
  onMem fun st => st.setPos i pos
  (List.range nSeqId).allM fun _ => readSeqId i

/-- `state_read_meta` for the whole cache. -/
def readMetaAll (count : ℕ) : Loader Bool := do
  let r ← get
  if r.mem.size < count then return false
  else
    onMem clear
    if ← (List.range count).allM readCell then
      onMem fun st => keepRestored count { st with head := 0, used := count }
      return true
    else return false

/-- One tensor in `state_read_data`. -/
def scanTensor (count : ℕ) : Option RsTensor → Scanner Unit
  | none => pure ()
  | some t => scanRows t.type t.sizeRow count

/-- `state_read_data`.  The branch for a transposed state comes after the check that the state is not transposed. -/
def stateReadData (rp : RsParams) (size count : ℕ) : Scanner Unit := do
  let sTrans ← scanU32
  let nLayer ← scanU32
  Scanner.require (nLayer = rp.layers.length)
  Scanner.require (count ≤ size)
  Scanner.require (sTrans = 0)
  rp.layers.forM fun l => scanTensor count l.r
  rp.layers.forM fun l => scanTensor count l.s

/-- `state_read_meta` and `state_read_data`. -/
def readBlock (rp : RsParams) (count : ℕ) (seqId : ℤ) : Loader Bool := do
  if ← (if seqId ≠ -1 then readMetaSeq rp count seqId.toNat else readMetaAll count) then
    let r ← get
    accept (stateReadData rp r.mem.size count)
  else return false

def stateRead (rp : RsParams) (seqId : ℤ) : Loader Unit := do
  let count ← readTo scanU32
  if ← readBlock rp count seqId then return ()
  else
    onMem fun st => if seqId = -1 then st.clear else (st.seqRm seqId (-1) (-1)).2
    throw .restoreFailed

/-! ### Scanning the ids -/

/-- Where the loop over the cells stops. -/
inductive Stop where
  | outOfRange
  | rejected
  | cut
  deriving DecidableEq, Repr

/-- The ids of one cell; `seen` are those of the cells before. -/
def scanIds (size : ℕ) : ℕ → List ℕ → List UInt8 → Except Stop (List ℕ × List UInt8)
  | 0, _, l => .ok ([], l)
  | n + 1, seen, l =>
    match scanI32 l with
    | .done s rest =>
      if s < 0 then .error .rejected
      else if size ≤ s.toNat then .error .outOfRange
      else if s.toNat ∈ seen then .error .rejected
      else (scanIds size n (s.toNat :: seen) rest).map fun x => (s.toNat :: x.1, x.2)
    | _ => .error .cut

/-- The ids of `n` cells. -/
def scanCells (size : ℕ) : ℕ → List ℕ → List UInt8 → Except Stop (List (List ℕ) × List UInt8)
  | 0, _, l => .ok ([], l)
  | n + 1, seen, l =>
    match scanHead l with
    | .done x rest =>
      match scanIds size x.2 seen rest with
      | .ok y => (scanCells size n (y.1 ++ seen) y.2).map fun z => (y.1 :: z.1, z.2)
      | .error e => .error e
    | _ => .error .cut

def Stop.outcome : Stop → Except LoadError Bool
  | .outOfRange => .error .outOfRange
  | .rejected => .ok false
  | .cut => .error .endOfBuffer

/-- A loop that goes through where the scan does, with a result that meets `post`, and stops where it stops. -/
def Agrees {α : Type} (x : Loader Bool) (s : LoadState) (scan : Except Stop (α × List UInt8)) (post : α → Recurrent → Prop) :
    Prop :=
  match scan with
  | .ok (a, rest) => ∃ m, x.run s = (.ok true, ⟨m, rest⟩) ∧ post a m
  | .error e => (x.run s).1 = e.outcome

/-- The cells hold the sequences `recs`, and the tails say so. -/
structure Loaded (size : ℕ) (recs : List (List ℕ)) (m : Recurrent) : Prop where
  size : m.size = size
  seqId : ∀ t, m.seqId t = (recs.getD t []).toFinset
  tail : ∀ s t, m.tail s = some t ↔ s ∈ recs.getD t []

variable {size : ℕ} {done recs : List (List ℕ)} {ids seen : List ℕ} {m : Recurrent}

/-! ### One cell -/

theorem readTo_done {α : Type} {p : Scanner α} {s : LoadState} {a : α} {rest : List UInt8}
    (h : p s.bytes = .done a rest) : (readTo p).run s = (.ok a, ⟨s.mem, rest⟩) := by
  rw [run, readTo, h]
  rfl

theorem readTo_stop {α : Type} {p : Scanner α} {bytes : List UInt8} (h : ∀ a rest, p bytes ≠ .done a rest) :
    (readTo p).run ⟨m, bytes⟩ = (.error .endOfBuffer, ⟨m, bytes⟩) := by
  rw [run, readTo]
  cases hp : p bytes with
  | done a rest => exact absurd hp (h a rest)
  | rejected => rfl
  | cut => rfl

theorem Agrees.congr {α : Type} {x y : Loader Bool} {s t : LoadState} {scan : Except Stop (α × List UInt8)}
    {post : α → Recurrent → Prop} (h : Agrees y t scan post) (hrun : x.run s = y.run t) : Agrees x s scan post := by
  unfold Agrees at h ⊢
  rwa [hrun]

theorem Stop.bind {x : Loader Bool} {f : Bool → Loader Bool} {s : LoadState} {e : Stop} (h : (x.run s).1 = e.outcome)
    (hf : ∀ t, ((f false).run t).1 = .ok false) : ((x >>= f).run s).1 = e.outcome := by
  obtain ⟨t, hr⟩ : ∃ t, x.run s = (e.outcome, t) := ⟨_, Prod.ext h rfl⟩
  cases e with
  | outOfRange => exact congrArg Prod.fst (run_bind_error hr)
  | rejected => exact (congrArg Prod.fst (run_bind_ok hr)).trans (hf t)
  | cut => exact congrArg Prod.fst (run_bind_error hr)

theorem getD_snoc (done : List (List ℕ)) (ids : List ℕ) (t : ℕ) :
    (done ++ [ids]).getD t [] = if t = done.length then ids else done.getD t [] := by
  obtain hlt | rfl | hgt := Nat.lt_trichotomy t done.length
  · rw [if_neg (Nat.ne_of_lt hlt), getD_append _ _ _ _ hlt]
  · rw [if_pos rfl, getD_append_right _ _ _ _ (Nat.le_refl _), Nat.sub_self]
    rfl
  · rw [if_neg (Nat.ne_of_gt hgt), getD_eq_default _ _ (Nat.le_of_lt hgt)]
    refine getD_eq_default _ _ ?_
    rw [length_append, length_singleton]
    omega

theorem Loaded.open (h : Loaded size done m) : Loaded size (done ++ [[]]) m := by
  have hget : ∀ t, (done ++ [[]]).getD t [] = done.getD t [] := by
    intro t
    rw [getD_snoc]
    split
    · next ht => exact (getD_eq_default _ _ (Nat.le_of_eq ht.symm)).symm
    · rfl
  exact ⟨h.size, fun t => hget t ▸ h.seqId t, fun s t => hget t ▸ h.tail s t⟩

theorem Loaded.setPos (h : Loaded size recs m) (i : ℕ) (pos : ℤ) : Loaded size recs (m.setPos i pos) where
  size := h.size
  seqId t := (setPos_seqId m i t pos).trans (h.seqId t)
  tail s t := by rw [setPos_tail, h.tail s t]

theorem Loaded.insert (h : Loaded size (done ++ [ids]) m) {s : ℕ} (hs : m.tail s = none) :
    Loaded size (done ++ [ids ++ [s]])
      ((m.setSeqId done.length (insert s (m.seqId done.length))).setTail s (some done.length)) where
  size := h.size
  seqId t := by
    have hseq := h.seqId t
    rw [getD_snoc] at hseq ⊢
    rw [setTail_seqId, setSeqId_seqId]
    split
    · next ht =>
      rw [if_pos ht] at hseq
      rw [← ht, hseq]
      ext x
      simp
    · next ht => rwa [if_neg ht] at hseq
  tail x t := by
    have htail := h.tail x t
    rw [getD_snoc] at htail ⊢
    rw [setTail_tail, setSeqId_tail]
    by_cases hx : x = s
    · subst hx
      rw [if_pos rfl]
      rw [hs] at htail
      by_cases ht : t = done.length
      · rw [if_pos ht, ht]
        simp
      · rw [if_neg ht] at htail ⊢
        exact iff_of_false (fun he => ht (Option.some.inj he).symm) fun hmem => nomatch htail.mpr hmem
    · rw [if_neg hx, htail]
      split
      · rw [mem_append, mem_singleton, or_iff_left hx]
      · exact Iff.rfl

theorem readIds_scan (r : List ℕ) (hm : Loaded size (done ++ [ids]) m) (hseen : ∀ s, s ∈ seen ↔ m.tail s ≠ none)
    (bytes : List UInt8) :
    Agrees (r.allM fun _ => readSeqId done.length) ⟨m, bytes⟩ (scanIds size r.length seen bytes) fun ids' m' =>
      Loaded size (done ++ [ids ++ ids']) m' ∧ ∀ s, s ∈ ids' ++ seen ↔ m'.tail s ≠ none := by
  induction r generalizing ids seen m bytes with
  | nil => exact ⟨m, rfl, (append_nil ids).symm ▸ hm, hseen⟩
  | cons _ r ih =>
    rw [length_cons, scanIds, List.allM]
    cases hscan : scanI32 bytes with
    | done z rest =>
      have hread : (readTo scanI32).run ⟨m, bytes⟩ = (.ok z, ⟨m, rest⟩) := readTo_done hscan
      have htail : (m.setSeqId done.length (insert z.toNat (m.seqId done.length))).tail z.toNat = m.tail z.toNat :=
        setSeqId_tail _ _ _ _
      dsimp only
      by_cases hneg : z < 0
      · have hid : (readSeqId done.length).run ⟨m, bytes⟩ = (.ok false, ⟨m, rest⟩) := by
          rw [readSeqId, run_bind_ok hread, run_ite, if_pos hneg]
          rfl
        rw [if_pos hneg, Agrees, run_bind_ok hid]
        rfl
      rw [if_neg hneg]
      by_cases hlarge : size ≤ z.toNat
      · have hid : (readSeqId done.length).run ⟨m, bytes⟩ = (.error .outOfRange,
            ⟨m.setSeqId done.length (insert z.toNat (m.seqId done.length)), rest⟩) := by
          rw [readSeqId, run_bind_ok hread, run_ite, if_neg hneg, run_bind_ok rfl, run_bind_ok (run_get _), run_ite,
            if_pos (hm.size.symm ▸ hlarge)]
          rfl
        rw [if_pos hlarge, Agrees, run_bind_error hid]
        rfl
      rw [if_neg hlarge]
      by_cases hdup : z.toNat ∈ seen
      · have hid : (readSeqId done.length).run ⟨m, bytes⟩ = (.ok false,
            ⟨m.setSeqId done.length (insert z.toNat (m.seqId done.length)), rest⟩) := by
          rw [readSeqId, run_bind_ok hread, run_ite, if_neg hneg, run_bind_ok rfl, run_bind_ok (run_get _), run_ite,
            if_neg (hm.size.symm ▸ hlarge), run_ite, if_pos (htail ▸ (hseen _).mp hdup)]
          rfl
        rw [if_pos hdup, Agrees, run_bind_ok hid]
        rfl
      · have hnone : m.tail z.toNat = none := not_not.mp fun hne => hdup ((hseen _).mpr hne)
        have hid : (readSeqId done.length).run ⟨m, bytes⟩ = (.ok true,
            ⟨(m.setSeqId done.length (insert z.toNat (m.seqId done.length))).setTail z.toNat (some done.length), rest⟩) := by
          rw [readSeqId, run_bind_ok hread, run_ite, if_neg hneg, run_bind_ok rfl, run_bind_ok (run_get _), run_ite,
            if_neg (hm.size.symm ▸ hlarge), run_ite, if_neg (htail ▸ not_not.mpr hnone)]
          rfl
        have hseen' : ∀ s, s ∈ z.toNat :: seen ↔ ((m.setSeqId done.length
            (Insert.insert z.toNat (m.seqId done.length))).setTail z.toNat (some done.length)).tail s ≠ none := by
          intro s
          rw [setTail_tail, setSeqId_tail, mem_cons, hseen s]
          by_cases hs : s = z.toNat
          · rw [if_pos hs]
            exact iff_of_true (Or.inl hs) (Option.some_ne_none _)
          · rw [if_neg hs, or_iff_right hs]
        have hrest := ih (hm.insert hnone) hseen' rest
        rw [if_neg hdup]
        cases hs : scanIds size r.length (z.toNat :: seen) rest with
        | error e =>
          rw [hs] at hrest
          exact (congrArg Prod.fst (run_bind_ok hid)).trans hrest
        | ok y =>
          rw [hs] at hrest
          obtain ⟨m', hrun, hloaded, hseen''⟩ := hrest
          refine ⟨m', ?_, ?_, fun s => ?_⟩
          · rw [run_bind_ok hid]
            exact hrun
          · rwa [append_assoc] at hloaded
          · rw [← hseen'' s]
            simp only [mem_append, mem_cons]
            tauto
    | _ =>
      have hid : (readSeqId done.length).run ⟨m, bytes⟩ = (.error .endOfBuffer, ⟨m, bytes⟩) :=
        run_bind_error (readTo_stop fun a rest he => by cases hscan.symm.trans he)
      rw [Agrees, run_bind_error hid]
      rfl

theorem readCell_scan (hm : Loaded size done m) (hseen : ∀ s, s ∈ seen ↔ m.tail s ≠ none) {bytes rest : List UInt8}
    {x : ℤ × ℕ} (h : scanHead bytes = .done x rest) :
    Agrees (readCell done.length) ⟨m, bytes⟩ (scanIds size x.2 seen rest) fun ids m' =>
      Loaded size (done ++ [ids]) m' ∧ ∀ s, s ∈ ids ++ seen ↔ m'.tail s ≠ none := by
  have hseen' : ∀ s, s ∈ seen ↔ (m.setPos done.length x.1).tail s ≠ none := fun s => by rw [setPos_tail, hseen s]
  have hids := readIds_scan (List.range x.2) (hm.open.setPos done.length x.1) hseen' rest
  rw [length_range] at hids
  rw [scanHead, Scanner.bind_apply] at h
  cases hpos : scanI32 bytes with
  | done pos rest1 =>
    rw [hpos] at h
    dsimp only at h
    rw [Scanner.bind_apply] at h
    cases hn : scanU32 rest1 with
    | done n rest2 =>
      rw [hn] at h
      cases h
      have hrun : (readCell done.length).run ⟨m, bytes⟩
          = ((List.range n).allM fun _ => readSeqId done.length).run ⟨m.setPos done.length pos, rest⟩ := by
        rw [readCell, run_bind_ok (readTo_done hpos), run_bind_ok (readTo_done hn), run_bind_ok rfl]
      exact hids.congr hrun
    | rejected =>
      rw [hn] at h
      cases h
    | cut =>
      rw [hn] at h
      cases h
  | rejected =>
    rw [hpos] at h
    cases h
  | cut =>
    rw [hpos] at h
    cases h

theorem readCell_cut {bytes : List UInt8} {i : ℕ} (h : ∀ x rest, scanHead bytes ≠ .done x rest) :
    ((readCell i).run ⟨m, bytes⟩).1 = .error .endOfBuffer := by
  cases hpos : scanI32 bytes with
  | done pos rest1 =>
    have hn : ∀ n rest2, scanU32 rest1 ≠ .done n rest2 := by
      intro n rest2 hn
      refine h (pos, n) rest2 ?_
      rw [scanHead, Scanner.bind_apply, hpos]
      dsimp only
      rw [Scanner.bind_apply, hn]
      rfl
    rw [readCell, run_bind_ok (readTo_done hpos), run_bind_error (readTo_stop hn)]
  | _ => rw [readCell, run_bind_error (readTo_stop fun a rest he => nomatch hpos.symm.trans he)]

theorem readCells_scan (n : ℕ) (hm : Loaded size done m) (hseen : ∀ s, s ∈ seen ↔ m.tail s ≠ none) (bytes : List UInt8) :
    Agrees ((List.range' done.length n).allM readCell) ⟨m, bytes⟩ (scanCells size n seen bytes) fun recs m' =>
      Loaded size (done ++ recs) m' ∧ recs.length = n := by
  induction n generalizing done seen m bytes with
  | zero => exact ⟨m, rfl, (append_nil done).symm ▸ hm, rfl⟩
  | succ n ih =>
    rw [range'_succ, scanCells, List.allM]
    cases hhead : scanHead bytes with
    | done x rest =>
      have hcell := readCell_scan hm hseen hhead
      dsimp only
      cases hids : scanIds size x.2 seen rest with
      | error e =>
        rw [hids] at hcell
        exact e.bind hcell fun _ => rfl
      | ok y =>
        rw [hids] at hcell
        obtain ⟨m1, hrun, hloaded, hseen1⟩ := hcell
        have hrest := ih hloaded hseen1 y.2
        rw [length_append, length_singleton] at hrest
        dsimp only
        cases hs : scanCells size n (y.1 ++ seen) y.2 with
        | error e =>
          rw [hs] at hrest
          exact (congrArg Prod.fst (run_bind_ok hrun)).trans hrest
        | ok z =>
          rw [hs] at hrest
          obtain ⟨m', hrun', hloaded', hlen⟩ := hrest
          refine ⟨m', (run_bind_ok hrun).trans hrun', ?_, congrArg (· + 1) hlen⟩
          rwa [append_assoc] at hloaded'
    | _ =>
      obtain ⟨r, hr⟩ : ∃ r, (readCell done.length).run ⟨m, bytes⟩ = (.error .endOfBuffer, r) :=
        ⟨_, Prod.ext (readCell_cut fun x rest he => by cases hhead.symm.trans he) rfl⟩
      exact congrArg Prod.fst (run_bind_error hr)

/-! ### The whole memory -/

/-- The tail of a sequence is the only cell that holds it, and `used` counts the occupied cells. -/
structure TailsExact (m : Recurrent) : Prop where
  tail_iff : ∀ s < m.size, ∀ t, m.tail s = some t ↔ t < m.size ∧ s ∈ m.seqId t
  unique : ∀ s, ∀ t < m.size, ∀ t' < m.size, s ∈ m.seqId t → s ∈ m.seqId t' → t = t'
  used_eq : m.used = m.countUsed

def IdsInRange (size : ℕ) (l : List UInt8) : Prop :=
  ∀ count rest, scanU32 l = .done count rest → count ≤ size → scanCells size count [] rest ≠ .error .outOfRange

/-- A stream that is accepted to its end names a sequence for every cell. -/
def NoneEmpty (rp : RsParams) (size : ℕ) (l : List UInt8) : Prop :=
  ∀ count rest recs rest' more, scanU32 l = .done count rest → count ≤ size →
    scanCells size count [] rest = .ok (recs, rest') → stateReadData rp size count rest' = .done () more → [] ∉ recs

theorem loaded_clear (st : Recurrent) : Loaded st.size [] st.clear where
  size := rfl
  seqId _ := rfl
  tail _ _ := iff_of_false nofun not_mem_nil

theorem keepRestored_same (count : ℕ) (st : Recurrent) :
    (keepRestored count st).size = st.size ∧ (keepRestored count st).used = st.used ∧
      (∀ t, (keepRestored count st).seqId t = st.seqId t) ∧ ∀ s, (keepRestored count st).tail s = st.tail s := by
  rw [keepRestored]
  generalize List.range count = l
  induction l generalizing st with
  | nil => exact ⟨rfl, rfl, fun _ => rfl, fun _ => rfl⟩
  | cons i l ih =>
    obtain ⟨hsize, hused, hseq, htail⟩ := ih (st.setSrc (st.head + i) (some (st.head + i)))
    exact ⟨hsize, hused, fun t => (hseq t).trans (setSrc_seqId _ _ _ _), fun s => (htail s).trans (setSrc_tail _ _ _ _)⟩

theorem Loaded.restored (h : Loaded size recs m) :
    Loaded size recs (keepRestored recs.length { m with head := 0, used := recs.length }) ∧
      (keepRestored recs.length { m with head := 0, used := recs.length }).used = recs.length := by
  obtain ⟨hsize, hused, hseq, htail⟩ := keepRestored_same recs.length { m with head := 0, used := recs.length }
  exact ⟨⟨hsize.trans h.size, fun t => (hseq t).trans (h.seqId t), fun s t => by rw [htail]; exact h.tail s t⟩, hused⟩

theorem Loaded.countUsed_iff (h : Loaded size recs m) (hlen : recs.length ≤ size) :
    recs.length = m.countUsed ↔ [] ∉ recs := by
  have hsub : (Finset.range m.size).filter (fun i => m.seqId i ≠ ∅) ⊆ Finset.range recs.length := by
    intro i hi
    rw [Finset.mem_filter, h.seqId] at hi
    refine Finset.mem_range.mpr (Nat.lt_of_not_le fun hle => hi.2 ?_)
    rw [getD_eq_default _ _ hle]
    rfl
  rw [countUsed_eq_card]
  constructor
  · intro hcard hmem
    have heq := Finset.eq_of_subset_of_card_le hsub (by rw [Finset.card_range, ← hcard])
    obtain ⟨i, hi, hnil⟩ := getElem_of_mem hmem
    have hin : i ∈ (Finset.range m.size).filter fun i => m.seqId i ≠ ∅ := heq ▸ Finset.mem_range.mpr hi
    refine (Finset.mem_filter.mp hin).2 ?_
    rw [h.seqId, getD_eq_getElem _ _ hi, hnil]
    rfl
  · intro hmem
    have heq : (Finset.range m.size).filter (fun i => m.seqId i ≠ ∅) = Finset.range recs.length := by
      refine Finset.Subset.antisymm hsub fun i hi => ?_
      have hi' := Finset.mem_range.mp hi
      refine Finset.mem_filter.mpr ⟨Finset.mem_range.mpr (h.size ▸ Nat.lt_of_lt_of_le hi' hlen), fun hnil => ?_⟩
      rw [h.seqId, getD_eq_getElem _ _ hi', toFinset_eq_empty_iff] at hnil
      exact hmem (hnil ▸ getElem_mem hi')
    rw [heq, Finset.card_range]

theorem Loaded.tailsExact_iff (h : Loaded size recs m) (hlen : recs.length ≤ size) (hused : m.used = recs.length) :
    TailsExact m ↔ [] ∉ recs := by
  rw [← h.countUsed_iff hlen, ← hused]
  refine ⟨fun hexact => hexact.used_eq, fun heq => ⟨fun s _ t => ?_, fun s t _ t' _ hs hs' => ?_, heq⟩⟩
  · rw [h.tail, h.seqId, mem_toFinset]
    refine ⟨fun hmem => ⟨?_, hmem⟩, fun hmem => hmem.2⟩
    refine Nat.lt_of_not_le fun hle => ?_
    rw [getD_eq_default _ _ (Nat.le_trans hlen (h.size ▸ hle))] at hmem
    exact not_mem_nil hmem
  · rw [h.seqId, mem_toFinset, ← h.tail] at hs hs'
    exact Option.some.inj (hs.symm.trans hs')

theorem readMetaAll_scan {st : Recurrent} {count : ℕ} (hcount : count ≤ st.size) (bytes : List UInt8) :
    Agrees (readMetaAll count) ⟨st, bytes⟩ (scanCells st.size count [] bytes) fun recs m =>
      Loaded st.size recs m ∧ m.used = recs.length ∧ recs.length = count := by
  have hseen : ∀ s, s ∈ [] ↔ st.clear.tail s ≠ none := fun s => iff_of_false not_mem_nil fun h => h rfl
  have hcells := readCells_scan count (loaded_clear st) hseen bytes
  rw [length_nil, ← range_eq_range'] at hcells
  have hstart : (readMetaAll count).run ⟨st, bytes⟩ = (do
      if ← (List.range count).allM readCell then
        onMem fun st => keepRestored count { st with head := 0, used := count }
        return true
      else return false : Loader Bool).run ⟨st.clear, bytes⟩ := by
    rw [readMetaAll, run_bind_ok (run_get _), run_ite, if_neg (Nat.not_lt.mpr hcount), run_bind_ok rfl]
  refine Agrees.congr ?_ hstart
  cases hscan : scanCells st.size count [] bytes with
  | error e =>
    rw [hscan] at hcells
    exact e.bind hcells fun _ => rfl
  | ok y =>
    rw [hscan] at hcells
    obtain ⟨m, hrun, hloaded, rfl⟩ := hcells
    obtain ⟨hrestored, hused⟩ := hloaded.restored
    exact ⟨_, (run_bind_ok hrun).trans (run_bind_ok rfl), hrestored, hused, rfl⟩

/-- **Restoring the whole memory from any bytes.**  `cells` is indexed inside its range, and a restore that returns leaves
exact tails, if and only if the ids are in range and no cell is without sequence. -/
theorem stateRead_exact_iff (rp : RsParams) (st : Recurrent) (l : List UInt8) :
    (((stateRead rp (-1)).run ⟨st, l⟩).1 ≠ .error .outOfRange ∧
      (((stateRead rp (-1)).run ⟨st, l⟩).1 = .ok () → TailsExact ((stateRead rp (-1)).run ⟨st, l⟩).2.mem)) ↔
      IdsInRange st.size l ∧ NoneEmpty rp st.size l := by
  cases hcount : scanU32 l with
  | done count rest =>
    have hread : (readTo scanU32).run ⟨st, l⟩ = (.ok count, ⟨st, rest⟩) := readTo_done hcount
    rw [stateRead, run_bind_ok hread, IdsInRange, NoneEmpty, hcount]
    by_cases hlarge : st.size < count
    · have hmeta : (readMetaAll count).run ⟨st, rest⟩ = (.ok false, ⟨st, rest⟩) := by
        rw [readMetaAll, run_bind_ok (run_get _), run_ite, if_pos hlarge]
        rfl
      have hblock : (readBlock rp count (-1)).run ⟨st, rest⟩ = (.ok false, ⟨st, rest⟩) := run_bind_ok hmeta
      rw [run_bind_ok hblock]
      refine iff_of_true ⟨fun h => (by cases h), fun h => (by cases h)⟩ ⟨fun c r he hle => ?_, fun c r recs r' more he hle => ?_⟩
      · cases he
        omega
      · cases he
        omega
    · have hle : count ≤ st.size := Nat.not_lt.mp hlarge
      have hmeta := readMetaAll_scan hle rest
      cases hscan : scanCells st.size count [] rest with
      | error e =>
        rw [hscan] at hmeta
        have hblock : ((readBlock rp count (-1)).run ⟨st, rest⟩).1 = e.outcome := e.bind hmeta fun _ => rfl
        obtain ⟨t, ht⟩ : ∃ t, (readBlock rp count (-1)).run ⟨st, rest⟩ = (e.outcome, t) := ⟨_, Prod.ext hblock rfl⟩
        have hnone : ∀ c r recs r' more, Scan.done count rest = .done c r → c ≤ st.size →
            scanCells st.size c [] r = .ok (recs, r') → stateReadData rp st.size c r' = .done () more → [] ∉ recs := by
          intro c r recs r' more he _ hok
          cases he
          cases hscan.symm.trans hok
        cases e with
        | outOfRange =>
          rw [run_bind_error ht]
          exact iff_of_false (fun h => h.1 rfl) fun h => h.1 count rest rfl hle hscan
        | rejected =>
          rw [run_bind_ok ht]
          refine iff_of_true ⟨fun h => (by cases h), fun h => (by cases h)⟩ ⟨fun c r he _ => ?_, hnone⟩
          cases he
          rw [hscan]
          exact fun h => by cases h
        | cut =>
          rw [run_bind_error ht]
          refine iff_of_true ⟨fun h => (by cases h), fun h => (by cases h)⟩ ⟨fun c r he _ => ?_, hnone⟩
          cases he
          rw [hscan]
          exact fun h => by cases h
      | ok y =>
        obtain ⟨recs, rest'⟩ := y
        rw [hscan] at hmeta
        obtain ⟨m, hrun, hloaded, hused, hlen⟩ := hmeta
        have hrange : ∀ c r, Scan.done count rest = .done c r → c ≤ st.size →
            scanCells st.size c [] r ≠ .error .outOfRange := by
          intro c r he _
          cases he
          rw [hscan]
          exact fun h => by cases h
        have hblock : (readBlock rp count (-1)).run ⟨st, rest⟩
            = (accept (stateReadData rp m.size count)).run ⟨m, rest'⟩ := run_bind_ok hrun
        rw [hloaded.size] at hblock
        cases hdata : stateReadData rp st.size count rest' with
        | done u more =>
          have haccept : (accept (stateReadData rp st.size count)).run ⟨m, rest'⟩ = (.ok true, ⟨m, more⟩) := by
            rw [run, accept, hdata]
            rfl
          rw [run_bind_ok (hblock.trans haccept)]
          have hexact := hloaded.tailsExact_iff (hlen.symm ▸ hle) hused
          refine ⟨fun h => ⟨hrange, fun c r recs' r' more' he _ hok _ => ?_⟩, fun h => ⟨fun h => (by cases h), fun _ => ?_⟩⟩
          · cases he
            obtain rfl : recs = recs' := congrArg Prod.fst (Except.ok.inj (hscan.symm.trans hok))
            exact hexact.mp (h.2 rfl)
          · exact hexact.mpr (h.2 count rest recs rest' more rfl hle hscan hdata)
        | rejected =>
          have haccept : (accept (stateReadData rp st.size count)).run ⟨m, rest'⟩ = (.ok false, ⟨m, rest'⟩) := by
            rw [run, accept, hdata]
            rfl
          rw [run_bind_ok (hblock.trans haccept)]
          refine iff_of_true ⟨fun h => (by cases h), fun h => (by cases h)⟩ ⟨hrange, fun c r recs' r' more he _ hok hdone => ?_⟩
          cases he
          obtain rfl : rest' = r' := congrArg Prod.snd (Except.ok.inj (hscan.symm.trans hok))
          cases hdata.symm.trans hdone
        | cut =>
          have haccept : (accept (stateReadData rp st.size count)).run ⟨m, rest'⟩
              = (.error .endOfBuffer, ⟨m, rest'⟩) := by
            rw [run, accept, hdata]
            rfl
          rw [run_bind_error (hblock.trans haccept)]
          refine iff_of_true ⟨fun h => (by cases h), fun h => (by cases h)⟩ ⟨hrange, fun c r recs' r' more he _ hok hdone => ?_⟩
          cases he
          obtain rfl : rest' = r' := congrArg Prod.snd (Except.ok.inj (hscan.symm.trans hok))
          cases hdata.symm.trans hdone
  | _ =>
    have hstop : (stateRead rp (-1)).run ⟨st, l⟩ = (.error .endOfBuffer, ⟨st, l⟩) :=
      run_bind_error (readTo_stop fun a rest he => by cases hcount.symm.trans he)
    rw [hstop]
    refine iff_of_true ⟨fun h => (by cases h), fun h => (by cases h)⟩ ⟨fun c r he => ?_, fun c r _ _ _ he => ?_⟩
    · cases hcount.symm.trans he
    · cases hcount.symm.trans he

def noLayers : RsParams := ⟨1, []⟩

def largeId : List UInt8 := u32 1 ++ i32 0 ++ u32 1 ++ i32 7

def noSeqId : List UInt8 := u32 1 ++ i32 0 ++ u32 0 ++ u32 0 ++ u32 0

/-- The first stream indexes `cells` beyond its end; the second one is accepted and leaves a cell that counts as used
and is empty. -/
theorem stateRead_untrusted :
    ((stateRead noLayers (-1)).run ⟨new 1, largeId⟩).1 = .error .outOfRange ∧
      ((stateRead noLayers (-1)).run ⟨new 1, noSeqId⟩).1 = .ok () ∧
        ¬ TailsExact ((stateRead noLayers (-1)).run ⟨new 1, noSeqId⟩).2.mem := by
  refine ⟨by decide +kernel, by decide +kernel, fun h => ?_⟩
  exact absurd h.used_eq (by decide +kernel)

end Recurrent
