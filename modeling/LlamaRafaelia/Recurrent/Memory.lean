import LlamaRafaelia.Batch.Alloc
import LlamaRafaelia.Kv.Cache

/-!
# The recurrent memory (`llama-memory-recurrent.cpp`)

`cells[t]` is the storage cell `t`, with the sequences whose state is there, and `cells[s].tail` is the cell with the
state of sequence `s`.  `find_slot` moves the states of a ubatch to neighbouring cells and leaves in `src0` from where
each is to be copied.  An `int32_t` with `-1` for "none" is an `Option ℕ`; the tensors are left out.
-/

/-- `mem_cell`. -/
structure MemCell where
  pos : ℤ
  /-- where the state has to be copied from -/
  src : Option ℕ
  /-- like `src`, but only used when setting the inputs -/
  src0 : Option ℕ
  tail : Option ℕ
  seqId : Finset ℕ
  deriving DecidableEq

namespace MemCell

def empty : MemCell := ⟨-1, none, none, none, ∅⟩

def hasSeqId (c : MemCell) (id : ℤ) : Bool := 0 ≤ id ∧ id.toNat ∈ c.seqId

/-- The sequences of the cell without `id`; a negative `id` stands for all. -/
def without (c : MemCell) (id : ℤ) : Finset ℕ := if id < 0 then ∅ else c.seqId.erase id.toNat

end MemCell

/-- `llama_memory_recurrent`. -/
structure Recurrent where
  size : ℕ
  cells : ℕ → MemCell
  head : ℕ
  used : ℕ
  n : ℕ
  rsZ : Option ℕ

/-- Subtracting one from a `uint32_t`. -/
def decr32 (n : ℕ) : ℕ := if n = 0 then 2 ^ 32 - 1 else n - 1

namespace Recurrent

variable (st : Recurrent)

def new (memSize : ℕ) : Recurrent := ⟨memSize, fun _ => .empty, 0, 0, 0, none⟩

/-- Changes cell `i`. -/
def modify (i : ℕ) (f : MemCell → MemCell) : Recurrent :=
  { st with cells := Function.update st.cells i (f (st.cells i)) }

/-- The tail of sequence `s`. -/
def tail (s : ℕ) : Option ℕ := (st.cells s).tail

/-- The sequences in cell `t`. -/
def seqId (t : ℕ) : Finset ℕ := (st.cells t).seqId

def pos (t : ℕ) : ℤ := (st.cells t).pos

def src (t : ℕ) : Option ℕ := (st.cells t).src

def src0 (t : ℕ) : Option ℕ := (st.cells t).src0

def setTail (s : ℕ) (tail : Option ℕ) : Recurrent := st.modify s fun c => { c with tail := tail }

def setSeqId (t : ℕ) (ids : Finset ℕ) : Recurrent := st.modify t fun c => { c with seqId := ids }

def setPos (t : ℕ) (pos : ℤ) : Recurrent := st.modify t fun c => { c with pos := pos }

def setSrc (t : ℕ) (src : Option ℕ) : Recurrent := st.modify t fun c => { c with src := src }

def setSrc0 (t : ℕ) (src0 : Option ℕ) : Recurrent := st.modify t fun c => { c with src0 := src0 }

def setUsed (used : ℕ) : Recurrent := { st with used := used }

theorem modify_frame {α : Type} (g : MemCell → α) {f : MemCell → MemCell} (hf : ∀ c, g (f c) = g c) (i j : ℕ) :
    g ((st.modify i f).cells j) = g (st.cells j) := by
  by_cases h : j = i
  · subst h
    simp [modify, hf]
  · simp [modify, h]

theorem modify_cells (i j : ℕ) (f : MemCell → MemCell) :
    (st.modify i f).cells j = if j = i then f (st.cells i) else st.cells j := by
  by_cases h : j = i
  · subst h
    simp [modify]
  · simp [modify, h]

@[simp] theorem setTail_tail (i j : ℕ) (v : Option ℕ) : (st.setTail i v).tail j = if j = i then v else st.tail j := by
  rw [tail, setTail, modify_cells]
  split
  · rfl
  · rfl

@[simp] theorem setSeqId_seqId (i j : ℕ) (v : Finset ℕ) : (st.setSeqId i v).seqId j = if j = i then v else st.seqId j := by
  rw [seqId, setSeqId, modify_cells]
  split
  · rfl
  · rfl

@[simp] theorem setPos_pos (i j : ℕ) (v : ℤ) : (st.setPos i v).pos j = if j = i then v else st.pos j := by
  rw [pos, setPos, modify_cells]
  split
  · rfl
  · rfl

@[simp] theorem setSrc_src (i j : ℕ) (v : Option ℕ) : (st.setSrc i v).src j = if j = i then v else st.src j := by
  rw [src, setSrc, modify_cells]
  split
  · rfl
  · rfl

@[simp] theorem setSrc0_src0 (i j : ℕ) (v : Option ℕ) : (st.setSrc0 i v).src0 j = if j = i then v else st.src0 j := by
  rw [src0, setSrc0, modify_cells]
  split
  · rfl
  · rfl

@[simp] theorem setTail_seqId (i j : ℕ) (v : Option ℕ) : (st.setTail i v).seqId j = st.seqId j :=
  st.modify_frame MemCell.seqId (f := fun c => { c with tail := v }) (fun _ => rfl) i j

@[simp] theorem setTail_pos (i j : ℕ) (v : Option ℕ) : (st.setTail i v).pos j = st.pos j :=
  st.modify_frame MemCell.pos (f := fun c => { c with tail := v }) (fun _ => rfl) i j

@[simp] theorem setTail_src (i j : ℕ) (v : Option ℕ) : (st.setTail i v).src j = st.src j :=
  st.modify_frame MemCell.src (f := fun c => { c with tail := v }) (fun _ => rfl) i j

@[simp] theorem setTail_src0 (i j : ℕ) (v : Option ℕ) : (st.setTail i v).src0 j = st.src0 j :=
  st.modify_frame MemCell.src0 (f := fun c => { c with tail := v }) (fun _ => rfl) i j

@[simp] theorem setSeqId_tail (i j : ℕ) (v : Finset ℕ) : (st.setSeqId i v).tail j = st.tail j :=
  st.modify_frame MemCell.tail (f := fun c => { c with seqId := v }) (fun _ => rfl) i j

@[simp] theorem setSeqId_pos (i j : ℕ) (v : Finset ℕ) : (st.setSeqId i v).pos j = st.pos j :=
  st.modify_frame MemCell.pos (f := fun c => { c with seqId := v }) (fun _ => rfl) i j

@[simp] theorem setSeqId_src (i j : ℕ) (v : Finset ℕ) : (st.setSeqId i v).src j = st.src j :=
  st.modify_frame MemCell.src (f := fun c => { c with seqId := v }) (fun _ => rfl) i j

@[simp] theorem setSeqId_src0 (i j : ℕ) (v : Finset ℕ) : (st.setSeqId i v).src0 j = st.src0 j :=
  st.modify_frame MemCell.src0 (f := fun c => { c with seqId := v }) (fun _ => rfl) i j

@[simp] theorem setPos_tail (i j : ℕ) (v : ℤ) : (st.setPos i v).tail j = st.tail j :=
  st.modify_frame MemCell.tail (f := fun c => { c with pos := v }) (fun _ => rfl) i j

@[simp] theorem setPos_seqId (i j : ℕ) (v : ℤ) : (st.setPos i v).seqId j = st.seqId j :=
  st.modify_frame MemCell.seqId (f := fun c => { c with pos := v }) (fun _ => rfl) i j

@[simp] theorem setPos_src (i j : ℕ) (v : ℤ) : (st.setPos i v).src j = st.src j :=
  st.modify_frame MemCell.src (f := fun c => { c with pos := v }) (fun _ => rfl) i j

@[simp] theorem setPos_src0 (i j : ℕ) (v : ℤ) : (st.setPos i v).src0 j = st.src0 j :=
  st.modify_frame MemCell.src0 (f := fun c => { c with pos := v }) (fun _ => rfl) i j

@[simp] theorem setSrc_tail (i j : ℕ) (v : Option ℕ) : (st.setSrc i v).tail j = st.tail j :=
  st.modify_frame MemCell.tail (f := fun c => { c with src := v }) (fun _ => rfl) i j

@[simp] theorem setSrc_seqId (i j : ℕ) (v : Option ℕ) : (st.setSrc i v).seqId j = st.seqId j :=
  st.modify_frame MemCell.seqId (f := fun c => { c with src := v }) (fun _ => rfl) i j

@[simp] theorem setSrc_pos (i j : ℕ) (v : Option ℕ) : (st.setSrc i v).pos j = st.pos j :=
  st.modify_frame MemCell.pos (f := fun c => { c with src := v }) (fun _ => rfl) i j

@[simp] theorem setSrc_src0 (i j : ℕ) (v : Option ℕ) : (st.setSrc i v).src0 j = st.src0 j :=
  st.modify_frame MemCell.src0 (f := fun c => { c with src := v }) (fun _ => rfl) i j

@[simp] theorem setSrc0_tail (i j : ℕ) (v : Option ℕ) : (st.setSrc0 i v).tail j = st.tail j :=
  st.modify_frame MemCell.tail (f := fun c => { c with src0 := v }) (fun _ => rfl) i j

@[simp] theorem setSrc0_seqId (i j : ℕ) (v : Option ℕ) : (st.setSrc0 i v).seqId j = st.seqId j :=
  st.modify_frame MemCell.seqId (f := fun c => { c with src0 := v }) (fun _ => rfl) i j

@[simp] theorem setSrc0_pos (i j : ℕ) (v : Option ℕ) : (st.setSrc0 i v).pos j = st.pos j :=
  st.modify_frame MemCell.pos (f := fun c => { c with src0 := v }) (fun _ => rfl) i j

@[simp] theorem setSrc0_src (i j : ℕ) (v : Option ℕ) : (st.setSrc0 i v).src j = st.src j :=
  st.modify_frame MemCell.src (f := fun c => { c with src0 := v }) (fun _ => rfl) i j

/-! ### `clear` and the `seq_` operations -/

def clear : Recurrent :=
  { st with
    cells := fun i => { st.cells i with pos := -1, seqId := ∅, src := none, tail := none }
    head := 0
    used := 0 }

/-- Cell `i` in the loop of `seq_rm`; the second component is `new_head`. -/
def seqRmCell (id p0 p1 : ℤ) (x : Recurrent × ℕ) (i : ℕ) : Recurrent × ℕ :=
  let c := x.1.cells i
  if (p0 ≤ c.pos ∧ c.pos < p1) ∧ (id < 0 ∨ c.hasSeqId id) then
    if c.without id = ∅ then
      ({ x.1.modify i fun c => { c with seqId := ∅, pos := -1, src := none } with
          used := if 0 ≤ c.pos then decr32 x.1.used else x.1.used },
        if x.2 = x.1.size then i else x.2)
    else (x.1.modify i fun c => { c with seqId := c.without id }, x.2)
  else x

/-- The end of `seq_rm` and of `seq_keep`: a freed cell before the head becomes the head. -/
def moveHead (x : Recurrent × ℕ) : Recurrent :=
  if x.2 ≠ x.1.size ∧ x.2 < x.1.head then { x.1 with head := x.2 } else x.1

/-- The loop of `seq_rm` over the cells. -/
def seqRmCells (id p0 p1 : ℤ) : Recurrent :=
  moveHead ((List.range st.size).foldl (seqRmCell id p0 p1) (st, st.size))

/-- `seq_rm`; the first component is the return value. -/
def seqRm (id p0 p1 : ℤ) : Bool × Recurrent :=
  let p0 := KvCache.rangeLo p0
  let p1 := KvCache.rangeHi p1
  if (st.size : ℤ) ≤ id then (false, st)
  else if 0 ≤ id then
    match st.tail id.toNat with
    | none => (true, st.seqRmCells id p0 p1)
    | some t =>
      let pos := st.pos t
      -- partial intersection is invalid
      if (0 < p0 ∧ p0 < pos) ∨ (0 < p1 ∧ p1 ≤ pos) then (false, st)
      else if p0 ≤ pos ∧ pos < p1 then
        (true, (st.setTail id.toNat none).seqRmCells id p0 p1)
      else (true, st.seqRmCells id p0 p1)
  else
    -- without a sequence the range should include everything or nothing
    if p0 ≠ p1 ∧ (p0 ≠ 0 ∨ p1 ≠ llamaPosMax) then (false, st)
    else (true, st.seqRmCells id p0 p1)

/-- Takes sequence `s` out of its cell, as `seq_cp` does with the destination and `find_slot` with
sequences that become shared. -/
def detach (s : ℕ) : Recurrent :=
  match st.tail s with
  | none => st
  | some t =>
    let st := st.setSeqId t ((st.seqId t).erase s)
    let st := st.setTail s none
    if st.seqId t = ∅ then ((st.setPos t (-1)).setSrc t none).setUsed (decr32 st.used) else st

/-- `seq_cp`; the range is not used. -/
def seqCp (src dst : ℤ) (_p0 _p1 : ℤ) : Recurrent :=
  if src = dst then st
  else if (0 ≤ dst ∧ dst < st.size) ∧ (0 ≤ src ∧ src < st.size) then
    let st := st.detach dst.toNat
    match st.tail src.toNat with
    | none => st
    | some t => (st.setSeqId t (insert dst.toNat (st.seqId t))).setTail dst.toNat (some t)
  else st

/-- Cell `i` in the loop of `seq_keep`. -/
def seqKeepCell (id : ℤ) (x : Recurrent × ℕ) (i : ℕ) : Recurrent × ℕ :=
  let c := x.1.cells i
  let tail := if (i : ℤ) ≠ id then none else c.tail
  if ¬ c.hasSeqId id then
    ({ x.1.modify i fun c => { c with tail := tail, pos := -1, src := none, seqId := ∅ } with
        used := if 0 ≤ c.pos then decr32 x.1.used else x.1.used },
      if x.2 = x.1.size then i else x.2)
  else (x.1.modify i fun c => { c with tail := tail, seqId := {id.toNat} }, x.2)

def seqKeep (id : ℤ) : Recurrent :=
  moveHead ((List.range st.size).foldl (seqKeepCell id) (st, st.size))

/-! ### `find_slot` -/

/-- The sequences of the ubatch, each with its index in its set: those of the first token of every set. -/
def members (u : Ubatch) : List (ℕ × ℕ) :=
  (List.range u.nSeqs).flatMap fun s => (u.seqAt (s * u.nSeqTokens)).zipIdx.map Prod.swap

/-- The first loop: the sequences that become shared leave their cells.  It stops at a sequence id that is
too large. -/
def detachShared : Recurrent → List (ℕ × ℕ) → Bool × Recurrent
  | st, [] => (true, st)
  | st, (j, s) :: rest =>
    if st.size ≤ s then (false, st) else detachShared (if 0 < j then st.detach s else st) rest

def firstEmpty : ℕ → ℕ → ℕ
  | 0, k => k
  | fuel + 1, k =>
    let k := if st.size ≤ k then k - st.size else k
    if st.seqId k = ∅ then k else firstEmpty fuel (k + 1)

def nextEmpty : ℕ → ℕ → ℕ
  | 0, k => k
  | fuel + 1, k =>
    let k := k + 1
    let k := if st.size ≤ k then k - st.size else k
    if st.seqId k = ∅ then k else nextEmpty fuel k

/-- The state of the second loop. -/
structure Claim where
  st : Recurrent
  /-- `next_empty_cell` -/
  next : ℕ
  min : ℕ
  max : ℕ

/-- The empty cell `e` is given to sequence `q`, with the old tail copied into it. -/
def claimEmpty (e q : ℕ) : Checked Recurrent := do
  Checked.check (st.seqId e = ∅)
  match st.tail q with
  | none => return st.setTail q (some e)
  | some t =>
    let st := (st.setPos e (st.pos t)).setSrc e (st.src t)
    let st := st.setSeqId t ((st.seqId t).erase q)
    let st := st.setSeqId e (insert q (st.seqId e))
    -- has at least one remaining sequence
    Checked.check (st.seqId t ≠ ∅)
    return st.setTail q (some e)

/-- One sequence `q` in the second loop: it gets a cell of its own. -/
def claim (last : Bool) (x : Claim) (q : ℕ) : Checked Claim := do
  let hasCell ← match x.st.tail q with
    | none => pure false
    | some t => do
      Checked.check (q ∈ x.st.seqId t)
      pure (decide ((x.st.seqId t).card = 1))
  let x ←
    if hasCell then pure x
    else do
      let st ← x.st.claimEmpty x.next q
      pure { x with st := st, next := if last then x.next else st.nextEmpty st.size x.next }
  let t := (x.st.tail q).getD 0
  return { x with min := if t < x.min then t else x.min, max := if x.max < t then t else x.max }

/-- The first sequence of set `s`. -/
def firstOf (u : Ubatch) (s : ℕ) : ℕ := (u.seqAt (s * u.nSeqTokens)).headD 0

def claimAll (u : Ubatch) : Checked Claim :=
  let next := st.firstEmpty st.size st.head
  Checked.loopRange u.nSeqs (fun x s => claim (s + 1 = u.nSeqs) x (firstOf u s)) ⟨st, next, st.size - 1, 0⟩

def swapCells (dst src : ℕ) : Recurrent :=
  { st with
    cells := fun j =>
      let c := st.cells (if j = dst then src else if j = src then dst else j)
      { st.cells j with
        pos := c.pos
        src := c.src
        seqId := c.seqId
        tail := (st.cells j).tail.map fun t => if t = src then dst else if t = dst then src else t } }

/-- Set `s` in the third loop: its state moves to cell `s + min`. -/
def gather (u : Ubatch) (min : ℕ) (st : Recurrent) (s : ℕ) : Recurrent :=
  let dst := s + min
  let src := (st.tail (firstOf u s)).getD 0
  if dst ≠ src then st.swapCells dst src else st

/-- Set `s` in the fourth loop: its position and its sequences. -/
def place (u : Ubatch) (min : ℕ) (st : Recurrent) (s : ℕ) : Recurrent :=
  let i := s * u.nSeqTokens
  let cellId := s + min
  let st := (st.setPos cellId (u.posAt (i + u.nSeqTokens - 1))).setSeqId cellId ∅
  (u.seqAt i).foldl (fun st q => (st.setSeqId cellId (insert q (st.seqId cellId))).setTail q (some cellId)) st

/-- `refcounts[i]`. -/
def refcount (i : ℕ) : ℕ := ((List.range st.size).filter fun j => st.src j = some i).length

/-- The cells from `min` to `max`. -/
def window (min max : ℕ) : List ℕ := List.range' min (max + 1 - min)

/-- The first cell of the range without references, to be used as the zeroed state. -/
def findZero (min max : ℕ) : Option ℕ := (window min max).find? fun i => st.refcount i = 0

/-- Cell `i` in the last loop: its source is staged. -/
def stage (rsZ : Option ℕ) (st : Recurrent) (i : ℕ) : Checked Recurrent := do
  match st.src i with
  | none => do
    Checked.check rsZ.isSome
    return (st.setSrc0 i rsZ).setSrc i (some i)
  | some j => return (st.setSrc0 i (some j)).setSrc i (some i)

def countUsed : ℕ := ((List.range st.size).filter fun i => st.seqId i ≠ ∅).length

/-- With enough unused cells before the head, the search starts at the beginning. -/
def resetHead (u : Ubatch) : Recurrent :=
  if (st.used + 2 * u.nSeqs) % 2 ^ 32 < st.head then { st with head := 0 } else st

/-- `find_slot` from its first assertion on. -/
def emplace (u : Ubatch) : Checked (Bool × Recurrent) := do
  Checked.check u.bEqualSeqs
  let (ok, st) := st.detachShared (members u)
  if ¬ ok then return (false, st)
  else
    let x ← st.claimAll u
    let st := (List.range u.nSeqs).foldl (gather u x.min) x.st
    let st := (List.range u.nSeqs).foldl (place u x.min) st
    let rsZ := st.findZero x.min x.max
    let st ← Checked.loop (stage rsZ) { st with rsZ := rsZ } (window x.min x.max)
    let st := { st with head := x.min, n := x.max + 1 - x.min, used := st.countUsed }
    return (decide (u.nSeqs ≤ st.n), st)

/-- `find_slot`; the first component is the return value. -/
def findSlot (u : Ubatch) : Checked (Bool × Recurrent) := (st.resetHead u).emplace u

end Recurrent
