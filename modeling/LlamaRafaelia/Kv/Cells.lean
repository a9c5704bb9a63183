import LlamaRafaelia.Lib.Checked
import LlamaRafaelia.Lib.CountMap
import Mathlib.Data.Finset.Card

/-!
# The KV cells (`llama-kv-cells.h`)

`KvCells` is the class `llama_kv_cells`.  The four vectors are one indexed family of records, the `std::bitset` of a
cell is the finite set of its set bits, and `seq_pos[s]` counts positions.  Every method is translated line by line;
the `assert`s, and the bounds of vectors and bitsets, are kept as `Checked.assert`.  Positions are integers.
-/

/-- `LLAMA_MAX_SEQ` of `llama-cparams.h`. -/
def llamaMaxSeq : ℕ := 256

/-- `llama_kv_cell_ext`: the 2D position of a cell, used for M-RoPE. -/
structure KvCellExt where
  x : ℤ
  y : ℤ
  deriving DecidableEq, Repr

/-- The entry that the vectors `pos`, `ext`, `shift` and `seq` hold for one cell. -/
structure KvCell where
  pos : ℤ
  ext : KvCellExt
  shift : ℤ
  seq : Finset ℕ
  deriving DecidableEq

/-- What `reset()` leaves in a cell. -/
def KvCell.empty : KvCell := ⟨-1, ⟨0, 0⟩, 0, ∅⟩

/-- `llama_kv_cells`. -/
structure KvCells where
  /-- the common length of the four vectors -/
  size : ℕ
  hasShift : Bool
  used : Finset ℕ
  cell : ℕ → KvCell
  seqPos : ℕ → CountMap ℤ

namespace KvCells

open Checked

variable (c : KvCells) (i : ℕ) (s : ℕ)

def pos : ℤ := (c.cell i).pos

def ext : KvCellExt := (c.cell i).ext

def shift : ℤ := (c.cell i).shift

def seq : Finset ℕ := (c.cell i).seq

/-- Overwrite the four vector entries of cell `i`. -/
def setCell (x : KvCell) : KvCells := { c with cell := Function.update c.cell i x }

/-! ### `seq_pos` helpers -/

/-- `seq_pos_dec`. -/
def seqPosDec (p : ℤ) : Checked KvCells := do
  assert ((c.seqPos s).lookup p).isSome
  return { c with seqPos := Function.update c.seqPos s ((c.seqPos s).dec p) }

/-- `seq_pos_inc`. -/
def seqPosInc (p : ℤ) : KvCells :=
  { c with seqPos := Function.update c.seqPos s ((c.seqPos s).inc p) }

/-- `seq_pos_rm`: one `seq_pos_dec` for each sequence of the cell.  The iterations of the loop
touch different maps, so the loop is one pointwise update. -/
def seqPosRm : Checked KvCells := do
  assert (∀ t ∈ c.seq i, t < llamaMaxSeq → ((c.seqPos t).lookup (c.pos i)).isSome)
  return { c with seqPos := fun t =>
    if t < llamaMaxSeq ∧ t ∈ c.seq i then (c.seqPos t).dec (c.pos i) else c.seqPos t }

/-- `seq_pos_add`. -/
def seqPosAdd : KvCells :=
  { c with seqPos := fun t =>
    if t < llamaMaxSeq ∧ t ∈ c.seq i then (c.seqPos t).inc (c.pos i) else c.seqPos t }

/-! ### Construction and whole-object operations -/

def reset : KvCells :=
  { c with hasShift := false, used := ∅, cell := fun _ => KvCell.empty, seqPos := fun _ => ∅ }

def resetShift : KvCells :=
  { c with hasShift := false, cell := fun j => { c.cell j with shift := 0 } }

/-- `resize(n)` on a fresh object. -/
def resize (n : ℕ) : KvCells := ⟨n, false, ∅, fun _ => KvCell.empty, fun _ => ∅⟩

def isEmpty : Checked Bool := do
  assert (i < c.size)
  assert ((c.pos i < 0 ∧ c.pos i = -1) ∨ 0 ≤ c.pos i)
  return c.pos i = -1

def getUsed : ℕ := c.used.card

/-- The index of the first used cell, `0` if there is none. -/
def usedMin : ℕ := c.used.min.untopD 0

/-- The index of the last used cell plus one, `0` if there is none. -/
def usedMaxP1 : ℕ := if c.used = ∅ then 0 else c.used.max.unbotD 0 + 1

def getHasShift : Bool := c.hasShift

/-- One iteration of either `cp`: entry `j` of the copy is cell `idx` of the original. -/
def cpStep (idx : ℕ) (res : KvCells) (j : ℕ) : Checked KvCells := do
  assert (idx < c.size)
  let res := res.setCell j { pos := c.pos idx, ext := c.ext idx, shift := res.shift j, seq := c.seq idx }
  assert (c.shift idx = 0)
  return res

/-- `cp(i, n)`: the cells `[i, i + n)`.  Only `pos`, `ext` and `seq` are copied. -/
def cpRange (n : ℕ) : Checked KvCells := do
  assert (i + n ≤ c.size)
  loopRange n (fun res j => c.cpStep (i + j) res j) (resize n)

/-- `cp(idxs)`. -/
def cpIdxs (idxs : List ℕ) : Checked KvCells :=
  loopRange idxs.length (fun res j => c.cpStep (idxs.getD j 0) res j) (resize idxs.length)

/-- The start of an iteration of `set`: a non-empty cell is taken out of `seq_pos`. -/
def setTake (idx : ℕ) : Checked KvCells :=
  if c.pos idx ≠ -1 then c.seqPosRm idx else pure c

/-- One iteration of either `set`: cell `idx` takes entry `j` of `other`. -/
def setStep (other : KvCells) (idx j : ℕ) : Checked KvCells := do
  assert (idx < c.size)
  let used :=
    if c.pos idx = -1 ∧ other.pos j ≠ -1 then insert idx c.used
    else if c.pos idx ≠ -1 ∧ other.pos j = -1 then c.used.erase idx
    else c.used
  let c ← c.setTake idx
  let c := { c with used := used }
  let c := c.setCell idx { pos := other.pos j, ext := other.ext j, shift := c.shift idx, seq := other.seq j }
  let c := if c.pos idx ≠ -1 then c.seqPosAdd idx else c
  assert (c.shift idx = 0)
  return c

/-- `set(i, other)`: the cells `[i, i + other.size())`. -/
def setRange (other : KvCells) : Checked KvCells := do
  assert (i + other.size ≤ c.size)
  loopRange other.size (fun c j => c.setStep other (i + j) j) c

/-- `set(idxs, other)`. -/
def setIdxs (idxs : List ℕ) (other : KvCells) : Checked KvCells := do
  assert (idxs.length = other.size)
  loopRange other.size (fun c j => c.setStep other (idxs.getD j 0) j) c

/-! ### Operations on one cell -/

/-- `rm`: clear a non-empty cell. -/
def rm : Checked KvCells := do
  assert (i < c.size)
  assert (c.pos i ≠ -1)
  let c ← c.seqPosRm i
  let c := c.setCell i KvCell.empty
  return { c with used := c.used.erase i }

/-- `seq_rm`: also returns whether the cell became empty. -/
def seqRm : Checked (KvCells × Bool) := do
  assert (i < c.size)
  assert (s < llamaMaxSeq)
  assert (s ∈ c.seq i)
  assert (c.pos i ≠ -1)
  let p := c.pos i
  let c := c.setCell i { c.cell i with seq := (c.seq i).erase s }
  let c ← c.seqPosDec s p
  if c.seq i = ∅ then
    let c := c.setCell i KvCell.empty
    return ({ c with used := c.used.erase i }, true)
  else
    return (c, false)

/-- `seq_keep`: also returns whether the cell became empty. -/
def seqKeep : Checked (KvCells × Bool) := do
  assert (i < c.size)
  assert (s < llamaMaxSeq)
  if s ∈ c.seq i then
    let c ← c.seqPosRm i
    let c := c.setCell i { c.cell i with seq := {s} }
    return (c.seqPosInc s (c.pos i), false)
  else if c.seq i ≠ ∅ then
    let c ← c.seqPosRm i
    let c := c.setCell i KvCell.empty
    return ({ c with used := c.used.erase i }, true)
  else
    assert (c.pos i = -1)
    return (c, false)

/-- `seq_count`: the number of sequences in the cell. -/
def seqCount : Checked ℕ := do
  assert (i < c.size)
  assert (c.pos i ≠ -1)
  return (c.seq i).card

/-- `seq_has`. -/
def seqHas : Checked Bool := do
  assert (i < c.size)
  assert (s < llamaMaxSeq)
  return s ∈ c.seq i

/-- `seq_add`: call only if the cell is not empty and does not hold the sequence. -/
def seqAdd : Checked KvCells := do
  assert (i < c.size)
  assert (s < llamaMaxSeq)
  assert (c.pos i ≠ -1)
  assert (s ∉ c.seq i)
  let c := c.setCell i { c.cell i with seq := insert s (c.seq i) }
  return c.seqPosInc s (c.pos i)

/-- `seq_get`: the first sequence of the cell, `-1` if it has none. -/
def seqGet : Checked ℤ := do
  assert ((c.seq i).card = 1)
  return match (List.range llamaMaxSeq).find? (· ∈ c.seq i) with
    | some t => (t : ℤ)
    | none => -1

/-- `seq_pos_min`: the least position of the sequence in any cell, `-1` if there is none. -/
def seqPosMin : Checked ℤ := do
  assert (s < llamaMaxSeq)
  assert ((c.seqPos s).keys = ∅ ∨ 0 < ((c.seqPos s).lookup ((c.seqPos s).firstKey (-1))).getD 0)
  return (c.seqPos s).firstKey (-1)

/-- `seq_pos_max`: the greatest position of the sequence in any cell, `-1` if there is none. -/
def seqPosMax : Checked ℤ := do
  assert (s < llamaMaxSeq)
  assert ((c.seqPos s).keys = ∅ ∨ 0 < ((c.seqPos s).lookup ((c.seqPos s).lastKey (-1))).getD 0)
  return (c.seqPos s).lastKey (-1)

def posGet : Checked ℤ := do
  assert (i < c.size)
  assert (c.pos i ≠ -1)
  return c.pos i

def extGet : Checked KvCellExt := do
  assert (i < c.size)
  assert (c.pos i ≠ -1)
  return c.ext i

def getShift : Checked ℤ := do
  assert (i < c.size)
  assert (c.pos i ≠ -1)
  return c.shift i

/-- `pos_in`: the position is within `[p0, p1)`. -/
def posIn (p0 p1 : ℤ) : Checked Bool := do
  assert (i < c.size)
  return p0 ≤ c.pos i ∧ c.pos i < p1

/-- `pos_set`: set the position of an empty cell. -/
def posSet (p : ℤ) : Checked KvCells := do
  assert (i < c.size)
  assert (c.pos i = -1)
  assert (c.seq i = ∅)
  let c := c.setCell i { c.cell i with pos := p }
  return { c with used := insert i c.used }

def extSet (e : KvCellExt) : Checked KvCells := do
  assert (i < c.size)
  return c.setCell i { c.cell i with ext := e }

/-- `pos_add`: also returns whether the cell became empty. -/
def posAdd (d : ℤ) : Checked (KvCells × Bool) := do
  assert (i < c.size)
  assert (c.pos i ≠ -1)
  let c ← c.seqPosRm i
  let c := c.setCell i { c.cell i with pos := c.pos i + d, shift := c.shift i + d }
  let c := { c with hasShift := true }
  if c.pos i < 0 then
    let c := c.setCell i { c.cell i with seq := ∅, pos := -1, shift := 0 }
    return ({ c with used := c.used.erase i }, true)
  else
    return (c.seqPosAdd i, false)

/-- `pos_div`: integer division truncates towards zero. -/
def posDiv (d : ℤ) : Checked KvCells := do
  assert (i < c.size)
  assert (c.pos i ≠ -1)
  let pOld := c.pos i
  let c ← c.seqPosRm i
  let p := pOld.tdiv d
  let c := c.setCell i { c.cell i with pos := p, shift := c.shift i + (pOld - p) }
  let c := c.seqPosAdd i
  return { c with hasShift := true }

end KvCells
