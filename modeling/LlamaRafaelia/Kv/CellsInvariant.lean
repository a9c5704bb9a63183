import LlamaRafaelia.Kv.Cells
import Mathlib.Algebra.BigOperators.Group.Finset.Basic
import Mathlib.Tactic.Ring

/-!
# The representation invariant of the KV cells

A cell is described three times: by its own `pos` and `seq`, by `used`, and by one unit of `seq_pos[s][pos]` for each
of its sequences.  `Synced` says that the redundant views agree; `Consistent` adds that a position is `-1` or not
negative.  The invariant is rebuilt from one lemma, `Counted.of_update`.  `Counted g` allows a surplus `g`, left
behind where an assertion would have stopped.
-/

/-- What a cell contributes to `seq_pos[s][p]`. -/
def KvCell.ind (x : KvCell) (s : ℕ) (p : ℤ) : ℕ := if x.pos = p ∧ s ∈ x.seq then 1 else 0

theorem KvCell.ind_of_notMem {x : KvCell} {s : ℕ} (h : s ∉ x.seq) (p : ℤ) : x.ind s p = 0 := by
  simp [ind, h]

theorem KvCell.ind_self {x : KvCell} {s : ℕ} (h : s ∈ x.seq) : x.ind s x.pos = 1 := by
  simp [ind, h]

theorem KvCell.ind_of_ne {x : KvCell} {p : ℤ} (s : ℕ) (h : p ≠ x.pos) : x.ind s p = 0 := by
  simp [ind, Ne.symm h]

namespace KvCells

open Function Checked KvCell Finset

variable {c c' : KvCells} {i : ℕ} {s : ℕ} {x : KvCell} {g : ℕ → ℤ → ℕ}

/-! ### Counting cells -/

/-- The number of cells at position `p` that hold sequence `s`. -/
def count (c : KvCells) (s : ℕ) (p : ℤ) : ℕ :=
  ((range c.size).filter fun i => c.pos i = p ∧ s ∈ c.seq i).card

/-- The same number, without cell `i`. -/
def countExcept (c : KvCells) (i s : ℕ) (p : ℤ) : ℕ :=
  (((range c.size).erase i).filter fun j => c.pos j = p ∧ s ∈ c.seq j).card

theorem count_eq (hi : i < c.size) (s : ℕ) (p : ℤ) :
    c.count s p = c.countExcept i s p + (c.cell i).ind s p := by
  have hmem : i ∈ range c.size := mem_range.mpr hi
  rw [count, countExcept, ← insert_erase hmem, filter_insert]
  by_cases h : c.pos i = p ∧ s ∈ c.seq i
  · have hind : (c.cell i).ind s p = 1 := if_pos h
    rw [if_pos h, card_insert_of_notMem (by simp), hind]
    simp
  · have hind : (c.cell i).ind s p = 0 := if_neg h
    rw [if_neg h, hind]
    simp

theorem countExcept_congr (hsize : c'.size = c.size) (hcell : ∀ j, j ≠ i → c'.cell j = c.cell j)
    (s : ℕ) (p : ℤ) : c'.countExcept i s p = c.countExcept i s p := by
  unfold countExcept
  rw [hsize]
  congr 1
  apply filter_congr
  intro j hj
  have hne := ne_of_mem_erase hj
  simp only [pos, seq, hcell j hne]

/-! ### The invariant -/

/-- The redundant views `used` and `seq_pos` agree with the cells. -/
structure Synced (c : KvCells) : Prop where
  used_iff : ∀ i, i ∈ c.used ↔ i < c.size ∧ c.pos i ≠ -1
  seq_used : ∀ i < c.size, c.seq i ≠ ∅ → c.pos i ≠ -1
  seq_lt : ∀ i < c.size, ∀ s ∈ c.seq i, s < llamaMaxSeq
  tracks : ∀ s < llamaMaxSeq, (c.seqPos s).Tracks (c.count s)

/-- The representation invariant of `llama_kv_cells`. -/
structure Consistent (c : KvCells) : Prop extends Synced c where
  pos_ok : ∀ i < c.size, c.pos i = -1 ∨ 0 ≤ c.pos i

/-- What is left of `Synced` in a build without assertions: a second `seq_add` of the same sequence to
a cell leaves an entry in `seq_pos` that no cell accounts for.  `g` counts these entries. -/
structure Counted (g : ℕ → ℤ → ℕ) (c : KvCells) : Prop where
  used_iff : ∀ i, i ∈ c.used ↔ i < c.size ∧ c.pos i ≠ -1
  seq_used : ∀ i < c.size, c.seq i ≠ ∅ → c.pos i ≠ -1
  seq_lt : ∀ i < c.size, ∀ s ∈ c.seq i, s < llamaMaxSeq
  tracks : ∀ s < llamaMaxSeq, (c.seqPos s).Tracks (fun p => c.count s p + g s p)

theorem synced_iff_counted : Synced c ↔ Counted 0 c := by
  constructor
  · intro h
    exact ⟨h.used_iff, h.seq_used, h.seq_lt, h.tracks⟩
  · intro h
    exact ⟨h.used_iff, h.seq_used, h.seq_lt, h.tracks⟩

/-- What `seq_pos` holds besides cell `i`: the other cells, and the surplus. -/
def restCount (g : ℕ → ℤ → ℕ) (c : KvCells) (i s : ℕ) (p : ℤ) : ℕ := c.countExcept i s p + g s p

theorem restCount_eq (hi : i < c.size) (s : ℕ) (p : ℤ) :
    c.count s p + g s p = restCount g c i s p + (c.cell i).ind s p := by
  rw [count_eq hi, restCount]
  omega

theorem restCount_congr (hsize : c'.size = c.size) (hcell : ∀ j, j ≠ i → c'.cell j = c.cell j)
    (s : ℕ) (p : ℤ) : restCount g c' i s p = restCount g c i s p := by
  rw [restCount, restCount, countExcept_congr hsize hcell]

theorem Counted.of_update (h : Counted g c) (hi : i < c.size) (hsize : c'.size = c.size)
    (hcell : c'.cell = update c.cell i x)
    (hused : ∀ j, j ∈ c'.used ↔ if j = i then x.pos ≠ -1 else j ∈ c.used)
    (hx : x.seq ≠ ∅ → x.pos ≠ -1) (hlt : ∀ s ∈ x.seq, s < llamaMaxSeq)
    (htr : ∀ s < llamaMaxSeq,
      (c'.seqPos s).Tracks (fun p => restCount g c i s p + x.ind s p)) :
    Counted g c' := by
  have hat : c'.cell i = x := by rw [hcell, update_self]
  have hoff : ∀ j, j ≠ i → c'.cell j = c.cell j := by
    intro j hj
    rw [hcell, update_of_ne hj]
  refine ⟨?_, ?_, ?_, ?_⟩
  · intro j
    rw [hused j, hsize]
    by_cases hj : j = i
    · subst hj
      simp [pos, hat, hi]
    · rw [if_neg hj, h.used_iff j]
      simp only [pos, hoff j hj]
  · intro j hj
    by_cases hji : j = i
    · subst hji
      simpa only [seq, pos, hat] using hx
    · simpa only [seq, pos, hoff j hji] using h.seq_used j (hsize ▸ hj)
  · intro j hj
    by_cases hji : j = i
    · subst hji
      simpa only [seq, hat] using hlt
    · simpa only [seq, hoff j hji] using h.seq_lt j (hsize ▸ hj)
  · intro t ht
    refine (htr t ht).congr fun p => ?_
    rw [restCount_eq (hsize ▸ hi) t p, restCount_congr hsize hoff, hat]

/-! ### The `seq_pos` helpers -/

theorem seqPosRm_asserts (h : Counted g c) (hi : i < c.size) : (c.seqPosRm i).asserts = true := by
  simp only [seqPosRm, bind_asserts, assert_asserts, pure_asserts,
    Bool.and_true, decide_eq_true_eq]
  intro t ht hlt
  rw [(h.tracks t hlt).lookup_isSome, restCount_eq hi]
  have : (c.cell i).ind t (c.pos i) = 1 := ind_self ht
  omega

theorem seqPosRm_tracks (h : Counted g c) (hi : i < c.size) (hs : s < llamaMaxSeq) :
    ((c.seqPosRm i).value.seqPos s).Tracks (restCount g c i s) := by
  show ((if s < llamaMaxSeq ∧ s ∈ c.seq i then (c.seqPos s).dec (c.pos i) else c.seqPos s)
    : CountMap ℤ).Tracks _
  by_cases hm : s ∈ c.seq i
  · rw [if_pos ⟨hs, hm⟩]
    refine (h.tracks s hs).dec ?_ ?_
    · rw [restCount_eq hi]
      exact congrArg _ (ind_self hm)
    · intro p hp
      rw [restCount_eq hi, ind_of_ne s hp, Nat.add_zero]
  · rw [if_neg (by simp [hm])]
    refine (h.tracks s hs).congr fun p => ?_
    rw [restCount_eq hi, ind_of_notMem hm, Nat.add_zero]

theorem tracks_inc_ind {m : CountMap ℤ} {f : ℤ → ℕ} (h : m.Tracks f) (hm : s ∈ x.seq) :
    (m.inc x.pos).Tracks (fun p => f p + x.ind s p) :=
  h.inc (by simp only [ind_self hm])
    (fun p hp => by simp only [ind_of_ne s hp, Nat.add_zero])

theorem seqPosAdd_tracks {f : ℤ → ℕ} (hs : s < llamaMaxSeq) (h : (c.seqPos s).Tracks f) :
    ((c.seqPosAdd i).seqPos s).Tracks (fun p => f p + (c.cell i).ind s p) := by
  show ((if s < llamaMaxSeq ∧ s ∈ c.seq i then (c.seqPos s).inc (c.pos i) else c.seqPos s)
    : CountMap ℤ).Tracks _
  by_cases hm : s ∈ c.seq i
  · rw [if_pos ⟨hs, hm⟩]
    exact tracks_inc_ind h hm
  · rw [if_neg (by simp [hm])]
    exact h.congr fun p => by rw [ind_of_notMem hm, Nat.add_zero]

/-! ### What each mutator leaves in its cell -/

@[simp] theorem seqPosRm_cell : (c.seqPosRm i).value.cell = c.cell := rfl

@[simp] theorem seqPosRm_size : (c.seqPosRm i).value.size = c.size := rfl

@[simp] theorem seqPosRm_used : (c.seqPosRm i).value.used = c.used := rfl

@[simp] theorem setCell_cell : (c.setCell i x).cell = update c.cell i x := rfl

/-- The cell that `seq_rm` leaves. -/
def seqRmCell (x : KvCell) (s : ℕ) : KvCell :=
  if x.seq.erase s = ∅ then empty else { x with seq := x.seq.erase s }

/-- The cell that `seq_keep` leaves. -/
def seqKeepCell (x : KvCell) (s : ℕ) : KvCell :=
  if s ∈ x.seq then { x with seq := {s} } else if x.seq ≠ ∅ then empty else x

/-- The cell that `pos_add` leaves. -/
def posAddCell (x : KvCell) (d : ℤ) : KvCell :=
  if x.pos + d < 0 then { x with seq := ∅, pos := -1, shift := 0 }
  else { x with pos := x.pos + d, shift := x.shift + d }

/-- The cell that `pos_div` leaves. -/
def posDivCell (x : KvCell) (d : ℤ) : KvCell :=
  { x with pos := x.pos.tdiv d, shift := x.shift + (x.pos - x.pos.tdiv d) }

theorem rm_cell (c : KvCells) (i : ℕ) :
    (c.rm i).value.cell = update c.cell i empty := rfl

theorem seqRm_cell (c : KvCells) (i s : ℕ) :
    (c.seqRm i s).value.1.cell = update c.cell i (seqRmCell (c.cell i) s) := by
  by_cases h : (c.cell i).seq.erase s = ∅
  · simp [seqRm, seqRmCell, seqPosDec, seq, setCell, h]
  · simp [seqRm, seqRmCell, seqPosDec, seq, setCell, h]

theorem seqKeep_cell (c : KvCells) (i s : ℕ) :
    (c.seqKeep i s).value.1.cell = update c.cell i (seqKeepCell (c.cell i) s) := by
  by_cases h : s ∈ (c.cell i).seq
  · simp [seqKeep, seqKeepCell, seqPosInc, seqPosRm, seq, setCell, h]
  · by_cases h' : (c.cell i).seq = ∅
    · simp [seqKeep, seqKeepCell, seq, h']
    · simp [seqKeep, seqKeepCell, seqPosRm, seq, setCell, h, h']

theorem seqAdd_cell (c : KvCells) (i s : ℕ) :
    (c.seqAdd i s).value.cell
      = update c.cell i { c.cell i with seq := insert s (c.cell i).seq } := rfl

theorem posSet_cell (c : KvCells) (i : ℕ) (p : ℤ) :
    (c.posSet i p).value.cell = update c.cell i { c.cell i with pos := p } := rfl

theorem extSet_cell (c : KvCells) (i : ℕ) (e : KvCellExt) :
    (c.extSet i e).value.cell = update c.cell i { c.cell i with ext := e } := rfl

theorem posAdd_cell (c : KvCells) (i : ℕ) (d : ℤ) :
    (c.posAdd i d).value.1.cell = update c.cell i (posAddCell (c.cell i) d) := by
  by_cases h : (c.cell i).pos + d < 0
  · simp [posAdd, posAddCell, seqPosRm, pos, shift, setCell, h]
  · simp [posAdd, posAddCell, seqPosRm, seqPosAdd, pos, shift, setCell, h]

theorem posDiv_cell (c : KvCells) (i : ℕ) (d : ℤ) :
    (c.posDiv i d).value.cell = update c.cell i (posDivCell (c.cell i) d) := rfl

@[simp] theorem rm_size (c : KvCells) (i : ℕ) : (c.rm i).value.size = c.size := rfl

@[simp] theorem seqRm_size (c : KvCells) (i s : ℕ) : (c.seqRm i s).value.1.size = c.size := by
  simp only [seqRm, bind_value, ite_value]
  split <;> rfl

@[simp] theorem seqKeep_size (c : KvCells) (i s : ℕ) : (c.seqKeep i s).value.1.size = c.size := by
  simp only [seqKeep, bind_value, ite_value]
  split
  · rfl
  · split <;> rfl

@[simp] theorem seqAdd_size (c : KvCells) (i s : ℕ) : (c.seqAdd i s).value.size = c.size := rfl

@[simp] theorem posSet_size (c : KvCells) (i : ℕ) (p : ℤ) :
    (c.posSet i p).value.size = c.size := rfl

@[simp] theorem extSet_size (c : KvCells) (i : ℕ) (e : KvCellExt) :
    (c.extSet i e).value.size = c.size := rfl

@[simp] theorem posAdd_size (c : KvCells) (i : ℕ) (d : ℤ) :
    (c.posAdd i d).value.1.size = c.size := by
  simp only [posAdd, bind_value, ite_value]
  split <;> rfl

@[simp] theorem posDiv_size (c : KvCells) (i : ℕ) (d : ℤ) :
    (c.posDiv i d).value.size = c.size := rfl

/-! ### Each mutator keeps the invariant -/

theorem ind_of_seq_empty (h : x.seq = ∅) (s : ℕ) (p : ℤ) : x.ind s p = 0 :=
  ind_of_notMem (by simp [h]) p

theorem tracks_same (h : Counted g c) (hi : i < c.size) {t : ℕ} (ht : t < llamaMaxSeq)
    (hind : ∀ p, x.ind t p = (c.cell i).ind t p) :
    (c.seqPos t).Tracks (fun p => restCount g c i t p + x.ind t p) :=
  (h.tracks t ht).congr fun p => by rw [restCount_eq hi, hind p]

theorem used_keep (h : Counted g c) (hi : i < c.size) (hp : c.pos i ≠ -1) (hx : x.pos ≠ -1) (j : ℕ) :
    j ∈ c.used ↔ if j = i then x.pos ≠ -1 else j ∈ c.used := by
  by_cases hj : j = i
  · subst hj
    simp only [h.used_iff j, if_true]
    exact ⟨fun _ => hx, fun _ => ⟨hi, hp⟩⟩
  · rw [if_neg hj]

theorem used_erase (hx : x.pos = -1) (j : ℕ) :
    j ∈ c.used.erase i ↔ if j = i then x.pos ≠ -1 else j ∈ c.used := by
  by_cases hj : j = i <;> simp [hj, hx]

theorem used_insert (hx : x.pos ≠ -1) (j : ℕ) :
    j ∈ insert i c.used ↔ if j = i then x.pos ≠ -1 else j ∈ c.used := by
  by_cases hj : j = i <;> simp [hj, hx]

theorem rm_asserts (h : Counted g c) :
    (c.rm i).asserts = true ↔ i < c.size ∧ c.pos i ≠ -1 := by
  simp only [rm, bind_asserts, assert_asserts, pure_asserts,
    Bool.and_eq_true, decide_eq_true_eq, and_true]
  constructor
  · rintro ⟨hi, hp, -⟩
    exact ⟨hi, hp⟩
  · rintro ⟨hi, hp⟩
    exact ⟨hi, hp, seqPosRm_asserts h hi⟩

theorem rm_counted (h : Counted g c) (hi : i < c.size) : Counted g (c.rm i).value := by
  refine h.of_update hi rfl (rm_cell c i) (used_erase rfl) (fun hx => absurd rfl hx)
    (by simp [empty]) ?_
  intro t ht
  refine (seqPosRm_tracks h hi ht).congr fun p => ?_
  rw [ind_of_seq_empty rfl, Nat.add_zero]

theorem seqRmCell_ind (x : KvCell) (s t : ℕ) (p : ℤ) :
    (seqRmCell x s).ind t p = if t = s then 0 else x.ind t p := by
  unfold seqRmCell
  by_cases hts : t = s
  · subst hts
    rw [if_pos rfl]
    split <;> simp [ind, empty]
  · rw [if_neg hts]
    split
    · next he =>
      have ht : t ∉ x.seq := by
        intro ht
        have : t ∈ x.seq.erase s := mem_erase.mpr ⟨hts, ht⟩
        simp [he] at this
      rw [ind_of_notMem ht, ind_of_seq_empty rfl]
    · simp [ind, hts]

theorem seqRmCell_pos {s : ℕ} (hp : x.pos ≠ -1) :
    (seqRmCell x s).pos ≠ -1 ↔ x.seq.erase s ≠ ∅ := by
  unfold seqRmCell
  split <;> simp_all [empty]

theorem seqRm_used (c : KvCells) (i s : ℕ) :
    (c.seqRm i s).value.1.used
      = if (c.seq i).erase s = ∅ then c.used.erase i else c.used := by
  by_cases h : (c.cell i).seq.erase s = ∅
  · simp [seqRm, seqPosDec, seq, setCell, h]
  · simp [seqRm, seqPosDec, seq, setCell, h]

theorem seqRm_seqPos (c : KvCells) (i s : ℕ) :
    (c.seqRm i s).value.1.seqPos
      = update c.seqPos s ((c.seqPos s).dec (c.pos i)) := by
  by_cases h : (c.cell i).seq.erase s = ∅
  · simp [seqRm, seqPosDec, seq, setCell, h]
  · simp [seqRm, seqPosDec, seq, setCell, h]

theorem seqRm_asserts (h : Counted g c) :
    (c.seqRm i s).asserts = true
      ↔ i < c.size ∧ s < llamaMaxSeq ∧ s ∈ c.seq i ∧ c.pos i ≠ -1 := by
  have hdec : i < c.size → s < llamaMaxSeq → s ∈ c.seq i →
      ((c.seqPos s).lookup (c.pos i)).isSome = true := by
    intro hi hs hm
    rw [(h.tracks s hs).lookup_isSome, restCount_eq hi]
    have : (c.cell i).ind s (c.pos i) = 1 := ind_self hm
    omega
  simp only [seqRm, seqPosDec, bind_asserts, assert_asserts, pure_asserts,
    ite_asserts, Bool.and_eq_true, decide_eq_true_eq, ite_self, and_true]
  constructor
  · rintro ⟨hi, hs, hm, hp, -⟩
    exact ⟨hi, hs, hm, hp⟩
  · rintro ⟨hi, hs, hm, hp⟩
    exact ⟨hi, hs, hm, hp, hdec hi hs hm⟩

theorem seqRm_counted (h : Counted g c) (hi : i < c.size) (hs : s < llamaMaxSeq) (hm : s ∈ c.seq i) :
    Counted g (c.seqRm i s).value.1 := by
  have hp : c.pos i ≠ -1 := h.seq_used i hi (ne_empty_of_mem hm)
  refine h.of_update hi (seqRm_size c i s) (seqRm_cell c i s) ?_ ?_ ?_ ?_
  · intro j
    have hpos := seqRmCell_pos (x := c.cell i) (s := s) hp
    rw [seqRm_used]
    by_cases he : (c.seq i).erase s = ∅
    · rw [if_pos he]
      exact used_erase (not_not.mp (mt hpos.mp (not_not.mpr he))) j
    · rw [if_neg he]
      exact used_keep h hi hp (hpos.mpr he) j
  · unfold seqRmCell
    split
    · exact fun hx => absurd rfl hx
    · exact fun _ => hp
  · unfold seqRmCell
    split
    · simp [empty]
    · exact fun t ht => h.seq_lt i hi t (mem_of_mem_erase ht)
  · intro t ht
    rw [seqRm_seqPos]
    by_cases hts : t = s
    · subst hts
      rw [update_self]
      refine (h.tracks t ht).dec ?_ ?_
      · rw [restCount_eq hi, seqRmCell_ind, if_pos rfl]
        exact congrArg _ (ind_self hm)
      · intro p hpne
        rw [restCount_eq hi, seqRmCell_ind, if_pos rfl, ind_of_ne t hpne]
    · rw [update_of_ne hts]
      exact tracks_same h hi ht fun p => by rw [seqRmCell_ind, if_neg hts]

theorem seqKeep_asserts (h : Counted g c) :
    (c.seqKeep i s).asserts = true
      ↔ i < c.size ∧ s < llamaMaxSeq ∧ (c.seq i = ∅ → c.pos i = -1) := by
  simp only [seqKeep, bind_asserts, assert_asserts, ite_asserts,
    pure_asserts, Bool.and_eq_true, decide_eq_true_eq, Bool.and_true]
  constructor
  · rintro ⟨hi, hs, hrest⟩
    refine ⟨hi, hs, fun he => ?_⟩
    simpa [he] using hrest
  · rintro ⟨hi, hs, hrest⟩
    refine ⟨hi, hs, ?_⟩
    split
    · exact seqPosRm_asserts h hi
    · split
      · exact seqPosRm_asserts h hi
      · next hne => simpa using hrest (not_not.mp hne)

theorem seqKeep_counted (h : Counted g c) (hi : i < c.size) (hs : s < llamaMaxSeq) :
    Counted g (c.seqKeep i s).value.1 := by
  by_cases hm : s ∈ c.seq i
  · -- the cell keeps `s` alone
    have hp : c.pos i ≠ -1 := h.seq_used i hi (ne_empty_of_mem hm)
    have hcell := seqKeep_cell c i s
    rw [show seqKeepCell (c.cell i) s = { c.cell i with seq := {s} } from if_pos hm] at hcell
    refine h.of_update hi (seqKeep_size c i s) hcell ?_ (fun _ => hp) (by simpa using hs) ?_
    · intro j
      have hused : (c.seqKeep i s).value.1.used = c.used := by
        simp [seqKeep, seqPosInc, seqPosRm, setCell, hm]
      rw [hused]
      exact used_keep h hi hp hp j
    · intro t ht
      have hseqPos : (c.seqKeep i s).value.1.seqPos
          = update (c.seqPosRm i).value.seqPos s
              (((c.seqPosRm i).value.seqPos s).inc (c.pos i)) := by
        simp [seqKeep, seqPosInc, seqPosRm, setCell, pos, hm]
      rw [hseqPos]
      by_cases hts : t = s
      · subst hts
        rw [update_self]
        exact tracks_inc_ind (x := { c.cell i with seq := {t} }) (seqPosRm_tracks h hi ht) (by simp)
      · rw [update_of_ne hts]
        refine (seqPosRm_tracks h hi ht).congr fun p => ?_
        rw [ind_of_notMem (by simpa using hts), Nat.add_zero]
  · by_cases he : c.seq i = ∅
    · rwa [show (c.seqKeep i s).value.1 = c by simp [seqKeep, he]]
    · rw [show (c.seqKeep i s).value.1 = (c.rm i).value by
        simp [seqKeep, rm, seqPosRm, setCell, hm, he]]
      exact rm_counted h hi

theorem seqAdd_asserts (c : KvCells) (i s : ℕ) :
    (c.seqAdd i s).asserts = true
      ↔ i < c.size ∧ s < llamaMaxSeq ∧ c.pos i ≠ -1 ∧ s ∉ c.seq i := by
  simp [seqAdd]

theorem seqAdd_counted (h : Counted g c) (hi : i < c.size) (hs : s < llamaMaxSeq)
    (hp : c.pos i ≠ -1) (hm : s ∉ c.seq i) : Counted g (c.seqAdd i s).value := by
  refine h.of_update hi rfl (seqAdd_cell c i s) (fun j => used_keep (c := c) h hi hp hp j)
    (fun _ => hp) ?_ ?_
  · intro t ht
    rcases mem_insert.mp ht with rfl | ht
    · exact hs
    · exact h.seq_lt i hi t ht
  · intro t ht
    have hseqPos : (c.seqAdd i s).value.seqPos
        = update c.seqPos s ((c.seqPos s).inc (c.pos i)) := by
      simp [seqAdd, seqPosInc, setCell, pos]
    rw [hseqPos]
    by_cases hts : t = s
    · subst hts
      rw [update_self]
      refine tracks_inc_ind (x := { c.cell i with seq := insert t (c.cell i).seq }) ?_ (by simp)
      refine (h.tracks t ht).congr fun p => ?_
      rw [restCount_eq hi, ind_of_notMem hm, Nat.add_zero]
    · rw [update_of_ne hts]
      exact tracks_same h hi ht fun p => by simp [ind, hts]

/-- The surplus after a second `seq_add` of `s` to a cell at position `q`. -/
def bump (g : ℕ → ℤ → ℕ) (s : ℕ) (q : ℤ) : ℕ → ℤ → ℕ :=
  fun t p => g t p + if t = s ∧ p = q then 1 else 0

theorem seqAdd_counted_again (h : Counted g c) (hm : s ∈ c.seq i) :
    Counted (bump g s (c.pos i)) (c.seqAdd i s).value := by
  have hcell : (c.seqAdd i s).value.cell = c.cell := by
    have hself : insert s (c.cell i).seq = (c.cell i).seq := insert_eq_of_mem hm
    simp only [seqAdd_cell, hself, update_eq_self]
  have hcount : ∀ t p, (c.seqAdd i s).value.count t p = c.count t p := by
    intro t p
    unfold count pos seq
    rw [hcell]
    rfl
  have hseqPos : (c.seqAdd i s).value.seqPos
      = update c.seqPos s ((c.seqPos s).inc (c.pos i)) := by
    simp [seqAdd, seqPosInc, setCell, pos]
  refine ⟨?_, ?_, ?_, ?_⟩
  · intro j
    rw [pos, hcell]
    exact h.used_iff j
  · intro j
    rw [seq, pos, hcell]
    exact h.seq_used j
  · intro j
    rw [seq, hcell]
    exact h.seq_lt j
  · intro t ht
    rw [hseqPos]
    by_cases hts : t = s
    · subst hts
      rw [update_self]
      refine (h.tracks t ht).inc ?_ ?_
      · simp only [hcount, bump, and_self, if_true]
        omega
      · intro p hp
        simp only [hcount, bump, hp, and_false, if_false, Nat.add_zero]
    · rw [update_of_ne hts]
      exact (h.tracks t ht).congr fun p => by
        simp only [hcount, bump, hts, false_and, if_false, Nat.add_zero]

theorem posSet_asserts (c : KvCells) (i : ℕ) (p : ℤ) :
    (c.posSet i p).asserts = true ↔ i < c.size ∧ c.pos i = -1 ∧ c.seq i = ∅ := by
  simp [posSet]

theorem posSet_counted (h : Counted g c) (hi : i < c.size) {p : ℤ} (hp : p ≠ -1)
    (he : c.seq i = ∅) : Counted g (c.posSet i p).value := by
  refine h.of_update hi rfl (posSet_cell c i p) (used_insert hp) (fun _ => hp) (h.seq_lt i hi) ?_
  intro t ht
  refine tracks_same h hi ht fun q => ?_
  rw [ind_of_seq_empty (x := c.cell i) he, ind_of_seq_empty (by exact he)]

theorem extSet_counted (h : Counted g c) (hi : i < c.size) (e : KvCellExt) :
    Counted g (c.extSet i e).value := by
  refine h.of_update hi rfl (extSet_cell c i e) ?_ (h.seq_used i hi) (h.seq_lt i hi)
    fun t ht => tracks_same h hi ht fun p => rfl
  intro j
  show j ∈ c.used ↔ if j = i then c.pos i ≠ -1 else j ∈ c.used
  by_cases hj : j = i
  · simp [hj, h.used_iff i, hi]
  · rw [if_neg hj]

theorem posAdd_asserts (h : Counted g c) (d : ℤ) :
    (c.posAdd i d).asserts = true ↔ i < c.size ∧ c.pos i ≠ -1 := by
  simp only [posAdd, bind_asserts, assert_asserts, ite_asserts,
    pure_asserts, Bool.and_eq_true, decide_eq_true_eq, ite_self, and_true]
  constructor
  · rintro ⟨hi, hp, -⟩
    exact ⟨hi, hp⟩
  · rintro ⟨hi, hp⟩
    exact ⟨hi, hp, seqPosRm_asserts h hi⟩

theorem posAdd_counted (h : Counted g c) (hi : i < c.size) (hp : c.pos i ≠ -1) (d : ℤ) :
    Counted g (c.posAdd i d).value.1 := by
  by_cases hneg : (c.cell i).pos + d < 0
  · -- the cell falls off the front and is emptied
    have hcell := posAdd_cell c i d
    rw [posAddCell, if_pos hneg] at hcell
    have hused : (c.posAdd i d).value.1.used = c.used.erase i := by
      simp [posAdd, seqPosRm, setCell, pos, hneg]
    have hseqPos : (c.posAdd i d).value.1.seqPos = (c.seqPosRm i).value.seqPos := by
      simp [posAdd, seqPosRm, setCell, pos, hneg]
    refine h.of_update hi (posAdd_size c i d) hcell ?_ (fun hx => absurd rfl hx) (by simp) ?_
    · rw [hused]
      exact used_erase rfl
    · intro t ht
      rw [hseqPos]
      refine (seqPosRm_tracks h hi ht).congr fun p => ?_
      rw [ind_of_seq_empty rfl, Nat.add_zero]
  · have hcell := posAdd_cell c i d
    have hused : (c.posAdd i d).value.1.used = c.used := by
      simp [posAdd, seqPosRm, seqPosAdd, setCell, pos, hneg]
    have hseqPos : (c.posAdd i d).value.1.seqPos
        = (((c.seqPosRm i).value.setCell i (posAddCell (c.cell i) d)).seqPosAdd i).seqPos := by
      simp [posAdd, posAddCell, seqPosRm, seqPosAdd, setCell, pos, shift, seq, hneg]
    have hpos : (posAddCell (c.cell i) d).pos ≠ -1 := by
      rw [posAddCell, if_neg hneg]
      show (c.cell i).pos + d ≠ -1
      omega
    refine h.of_update hi (posAdd_size c i d) hcell ?_ (fun _ => hpos) ?_ ?_
    · rw [hused]
      exact used_keep h hi hp hpos
    · rw [posAddCell, if_neg hneg]
      exact h.seq_lt i hi
    · intro t ht
      have hadd := seqPosAdd_tracks (c := (c.seqPosRm i).value.setCell i (posAddCell (c.cell i) d))
        (i := i) ht (seqPosRm_tracks h hi ht)
      rw [hseqPos]
      simpa only [setCell_cell, update_self] using hadd

theorem posDiv_asserts (h : Counted g c) (d : ℤ) :
    (c.posDiv i d).asserts = true ↔ i < c.size ∧ c.pos i ≠ -1 := by
  simp only [posDiv, bind_asserts, assert_asserts, pure_asserts,
    Bool.and_eq_true, decide_eq_true_eq, and_true]
  constructor
  · rintro ⟨hi, hp, -⟩
    exact ⟨hi, hp⟩
  · rintro ⟨hi, hp⟩
    exact ⟨hi, hp, seqPosRm_asserts h hi⟩

theorem posDiv_counted (h : Counted g c) (hi : i < c.size) (hp : c.pos i ≠ -1) {d : ℤ}
    (hd : (c.pos i).tdiv d ≠ -1) : Counted g (c.posDiv i d).value := by
  refine h.of_update hi rfl (posDiv_cell c i d) (fun j => used_keep (c := c) h hi hp hd j)
    (fun _ => hd) (h.seq_lt i hi) ?_
  intro t ht
  have hadd := seqPosAdd_tracks (c := (c.seqPosRm i).value.setCell i (posDivCell (c.cell i) d))
    (i := i) ht (seqPosRm_tracks h hi ht)
  simp only [setCell_cell, update_self] at hadd
  exact hadd

/-! ### Sound positions -/

/-- `Counted`, and every position is `-1` or not negative. -/
structure Sound (g : ℕ → ℤ → ℕ) (c : KvCells) : Prop extends Counted g c where
  pos_ok : ∀ i < c.size, c.pos i = -1 ∨ 0 ≤ c.pos i

theorem consistent_iff_sound : Consistent c ↔ Sound 0 c := by
  constructor
  · intro h
    exact ⟨(synced_iff_counted).mp h.toSynced, h.pos_ok⟩
  · intro h
    exact ⟨(synced_iff_counted).mpr h.toCounted, h.pos_ok⟩

theorem Sound.of_update {g' : ℕ → ℤ → ℕ} (h : Sound g c) (hs : Counted g' c')
    (hsize : c'.size = c.size) (hcell : c'.cell = update c.cell i x)
    (hx : i < c.size → x.pos = -1 ∨ 0 ≤ x.pos) : Sound g' c' := by
  refine ⟨hs, fun j hj => ?_⟩
  rw [pos, hcell]
  rw [hsize] at hj
  by_cases hji : j = i
  · subst hji
    rw [update_self]
    exact hx hj
  · rw [update_of_ne hji]
    exact h.pos_ok j hj

theorem Sound.pos_nonneg (h : Sound g c) (hi : i < c.size) (hp : c.pos i ≠ -1) :
    0 ≤ c.pos i := (h.pos_ok i hi).resolve_left hp

theorem rm_sound (h : Sound g c) (hi : i < c.size) : Sound g (c.rm i).value :=
  h.of_update (rm_counted h.toCounted hi) rfl (rm_cell c i) fun _ => Or.inl rfl

theorem seqRmCell_posOk (s : ℕ) (h : x.pos = -1 ∨ 0 ≤ x.pos) :
    (seqRmCell x s).pos = -1 ∨ 0 ≤ (seqRmCell x s).pos := by
  unfold seqRmCell
  split
  · exact Or.inl rfl
  · exact h

theorem seqRm_sound (h : Sound g c) (hi : i < c.size) (hs : s < llamaMaxSeq) (hm : s ∈ c.seq i) :
    Sound g (c.seqRm i s).value.1 :=
  h.of_update (seqRm_counted h.toCounted hi hs hm) (seqRm_size c i s) (seqRm_cell c i s)
    fun hi => seqRmCell_posOk s (h.pos_ok i hi)

theorem seqKeepCell_posOk (s : ℕ) (h : x.pos = -1 ∨ 0 ≤ x.pos) :
    (seqKeepCell x s).pos = -1 ∨ 0 ≤ (seqKeepCell x s).pos := by
  unfold seqKeepCell
  split
  · exact h
  · split
    · exact Or.inl rfl
    · exact h

theorem seqKeep_sound (h : Sound g c) (hi : i < c.size) (hs : s < llamaMaxSeq) :
    Sound g (c.seqKeep i s).value.1 :=
  h.of_update (seqKeep_counted h.toCounted hi hs) (seqKeep_size c i s) (seqKeep_cell c i s)
    fun hi => seqKeepCell_posOk s (h.pos_ok i hi)

theorem seqAdd_sound (h : Sound g c) (hi : i < c.size) (hs : s < llamaMaxSeq)
    (hp : c.pos i ≠ -1) (hm : s ∉ c.seq i) : Sound g (c.seqAdd i s).value :=
  h.of_update (seqAdd_counted h.toCounted hi hs hp hm) rfl (seqAdd_cell c i s)
    fun hi => h.pos_ok i hi

theorem seqAdd_sound_again (h : Sound g c) (hm : s ∈ c.seq i) :
    Sound (bump g s (c.pos i)) (c.seqAdd i s).value :=
  h.of_update (seqAdd_counted_again h.toCounted hm) rfl (seqAdd_cell c i s) fun hi => h.pos_ok i hi

theorem posSet_sound (h : Sound g c) (hi : i < c.size) {p : ℤ} (hp : 0 ≤ p) (he : c.seq i = ∅) :
    Sound g (c.posSet i p).value :=
  h.of_update (posSet_counted h.toCounted hi (by omega) he) rfl (posSet_cell c i p)
    fun _ => Or.inr hp

theorem extSet_sound (h : Sound g c) (hi : i < c.size) (e : KvCellExt) :
    Sound g (c.extSet i e).value :=
  h.of_update (extSet_counted h.toCounted hi e) rfl (extSet_cell c i e) fun hi => h.pos_ok i hi

theorem posAddCell_posOk (x : KvCell) (d : ℤ) :
    (posAddCell x d).pos = -1 ∨ 0 ≤ (posAddCell x d).pos := by
  unfold posAddCell
  split
  · exact Or.inl rfl
  · next h => exact Or.inr (by simpa using h)

theorem posAdd_sound (h : Sound g c) (hi : i < c.size) (hp : c.pos i ≠ -1) (d : ℤ) :
    Sound g (c.posAdd i d).value.1 :=
  h.of_update (posAdd_counted h.toCounted hi hp d) (posAdd_size c i d) (posAdd_cell c i d)
    fun _ => posAddCell_posOk (c.cell i) d

theorem posDivCell_nonneg {d : ℤ} (hx : 0 ≤ x.pos) (hd : 1 ≤ d) :
    0 ≤ (posDivCell x d).pos := Int.tdiv_nonneg hx (by omega)

theorem posDiv_sound (h : Sound g c) (hi : i < c.size) (hp : c.pos i ≠ -1) {d : ℤ} (hd : 1 ≤ d) :
    Sound g (c.posDiv i d).value := by
  have hnn : 0 ≤ (c.pos i).tdiv d := posDivCell_nonneg (h.pos_nonneg hi hp) hd
  exact h.of_update (posDiv_counted h.toCounted hi hp (by omega)) rfl (posDiv_cell c i d)
    fun _ => Or.inr hnn

end KvCells
