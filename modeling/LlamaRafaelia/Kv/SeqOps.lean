import LlamaRafaelia.Kv.CellsReach
import LlamaRafaelia.Kv.Cache

/-!
# The sequence operations of the cache, cell by cell

`seq_rm`, `seq_keep`, `seq_add`, `seq_div` and the copy inside one stream are loops whose iteration changes its own
cell alone (`CellStep`).
-/

def KvCell.Owned (x : KvCell) : Prop := x.pos ≠ -1 → x.seq ≠ ∅

/-- The position is within `[lo, hi)` and the cell holds the sequence. -/
def KvCell.Hit (x : KvCell) (s : ℕ) (lo hi : ℤ) : Prop := (lo ≤ x.pos ∧ x.pos < hi) ∧ s ∈ x.seq

instance (x : KvCell) (s : ℕ) (lo hi : ℤ) : Decidable (x.Hit s lo hi) :=
  inferInstanceAs (Decidable (_ ∧ _))

namespace KvCache

open Checked KvCells Finset

/-! ### Loops that change one cell at a time -/

/-- An iteration that replaces its cell by `F` of it; `view` finds the cells in the loop state. -/
structure CellStep {σ : Type} (view : σ → KvCells) (F : KvCell → KvCell)
    (step : σ → ℕ → Checked σ) : Prop where
  cell : ∀ a i, (view (step a i).value).cell = Function.update (view a).cell i (F ((view a).cell i))
  size : ∀ a i, (view (step a i).value).size = (view a).size
  sound : ∀ {g a i}, Sound g (view a) → i < (view a).size → Sound g (view (step a i).value)
  asserts : ∀ {g a i}, Sound g (view a) → i < (view a).size → ((view a).cell i).Owned →
    (step a i).asserts = true
  owned : ∀ x : KvCell, x.Owned → (F x).Owned
  seq_subset : ∀ x : KvCell, (F x).seq ⊆ x.seq

theorem cellLoop_cell {σ : Type} (view : σ → KvCells) {step : σ → ℕ → Checked σ} {F : KvCell → KvCell}
    (hstep : ∀ a i, (view (step a i).value).cell
      = Function.update (view a).cell i (F ((view a).cell i)))
    (n : ℕ) (a : σ) (j : ℕ) :
    (view (loopRange n step a).value).cell j
      = if j < n then F ((view a).cell j) else (view a).cell j := by
  have h := loopRange_value_rule (f := step)
    (fun k (b : σ) => ∀ j, (view b).cell j = if j < k then F ((view a).cell j) else (view a).cell j)
    n (s := a) (fun j => by simp) ?_
  · exact h j
  · intro k b hk ih j
    rw [hstep]
    by_cases hj : j = k
    · subst hj
      rw [Function.update_self, ih j, if_neg (Nat.lt_irrefl j), if_pos (Nat.lt_succ_self j)]
    · rw [Function.update_of_ne hj, ih j]
      have : j < k ↔ j < k + 1 := by omega
      simp only [this]

theorem CellStep.loop_spec {σ : Type} {view : σ → KvCells} {F : KvCell → KvCell}
    {step : σ → ℕ → Checked σ} (hstep : CellStep view F step) {g : ℕ → ℤ → ℕ} {a : σ}
    (ha : Sound g (view a)) :
    let r := loopRange (view a).size step a
    Sound g (view r.value) ∧ (view r.value).size = (view a).size ∧
      (∀ j < (view a).size, (view r.value).cell j = F ((view a).cell j)) ∧
      ((∀ j < (view a).size, ((view a).cell j).Owned) → r.asserts = true) := by
  have hinv := loopRange_value_rule (f := step)
    (fun _ (b : σ) => Sound g (view b) ∧ (view b).size = (view a).size)
    (view a).size (s := a) ⟨ha, rfl⟩ ?_
  · refine ⟨hinv.1, hinv.2, fun j hj => ?_, fun howned => ?_⟩
    · rw [cellLoop_cell view hstep.cell, if_pos hj]
    · refine (loopRange_rule (f := step)
        (fun _ (b : σ) => Sound g (view b) ∧ (view b).size = (view a).size ∧
          ∀ j < (view a).size, ((view b).cell j).Owned)
        (view a).size ⟨ha, rfl, howned⟩ ?_).1
      rintro i b hi ⟨hb, hsize, hown⟩
      refine ⟨hstep.asserts hb (hsize ▸ hi) (hown i hi), hstep.sound hb (hsize ▸ hi),
        (hstep.size b i).trans hsize, fun j hj => ?_⟩
      rw [hstep.cell]
      by_cases hji : j = i
      · subst hji
        rw [Function.update_self]
        exact hstep.owned _ (hown j hj)
      · rw [Function.update_of_ne hji]
        exact hown j hj
  · rintro i b hi ⟨hb, hsize⟩
    exact ⟨hstep.sound hb (hsize ▸ hi), (hstep.size b i).trans hsize⟩

theorem loopRange_head_le (step : KvCells × ℕ → ℕ → Checked (KvCells × ℕ)) {n : ℕ} {a : KvCells × ℕ}
    (h0 : a.2 ≤ n) (h : ∀ b i, i < n → b.2 ≤ n → (step b i).value.2 ≤ n) :
    (loopRange n step a).value.2 ≤ n :=
  loopRange_value_rule (fun _ (b : KvCells × ℕ) => b.2 ≤ n) n h0 fun i b hi hb => h b i hi hb

theorem noteFreed_le {size n i m : ℕ} {freed : Bool} (hm : m ≤ n) (hi : i < n) :
    noteFreed size i freed m ≤ n := by
  unfold noteFreed
  split
  · exact Nat.le_of_lt hi
  · exact hm

/-! ### The iterations -/

/-- `seq_rm` of one sequence, at a cell. -/
def seqRmAt (s : ℕ) (lo hi : ℤ) (x : KvCell) : KvCell := if x.Hit s lo hi then seqRmCell x s else x

/-- `seq_rm` of all sequences, at a cell. -/
def rmAt (lo hi : ℤ) (x : KvCell) : KvCell := if lo ≤ x.pos ∧ x.pos < hi then KvCell.empty else x

/-- `seq_add`, at a cell. -/
def seqAddAt (s : ℕ) (lo hi d : ℤ) (x : KvCell) : KvCell :=
  if x.Hit s lo hi then posAddCell x d else x

/-- `seq_div`, at a cell. -/
def seqDivAt (s : ℕ) (lo hi d : ℤ) (x : KvCell) : KvCell :=
  if x.Hit s lo hi then posDivCell x d else x

/-- `seq_cp` inside one stream, at a cell. -/
def seqCpAt (src dst : ℕ) (lo hi : ℤ) (x : KvCell) : KvCell :=
  if x.Hit src lo hi then { x with seq := insert dst x.seq } else x

variable {s : ℕ} {lo hi d : ℤ} {size : ℕ} {g : ℕ → ℤ → ℕ}

theorem seqRmStep_value (a : KvCells × ℕ) (i : ℕ) :
    (seqRmStep s lo hi size a i).value = if (a.1.cell i).Hit s lo hi
      then ((a.1.seqRm i s).value.1, noteFreed size i (a.1.seqRm i s).value.2 a.2) else a := by
  by_cases h1 : lo ≤ (a.1.cell i).pos ∧ (a.1.cell i).pos < hi
  · by_cases h2 : s ∈ (a.1.cell i).seq <;>
      simp [seqRmStep, posIn, seqHas, KvCell.Hit, pos, seq, h1, h2]
  · simp [seqRmStep, posIn, KvCell.Hit, pos, h1]

theorem seqRmStep_asserts {a : KvCells × ℕ} {i : ℕ} (hi' : i < a.1.size) (hs : s < llamaMaxSeq)
    (h : (a.1.cell i).Hit s lo hi → (a.1.seqRm i s).asserts = true) :
    (seqRmStep s lo hi size a i).asserts = true := by
  by_cases h1 : lo ≤ (a.1.cell i).pos ∧ (a.1.cell i).pos < hi
  · by_cases h2 : s ∈ (a.1.cell i).seq
    · simp [seqRmStep, posIn, seqHas, pos, seq, h1, h2, hi', hs, h ⟨h1, h2⟩]
    · simp [seqRmStep, posIn, seqHas, pos, seq, h1, h2, hi', hs]
  · simp [seqRmStep, posIn, pos, h1, hi']

theorem seqRmCell_owned (x : KvCell) (s : ℕ) : (seqRmCell x s).Owned := by
  unfold seqRmCell
  split
  · exact fun h => absurd rfl h
  · next h => exact fun _ => h

theorem seqRmCell_subset (x : KvCell) (s : ℕ) : (seqRmCell x s).seq ⊆ x.seq.erase s := by
  unfold seqRmCell
  split
  · exact empty_subset _
  · exact Finset.Subset.refl _

theorem hit_pos_ne {c : KvCells} {i : ℕ} (hc : Sound g c) (hi' : i < c.size)
    (h : (c.cell i).Hit s lo hi) : c.pos i ≠ -1 :=
  hc.seq_used i hi' (ne_empty_of_mem h.2)

theorem seqRmStep_cellStep (lo hi : ℤ) (size : ℕ) (hs : s < llamaMaxSeq) :
    CellStep Prod.fst (seqRmAt s lo hi) (seqRmStep s lo hi size) where
  cell a i := by
    rw [seqRmStep_value, seqRmAt]
    split
    · exact seqRm_cell a.1 i s
    · rw [Function.update_eq_self]
  size a i := by
    rw [seqRmStep_value]
    split
    · exact seqRm_size a.1 i s
    · rfl
  sound {g a i} ha hi' := by
    rw [seqRmStep_value]
    split
    · next h => exact seqRm_sound ha hi' hs h.2
    · exact ha
  asserts {g a i} ha hi' _ := seqRmStep_asserts hi' hs fun h =>
    (seqRm_asserts ha.toCounted).mpr ⟨hi', hs, h.2, hit_pos_ne ha hi' h⟩
  owned x hx := by
    unfold seqRmAt
    split
    · exact seqRmCell_owned x s
    · exact hx
  seq_subset x := by
    unfold seqRmAt
    split
    · exact (seqRmCell_subset x s).trans (erase_subset s x.seq)
    · exact Finset.Subset.refl _

theorem rmStep_value (a : KvCells × ℕ) (i : ℕ) :
    (rmStep lo hi size a i).value = if lo ≤ (a.1.cell i).pos ∧ (a.1.cell i).pos < hi
      then ((a.1.rm i).value, noteFreed size i true a.2) else a := by
  by_cases h1 : lo ≤ (a.1.cell i).pos ∧ (a.1.cell i).pos < hi <;>
    simp [rmStep, posIn, pos, h1]

theorem rmStep_cellStep (hi : ℤ) (size : ℕ) (hlo : 0 ≤ lo) :
    CellStep Prod.fst (rmAt lo hi) (rmStep lo hi size) where
  cell a i := by
    rw [rmStep_value, rmAt]
    split
    · exact rm_cell a.1 i
    · rw [Function.update_eq_self]
  size a i := by
    rw [rmStep_value]
    split <;> rfl
  sound {g a i} ha hi' := by
    rw [rmStep_value]
    split
    · exact rm_sound ha hi'
    · exact ha
  asserts {g a i} ha hi' _ := by
    by_cases h1 : lo ≤ (a.1.cell i).pos ∧ (a.1.cell i).pos < hi
    · have hne : a.1.pos i ≠ -1 := by
        show (a.1.cell i).pos ≠ -1
        omega
      simp [rmStep, posIn, pos, h1, hi', (rm_asserts ha.toCounted).mpr ⟨hi', hne⟩]
    · simp [rmStep, posIn, pos, h1, hi']
  owned x hx := by
    unfold rmAt
    split
    · exact fun h => absurd rfl h
    · exact hx
  seq_subset x := by
    unfold rmAt
    split
    · exact empty_subset _
    · exact Finset.Subset.refl _

theorem seqKeepStep_cellStep (size : ℕ) (hs : s < llamaMaxSeq) :
    CellStep Prod.fst (fun x => seqKeepCell x s) (seqKeepStep s size) where
  cell a i := seqKeep_cell a.1 i s
  size a i := seqKeep_size a.1 i s
  sound ha hi' := seqKeep_sound ha hi' hs
  asserts {g a i} ha hi' hown := by
    have h := (seqKeep_asserts (s := s) ha.toCounted).mpr
      ⟨hi', hs, fun he => not_not.mp fun hp => hown hp he⟩
    simp [seqKeepStep, h]
  owned x hx := by
    unfold seqKeepCell
    split
    · exact fun _ => singleton_ne_empty s
    · split
      · exact fun h => absurd rfl h
      · exact hx
  seq_subset x := by
    unfold seqKeepCell
    split
    · next h => exact singleton_subset_iff.mpr h
    · split
      · exact empty_subset _
      · exact Finset.Subset.refl _

theorem seqAddStep_value (a : KvCells × ℕ) (i : ℕ) :
    (seqAddStep s lo hi d size a i).value = if (a.1.cell i).Hit s lo hi
      then ((a.1.posAdd i d).value.1, noteFreed size i (a.1.posAdd i d).value.2 a.2) else a := by
  by_cases h1 : lo ≤ (a.1.cell i).pos ∧ (a.1.cell i).pos < hi
  · by_cases h2 : s ∈ (a.1.cell i).seq <;>
      simp [seqAddStep, posIn, seqHas, KvCell.Hit, pos, seq, h1, h2]
  · simp [seqAddStep, posIn, KvCell.Hit, pos, h1]

theorem posAddCell_owned {x : KvCell} (d : ℤ) (hx : x.seq ≠ ∅) : (posAddCell x d).Owned := by
  unfold posAddCell
  split
  · exact fun h => absurd rfl h
  · exact fun _ => hx

theorem posAddCell_subset (x : KvCell) (d : ℤ) : (posAddCell x d).seq ⊆ x.seq := by
  unfold posAddCell
  split
  · exact empty_subset _
  · exact Finset.Subset.refl _

theorem seqAddStep_cellStep (lo hi d : ℤ) (size : ℕ) (hs : s < llamaMaxSeq) :
    CellStep Prod.fst (seqAddAt s lo hi d) (seqAddStep s lo hi d size) where
  cell a i := by
    rw [seqAddStep_value, seqAddAt]
    split
    · exact posAdd_cell a.1 i d
    · rw [Function.update_eq_self]
  size a i := by
    rw [seqAddStep_value]
    split
    · exact posAdd_size a.1 i d
    · rfl
  sound {g a i} ha hi' := by
    rw [seqAddStep_value]
    split
    · next h => exact posAdd_sound ha hi' (hit_pos_ne ha hi' h) d
    · exact ha
  asserts {g a i} ha hi' _ := by
    by_cases h1 : lo ≤ (a.1.cell i).pos ∧ (a.1.cell i).pos < hi
    · by_cases h2 : s ∈ (a.1.cell i).seq
      · have h := (posAdd_asserts ha.toCounted d).mpr ⟨hi', hit_pos_ne ha hi' ⟨h1, h2⟩⟩
        simp [seqAddStep, posIn, seqHas, pos, seq, h1, h2, hi', hs, h]
      · simp [seqAddStep, posIn, seqHas, pos, seq, h1, h2, hi', hs]
    · simp [seqAddStep, posIn, pos, h1, hi']
  owned x hx := by
    unfold seqAddAt
    split
    · next h => exact posAddCell_owned d (ne_empty_of_mem h.2)
    · exact hx
  seq_subset x := by
    unfold seqAddAt
    split
    · exact posAddCell_subset x d
    · exact Finset.Subset.refl _

theorem seqAddStep_head {n i : ℕ} {a : KvCells × ℕ} (hi' : i < n) (ha : a.2 ≤ n) :
    (seqAddStep s lo hi d size a i).value.2 ≤ n := by
  rw [seqAddStep_value]
  split
  · exact noteFreed_le ha hi'
  · exact ha

theorem seqDivStep_value (c : KvCells) (i : ℕ) :
    (seqDivStep s lo hi d c i).value
      = if (c.cell i).Hit s lo hi then (c.posDiv i d).value else c := by
  by_cases h1 : lo ≤ (c.cell i).pos ∧ (c.cell i).pos < hi
  · by_cases h2 : s ∈ (c.cell i).seq <;>
      simp [seqDivStep, posIn, seqHas, KvCell.Hit, pos, seq, h1, h2]
  · simp [seqDivStep, posIn, KvCell.Hit, pos, h1]

theorem seqDivStep_cellStep (lo hi : ℤ) (hs : s < llamaMaxSeq) (hd : 1 ≤ d) :
    CellStep id (seqDivAt s lo hi d) (seqDivStep s lo hi d) where
  cell c i := by
    rw [id, id, seqDivStep_value, seqDivAt]
    split
    · exact posDiv_cell c i d
    · rw [Function.update_eq_self]
  size c i := by
    rw [id, id, seqDivStep_value]
    split <;> rfl
  sound {g c i} hc hi' := by
    rw [id, seqDivStep_value]
    split
    · next h => exact posDiv_sound hc hi' (hit_pos_ne hc hi' h) hd
    · exact hc
  asserts {g c i} hc hi' _ := by
    by_cases h1 : lo ≤ (c.cell i).pos ∧ (c.cell i).pos < hi
    · by_cases h2 : s ∈ (c.cell i).seq
      · have h := (posDiv_asserts hc.toCounted d).mpr ⟨hi', hit_pos_ne hc hi' ⟨h1, h2⟩⟩
        simp only [id] at hi' h
        simp [seqDivStep, posIn, seqHas, pos, seq, h1, h2, hi', hs, h]
      · simp only [id] at hi'
        simp [seqDivStep, posIn, seqHas, pos, seq, h1, h2, hi', hs]
    · simp only [id] at hi'
      simp [seqDivStep, posIn, pos, h1, hi']
  owned x hx := by
    unfold seqDivAt
    split
    · next h => exact fun _ => ne_empty_of_mem h.2
    · exact hx
  seq_subset x := by
    unfold seqDivAt
    split <;> exact Finset.Subset.refl _

/-! ### Copies across streams -/

theorem seqCpOrigin_value (c : KvCells) (i : ℕ) :
    (seqCpOrigin c i).value = c.pos i - c.shift i := by
  simp only [seqCpOrigin, posGet, getShift, bind_value, pure_value, ite_value]
  split
  · rfl
  · next h => rw [not_not.mp h, sub_zero]

end KvCache
