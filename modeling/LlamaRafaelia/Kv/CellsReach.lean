import LlamaRafaelia.Kv.CellsInvariant

/-!
# Every reachable KV cells object is consistent

`CellsReach` lists how a `llama_kv_cells` object can come about: `resize(n)`, and then any mutator called with its
assertions met.  A `cp` copies `pos`, `ext` and `seq` alone and is not consistent itself; only the cells it carries
are looked at (`CellsOk`).
-/

namespace KvCells

open Checked Finset

variable {c other : KvCells} {i : ℕ} {g : ℕ → ℤ → ℕ}

/-! ### Objects whose cells are sound -/

/-- The part of the invariant that speaks about the cells alone. -/
structure CellsOk (c : KvCells) : Prop where
  seq_used : ∀ i < c.size, c.seq i ≠ ∅ → c.pos i ≠ -1
  seq_lt : ∀ i < c.size, ∀ s ∈ c.seq i, s < llamaMaxSeq
  pos_ok : ∀ i < c.size, c.pos i = -1 ∨ 0 ≤ c.pos i

theorem Sound.cellsOk (h : Sound g c) : CellsOk c := ⟨h.seq_used, h.seq_lt, h.pos_ok⟩

/-! ### `reset`, `reset_shift` and `resize` -/

theorem count_eq_zero_of_seq_empty (h : ∀ j < c.size, c.seq j = ∅) (s : ℕ) (p : ℤ) :
    c.count s p = 0 := by
  rw [count, card_eq_zero, filter_eq_empty_iff]
  intro j hj
  simp [h j (mem_range.mp hj)]

theorem reset_sound (c : KvCells) : Sound 0 c.reset where
  used_iff := by intro j; simp [reset, pos, KvCell.empty]
  seq_used := by intro j _ hne; exact absurd rfl hne
  seq_lt := by intro j _ s hs; simp [reset, seq, KvCell.empty] at hs
  tracks := by
    intro s _
    exact (CountMap.tracks_empty).congr fun p => (count_eq_zero_of_seq_empty (fun _ _ => rfl) s p).symm
  pos_ok := fun _ _ => Or.inl rfl

theorem resize_sound (n : ℕ) : Sound 0 (resize n) := reset_sound (resize n)

theorem resetShift_sound (h : Sound g c) : Sound g c.resetShift :=
  ⟨⟨h.used_iff, h.seq_used, h.seq_lt, h.tracks⟩, h.pos_ok⟩

/-! ### `cp` -/

/-- The cell a snapshot takes of `x`: everything but the shift. -/
def snap (x : KvCell) : KvCell := { x with shift := 0 }

theorem cpStep_cell (c res : KvCells) (idx j : ℕ) :
    (c.cpStep idx res j).value.cell
      = Function.update res.cell j { c.cell idx with shift := res.shift j } := rfl

theorem cpLoop_cell (c : KvCells) (n : ℕ) (idx : ℕ → ℕ) :
    let res := (loopRange n (fun res j => c.cpStep (idx j) res j) (resize n)).value
    res.size = n ∧ ∀ j, res.cell j = if j < n then snap (c.cell (idx j)) else KvCell.empty := by
  refine loopRange_value_rule
    (fun k (res : KvCells) => res.size = n ∧
      ∀ j, res.cell j = if j < k then snap (c.cell (idx j)) else KvCell.empty) n
    ⟨rfl, fun j => rfl⟩ ?_
  rintro k res hk ⟨hsize, hcell⟩
  refine ⟨hsize, fun j => ?_⟩
  rw [cpStep_cell]
  by_cases hj : j = k
  · subst hj
    have hsh : res.shift j = 0 := by
      rw [shift, hcell j, if_neg (Nat.lt_irrefl j)]
      rfl
    rw [Function.update_self, if_pos (Nat.lt_succ_self j), hsh]
    rfl
  · rw [Function.update_of_ne hj, hcell j]
    have : j < k ↔ j < k + 1 := by omega
    simp only [this]

theorem cpRange_cell (c : KvCells) (i n : ℕ) :
    (c.cpRange i n).value.size = n ∧ ∀ j < n, (c.cpRange i n).value.cell j = snap (c.cell (i + j)) := by
  obtain ⟨hsize, hcell⟩ := cpLoop_cell c n (fun j => i + j)
  exact ⟨hsize, fun j hj => (hcell j).trans (if_pos hj)⟩

theorem cpIdxs_cell (c : KvCells) (idxs : List ℕ) :
    (c.cpIdxs idxs).value.size = idxs.length ∧
      ∀ j < idxs.length, (c.cpIdxs idxs).value.cell j = snap (c.cell (idxs.getD j 0)) := by
  obtain ⟨hsize, hcell⟩ := cpLoop_cell c idxs.length (fun j => idxs.getD j 0)
  exact ⟨hsize, fun j hj => (hcell j).trans (if_pos hj)⟩

theorem cellsOk_of_snap (h : CellsOk c) {n : ℕ} {idx : ℕ → ℕ} (hsize : other.size = n)
    (hcell : ∀ j < n, other.cell j = snap (c.cell (idx j))) (hidx : ∀ j < n, idx j < c.size) :
    CellsOk other := by
  have key : ∀ j < other.size, other.pos j = c.pos (idx j) ∧ other.seq j = c.seq (idx j) := by
    intro j hj
    simp only [pos, seq, hcell j (hsize ▸ hj), snap, and_self]
  refine ⟨fun j hj => ?_, fun j hj => ?_, fun j hj => ?_⟩
  · rw [(key j hj).1, (key j hj).2]
    exact h.seq_used _ (hidx j (hsize ▸ hj))
  · rw [(key j hj).2]
    exact h.seq_lt _ (hidx j (hsize ▸ hj))
  · rw [(key j hj).1]
    exact h.pos_ok _ (hidx j (hsize ▸ hj))

theorem cpRange_cellsOk (h : CellsOk c) {n : ℕ} (hok : (c.cpRange i n).asserts = true) :
    CellsOk (c.cpRange i n).value := by
  obtain ⟨hsize, hcell⟩ := cpRange_cell c i n
  simp only [cpRange, bind_asserts, assert_asserts, Bool.and_eq_true,
    decide_eq_true_eq] at hok
  exact cellsOk_of_snap h hsize hcell fun j hj => by omega

theorem cpIdxs_cellsOk (h : CellsOk c) {idxs : List ℕ} (hok : (c.cpIdxs idxs).asserts = true) :
    CellsOk (c.cpIdxs idxs).value := by
  obtain ⟨hsize, hcell⟩ := cpIdxs_cell c idxs
  refine cellsOk_of_snap h hsize hcell
    (loopRange_asserts_step (fun _ => True) trivial (fun _ _ _ => trivial) ?_ hok)
  intro res j _ hj
  simp only [cpStep, bind_asserts, assert_asserts, Bool.and_eq_true,
    decide_eq_true_eq] at hj
  exact hj.1

/-! ### `set` -/

/-- The cell that one iteration of `set` leaves: `y` of the snapshot, with the old shift. -/
def setStepCell (x y : KvCell) : KvCell := { y with shift := x.shift }

theorem setTake_cell (c : KvCells) (idx : ℕ) : (c.setTake idx).value.cell = c.cell := by
  unfold setTake
  split <;> rfl

theorem setTake_size (c : KvCells) (idx : ℕ) : (c.setTake idx).value.size = c.size := by
  unfold setTake
  split <;> rfl

theorem setStep_value (c other : KvCells) (idx j : ℕ) :
    (c.setStep other idx j).value =
      let used :=
        if c.pos idx = -1 ∧ other.pos j ≠ -1 then insert idx c.used
        else if c.pos idx ≠ -1 ∧ other.pos j = -1 then c.used.erase idx
        else c.used
      let c2 := ({ (c.setTake idx).value with used := used }).setCell idx
        (setStepCell (c.cell idx) (other.cell j))
      if other.pos j ≠ -1 then c2.seqPosAdd idx else c2 := by
  have hshift : ∀ u, ({ (c.setTake idx).value with used := u } : KvCells).shift idx
      = c.shift idx := by
    intro u
    show ((c.setTake idx).value.cell idx).shift = _
    rw [setTake_cell]
    rfl
  simp only [setStep, bind_value, pure_value, hshift]
  simp only [pos, setCell_cell, Function.update_self]
  rfl

theorem setStep_cell (c other : KvCells) (idx j : ℕ) :
    (c.setStep other idx j).value.cell
      = Function.update c.cell idx (setStepCell (c.cell idx) (other.cell j)) := by
  rw [setStep_value, ← setTake_cell c idx]
  dsimp only
  split <;> rfl

@[simp] theorem setStep_size (c other : KvCells) (idx j : ℕ) :
    (c.setStep other idx j).value.size = c.size := by
  rw [setStep_value, ← setTake_size c idx]
  dsimp only
  split <;> rfl

theorem setTake_tracks (h : Counted g c) {idx s : ℕ} (hi : idx < c.size) (hs : s < llamaMaxSeq) :
    ((c.setTake idx).value.seqPos s).Tracks (restCount g c idx s) := by
  by_cases hp : c.pos idx = -1
  · -- an empty cell holds no sequence, so there is nothing to take out
    have he : (c.cell idx).seq = ∅ := not_not.mp fun hne => h.seq_used idx hi hne hp
    rw [setTake, if_neg (not_not.mpr hp)]
    exact (h.tracks s hs).congr fun p => by rw [restCount_eq hi, ind_of_seq_empty he, Nat.add_zero]
  · rw [setTake, if_pos hp]
    exact seqPosRm_tracks h hi hs

theorem setStep_counted (h : Counted g c) {idx j : ℕ} (hi : idx < c.size)
    (hu : other.seq j ≠ ∅ → other.pos j ≠ -1) (hlt : ∀ s ∈ other.seq j, s < llamaMaxSeq) :
    Counted g (c.setStep other idx j).value := by
  refine h.of_update hi (setStep_size c other idx j) (setStep_cell c other idx j) ?_ hu hlt ?_
  · intro k
    have hused : (c.setStep other idx j).value.used
        = if c.pos idx = -1 ∧ other.pos j ≠ -1 then insert idx c.used
          else if c.pos idx ≠ -1 ∧ other.pos j = -1 then c.used.erase idx else c.used := by
      rw [setStep_value]
      dsimp only
      split <;> rfl
    rw [hused]
    by_cases hp : c.pos idx = -1 <;> by_cases hq : other.pos j = -1
    · -- empty before and after
      rw [if_neg (by simp [hq]), if_neg (by simp [hp])]
      by_cases hk : k = idx
      · simp [hk, h.used_iff, hp, setStepCell, show (other.cell j).pos = -1 from hq]
      · rw [if_neg hk]
    · rw [if_pos ⟨hp, hq⟩]
      exact used_insert (x := setStepCell (c.cell idx) (other.cell j)) hq k
    · rw [if_neg (by simp [hp]), if_pos ⟨hp, hq⟩]
      exact used_erase (x := setStepCell (c.cell idx) (other.cell j)) hq k
    · rw [if_neg (by simp [hp]), if_neg (by simp [hq])]
      exact used_keep (x := setStepCell (c.cell idx) (other.cell j)) h hi hp hq k
  · intro t ht
    have htaken := setTake_tracks h hi ht
    rw [setStep_value]
    dsimp only
    split
    · have hadd := seqPosAdd_tracks (i := idx)
        (c := (c.setTake idx).value.setCell idx (setStepCell (c.cell idx) (other.cell j))) ht htaken
      simp only [setCell_cell, Function.update_self] at hadd
      exact hadd
    · next hq =>
      have he : other.seq j = ∅ := not_not.mp fun hne => hq (hu hne)
      refine htaken.congr fun p => ?_
      rw [ind_of_seq_empty (x := setStepCell (c.cell idx) (other.cell j)) he, Nat.add_zero]

theorem setStep_sound (h : Sound g c) (ho : CellsOk other) {idx j : ℕ} (hi : idx < c.size)
    (hj : j < other.size) : Sound g (c.setStep other idx j).value :=
  h.of_update (setStep_counted h.toCounted hi (ho.seq_used j hj) (ho.seq_lt j hj))
    (setStep_size c other idx j) (setStep_cell c other idx j) fun _ => ho.pos_ok j hj

theorem setLoop_sound (h : Sound g c) (ho : CellsOk other) (idx : ℕ → ℕ)
    (hidx : ∀ j < other.size, idx j < c.size) :
    Sound g (loopRange other.size (fun c j => c.setStep other (idx j) j) c).value := by
  have hinv := loopRange_value_rule (f := fun c j => KvCells.setStep c other (idx j) j)
    (fun _ (d : KvCells) => Sound g d ∧ d.size = c.size) other.size ⟨h, rfl⟩ ?_
  · exact hinv.1
  · rintro j d hj ⟨hd, hsize⟩
    exact ⟨setStep_sound hd ho (hsize ▸ hidx j hj) hj, (setStep_size ..).trans hsize⟩

theorem setRange_sound (h : Sound g c) (ho : CellsOk other)
    (hok : (c.setRange i other).asserts = true) : Sound g (c.setRange i other).value := by
  simp only [setRange, bind_asserts, assert_asserts, Bool.and_eq_true,
    decide_eq_true_eq] at hok
  exact setLoop_sound h ho _ fun j hj => by omega

theorem setStep_asserts_lt {idx j : ℕ} (hok : (c.setStep other idx j).asserts = true) :
    idx < c.size := by
  simp only [setStep, bind_asserts, assert_asserts, Bool.and_eq_true,
    decide_eq_true_eq] at hok
  exact hok.1

theorem setIdxs_sound (h : Sound g c) (ho : CellsOk other) {idxs : List ℕ}
    (hok : (c.setIdxs idxs other).asserts = true) : Sound g (c.setIdxs idxs other).value := by
  simp only [setIdxs, bind_asserts, assert_asserts, Bool.and_eq_true,
    decide_eq_true_eq] at hok
  -- the size never changes, so the assertion of each iteration bounds its index by `c.size`
  refine setLoop_sound h ho _ (loopRange_asserts_step (fun d => d.size = c.size) rfl
    (fun d j hd => (setStep_size ..).trans hd) ?_ hok.2)
  intro d j hd hj
  exact hd ▸ setStep_asserts_lt hj

/-! ### Reachable objects -/

/-- What `set` is given: an object, or a `cp` of it. -/
def SnapshotOf (o other : KvCells) : Prop :=
  other = o ∨
  (∃ i n, (o.cpRange i n).asserts = true ∧ other = (o.cpRange i n).value) ∨
  (∃ idxs, (o.cpIdxs idxs).asserts = true ∧ other = (o.cpIdxs idxs).value)

theorem SnapshotOf.cellsOk {o : KvCells} (h : SnapshotOf o other) (ho : Sound g o) :
    CellsOk other := by
  rcases h with rfl | ⟨i, n, hok, rfl⟩ | ⟨idxs, hok, rfl⟩
  · exact ho.cellsOk
  · exact cpRange_cellsOk ho.cellsOk hok
  · exact cpIdxs_cellsOk ho.cellsOk hok

/-- The objects reached from `resize(n)` by calls that meet their assertions. -/
inductive CellsReach : KvCells → Prop
  | resize (n : ℕ) : CellsReach (resize n)
  | reset {c : KvCells} : CellsReach c → CellsReach c.reset
  | resetShift {c : KvCells} : CellsReach c → CellsReach c.resetShift
  | setRange {c o other : KvCells} {i : ℕ} : CellsReach c → CellsReach o → SnapshotOf o other →
      (c.setRange i other).asserts = true → CellsReach (c.setRange i other).value
  | setIdxs {c o other : KvCells} {idxs : List ℕ} : CellsReach c → CellsReach o →
      SnapshotOf o other → (c.setIdxs idxs other).asserts = true → CellsReach (c.setIdxs idxs other).value
  | rm {c : KvCells} {i : ℕ} : CellsReach c → (c.rm i).asserts = true → CellsReach (c.rm i).value
  | seqRm {c : KvCells} {i s : ℕ} : CellsReach c → (c.seqRm i s).asserts = true →
      CellsReach (c.seqRm i s).value.1
  | seqKeep {c : KvCells} {i s : ℕ} : CellsReach c → (c.seqKeep i s).asserts = true →
      CellsReach (c.seqKeep i s).value.1
  | seqAdd {c : KvCells} {i s : ℕ} : CellsReach c → (c.seqAdd i s).asserts = true →
      CellsReach (c.seqAdd i s).value
  | posSet {c : KvCells} {i : ℕ} {p : ℤ} : CellsReach c → 0 ≤ p → (c.posSet i p).asserts = true →
      CellsReach (c.posSet i p).value
  | extSet {c : KvCells} {i : ℕ} {e : KvCellExt} : CellsReach c →
      (c.extSet i e).asserts = true → CellsReach (c.extSet i e).value
  | posAdd {c : KvCells} {i : ℕ} {d : ℤ} : CellsReach c → (c.posAdd i d).asserts = true →
      CellsReach (c.posAdd i d).value.1
  | posDiv {c : KvCells} {i : ℕ} {d : ℤ} : CellsReach c → 1 ≤ d → (c.posDiv i d).asserts = true →
      CellsReach (c.posDiv i d).value

theorem cellsReach_sound (h : CellsReach c) : Sound 0 c := by
  induction h with
  | resize n => exact resize_sound n
  | reset _ _ => exact reset_sound _
  | resetShift _ ih => exact resetShift_sound ih
  | setRange _ _ hsnap hok ih iho => exact setRange_sound ih (hsnap.cellsOk iho) hok
  | setIdxs _ _ hsnap hok ih iho => exact setIdxs_sound ih (hsnap.cellsOk iho) hok
  | rm _ hok ih =>
    obtain ⟨hi, -⟩ := (rm_asserts ih.toCounted).mp hok
    exact rm_sound ih hi
  | seqRm _ hok ih =>
    obtain ⟨hi, hs, hm, -⟩ := (seqRm_asserts ih.toCounted).mp hok
    exact seqRm_sound ih hi hs hm
  | seqKeep _ hok ih =>
    obtain ⟨hi, hs, -⟩ := (seqKeep_asserts ih.toCounted).mp hok
    exact seqKeep_sound ih hi hs
  | seqAdd _ hok ih =>
    obtain ⟨hi, hs, hp, hm⟩ := (seqAdd_asserts _ _ _).mp hok
    exact seqAdd_sound ih hi hs hp hm
  | posSet _ hp hok ih =>
    obtain ⟨hi, -, he⟩ := (posSet_asserts _ _ _).mp hok
    exact posSet_sound ih hi hp he
  | @extSet c i e _ hok ih =>
    simp only [extSet, bind_asserts, assert_asserts, pure_asserts,
      Bool.and_true, decide_eq_true_eq] at hok
    exact extSet_sound ih hok e
  | posAdd _ hok ih =>
    obtain ⟨hi, hp⟩ := (posAdd_asserts ih.toCounted _).mp hok
    exact posAdd_sound ih hi hp _
  | posDiv _ hd hok ih =>
    obtain ⟨hi, hp⟩ := (posDiv_asserts ih.toCounted _).mp hok
    exact posDiv_sound ih hi hp hd

/-! ### What the accessors report -/

def usedSet (c : KvCells) : Set ℕ := {i | i < c.size ∧ c.pos i ≠ -1}

/-- The positions at which some cell holds sequence `s`. -/
def positions (c : KvCells) (s : ℕ) : Set ℤ := {p | ∃ i < c.size, c.pos i = p ∧ s ∈ c.seq i}

/-- The accessors of the redundant views report the truth about the cells. -/
structure Reports (c : KvCells) : Prop where
  getUsed : c.getUsed = ((range c.size).filter fun i => c.pos i ≠ -1).card
  usedMin_none : c.usedSet = ∅ → c.usedMin = 0
  usedMin_some : c.usedSet.Nonempty → IsLeast c.usedSet c.usedMin
  usedMaxP1_none : c.usedSet = ∅ → c.usedMaxP1 = 0
  usedMaxP1_some : c.usedSet.Nonempty → ∃ m, IsGreatest c.usedSet m ∧ c.usedMaxP1 = m + 1
  seqPosMin_none : ∀ s < llamaMaxSeq, c.positions s = ∅ → (c.seqPosMin s).value = -1
  seqPosMin_some : ∀ s < llamaMaxSeq, (c.positions s).Nonempty →
    IsLeast (c.positions s) (c.seqPosMin s).value
  seqPosMax_none : ∀ s < llamaMaxSeq, c.positions s = ∅ → (c.seqPosMax s).value = -1
  seqPosMax_some : ∀ s < llamaMaxSeq, (c.positions s).Nonempty →
    IsGreatest (c.positions s) (c.seqPosMax s).value

theorem Synced.coe_used (h : Synced c) : (c.used : Set ℕ) = c.usedSet := by
  ext j
  exact h.used_iff j

theorem Synced.coe_keys (h : Synced c) {s : ℕ} (hs : s < llamaMaxSeq) :
    ((c.seqPos s).keys : Set ℤ) = c.positions s := by
  ext p
  rw [mem_coe, (h.tracks s hs).mem_keys, count, card_pos]
  simp only [Finset.Nonempty, mem_filter, mem_range, positions, Set.mem_ofPred_eq]

theorem Synced.keys_empty_iff (h : Synced c) {s : ℕ} (hs : s < llamaMaxSeq) :
    (c.seqPos s).keys = ∅ ↔ c.positions s = ∅ := by
  rw [← h.coe_keys hs, coe_eq_empty]

theorem Synced.keys_nonempty_iff (h : Synced c) {s : ℕ} (hs : s < llamaMaxSeq) :
    (c.seqPos s).keys.Nonempty ↔ (c.positions s).Nonempty := by
  rw [← h.coe_keys hs, coe_nonempty]

theorem Synced.reports (h : Synced c) : Reports c where
  getUsed := by
    have : c.used = (range c.size).filter fun i => c.pos i ≠ -1 := by
      ext j
      rw [h.used_iff j, mem_filter, mem_range]
    rw [KvCells.getUsed, this]
  usedMin_none := by
    intro he
    rw [← h.coe_used, coe_eq_empty] at he
    rw [usedMin, he]
    rfl
  usedMin_some := by
    intro hne
    rw [← h.coe_used, coe_nonempty] at hne
    rw [← h.coe_used, usedMin, ← coe_min' hne]
    exact c.used.isLeast_min' hne
  usedMaxP1_none := by
    intro he
    rw [← h.coe_used, coe_eq_empty] at he
    rw [usedMaxP1, if_pos he]
  usedMaxP1_some := by
    intro hne
    rw [← h.coe_used, coe_nonempty] at hne
    refine ⟨c.used.max' hne, h.coe_used ▸ c.used.isGreatest_max' hne, ?_⟩
    rw [usedMaxP1, if_neg hne.ne_empty, ← coe_max' hne]
    rfl
  seqPosMin_none := by
    intro s hs he
    exact CountMap.firstKey_of_empty (-1) ((h.keys_empty_iff hs).mpr he)
  seqPosMin_some := by
    intro s hs hne
    rw [← h.coe_keys hs]
    exact CountMap.firstKey_isLeast (-1) ((h.keys_nonempty_iff hs).mpr hne)
  seqPosMax_none := by
    intro s hs he
    exact CountMap.lastKey_of_empty (-1) ((h.keys_empty_iff hs).mpr he)
  seqPosMax_some := by
    intro s hs hne
    rw [← h.coe_keys hs]
    exact CountMap.lastKey_isGreatest (-1) ((h.keys_nonempty_iff hs).mpr hne)

/-- **Every reachable object is consistent and reports the truth.**  In whatever order the mutators
are called, under their preconditions, the two redundant views agree with the cells. -/
theorem cellsReach_consistent_reports (c : KvCells) (h : CellsReach c) :
    Consistent c ∧ Reports c :=
  have hc : Consistent c := (consistent_iff_sound).mpr (cellsReach_sound h)
  ⟨hc, hc.toSynced.reports⟩

/-- One cell at position `4` that holds the sequences `0` and `2`. -/
theorem cellsReach_consistent_reports_shared :
    Consistent ((((resize 2).posSet 1 4).value.seqAdd 1 0).value.seqAdd 1 2).value ∧
      Reports ((((resize 2).posSet 1 4).value.seqAdd 1 0).value.seqAdd 1 2).value :=
  cellsReach_consistent_reports _
    (.seqAdd (.seqAdd (.posSet (.resize 2) (by decide) (by decide)) (by decide)) (by decide))

end KvCells
