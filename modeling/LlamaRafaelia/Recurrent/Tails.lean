import LlamaRafaelia.Recurrent.Memory
import Mathlib.Tactic.Ring

/-!
# The tail table

`Exact`: the tail of a sequence is the only cell that holds it, a cell has a position exactly if it holds a sequence,
and `used` counts these cells.  `seq_rm` of all sequences empties the cells and forgets the tails.  `CellLoop` is what
the loops over the cells have in common.
-/

namespace Recurrent

open Finset KvCache

variable {st : Recurrent}

/-- The tail table is exact. -/
structure Exact (st : Recurrent) : Prop where
  tail_iff : ∀ s < st.size, ∀ t, st.tail s = some t ↔ t < st.size ∧ s ∈ st.seqId t
  seq_lt : ∀ t < st.size, ∀ s ∈ st.seqId t, s < st.size
  pos_iff : ∀ t < st.size, 0 ≤ st.pos t ↔ st.seqId t ≠ ∅
  used_eq : st.used = st.countUsed

theorem Exact.unique (h : Exact st) {s t t' : ℕ} (ht : t < st.size) (ht' : t' < st.size)
    (hs : s ∈ st.seqId t) (hs' : s ∈ st.seqId t') : t = t' := by
  have hlt := h.seq_lt t ht s hs
  have h1 := (h.tail_iff s hlt t).mpr ⟨ht, hs⟩
  have h2 := (h.tail_iff s hlt t').mpr ⟨ht', hs'⟩
  exact Option.some.inj (h1.symm.trans h2)

/-! ### Changing one cell -/

@[simp] theorem modify_size (i : ℕ) (f : MemCell → MemCell) : (st.modify i f).size = st.size := rfl

@[simp] theorem modify_used (i : ℕ) (f : MemCell → MemCell) : (st.modify i f).used = st.used := rfl

theorem countUsed_eq_card (st : Recurrent) :
    st.countUsed = ((range st.size).filter fun i => st.seqId i ≠ ∅).card := by
  have hfilter : ((List.range st.size).filter fun i => st.seqId i ≠ ∅).toFinset
      = (range st.size).filter fun i => st.seqId i ≠ ∅ := by
    ext i
    simp only [List.mem_toFinset, List.mem_filter, List.mem_range, mem_filter, mem_range,
      decide_eq_true_eq]
  rw [countUsed, ← hfilter, List.toFinset_card_of_nodup (List.nodup_range.filter _)]

theorem countUsed_congr {st' : Recurrent} (hsize : st'.size = st.size)
    (h : ∀ t < st.size, st'.seqId t = ∅ ↔ st.seqId t = ∅) : st'.countUsed = st.countUsed := by
  rw [countUsed_eq_card, countUsed_eq_card, hsize]
  congr 1
  refine filter_congr fun t ht => ?_
  rw [Ne, Ne, h t (mem_range.mp ht)]

theorem countUsed_emptied {st' : Recurrent} (hsize : st'.size = st.size) {i : ℕ} (hi : i < st.size)
    (hold : st.seqId i ≠ ∅) (hnew : st'.seqId i = ∅) (h : ∀ t < st.size, t ≠ i → st'.seqId t = st.seqId t) :
    st'.countUsed = decr32 st.countUsed := by
  have hset : ((range st.size).filter fun t => st'.seqId t ≠ ∅)
      = ((range st.size).filter fun t => st.seqId t ≠ ∅).erase i := by
    ext t
    simp only [mem_filter, mem_range, mem_erase]
    by_cases ht : t = i
    · subst ht
      simp [hnew]
    · constructor
      · rintro ⟨hlt, hne⟩
        exact ⟨ht, hlt, h t hlt ht ▸ hne⟩
      · rintro ⟨-, hlt, hne⟩
        exact ⟨hlt, (h t hlt ht).symm ▸ hne⟩
  have hmem : i ∈ (range st.size).filter fun t => st.seqId t ≠ ∅ :=
    mem_filter.mpr ⟨mem_range.mpr hi, hold⟩
  have hpos := card_pos.mpr ⟨i, hmem⟩
  rw [countUsed_eq_card, countUsed_eq_card, hsize, hset, card_erase_of_mem hmem, decr32,
    if_neg (by omega)]

/-! ### Loops over the cells -/

/-- The loop body `step` replaces the cell it visits by `f` of it and counts the cells that it empties. -/
structure CellLoop (step : Recurrent × ℕ → ℕ → Recurrent × ℕ) (f : ℕ → MemCell → MemCell) : Prop where
  step_eq : ∀ x i, (0 ≤ (x.1.cells i).pos ↔ x.1.seqId i ≠ ∅) → (step x i).1 =
    { x.1.modify i (f i) with
      used := if x.1.seqId i ≠ ∅ ∧ (f i (x.1.cells i)).seqId = ∅ then decr32 x.1.used else x.1.used }
  subset : ∀ i c, (f i c).seqId ⊆ c.seqId
  pos_iff : ∀ i c, (0 ≤ c.pos ↔ c.seqId ≠ ∅) → (0 ≤ (f i c).pos ↔ (f i c).seqId ≠ ∅)

/-- What a loop over the first `k` cells has done. -/
structure CellLoop.Done (f : ℕ → MemCell → MemCell) (st : Recurrent) (k : ℕ) (st' : Recurrent) : Prop where
  size : st'.size = st.size
  cells : ∀ i, st'.cells i = if i < k then f i (st.cells i) else st.cells i
  used : st'.used = st'.countUsed
  head : st'.head = st.head

theorem CellLoop.run {step : Recurrent × ℕ → ℕ → Recurrent × ℕ} {f : ℕ → MemCell → MemCell}
    (h : CellLoop step f) (hpos : ∀ t < st.size, 0 ≤ st.pos t ↔ st.seqId t ≠ ∅)
    (hused : st.used = st.countUsed) (m : ℕ) (k : ℕ) (hk : k ≤ st.size) :
    CellLoop.Done f st k ((List.range k).foldl step (st, m)).1 := by
  induction k with
  | zero => exact ⟨rfl, fun i => by simp, hused, rfl⟩
  | succ k ih =>
    obtain ⟨hsize, hcells, hused', hhead⟩ := ih (by omega)
    rw [List.range_succ, List.foldl_append, List.foldl_cons, List.foldl_nil]
    set x := (List.range k).foldl step (st, m) with hx
    have hcell : x.1.cells k = st.cells k := by rw [hcells, if_neg (lt_irrefl k)]
    have hposk : 0 ≤ (x.1.cells k).pos ↔ x.1.seqId k ≠ ∅ := by
      rw [seqId, hcell]
      exact hpos k (by omega)
    rw [h.step_eq x k hposk]
    have hother : ∀ t, t ≠ k → (x.1.modify k (f k)).seqId t = x.1.seqId t := by
      intro t ht
      rw [seqId, modify_cells, if_neg ht]
      rfl
    have hself : (x.1.modify k (f k)).seqId k = (f k (x.1.cells k)).seqId := by
      rw [seqId, modify_cells, if_pos rfl]
    refine ⟨hsize, fun i => ?_, ?_, hhead⟩
    · show (x.1.modify k (f k)).cells i = _
      rw [modify_cells]
      rcases lt_trichotomy i k with hlt | rfl | hgt
      · rw [if_neg hlt.ne, hcells, if_pos hlt, if_pos (by omega)]
      · rw [if_pos rfl, hcell, if_pos (by omega)]
      · rw [if_neg hgt.ne', hcells, if_neg (by omega), if_neg (by omega)]
    · show (if _ then _ else _) = (x.1.modify k (f k)).countUsed
      split
      · next hemptied =>
        have hcount : (x.1.modify k (f k)).countUsed = decr32 x.1.countUsed :=
          countUsed_emptied rfl (by omega) hemptied.1 (hself.trans hemptied.2) fun t _ ht => hother t ht
        rw [hused', hcount]
      · next hkept =>
        have hcount : (x.1.modify k (f k)).countUsed = x.1.countUsed := by
          refine countUsed_congr rfl fun t _ => ?_
          by_cases ht : t = k
          · subst ht
            rw [hself]
            refine ⟨fun hnew => ?_, fun hold => ?_⟩
            · by_contra hold
              exact hkept ⟨hold, hnew⟩
            · exact subset_empty.mp (hold ▸ h.subset t (x.1.cells t))
          · rw [hother t ht]
        rw [hused', hcount]

theorem CellLoop.exact {step : Recurrent × ℕ → ℕ → Recurrent × ℕ} {f : ℕ → MemCell → MemCell}
    (h : CellLoop step f) (hpos : ∀ t < st.size, 0 ≤ st.pos t ↔ st.seqId t ≠ ∅)
    (hused : st.used = st.countUsed) :
    let st' := moveHead ((List.range st.size).foldl step (st, st.size))
    st'.size = st.size ∧ (∀ i < st.size, st'.cells i = f i (st.cells i)) ∧ st'.used = st'.countUsed ∧
      ∀ t < st.size, 0 ≤ st'.pos t ↔ st'.seqId t ≠ ∅ := by
  intro st'
  obtain ⟨hsize, hcells, hused', -⟩ := h.run hpos hused st.size st.size (le_refl _)
  have heq : st'.size = st.size ∧ (∀ i < st.size, st'.cells i = f i (st.cells i)) ∧
      st'.used = st'.countUsed := by
    show (moveHead _).size = _ ∧ (∀ i < st.size, (moveHead _).cells i = _) ∧
      (moveHead _).used = (moveHead _).countUsed
    unfold moveHead
    split
    · exact ⟨hsize, fun i hi => by rw [hcells, if_pos hi], hused'⟩
    · exact ⟨hsize, fun i hi => by rw [hcells, if_pos hi], hused'⟩
  refine ⟨heq.1, heq.2.1, heq.2.2, fun t ht => ?_⟩
  rw [pos, seqId, heq.2.1 t ht]
  exact h.pos_iff t _ (hpos t ht)

theorem CellLoop.head_le {step : Recurrent × ℕ → ℕ → Recurrent × ℕ} {f : ℕ → MemCell → MemCell}
    (h : CellLoop step f) (hpos : ∀ t < st.size, 0 ≤ st.pos t ↔ st.seqId t ≠ ∅)
    (hused : st.used = st.countUsed) :
    (moveHead ((List.range st.size).foldl step (st, st.size))).head ≤ st.head := by
  obtain ⟨-, -, -, hhead⟩ := h.run hpos hused st.size st.size (le_refl _)
  unfold moveHead
  split
  · next hmove => exact hhead ▸ hmove.2.le
  · exact hhead.le

/-! ### `clear` -/

theorem Exact.of_empty (htail : ∀ s, st.tail s = none) (hseq : ∀ t, st.seqId t = ∅)
    (hpos : ∀ t, st.pos t = -1) (hused : st.used = 0) : Exact st := by
  refine ⟨fun s _ t => ?_, fun t _ s hs => ?_, fun t _ => ?_, ?_⟩
  · simp [htail, hseq]
  · simp [hseq] at hs
  · simp [hseq, hpos]
  · rw [hused, countUsed_eq_card]
    simp [hseq]

theorem new_exact (memSize : ℕ) : Exact (new memSize) :=
  Exact.of_empty (fun _ => rfl) (fun _ => rfl) (fun _ => rfl) rfl

theorem clear_exact (st : Recurrent) : Exact st.clear :=
  Exact.of_empty (fun _ => rfl) (fun _ => rfl) (fun _ => rfl) rfl

/-! ### `seq_rm` -/

/-- What `seq_rm` makes of a cell. -/
def rmCell (id p0 p1 : ℤ) (c : MemCell) : MemCell :=
  if (p0 ≤ c.pos ∧ c.pos < p1) ∧ (id < 0 ∨ c.hasSeqId id) then
    if c.without id = ∅ then { c with seqId := ∅, pos := -1, src := none }
    else { c with seqId := c.without id }
  else c

theorem rmCell_tail (id p0 p1 : ℤ) (c : MemCell) : (rmCell id p0 p1 c).tail = c.tail := by
  unfold rmCell
  split
  · split
    · rfl
    · rfl
  · rfl

theorem rmCell_seqId (id p0 p1 : ℤ) (c : MemCell) :
    (rmCell id p0 p1 c).seqId = if p0 ≤ c.pos ∧ c.pos < p1 then c.without id else c.seqId := by
  unfold rmCell
  split
  · next h =>
    rw [if_pos h.1]
    split
    · next hnil => exact hnil.symm
    · rfl
  · next h =>
    split
    · next hin =>
      -- the sequence is not in the cell
      have hno : ¬ (id < 0 ∨ c.hasSeqId id = true) := fun hid => h ⟨hin, hid⟩
      rw [not_or, Int.not_lt] at hno
      rw [MemCell.without, if_neg (Int.not_lt.mpr hno.1), erase_eq_of_notMem]
      intro hmem
      exact hno.2 (by simp [MemCell.hasSeqId, hmem, hno.1])
    · rfl

theorem without_subset (id : ℤ) (c : MemCell) : c.without id ⊆ c.seqId := by
  unfold MemCell.without
  split
  · exact empty_subset _
  · exact erase_subset _ _

theorem modify_congr {i : ℕ} {f g : MemCell → MemCell} (h : f (st.cells i) = g (st.cells i)) :
    st.modify i f = st.modify i g := by
  rw [modify, modify, h]

theorem modify_self {i : ℕ} {f : MemCell → MemCell} (h : f (st.cells i) = st.cells i) :
    st.modify i f = st := by
  rw [modify, h, Function.update_eq_self]

theorem seqRm_loop (id : ℤ) {p0 : ℤ} (hp0 : 0 ≤ p0) (p1 : ℤ) :
    CellLoop (seqRmCell id p0 p1) fun _ => rmCell id p0 p1 := by
  refine ⟨fun x i hpos => ?_, fun i c => ?_, fun i c hpos => ?_⟩
  · by_cases hin : (p0 ≤ (x.1.cells i).pos ∧ (x.1.cells i).pos < p1) ∧
        (id < 0 ∨ (x.1.cells i).hasSeqId id = true)
    · have hne : x.1.seqId i ≠ ∅ := hpos.mp (by omega)
      by_cases hnil : (x.1.cells i).without id = ∅
      · have hcell : rmCell id p0 p1 (x.1.cells i) = { x.1.cells i with seqId := ∅, pos := -1, src := none } := by
          rw [rmCell, if_pos hin, if_pos hnil]
        have hpos' : 0 ≤ (x.1.cells i).pos := by omega
        rw [modify_congr (g := fun c => { c with seqId := ∅, pos := -1, src := none }) hcell, hcell]
        simp [seqRmCell, hin, hnil, hne, hpos']
      · have hcell : rmCell id p0 p1 (x.1.cells i)
            = { x.1.cells i with seqId := (x.1.cells i).without id } := by
          rw [rmCell, if_pos hin, if_neg hnil]
        rw [modify_congr (g := fun c => { c with seqId := c.without id }) hcell, hcell]
        simp [seqRmCell, hin, hnil]
        rfl
    · have hcell : rmCell id p0 p1 (x.1.cells i) = x.1.cells i := by rw [rmCell, if_neg hin]
      have hif : ¬ (x.1.seqId i ≠ ∅ ∧ (x.1.cells i).seqId = ∅) := fun h => h.1 h.2
      rw [modify_self hcell, hcell, if_neg hif, seqRmCell, if_neg hin]
  · rw [rmCell_seqId]
    split
    · exact without_subset id c
    · exact Finset.Subset.refl _
  · unfold rmCell
    split
    · next hin =>
      split
      · simp
      · next hnil => exact ⟨fun _ => hnil, fun _ => hp0.trans hin.1.1⟩
    · exact hpos

theorem seqRmCells_spec (hpos : ∀ t < st.size, 0 ≤ st.pos t ↔ st.seqId t ≠ ∅)
    (hused : st.used = st.countUsed) (id : ℤ) {p0 : ℤ} (hp0 : 0 ≤ p0) (p1 : ℤ) :
    let st' := st.seqRmCells id p0 p1
    st'.size = st.size ∧ (∀ i < st.size, st'.cells i = rmCell id p0 p1 (st.cells i)) ∧
      st'.used = st'.countUsed ∧ ∀ t < st.size, 0 ≤ st'.pos t ↔ st'.seqId t ≠ ∅ :=
  (seqRm_loop id hp0 p1).exact hpos hused

theorem rangeLo_nonneg (p0 : ℤ) : 0 ≤ rangeLo p0 := by
  unfold rangeLo
  split
  · exact le_refl 0
  · omega

theorem seqRmCells_exact {st₀ : Recurrent} (h : Exact st₀) {q : ℕ} {p0 p1 : ℤ} (hp0 : 0 ≤ p0)
    (hsize : st.size = st₀.size) (hused : st.used = st₀.used)
    (hcells : ∀ t, st.seqId t = st₀.seqId t ∧ st.pos t = st₀.pos t)
    (htail : ∀ s, s ≠ q → st.tail s = st₀.tail s)
    (htailq : ∀ t, st.tail q = some t ↔ st₀.tail q = some t ∧ ¬ (p0 ≤ st₀.pos t ∧ st₀.pos t < p1)) :
    Exact (st.seqRmCells q p0 p1) := by
  have hcount : st.countUsed = st₀.countUsed := countUsed_congr hsize fun t _ => by rw [(hcells t).1]
  have hpos : ∀ t < st.size, 0 ≤ st.pos t ↔ st.seqId t ≠ ∅ := by
    intro t ht
    rw [(hcells t).2, (hcells t).1]
    exact h.pos_iff t (hsize ▸ ht)
  obtain ⟨hsize', hcells', hused', hpos'⟩ :=
    seqRmCells_spec hpos (by rw [hused, h.used_eq, hcount]) (q : ℤ) hp0 p1
  have hseq : ∀ t < st.size, (st.seqRmCells q p0 p1).seqId t
      = if p0 ≤ st₀.pos t ∧ st₀.pos t < p1 then (st₀.seqId t).erase q else st₀.seqId t := by
    intro t ht
    have hwithout : (st.cells t).without q = (st₀.seqId t).erase q := by
      rw [MemCell.without, if_neg (by omega), Int.toNat_natCast, ← (hcells t).1]
      rfl
    rw [seqId, hcells' t ht, rmCell_seqId, hwithout, ← (hcells t).2, ← (hcells t).1]
    rfl
  have hsub : ∀ t < st.size, (st.seqRmCells q p0 p1).seqId t ⊆ st₀.seqId t := by
    intro t ht
    rw [hseq t ht]
    split
    · exact erase_subset _ _
    · exact Finset.Subset.refl _
  refine ⟨fun s hs t => ?_, fun t ht s hs => ?_, fun t ht => hpos' t (hsize' ▸ ht), hused'⟩
  · rw [hsize'] at hs
    have htail' : (st.seqRmCells q p0 p1).tail s = st.tail s := by
      rw [tail, hcells' s hs, rmCell_tail]
      rfl
    have hs₀ : s < st₀.size := hsize ▸ hs
    rw [htail', hsize']
    by_cases hsq : s = q
    · subst hsq
      rw [htailq, h.tail_iff s hs₀, ← hsize]
      constructor
      · rintro ⟨⟨ht, hmem⟩, hout⟩
        refine ⟨ht, ?_⟩
        rw [hseq t ht, if_neg hout]
        exact hmem
      · rintro ⟨ht, hmem⟩
        refine ⟨⟨ht, hsub t ht hmem⟩, fun hin => ?_⟩
        rw [hseq t ht, if_pos hin] at hmem
        exact notMem_erase s _ hmem
    · rw [htail s hsq, h.tail_iff s hs₀, ← hsize]
      refine and_congr_right fun ht => ?_
      rw [hseq t ht]
      split
      · rw [mem_erase]
        exact ⟨fun hmem => ⟨hsq, hmem⟩, fun hmem => hmem.2⟩
      · exact Iff.rfl
  · rw [hsize'] at ht ⊢
    rw [hsize]
    exact h.seq_lt t (hsize ▸ ht) s (hsub t ht hs)

theorem seqRmCells_all_exact (h : Exact st) {id p0 p1 : ℤ} (hp0 : 0 ≤ p0)
    (hnone : ∀ t < st.size, ¬ (p0 ≤ st.pos t ∧ st.pos t < p1)) :
    Exact (st.seqRmCells id p0 p1) := by
  obtain ⟨hsize, hcells, hused, hpos⟩ := seqRmCells_spec h.pos_iff h.used_eq id hp0 p1
  have hcell : ∀ t < st.size, (st.seqRmCells id p0 p1).cells t = st.cells t := by
    intro t ht
    rw [hcells t ht, rmCell, if_neg fun hin => hnone t ht hin.1]
  refine ⟨fun s hs t => ?_, fun t ht s hs => ?_, fun t ht => hpos t (hsize ▸ ht), hused⟩
  · rw [hsize] at hs ⊢
    rw [tail, hcell s hs]
    refine (h.tail_iff s hs t).trans (and_congr_right fun ht => ?_)
    rw [seqId, seqId, hcell t ht]
  · rw [hsize] at ht ⊢
    rw [seqId, hcell t ht] at hs
    exact h.seq_lt t ht s hs

/-- The condition on `seq_rm`: it does not remove all sequences, unless there is nothing to remove. -/
def RmSafe (st : Recurrent) (id p0 p1 : ℤ) : Prop :=
  id < 0 → rangeLo p0 = 0 → rangeHi p1 = llamaPosMax →
    ∀ t < st.size, ¬ (0 ≤ st.pos t ∧ st.pos t < llamaPosMax)

/-- **`seq_rm` keeps the tails exact** if it does not remove all sequences at once. -/
theorem seqRm_exact (h : Exact st) {id p0 p1 : ℤ} (hsafe : RmSafe st id p0 p1) :
    Exact (st.seqRm id p0 p1).2 := by
  have hp0 := rangeLo_nonneg p0
  unfold seqRm
  dsimp only
  split
  · exact h
  split
  · next hlarge hid =>
    obtain ⟨q, rfl⟩ : ∃ q : ℕ, id = q := ⟨id.toNat, by omega⟩
    rw [Int.toNat_natCast]
    cases htail : st.tail q with
    | none =>
      refine seqRmCells_exact h hp0 rfl rfl (fun t => ⟨rfl, rfl⟩) (fun s _ => rfl) fun t => ?_
      simp [htail]
    | some t =>
      dsimp only
      split
      · exact h
      split
      · next hin =>
        refine seqRmCells_exact h hp0 rfl rfl (fun t => ?_) (fun s hs => ?_) fun t' => ?_
        · simp
        · simp [hs]
        · rw [setTail_tail, if_pos rfl, htail]
          refine ⟨fun hnone => absurd hnone (by simp), fun hboth => ?_⟩
          obtain rfl := Option.some.inj hboth.1
          exact absurd hin hboth.2
      · next hout =>
        refine seqRmCells_exact h hp0 rfl rfl (fun t => ⟨rfl, rfl⟩) (fun s _ => rfl) fun t' => ?_
        rw [htail, Option.some.injEq]
        constructor
        · rintro rfl
          exact ⟨rfl, hout⟩
        · exact fun hboth => hboth.1
  · next hid =>
    split
    · exact h
    · next hrange =>
      refine seqRmCells_all_exact h hp0 fun t ht hin => ?_
      by_cases hsame : rangeLo p0 = rangeHi p1
      · omega
      · have hlo : rangeLo p0 = 0 := by
          by_contra hne
          exact hrange ⟨hsame, Or.inl hne⟩
        have hhi : rangeHi p1 = llamaPosMax := by
          by_contra hne
          exact hrange ⟨hsame, Or.inr hne⟩
        rw [hlo, hhi] at hin
        exact hsafe (by omega) hlo hhi t ht hin

/-! ### `seq_keep` -/

/-- What `seq_keep` makes of cell `i`. -/
def keepCell (id : ℤ) (i : ℕ) (c : MemCell) : MemCell :=
  let tail := if (i : ℤ) ≠ id then none else c.tail
  if ¬ c.hasSeqId id then { c with tail := tail, pos := -1, src := none, seqId := ∅ }
  else { c with tail := tail, seqId := {id.toNat} }

theorem keepCell_tail (id : ℤ) (i : ℕ) (c : MemCell) :
    (keepCell id i c).tail = if (i : ℤ) ≠ id then none else c.tail := by
  unfold keepCell
  dsimp only
  by_cases h : c.hasSeqId id = true
  · rw [if_neg (by simp [h])]
  · rw [if_pos (by simp [h])]

theorem keepCell_seqId (id : ℤ) (i : ℕ) (c : MemCell) :
    (keepCell id i c).seqId = if c.hasSeqId id then {id.toNat} else ∅ := by
  unfold keepCell
  dsimp only
  by_cases h : c.hasSeqId id = true
  · rw [if_neg (by simp [h]), if_pos h]
  · rw [if_pos (by simp [h]), if_neg h]

theorem hasSeqId_iff {c : MemCell} {id : ℤ} : c.hasSeqId id = true ↔ 0 ≤ id ∧ id.toNat ∈ c.seqId := by
  simp [MemCell.hasSeqId]

theorem seqKeep_loop (id : ℤ) : CellLoop (seqKeepCell id) (keepCell id) := by
  refine ⟨fun x i hpos => ?_, fun i c => ?_, fun i c hpos => ?_⟩
  · by_cases h : (x.1.cells i).hasSeqId id = true
    · have hcell : keepCell id i (x.1.cells i) = { x.1.cells i with
          tail := if (i : ℤ) ≠ id then none else (x.1.cells i).tail, seqId := {id.toNat} } := by
        rw [keepCell, if_neg (by simp [h])]
      rw [modify_congr (g := fun c => { c with
        tail := if (i : ℤ) ≠ id then none else (x.1.cells i).tail, seqId := {id.toNat} }) hcell, hcell]
      simp [seqKeepCell, h]
      rfl
    · have hcell : keepCell id i (x.1.cells i) = { x.1.cells i with
          tail := if (i : ℤ) ≠ id then none else (x.1.cells i).tail, pos := -1, src := none, seqId := ∅ } := by
        rw [keepCell, if_pos (by simp [h])]
      rw [modify_congr (g := fun c => { c with
        tail := if (i : ℤ) ≠ id then none else (x.1.cells i).tail, pos := -1, src := none, seqId := ∅ }) hcell,
        hcell]
      by_cases hne : x.1.seqId i = ∅
      · have hp : ¬ 0 ≤ (x.1.cells i).pos := fun hp => hpos.mp hp hne
        simp [seqKeepCell, h, hne, hp]
      · have hp : 0 ≤ (x.1.cells i).pos := hpos.mpr hne
        simp [seqKeepCell, h, hne, hp]
  · rw [keepCell_seqId]
    split
    · next h => exact singleton_subset_iff.mpr ((hasSeqId_iff).mp h).2
    · exact empty_subset _
  · rw [keepCell_seqId]
    unfold keepCell
    dsimp only
    by_cases h : c.hasSeqId id = true
    · rw [if_neg (by simp [h]), if_pos h]
      have hne : c.seqId ≠ ∅ := ne_empty_of_mem ((hasSeqId_iff).mp h).2
      exact ⟨fun _ => singleton_ne_empty _, fun _ => hpos.mpr hne⟩
    · rw [if_pos (by simp [h]), if_neg h]
      simp

theorem seqKeep_exact (h : Exact st) (id : ℤ) : Exact (st.seqKeep id) := by
  obtain ⟨hsize, hcells, hused, hpos⟩ := (seqKeep_loop id).exact h.pos_iff h.used_eq
  have hseq : ∀ t < st.size, (st.seqKeep id).seqId t
      = if (st.cells t).hasSeqId id then {id.toNat} else ∅ := by
    intro t ht
    rw [seqId, seqKeep, hcells t ht, keepCell_seqId]
  have hmem : ∀ t < st.size, ∀ s, s ∈ (st.seqKeep id).seqId t ↔ (s : ℤ) = id ∧ s ∈ st.seqId t := by
    intro t ht s
    rw [hseq t ht]
    split
    · next hid =>
      obtain ⟨hid0, hin⟩ := (hasSeqId_iff).mp hid
      rw [mem_singleton]
      constructor
      · rintro rfl
        exact ⟨by omega, hin⟩
      · intro hboth
        omega
    · next hid =>
      rw [hasSeqId_iff, not_and] at hid
      simp only [notMem_empty, false_iff, not_and]
      intro hs hin
      exact hid (by omega) (by rwa [← hs, Int.toNat_natCast])
  refine ⟨fun s hs t => ?_, fun t ht s hs => ?_, fun t ht => hpos t (hsize ▸ ht), hused⟩
  · have hs' : s < st.size := hsize ▸ hs
    have htail : (st.seqKeep id).tail s = if (s : ℤ) ≠ id then none else st.tail s := by
      rw [tail, seqKeep, hcells s hs', keepCell_tail]
      rfl
    have hsize' : (st.seqKeep id).size = st.size := hsize
    rw [htail, hsize']
    by_cases hid : (s : ℤ) = id
    · rw [if_neg (by simpa using hid), h.tail_iff s hs']
      refine and_congr_right fun ht => ?_
      rw [hmem t ht]
      exact ⟨fun hin => ⟨hid, hin⟩, fun hin => hin.2⟩
    · rw [if_pos hid]
      refine ⟨fun hnone => absurd hnone (by simp), fun hboth => ?_⟩
      exact absurd ((hmem t hboth.1 s).mp hboth.2).1 hid
  · have ht' : t < st.size := hsize ▸ ht
    have hsize' : (st.seqKeep id).size = st.size := hsize
    rw [hsize']
    exact h.seq_lt t ht' s ((hmem t ht' s).mp hs).2

/-! ### Taking a sequence out of its cell -/

/-- `st'` is `st` without the sequences in `gone`; cells that became empty are cleared. -/
structure Detached (st : Recurrent) (gone : Finset ℕ) (st' : Recurrent) : Prop where
  size : st'.size = st.size
  tail : ∀ s, st'.tail s = if s ∈ gone then none else st.tail s
  seqId : ∀ t < st.size, st'.seqId t = st.seqId t \ gone
  /-- a cell that keeps a sequence keeps its source -/
  src : ∀ t < st.size, st'.seqId t ≠ ∅ → st'.src t = st.src t
  /-- an empty cell was empty before or has no source -/
  src_empty : ∀ t < st.size, st'.seqId t = ∅ → st.seqId t = ∅ ∧ st'.src t = st.src t ∨ st'.src t = none

@[simp] theorem setUsed_tail (used s : ℕ) : (st.setUsed used).tail s = st.tail s := rfl

@[simp] theorem setUsed_seqId (used t : ℕ) : (st.setUsed used).seqId t = st.seqId t := rfl

@[simp] theorem setUsed_pos (used t : ℕ) : (st.setUsed used).pos t = st.pos t := rfl

@[simp] theorem setUsed_src (used t : ℕ) : (st.setUsed used).src t = st.src t := rfl

@[simp] theorem detach_size (s : ℕ) : (st.detach s).size = st.size := by
  unfold detach
  split
  · rfl
  · dsimp only
    split
    · rfl
    · rfl

theorem detach_tail (s s' : ℕ) : (st.detach s).tail s' = if s' = s then none else st.tail s' := by
  unfold detach
  split
  · next hnone =>
    split
    · next heq => rw [heq, hnone]
    · rfl
  · dsimp only
    split
    · simp
    · simp

theorem detach_frame {s t : ℕ} (ht : st.tail s ≠ some t) :
    (st.detach s).seqId t = st.seqId t ∧ (st.detach s).pos t = st.pos t ∧ (st.detach s).src t = st.src t := by
  unfold detach
  split
  · exact ⟨rfl, rfl, rfl⟩
  · next t' htail =>
    have hne : t ≠ t' := fun heq => ht (heq ▸ htail)
    dsimp only
    split
    · simp [hne]
    · simp [hne]

theorem detach_at {s t : ℕ} (ht : st.tail s = some t) :
    (st.detach s).seqId t = (st.seqId t).erase s ∧
      ((st.seqId t).erase s ≠ ∅ →
        (st.detach s).pos t = st.pos t ∧ (st.detach s).src t = st.src t ∧ (st.detach s).used = st.used) ∧
      ((st.seqId t).erase s = ∅ →
        (st.detach s).pos t = -1 ∧ (st.detach s).src t = none ∧ (st.detach s).used = decr32 st.used) := by
  rw [detach, ht]
  simp only [setTail_seqId, setSeqId_seqId, if_true]
  split
  · next hnil => exact ⟨by simp, fun hne => absurd hnil hne, fun _ => ⟨by simp, by simp, rfl⟩⟩
  · next hne => exact ⟨by simp, fun _ => ⟨by simp, by simp, rfl⟩, fun hnil => absurd hnil hne⟩

theorem detach_seqId (h : Exact st) {s t : ℕ} (hs : s < st.size) (ht : t < st.size) :
    (st.detach s).seqId t = (st.seqId t).erase s := by
  by_cases htail : st.tail s = some t
  · exact (detach_at htail).1
  · rw [(detach_frame htail).1, erase_eq_of_notMem]
    exact fun hmem => htail ((h.tail_iff s hs t).mpr ⟨ht, hmem⟩)

theorem detach_detached (h : Exact st) {s : ℕ} (hs : s < st.size) : Detached st {s} (st.detach s) := by
  refine ⟨detach_size s, fun s' => ?_, fun t ht => ?_, fun t ht hne => ?_, fun t ht hnil => ?_⟩
  · rw [detach_tail]
    simp
  · rw [detach_seqId h hs ht, sdiff_singleton_eq_erase]
  · by_cases htail : st.tail s = some t
    · rw [detach_seqId h hs ht] at hne
      exact ((detach_at htail).2.1 hne).2.1
    · exact (detach_frame htail).2.2
  · by_cases htail : st.tail s = some t
    · rw [detach_seqId h hs ht] at hnil
      exact Or.inr ((detach_at htail).2.2 hnil).2.1
    · rw [(detach_frame htail).1] at hnil
      exact Or.inl ⟨hnil, (detach_frame htail).2.2⟩

theorem detach_exact (h : Exact st) {s : ℕ} (hs : s < st.size) : Exact (st.detach s) := by
  refine ⟨fun s' hs' t => ?_, fun t ht s' hs' => ?_, fun t ht => ?_, ?_⟩
  · rw [detach_size] at hs' ⊢
    rw [detach_tail]
    by_cases heq : s' = s
    · rw [if_pos heq, heq]
      refine ⟨fun hnone => absurd hnone (by simp), fun hboth => ?_⟩
      rw [detach_seqId h hs hboth.1] at hboth
      exact absurd hboth.2 (notMem_erase s _)
    · rw [if_neg heq, h.tail_iff s' hs']
      refine and_congr_right fun ht => ?_
      rw [detach_seqId h hs ht, mem_erase]
      exact ⟨fun hmem => ⟨heq, hmem⟩, fun hmem => hmem.2⟩
  · rw [detach_size] at ht ⊢
    rw [detach_seqId h hs ht] at hs'
    exact h.seq_lt t ht s' (mem_of_mem_erase hs')
  · rw [detach_size] at ht
    by_cases htail : st.tail s = some t
    · rw [(detach_at htail).1]
      by_cases hnil : (st.seqId t).erase s = ∅
      · rw [((detach_at htail).2.2 hnil).1]
        simp [hnil]
      · rw [((detach_at htail).2.1 hnil).1, h.pos_iff t ht]
        have hmem := ((h.tail_iff s hs t).mp htail).2
        exact ⟨fun _ => hnil, fun _ => ne_empty_of_mem hmem⟩
    · rw [(detach_frame htail).1, (detach_frame htail).2.1]
      exact h.pos_iff t ht
  · cases htail : st.tail s with
    | none =>
      have heq : st.detach s = st := by rw [detach, htail]
      rw [heq, h.used_eq]
    | some t =>
      obtain ⟨ht, hmem⟩ := (h.tail_iff s hs t).mp htail
      have hother : ∀ t' < st.size, t' ≠ t → (st.detach s).seqId t' = st.seqId t' := fun t' _ hne =>
        (detach_frame (by rw [htail]; simpa using Ne.symm hne)).1
      by_cases hnil : (st.seqId t).erase s = ∅
      · rw [((detach_at htail).2.2 hnil).2.2, h.used_eq]
        exact (countUsed_emptied (detach_size s) ht (ne_empty_of_mem hmem)
          ((detach_at htail).1.trans hnil) hother).symm
      · rw [((detach_at htail).2.1 hnil).2.2, h.used_eq]
        refine (countUsed_congr (detach_size s) fun t' ht' => ?_).symm
        by_cases heq : t' = t
        · rw [heq, (detach_at htail).1]
          exact ⟨fun h => absurd h hnil, fun h => absurd hmem (by simp [h])⟩
        · rw [hother t' ht' heq]

/-! ### `seq_cp` -/

theorem Exact.join (h : Exact st) {d t : ℕ} (hd : d < st.size) (hnone : st.tail d = none) (ht : t < st.size)
    (hne : st.seqId t ≠ ∅) : Exact ((st.setSeqId t (insert d (st.seqId t))).setTail d (some t)) := by
  have hnot : ∀ t' < st.size, d ∉ st.seqId t' := by
    intro t' ht' hin
    rw [(h.tail_iff d hd t').mpr ⟨ht', hin⟩] at hnone
    exact absurd hnone (by simp)
  have hnil : ∀ t', (if t' = t then insert d (st.seqId t) else st.seqId t') = ∅ ↔ st.seqId t' = ∅ := by
    intro t'
    split
    · next heq =>
      subst heq
      exact ⟨fun h => absurd h (insert_ne_empty _ _), fun h => absurd h hne⟩
    · exact Iff.rfl
  refine ⟨fun s hs t' => ?_, fun t' ht' s hs => ?_, fun t' ht' => ?_, ?_⟩
  · simp only [setTail_tail, setSeqId_tail, setTail_seqId, setSeqId_seqId]
    by_cases hsd : s = d
    · rw [if_pos hsd, Option.some.injEq]
      constructor
      · rintro rfl
        exact ⟨ht, by rw [if_pos rfl, hsd]; exact mem_insert_self _ _⟩
      · rintro ⟨ht', hin⟩
        by_contra hne'
        rw [if_neg (Ne.symm hne'), hsd] at hin
        exact hnot t' ht' hin
    · rw [if_neg hsd, h.tail_iff s hs]
      refine and_congr_right fun _ => ?_
      split
      · next heq => rw [heq, mem_insert, or_iff_right hsd]
      · exact Iff.rfl
  · simp only [setTail_seqId, setSeqId_seqId] at hs
    split at hs
    · rcases mem_insert.mp hs with rfl | hs
      · exact hd
      · exact h.seq_lt t ht s hs
    · exact h.seq_lt t' ht' s hs
  · simp only [setTail_pos, setSeqId_pos, setTail_seqId, setSeqId_seqId, Ne, hnil]
    exact h.pos_iff t' ht'
  · show st.used = _
    rw [h.used_eq]
    symm
    refine countUsed_congr rfl fun t' _ => ?_
    simp only [setTail_seqId, setSeqId_seqId, hnil]

theorem seqCp_exact (h : Exact st) (src dst p0 p1 : ℤ) : Exact (st.seqCp src dst p0 p1) := by
  unfold seqCp
  split
  · exact h
  split
  · next hin =>
    have hd : dst.toNat < st.size := by omega
    have hr : src.toNat < st.size := by omega
    have hdet := detach_exact h hd
    dsimp only
    cases htail : (st.detach dst.toNat).tail src.toNat with
    | none => exact hdet
    | some t =>
      obtain ⟨ht, hmem⟩ := (hdet.tail_iff src.toNat (by rwa [detach_size]) t).mp htail
      refine hdet.join (by rwa [detach_size]) ?_ ht (ne_empty_of_mem hmem)
      rw [detach_tail, if_pos rfl]
  · exact h

end Recurrent
