import LlamaRafaelia.Recurrent.Tails
import Mathlib.Order.Interval.Set.Defs
import Mathlib.Data.Int.ConditionallyCompleteOrder
import Mathlib.Order.ConditionallyCompleteLattice.Basic

/-!
# Removing a range from a recurrent state

A cell at position `P` is the state after the tokens `0..P`; it cannot be cut.  So `seq_rm` has to refuse every range
that meets the tokens of the sequence and leaves some of them.

* `contents_sdiff_iff` - **when dropping cells is the same as dropping the range**.
-/

namespace Recurrent

open KvCache

variable {st : Recurrent}

/-- The tokens of sequence `s`. -/
def contents (st : Recurrent) (s : ℕ) : Set ℤ := {x | 0 ≤ x ∧ ∃ t < st.size, s ∈ st.seqId t ∧ x ≤ st.pos t}

/-- The ranges that `seq_rm` refuses for sequence `s`: the bounds are those after the negative ones were replaced. -/
def Refuses (st : Recurrent) (s : ℕ) (lo hi : ℤ) : Prop :=
  st.size ≤ s ∨ ∃ t, st.tail s = some t ∧ ((0 < lo ∧ lo < st.pos t) ∨ (0 < hi ∧ hi ≤ st.pos t))

/-- The cells of sequence `s` can be kept or dropped as a whole: the range is empty, or behind all of them, or it covers
the end of all of them and a cell ends right before it. -/
def CleanCut (st : Recurrent) (s : ℕ) (lo hi : ℤ) : Prop :=
  hi ≤ lo ∨ (∀ t < st.size, s ∈ st.seqId t → st.pos t < lo) ∨
    ((∀ t < st.size, s ∈ st.seqId t → st.pos t < hi) ∧
      (lo = 0 ∨ ∃ t < st.size, s ∈ st.seqId t ∧ st.pos t = lo - 1))

/-! ### The loop -/

theorem seqRmCell_cells (id p0 p1 : ℤ) (x : Recurrent × ℕ) (i j : ℕ) :
    (seqRmCell id p0 p1 x i).1.size = x.1.size ∧
      (seqRmCell id p0 p1 x i).1.cells j = if j = i then rmCell id p0 p1 (x.1.cells i) else x.1.cells j := by
  rw [seqRmCell, rmCell]
  dsimp only
  split
  · split
    · exact ⟨rfl, modify_cells x.1 i j fun c => { c with seqId := ∅, pos := -1, src := none }⟩
    · exact ⟨rfl, modify_cells x.1 i j fun c => { c with seqId := c.without id }⟩
  · refine ⟨rfl, ?_⟩
    split
    · next h => rw [h]
    · rfl

theorem seqRmCells_cells (st : Recurrent) (id p0 p1 : ℤ) :
    (st.seqRmCells id p0 p1).size = st.size ∧
      ∀ i < st.size, (st.seqRmCells id p0 p1).cells i = rmCell id p0 p1 (st.cells i) := by
  have hloop : ∀ k, ((List.range k).foldl (seqRmCell id p0 p1) (st, st.size)).1.size = st.size ∧
      ∀ i, ((List.range k).foldl (seqRmCell id p0 p1) (st, st.size)).1.cells i
        = if i < k then rmCell id p0 p1 (st.cells i) else st.cells i := by
    intro k
    induction k with
    | zero => exact ⟨rfl, fun i => (if_neg (Nat.not_lt_zero i)).symm⟩
    | succ k ih =>
      obtain ⟨hsize, hcells⟩ := ih
      rw [List.range_succ, List.foldl_append, List.foldl_cons, List.foldl_nil]
      refine ⟨(seqRmCell_cells _ _ _ _ k 0).1.trans hsize, fun i => ?_⟩
      rw [(seqRmCell_cells _ _ _ _ k i).2, hcells k, hcells i, if_neg (Nat.lt_irrefl k)]
      by_cases hik : i = k
      · rw [if_pos hik, if_pos (by omega), hik]
      · rw [if_neg hik]
        exact if_congr (by omega) rfl rfl
  obtain ⟨hsize, hcells⟩ := hloop st.size
  have hmove : (st.seqRmCells id p0 p1).size = st.size ∧ (st.seqRmCells id p0 p1).cells
      = ((List.range st.size).foldl (seqRmCell id p0 p1) (st, st.size)).1.cells := by
    rw [seqRmCells, moveHead]
    split
    · exact ⟨hsize, rfl⟩
    · exact ⟨hsize, rfl⟩
  exact ⟨hmove.1, fun i hi => by rw [hmove.2, hcells, if_pos hi]⟩

theorem mem_rmCell_iff (s : ℕ) (p0 p1 : ℤ) (c : MemCell) :
    s ∈ (rmCell s p0 p1 c).seqId ↔ s ∈ c.seqId ∧ ¬ (p0 ≤ c.pos ∧ c.pos < p1) := by
  rw [rmCell_seqId]
  split
  · next hin =>
    rw [MemCell.without, if_neg (by omega), Int.toNat_natCast]
    exact iff_of_false (Finset.notMem_erase s _) fun h => h.2 hin
  · next hout => exact (and_iff_left hout).symm

theorem rmCell_pos_of_mem {s : ℕ} {p0 p1 : ℤ} {c : MemCell} (h : s ∈ (rmCell s p0 p1 c).seqId) :
    (rmCell s p0 p1 c).pos = c.pos := by
  have hout := ((mem_rmCell_iff s p0 p1 c).mp h).2
  rw [rmCell, if_neg fun hin => hout hin.1]

theorem seqRmCells_contents {st' : Recurrent} {s : ℕ} (lo hi : ℤ) (hsize : st'.size = st.size)
    (hseq : ∀ t, st'.seqId t = st.seqId t) (hpos : ∀ t, st'.pos t = st.pos t) :
    (st'.seqRmCells s lo hi).contents s
      = {x | 0 ≤ x ∧ ∃ t < st.size, s ∈ st.seqId t ∧ ¬ (lo ≤ st.pos t ∧ st.pos t < hi) ∧ x ≤ st.pos t} := by
  obtain ⟨hsize', hcells⟩ := seqRmCells_cells st' s lo hi
  ext x
  refine and_congr_right fun _ => exists_congr fun t => ?_
  rw [hsize', hsize]
  refine and_congr_right fun ht => ?_
  rw [seqId, pos, hcells t (hsize.symm ▸ ht), ← hseq t, ← hpos t]
  constructor
  · rintro ⟨hmem, hx⟩
    rw [rmCell_pos_of_mem hmem] at hx
    obtain ⟨hmem', hout⟩ := (mem_rmCell_iff _ _ _ _).mp hmem
    exact ⟨hmem', hout, hx⟩
  · rintro ⟨hmem, hout, hx⟩
    have hmem' : s ∈ (rmCell s lo hi (st'.cells t)).seqId := (mem_rmCell_iff _ _ _ _).mpr ⟨hmem, hout⟩
    exact ⟨hmem', (rmCell_pos_of_mem hmem').symm ▸ hx⟩

/-! ### Dropping cells and dropping a range -/

/-- **When dropping the cells that end in the range is dropping the range.** -/
theorem contents_sdiff_iff {s : ℕ} {lo hi : ℤ} (hlo : 0 ≤ lo) :
    {x | 0 ≤ x ∧ ∃ t < st.size, s ∈ st.seqId t ∧ ¬ (lo ≤ st.pos t ∧ st.pos t < hi) ∧ x ≤ st.pos t}
      = st.contents s \ Set.Ico lo hi ↔ st.CleanCut s lo hi := by
  rw [Set.ext_iff]
  constructor
  · intro h
    by_contra hcut
    rw [CleanCut, not_or, not_or, not_and_or] at hcut
    obtain ⟨hne, hreach, hleft⟩ := hcut
    push Not at hne hreach
    obtain ⟨t, ht, hmem, hpos⟩ := hreach
    obtain hlong | hleft := hleft
    · -- A cell that reaches behind the range keeps the tokens of the range.
      push Not at hlong
      obtain ⟨t', ht', hmem', hpos'⟩ := hlong
      exact ((h lo).mp ⟨hlo, t', ht', hmem', by omega, by omega⟩).2 ⟨Int.le_refl lo, hne⟩
    · -- The token right before the range has no cell any more, or the cell behind it is too long.
      rw [not_or] at hleft
      obtain ⟨-, t', ht', hmem', hout, hpos'⟩ :=
        (h (lo - 1)).mpr ⟨⟨by omega, t, ht, hmem, by omega⟩, fun hin => absurd hin.1 (by omega)⟩
      by_cases hlast : st.pos t' = lo - 1
      · exact hleft.2 ⟨t', ht', hmem', hlast⟩
      · exact ((h lo).mp ⟨hlo, t', ht', hmem', hout, by omega⟩).2 ⟨Int.le_refl lo, hne⟩
  · intro h x
    constructor
    · rintro ⟨hx, t, ht, hmem, hout, hle⟩
      refine ⟨⟨hx, t, ht, hmem, hle⟩, fun hin => ?_⟩
      obtain ⟨hlox, hxhi⟩ := hin
      obtain hempty | hbehind | ⟨hcover, -⟩ := h
      · omega
      · have := hbehind t ht hmem
        omega
      · have := hcover t ht hmem
        omega
    · rintro ⟨⟨hx, t, ht, hmem, hle⟩, hrange⟩
      rw [Set.mem_Ico, not_and_or, Int.not_le, Int.not_lt] at hrange
      by_cases hout : lo ≤ st.pos t ∧ st.pos t < hi
      · obtain hempty | hbehind | ⟨-, hzero | ⟨t', ht', hmem', hlast⟩⟩ := h
        · omega
        · have := hbehind t ht hmem
          omega
        · omega
        · exact ⟨hx, t', ht', hmem', by omega, by omega⟩
      · exact ⟨hx, t, ht, hmem, hout, hle⟩

/-! ### `seq_rm` -/

theorem seqRm_cases (st : Recurrent) (s : ℕ) (p0 p1 : ℤ) :
    (st.Refuses s (rangeLo p0) (rangeHi p1) ∧ st.seqRm s p0 p1 = (false, st)) ∨
      (¬ st.Refuses s (rangeLo p0) (rangeHi p1) ∧ (st.seqRm s p0 p1).1 = true ∧
        ∃ st' : Recurrent, (st.seqRm s p0 p1).2 = st'.seqRmCells s (rangeLo p0) (rangeHi p1) ∧
          st'.size = st.size ∧ (∀ t, st'.seqId t = st.seqId t) ∧ ∀ t, st'.pos t = st.pos t) := by
  have hid : (0 : ℤ) ≤ (s : ℤ) := Int.natCast_nonneg s
  rw [seqRm, Refuses]
  dsimp only
  by_cases hsize : st.size ≤ s
  · rw [if_pos (Int.ofNat_le.mpr hsize)]
    exact Or.inl ⟨Or.inl hsize, rfl⟩
  rw [if_neg (fun h => hsize (Int.ofNat_le.mp h)), if_pos hid, Int.toNat_natCast]
  cases htail : st.tail s with
  | none =>
    refine Or.inr ⟨?_, rfl, st, rfl, rfl, fun _ => rfl, fun _ => rfl⟩
    rintro (h | ⟨t, ht, -⟩)
    · exact hsize h
    · cases ht
  | some t =>
    dsimp only
    by_cases hpart : (0 < rangeLo p0 ∧ rangeLo p0 < st.pos t) ∨
        (0 < rangeHi p1 ∧ rangeHi p1 ≤ st.pos t)
    · rw [if_pos hpart]
      exact Or.inl ⟨Or.inr ⟨t, rfl, hpart⟩, rfl⟩
    · rw [if_neg hpart]
      refine Or.inr ⟨?_, ?_, ?_⟩
      · rintro (h | ⟨t', ht', hpart'⟩)
        · exact hsize h
        · exact hpart (Option.some.inj ht' ▸ hpart')
      · split
        · rfl
        · rfl
      · split
        · exact ⟨st.setTail s none, rfl, rfl, fun t => by simp, fun t => by simp⟩
        · exact ⟨st, rfl, rfl, fun _ => rfl, fun _ => rfl⟩

/-- **Removing a range.**  A `true` means that the tokens of the range are gone and the others are still there, and a
`false` that nothing has changed, if and only if the range is refused or the cells of the sequence can be cut there. -/
theorem seqRm_removes_iff (st : Recurrent) (s : ℕ) (p0 p1 : ℤ) :
    (((st.seqRm s p0 p1).1 = true → (st.seqRm s p0 p1).2.contents s
        = st.contents s \ Set.Ico (rangeLo p0) (rangeHi p1)) ∧
      ((st.seqRm s p0 p1).1 = false → (st.seqRm s p0 p1).2 = st)) ↔
      st.Refuses s (rangeLo p0) (rangeHi p1) ∨
        st.CleanCut s (rangeLo p0) (rangeHi p1) := by
  obtain ⟨hrefuse, heq⟩ | ⟨hrefuse, htrue, st', heq, hsize, hseq, hpos⟩ := seqRm_cases st s p0 p1
  · rw [heq]
    exact iff_of_true ⟨fun h => absurd h Bool.false_ne_true, fun _ => rfl⟩ (Or.inl hrefuse)
  · rw [← contents_sdiff_iff (rangeLo_nonneg p0), ← seqRmCells_contents _ _ hsize hseq hpos, ← heq, htrue]
    exact ⟨fun h => Or.inr (h.1 rfl), fun h => ⟨fun _ => h.resolve_left hrefuse, fun h => absurd h.symm Bool.false_ne_true⟩⟩

def sixTokens : Recurrent where
  size := 1
  cells i := if i = 0 then ⟨5, some 0, some 0, some 0, {0}⟩ else .empty
  head := 0
  used := 1
  n := 1
  rsZ := none

/-- Removing the last token alone removes all. -/
theorem seqRm_last_token : (sixTokens.seqRm 0 5 (-1)).1 = true ∧ 4 ∈ sixTokens.contents 0 \ Set.Ico 5 llamaPosMax ∧
    (sixTokens.seqRm 0 5 (-1)).2.contents 0 = ∅ := by
  refine ⟨rfl, ⟨⟨by decide, 0, by decide, by decide, by decide⟩, fun h => absurd h.1 (by decide)⟩, ?_⟩
  refine Set.eq_empty_of_forall_notMem ?_
  rintro x ⟨-, t, ht, hmem, -⟩
  obtain rfl : t = 0 := Nat.lt_one_iff.mp ht
  exact absurd hmem (by decide)

end Recurrent
