import Mathlib.Order.Interval.Finset.Basic
import Mathlib.Order.Interval.Set.Basic
import Mathlib.Data.Int.Interval
import Mathlib.Algebra.Order.Group.Int
import Mathlib.Data.Int.ConditionallyCompleteOrder
import Mathlib.Order.ConditionallyCompleteLattice.Basic

/-!
# Intervals that grow by steps

A set of integers that starts as an interval stays one when it is extended by a sequence in which each
number repeats the last one or is one larger (`Steps`).  A sorted list without gaps is such a sequence.
Intervals are half open on the left, so that the empty one remembers where it ends.
-/

/-- Each number repeats the one before it or is one larger; the first one follows `h`. -/
def Steps : ℤ → List ℤ → Prop
  | _, [] => True
  | h, p :: l => (p = h ∨ p = h + 1) ∧ Steps p l

namespace Steps

open List

variable {h : ℤ} {l m : List ℤ}

/-- The last number, `h` if there is none. -/
def last : ℤ → List ℤ → ℤ
  | h, [] => h
  | _, p :: l => last p l

theorem last_cons (p : ℤ) (l : List ℤ) : last h (p :: l) = last p l := rfl

theorem last_append (l m : List ℤ) : last h (l ++ m) = last (last h l) m := by
  induction l generalizing h with
  | nil => rfl
  | cons p l ih => rw [cons_append, last_cons, ih, last_cons]

theorem append_iff : Steps h (l ++ m) ↔ Steps h l ∧ Steps (last h l) m := by
  induction l generalizing h with
  | nil => simp [Steps, last]
  | cons p l ih => rw [cons_append, Steps, Steps, ih, last_cons, and_assoc]

theorem le_last (hl : Steps h l) : h ≤ last h l := by
  induction l generalizing h with
  | nil => exact le_rfl
  | cons p l ih =>
    have := ih hl.2
    rw [last_cons]
    rcases hl.1 with rfl | rfl
    · exact this
    · omega

theorem last_mem (h : ℤ) (l : List ℤ) : last h l = h ∨ last h l ∈ l := by
  induction l generalizing h with
  | nil => exact Or.inl rfl
  | cons p l ih =>
    rw [last_cons]
    rcases ih p with heq | hmem
    · right
      rw [heq]
      exact mem_cons_self
    · exact Or.inr (mem_cons_of_mem p hmem)

/-- **An interval stays an interval** when it is extended by steps from its end. -/
theorem union_Ioc {lo : ℤ} (hl : Steps h l) (hlo : lo ≤ h) (hnn : ∀ p ∈ l, 0 ≤ p) (hge : -1 ≤ lo) :
    ∃ lo', -1 ≤ lo' ∧ lo' ≤ last h l ∧ Set.Ioc lo h ∪ {p | p ∈ l} = Set.Ioc lo' (last h l) := by
  induction l generalizing h lo with
  | nil => exact ⟨lo, hge, hlo, by simp [last]⟩
  | cons p l ih =>
    -- one more number: the interval grows at its end, stays, or starts with this number
    obtain ⟨lo1, hge1, hlo1, hset⟩ : ∃ lo1, -1 ≤ lo1 ∧ lo1 ≤ p ∧ Set.Ioc lo h ∪ {p} = Set.Ioc lo1 p := by
      have hp := hnn p mem_cons_self
      rcases hl.1 with rfl | rfl
      · rcases lt_or_eq_of_le hlo with hlt | rfl
        · refine ⟨lo, hge, hlo, ?_⟩
          ext q
          simp only [Set.mem_union, Set.mem_Ioc, Set.mem_singleton_iff]
          omega
        · refine ⟨lo - 1, by omega, by omega, ?_⟩
          ext q
          simp only [Set.mem_union, Set.mem_Ioc, Set.mem_singleton_iff]
          omega
      · refine ⟨lo, hge, by omega, ?_⟩
        ext q
        simp only [Set.mem_union, Set.mem_Ioc, Set.mem_singleton_iff]
        omega
    obtain ⟨lo', hge', hlo', hset'⟩ := ih hl.2 hlo1 (fun q hq => hnn q (mem_cons_of_mem p hq)) hge1
    refine ⟨lo', hge', by rwa [last_cons], ?_⟩
    rw [last_cons, ← hset', ← hset]
    ext q
    simp only [Set.mem_union, Set.mem_Ioc, Set.mem_singleton_iff, Set.mem_ofPred_eq, mem_cons]
    tauto

theorem of_sorted {p : ℤ} (hsort : (p :: l).Pairwise (· ≤ ·))
    (hfull : ∀ q, p ≤ q → (∃ r ∈ p :: l, q ≤ r) → q ∈ p :: l) : Steps p l := by
  induction l generalizing p with
  | nil => trivial
  | cons r l ih =>
    have hle : ∀ q ∈ r :: l, p ≤ q := (pairwise_cons.mp hsort).1
    have hsort' := (pairwise_cons.mp hsort).2
    have hpr := hle r mem_cons_self
    refine ⟨?_, ih hsort' fun q hq hex => ?_⟩
    · -- a number between the two would be missing
      by_contra hgap
      have hmem := hfull (p + 1) (by omega) ⟨r, by simp, by omega⟩
      rcases mem_cons.mp hmem with heq | hmem
      · omega
      · have hr : r ≤ p + 1 := by
          rcases mem_cons.mp hmem with heq | hmem
          · omega
          · exact (pairwise_cons.mp hsort').1 _ hmem
        omega
    · obtain ⟨b, hb, hqb⟩ := hex
      have hmem := hfull q (by omega) ⟨b, mem_cons_of_mem p hb, hqb⟩
      rcases mem_cons.mp hmem with rfl | hmem
      · have : r = q := le_antisymm hq hpr
        exact this ▸ mem_cons_self
      · exact hmem

theorem mem_of_card {S : Finset ℤ} {lo hi q : ℤ} (hsub : S ⊆ Finset.Icc lo hi)
    (hcard : hi - lo + 1 ≤ S.card) (hlo : lo ≤ q) (hhi : q ≤ hi) : q ∈ S := by
  have heq : S = Finset.Icc lo hi := by
    refine Finset.eq_of_subset_of_card_le hsub ?_
    rw [Int.card_Icc]
    omega
  rw [heq]
  exact Finset.mem_Icc.mpr ⟨hlo, hhi⟩

end Steps
