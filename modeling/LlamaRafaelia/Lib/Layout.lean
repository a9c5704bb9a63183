import Mathlib.Algebra.Order.Ring.Int
import Mathlib.Data.Multiset.Filter

/-!
# Values at positions

A memory that holds values at positions, several of them at one position if it comes to that, is a multiset of pairs.
`layout` puts a list at consecutive positions; removing a range of positions and moving one are the operations of a
sequence in a KV cache, where a negative bound is none.

* `Layout.remove_first`, `Layout.remove_last` - **removing the front or the back** of a list at its positions;
* `Layout.shift_layout` - **moving** a list to other positions.
-/

namespace Layout

variable {α : Type}

def layout (start : ℤ) : List α → Multiset (ℤ × α)
  | [] => 0
  | a :: l => (start, a) ::ₘ layout (start + 1) l

def InRange (p0 p1 pos : ℤ) : Prop := p0 ≤ pos ∧ (p1 < 0 ∨ pos < p1)

instance (p0 p1 pos : ℤ) : Decidable (InRange p0 p1 pos) :=
  inferInstanceAs (Decidable (p0 ≤ pos ∧ (p1 < 0 ∨ pos < p1)))

def remove (p0 p1 : ℤ) (m : Multiset (ℤ × α)) : Multiset (ℤ × α) := m.filter fun p => ¬ InRange p0 p1 p.1

/-- What stands in the range moves by `delta`. -/
def shift (p0 p1 delta : ℤ) (m : Multiset (ℤ × α)) : Multiset (ℤ × α) :=
  m.map fun p => if InRange p0 p1 p.1 then (p.1 + delta, p.2) else p

@[simp]
theorem layout_nil (start : ℤ) : layout start ([] : List α) = 0 := rfl

theorem layout_append (start : ℤ) (l₁ l₂ : List α) :
    layout start (l₁ ++ l₂) = layout start l₁ + layout (start + l₁.length) l₂ := by
  induction l₁ generalizing start with
  | nil =>
    rw [List.nil_append, layout_nil, Multiset.zero_add, List.length_nil, Nat.cast_zero, Int.add_zero]
  | cons a l₁ ih =>
    rw [List.cons_append, layout, ih, layout, Multiset.cons_add, List.length_cons, Nat.cast_succ]
    congr 3
    omega

theorem layout_concat (l : List α) (a : α) : layout 0 (l ++ [a]) = layout 0 l + {((l.length : ℤ), a)} := by
  rw [layout_append, layout, layout_nil, Int.zero_add]
  rfl

theorem bounds_of_mem_layout {start : ℤ} {l : List α} {p : ℤ × α} (h : p ∈ layout start l) :
    start ≤ p.1 ∧ p.1 < start + l.length := by
  induction l generalizing start with
  | nil => cases h
  | cons a l ih =>
    rw [List.length_cons, Nat.cast_succ]
    obtain rfl | h := Multiset.mem_cons.mp h
    · constructor <;> simp only <;> omega
    · obtain ⟨hlo, hhi⟩ := ih h
      constructor <;> omega

theorem mem_layout_last {l : List α} (h : l ≠ []) : ∃ p ∈ layout 0 l, p.1 = (l.length : ℤ) - 1 := by
  obtain ⟨l, a, hl⟩ := (List.eq_nil_or_concat l).resolve_left h
  rw [List.concat_eq_append] at hl
  refine ⟨((l.length : ℤ), a), ?_, ?_⟩
  · rw [hl, layout_concat]
    exact Multiset.mem_add.mpr (Or.inr (Multiset.mem_singleton_self _))
  · rw [hl, List.length_append, List.length_singleton, Nat.cast_succ]
    omega

theorem remove_eq_self {p0 p1 : ℤ} {m : Multiset (ℤ × α)} (h : ∀ p ∈ m, ¬ InRange p0 p1 p.1) : remove p0 p1 m = m :=
  Multiset.filter_eq_self.mpr h

theorem remove_eq_zero {p0 p1 : ℤ} {m : Multiset (ℤ × α)} (h : ∀ p ∈ m, InRange p0 p1 p.1) : remove p0 p1 m = 0 :=
  Multiset.filter_eq_nil.mpr fun p hp hnot => hnot (h p hp)

theorem remove_first (l₁ l₂ : List α) : remove 0 l₁.length (layout 0 (l₁ ++ l₂)) = layout l₁.length l₂ := by
  have hfront : remove 0 (l₁.length : ℤ) (layout 0 l₁) = 0 := by
    refine remove_eq_zero fun p hp => ?_
    obtain ⟨hlo, hhi⟩ := bounds_of_mem_layout hp
    exact ⟨hlo, Or.inr (by omega)⟩
  have hback : remove 0 (l₁.length : ℤ) (layout (l₁.length : ℤ) l₂) = layout l₁.length l₂ := by
    refine remove_eq_self fun p hp hin => ?_
    obtain ⟨hlo, -⟩ := bounds_of_mem_layout hp
    obtain ⟨-, hneg | hlt⟩ := hin <;> omega
  rw [layout_append, remove, Multiset.filter_add, Int.zero_add]
  exact (congrArg₂ (· + ·) hfront hback).trans (Multiset.zero_add _)

theorem remove_last (l₁ l₂ : List α) : remove l₁.length (-1) (layout 0 (l₁ ++ l₂)) = layout 0 l₁ := by
  have hfront : remove (l₁.length : ℤ) (-1) (layout 0 l₁) = layout 0 l₁ := by
    refine remove_eq_self fun p hp hin => ?_
    obtain ⟨-, hhi⟩ := bounds_of_mem_layout hp
    have := hin.1
    omega
  have hback : remove (l₁.length : ℤ) (-1) (layout (l₁.length : ℤ) l₂) = 0 := by
    refine remove_eq_zero fun p hp => ?_
    exact ⟨(bounds_of_mem_layout hp).1, Or.inl (by omega)⟩
  rw [layout_append, remove, Multiset.filter_add, Int.zero_add]
  exact (congrArg₂ (· + ·) hfront hback).trans (Multiset.add_zero _)

theorem shift_layout (start delta : ℤ) (l : List α) : shift start (-1) delta (layout start l) = layout (start + delta) l := by
  have hmove : ∀ (s : ℤ), start ≤ s → shift start (-1) delta (layout s l) = layout (s + delta) l := by
    induction l with
    | nil => exact fun s hs => rfl
    | cons a l ih =>
      intro s hs
      rw [layout, shift, Multiset.map_cons, if_pos ⟨hs, Or.inl (by omega)⟩, layout]
      have hrest := ih (s + 1) (by omega)
      rw [shift] at hrest
      rw [hrest]
      congr 2
      omega
  exact hmove start (Int.le_refl _)

end Layout
