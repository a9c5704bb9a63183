import Mathlib.Data.List.GetD
import Mathlib.Logic.Equiv.Basic
import Mathlib.Algebra.Group.End

/-!
# Recorded swaps

An algorithm that rearranges a list by swapping entries can record its swaps; replayed on anything else that has the
same indices, they make the same rearrangement.

* `Swaps.foldl_comp_swap` - **replaying** the swaps on a family of values is composition with it.
-/

namespace Swaps

open List

variable {α : Type}

def perm (swaps : List (ℕ × ℕ)) : Equiv.Perm ℕ := swaps.foldl (fun σ p => σ * Equiv.swap p.1 p.2) 1

theorem perm_snoc (swaps : List (ℕ × ℕ)) (i j : ℕ) : perm (swaps ++ [(i, j)]) = perm swaps * Equiv.swap i j := by
  rw [perm, foldl_append]
  rfl

theorem foldl_mul_swap (swaps : List (ℕ × ℕ)) (σ : Equiv.Perm ℕ) :
    swaps.foldl (fun σ p => σ * Equiv.swap p.1 p.2) σ = σ * perm swaps := by
  induction swaps generalizing σ with
  | nil => exact (mul_one σ).symm
  | cons p swaps ih =>
    rw [perm, foldl_cons, foldl_cons, ih, ih, one_mul, mul_assoc]

theorem perm_cons (p : ℕ × ℕ) (swaps : List (ℕ × ℕ)) : perm (p :: swaps) = Equiv.swap p.1 p.2 * perm swaps := by
  rw [perm, foldl_cons, one_mul, foldl_mul_swap]

theorem foldl_comp_swap (swaps : List (ℕ × ℕ)) (f : ℕ → α) :
    swaps.foldl (fun f p => f ∘ Equiv.swap p.1 p.2) f = f ∘ perm swaps := by
  induction swaps generalizing f with
  | nil => rfl
  | cons p swaps ih =>
    rw [foldl_cons, ih, perm_cons]
    rfl

theorem swap_lt {n i j k : ℕ} (hi : i < n) (hj : j < n) (hk : k < n) : Equiv.swap i j k < n := by
  rw [Equiv.swap_apply_def]
  split_ifs
  · exact hj
  · exact hi
  · exact hk

/-! ### Lists -/

def swapEntries (l : List ℕ) (i j : ℕ) : List ℕ := (l.set i (l.getD j 0)).set j (l.getD i 0)

theorem length_swapEntries (l : List ℕ) (i j : ℕ) : (swapEntries l i j).length = l.length := by
  rw [swapEntries, length_set, length_set]

theorem swapEntries_perm {l : List ℕ} {i j : ℕ} (hi : i < l.length) (hj : j < l.length) :
    (swapEntries l i j).Perm l := by
  rw [swapEntries, getD_eq_getElem _ _ hi, getD_eq_getElem _ _ hj]
  exact set_set_perm hi hj

theorem getD_swapEntries {l : List ℕ} {i j : ℕ} (hi : i < l.length) (hj : j < l.length) (k : ℕ) :
    (swapEntries l i j).getD k 0 = l.getD (Equiv.swap i j k) 0 := by
  by_cases hk : k < l.length
  · rw [swapEntries, getD_eq_getElem _ _ (by rwa [length_set, length_set]), getElem_set,
      Equiv.swap_apply_def]
    by_cases hkj : j = k
    · rw [if_pos hkj]
      by_cases hki : k = i
      · rw [if_pos hki, ← hki, hkj]
      · rw [if_neg hki, if_pos hkj.symm]
    · rw [if_neg hkj, getElem_set]
      by_cases hki : i = k
      · rw [if_pos hki, if_pos hki.symm]
      · rw [if_neg hki, if_neg (Ne.symm hki), if_neg (Ne.symm hkj), getD_eq_getElem _ _ hk]
  · have hk' : Equiv.swap i j k = k := Equiv.swap_apply_of_ne_of_ne (by omega) (by omega)
    rw [hk', getD_eq_default _ _ (by rw [length_swapEntries]; omega), getD_eq_default _ _ (by omega)]

/-! ### Rows of a flat buffer -/

/-- Row `i` of a buffer with `n` entries in a row. -/
def row (n : ℕ) (buf : ℕ → α) (i : ℕ) : List α := (List.range n).map fun k => buf (i * n + k)

/-- `std::swap` of two entries. -/
def swapAt (buf : ℕ → α) (a b : ℕ) : ℕ → α := Function.update (Function.update buf a (buf b)) b (buf a)

def swapRow (n : ℕ) (buf : ℕ → α) (p : ℕ × ℕ) : ℕ → α :=
  (List.range n).foldl (fun buf k => swapAt buf (p.1 * n + k) (p.2 * n + k)) buf

theorem swapAt_apply (buf : ℕ → α) (a b x : ℕ) : swapAt buf a b x = buf (Equiv.swap a b x) := by
  rw [swapAt, Equiv.swap_apply_def, Function.update_apply, Function.update_apply]
  split_ifs with h1 h2
  · rw [← h2, h1]
  · rfl
  · rfl
  · rfl

theorem index_eq_iff {n i j k m : ℕ} (hk : k < n) (hm : m < n) : i * n + k = j * n + m ↔ i = j ∧ k = m := by
  constructor
  · intro h
    have hi : (i * n + k) / n = i := by rw [Nat.mul_comm, Nat.mul_add_div (by omega), Nat.div_eq_of_lt hk, Nat.add_zero]
    have hj : (j * n + m) / n = j := by rw [Nat.mul_comm, Nat.mul_add_div (by omega), Nat.div_eq_of_lt hm, Nat.add_zero]
    have hij : i = j := by rw [← hi, h, hj]
    rw [hij] at h
    exact ⟨hij, Nat.add_left_cancel h⟩
  · rintro ⟨rfl, rfl⟩
    rfl

theorem swapRow_apply (n : ℕ) (buf : ℕ → α) (p : ℕ × ℕ) {i k : ℕ} (hk : k < n) :
    swapRow n buf p (i * n + k) = buf (Equiv.swap p.1 p.2 i * n + k) := by
  have hloop : ∀ m ≤ n, ∀ i, ∀ k < n, (List.range m).foldl (fun buf k => swapAt buf (p.1 * n + k) (p.2 * n + k)) buf
      (i * n + k) = if k < m then buf (Equiv.swap p.1 p.2 i * n + k) else buf (i * n + k) := by
    intro m
    induction m with
    | zero => exact fun _ i k _ => (if_neg (Nat.not_lt_zero k)).symm
    | succ m ih =>
      intro hm i k hk
      rw [range_succ, foldl_append, foldl_cons, foldl_nil, swapAt_apply]
      by_cases hkm : k = m
      · subst hkm
        have hswap : Equiv.swap (p.1 * n + k) (p.2 * n + k) (i * n + k) = Equiv.swap p.1 p.2 i * n + k := by
          rw [Equiv.swap_apply_def, Equiv.swap_apply_def]
          simp only [index_eq_iff hk hk, and_true]
          split_ifs
          · rfl
          · rfl
          · rfl
        rw [hswap, ih (by omega) _ k hk, if_neg (Nat.lt_irrefl k), if_pos (Nat.lt_succ_self k)]
      · have hswap : Equiv.swap (p.1 * n + m) (p.2 * n + m) (i * n + k) = i * n + k := by
          refine Equiv.swap_apply_of_ne_of_ne ?_ ?_
          · exact fun h => hkm ((index_eq_iff hk hm).mp h).2
          · exact fun h => hkm ((index_eq_iff hk hm).mp h).2
        rw [hswap, ih (by omega) i k hk]
        exact if_congr (by omega) rfl rfl
  rw [swapRow, hloop n (Nat.le_refl n) i k hk, if_pos hk]

theorem row_swapRow (n : ℕ) (buf : ℕ → α) (p : ℕ × ℕ) : row n (swapRow n buf p) = row n buf ∘ Equiv.swap p.1 p.2 := by
  funext i
  exact map_congr_left fun k hk => swapRow_apply n buf p (List.mem_range.mp hk)

theorem row_foldl_swapRow (n : ℕ) (swaps : List (ℕ × ℕ)) (buf : ℕ → α) :
    row n (swaps.foldl (swapRow n) buf) = row n buf ∘ perm swaps := by
  rw [← foldl_comp_swap]
  induction swaps generalizing buf with
  | nil => rfl
  | cons p swaps ih => rw [foldl_cons, foldl_cons, ih, row_swapRow]

end Swaps
