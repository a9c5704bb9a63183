import Mathlib.Data.List.DropRight
import Mathlib.Data.List.Infix
import Mathlib.Order.Bounds.Basic
import Mathlib.Tactic.Common

/-!
# How far a sequence repeats its beginning

At each place `k` of a finite sequence some letters are the ones that the sequence begins with.  The Z-algorithm finds how
many, with the help of a box: a part of the sequence that is known to repeat the beginning.

* `IsZ.inside` - **strictly inside a box the number is the one at the beginning**.
-/

namespace ZBox

open List

variable {α : Type} {s : ℕ → α} {len k n m lt : ℕ}

/-- `n` letters from `k` on are the ones that the sequence begins with. -/
structure Repeats (s : ℕ → α) (len k n : ℕ) : Prop where
  fits : n + k ≤ len
  same : ∀ j < n, s j = s (j + k)

/-- Exactly `n` letters are. -/
structure IsZ (s : ℕ → α) (len k n : ℕ) : Prop where
  repeats : Repeats s len k n
  stops : n + k < len → s n ≠ s (n + k)

theorem Repeats.zero (s : ℕ → α) (hk : k ≤ len) : Repeats s len k 0 :=
  ⟨by rwa [Nat.zero_add], fun j hj => absurd hj (Nat.not_lt_zero j)⟩

theorem Repeats.succ (h : Repeats s len k n) (hfits : n + k < len) (hsame : s n = s (n + k)) : Repeats s len k (n + 1) := by
  refine ⟨by omega, fun j hj => ?_⟩
  by_cases hjn : j < n
  · exact h.same j hjn
  · obtain rfl : j = n := by omega
    exact hsame

theorem IsZ.le (h : IsZ s len k n) (hm : Repeats s len k m) : m ≤ n := by
  by_contra hlt
  rw [Nat.not_le] at hlt
  have hfits : n + k < len := by
    have := hm.fits
    omega
  exact h.stops hfits (hm.same n hlt)

theorem isZ_iff_isGreatest : IsZ s len k n ↔ IsGreatest {n | Repeats s len k n} n := by
  constructor
  · exact fun h => ⟨h.repeats, fun m hm => h.le hm⟩
  · intro h
    refine ⟨h.1, fun hfits hsame => ?_⟩
    exact absurd (h.2 (h.1.succ hfits hsame)) (Nat.not_succ_le_self n)

/-! ### The box -/

/-- **Strictly inside a box** of `m` letters at `lt` the number is the one at the beginning. -/
theorem IsZ.inside (hbox : Repeats s len lt m) (hle : lt ≤ k) (h : IsZ s len (k - lt) n) (hlt : n < lt + m - k) :
    IsZ s len k n := by
  have hfits := hbox.fits
  have hshift : ∀ j, j ≤ n → s (j + (k - lt)) = s (j + k) := by
    intro j hj
    rw [hbox.same (j + (k - lt)) (by omega)]
    congr 1
    omega
  refine ⟨⟨by omega, fun j hj => ?_⟩, fun _ => ?_⟩
  · rw [h.repeats.same j hj, hshift j hj.le]
  · rw [← hshift n (Nat.le_refl n)]
    exact h.stops (by omega)

theorem Repeats.inside (hbox : Repeats s len lt m) (hle : lt ≤ k) (h : Repeats s len (k - lt) n) (hk : k ≤ lt + m)
    (hge : lt + m - k ≤ n) : Repeats s len k (lt + m - k) := by
  have hfits := hbox.fits
  refine ⟨by omega, fun j hj => ?_⟩
  rw [h.same j (by omega), hbox.same (j + (k - lt)) (by omega)]
  congr 1
  omega

/-! ### Words read backwards -/

/-- **The longest common end** of a word and of the word without its last `k` letters. -/
theorem isZ_iff_suffix {w : List α} (hs : ∀ i < w.length, w.reverse[i]? = some (s i)) (hk : k ≤ w.length) :
    IsZ s w.length k n ↔ IsGreatest {n | ∃ u, u.length = n ∧ u <:+ w ∧ u <:+ w.rdrop k} n := by
  rw [isZ_iff_isGreatest]
  have hset : {n | Repeats s w.length k n} = {n | ∃ u, u.length = n ∧ u <:+ w ∧ u <:+ w.rdrop k} := by
    ext n
    constructor
    · rintro ⟨hfits, hsame⟩
      -- the common end is the first `n` letters of the word read backwards
      refine ⟨(w.reverse.take n).reverse, ?_, ?_, ?_⟩
      · rw [length_reverse, length_take, length_reverse]
        omega
      · rw [← List.reverse_prefix, reverse_reverse]
        exact List.take_prefix n w.reverse
      · rw [← List.reverse_prefix, reverse_reverse, rdrop_eq_reverse_drop_reverse, reverse_reverse]
        have heq : w.reverse.take n = (w.reverse.drop k).take n := by
          refine ext_getElem? fun j => ?_
          by_cases hj : j < n
          · rw [getElem?_take_of_lt hj, getElem?_take_of_lt hj, getElem?_drop, hs j (by omega),
              hs (k + j) (by omega), hsame j hj, Nat.add_comm]
          · rw [getElem?_take_eq_none (Nat.not_lt.mp hj), getElem?_take_eq_none (Nat.not_lt.mp hj)]
        rw [heq]
        exact List.take_prefix n _
    · rintro ⟨u, rfl, hu, huk⟩
      rw [← List.reverse_prefix] at hu huk
      rw [rdrop_eq_reverse_drop_reverse, reverse_reverse] at huk
      have hlength := huk.length_le
      simp only [length_reverse, length_drop] at hlength
      refine ⟨by omega, fun j hj => ?_⟩
      have hj' : j < u.reverse.length := by rwa [length_reverse]
      have hfirst := List.prefix_iff_getElem?.mp hu j hj'
      have hsecond := List.prefix_iff_getElem?.mp huk j hj'
      rw [hs j (by omega)] at hfirst
      rw [getElem?_drop, hs (k + j) (by omega)] at hsecond
      have heq := hfirst.trans hsecond.symm
      rw [Nat.add_comm j k]
      exact Option.some.inj heq
  rw [hset]

end ZBox
