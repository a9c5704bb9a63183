import Mathlib.Data.List.Sort
import Mathlib.Logic.Function.Basic
import Mathlib.Tactic.Common
import Mathlib.Algebra.GroupWithZero.Nat

/-!
# Sorting by buckets

The largest values of a list, in order, are found bucket by bucket: all values of a bucket come before those of the buckets
below it, and only the bucket that the number of values falls into has to be sorted in part.

* `Leading.append` - **a sorted bucket, and the leading values of what is below it**;
* `Filling`, `Filling.put` - **blocks that are filled through one pointer each**.
-/

namespace Buckets

open List Function

variable {α L : Type} [LinearOrder L] {key : α → L} {l l' hi lo s t t' : List α}

/-! ### Leading values -/

/-- The values `t` of `l` in order, the largest key first; no other value has a larger key. -/
structure Leading (key : α → L) (l t : List α) : Prop where
  sorted : t.Pairwise fun a b => key b ≤ key a
  rest : ∃ rest, (t ++ rest).Perm l ∧ ∀ a ∈ t, ∀ b ∈ rest, key b ≤ key a

theorem Leading.of_perm (h : Leading key l t) (hperm : l.Perm l') : Leading key l' t := by
  obtain ⟨rest, hrest, hle⟩ := h.rest
  exact ⟨h.sorted, rest, hrest.trans hperm, hle⟩

/-- **A sorted bucket, and the leading values of what is below it.** -/
theorem Leading.append (hs : s.Perm hi) (hsorted : s.Pairwise fun a b => key b ≤ key a)
    (hbelow : ∀ a ∈ hi, ∀ b ∈ lo, key b ≤ key a) (ht : Leading key lo t) : Leading key (hi ++ lo) (s ++ t) := by
  obtain ⟨rest, hrest, hle⟩ := ht.rest
  have hmem : ∀ a ∈ s, ∀ b ∈ t ++ rest, key b ≤ key a :=
    fun a ha b hb => hbelow a (hs.mem_iff.mp ha) b (hrest.mem_iff.mp hb)
  constructor
  · rw [pairwise_append]
    exact ⟨hsorted, ht.sorted, fun a ha b hb => hmem a ha b (mem_append_left _ hb)⟩
  · refine ⟨rest, ?_, ?_⟩
    · rw [append_assoc]
      exact hs.append hrest
    · intro a ha b hb
      rcases mem_append.mp ha with ha | ha
      · exact hmem a ha b (mem_append_right _ hb)
      · exact hle a ha b hb

theorem Leading.append_below (h : Leading key hi t) (hbelow : ∀ a ∈ hi, ∀ b ∈ lo, key b ≤ key a) :
    Leading key (hi ++ lo) t := by
  obtain ⟨rest, hrest, hle⟩ := h.rest
  refine ⟨h.sorted, rest ++ lo, ?_, ?_⟩
  · rw [← append_assoc]
    exact hrest.append_right lo
  · intro a ha b hb
    rcases mem_append.mp hb with hb | hb
    · exact hle a ha b hb
    · exact hbelow a (hrest.mem_iff.mp (mem_append_left _ ha)) b hb

theorem Leading.keys_prefix (h : Leading key l t) :
    t.map key <+: (l.map key).insertionSort (fun a b => b ≤ a) := by
  obtain ⟨rest, hrest, hle⟩ := h.rest
  have hperm : (t.map key ++ (rest.map key).insertionSort (fun a b => b ≤ a)).Perm
      ((l.map key).insertionSort (fun a b => b ≤ a)) := by
    refine ((perm_insertionSort _ _).append_left _).trans ?_
    rw [← map_append]
    exact (hrest.map key).trans (perm_insertionSort _ _).symm
  have hsorted : (t.map key ++ (rest.map key).insertionSort (fun a b => b ≤ a)).Pairwise fun a b => b ≤ a := by
    rw [pairwise_append]
    refine ⟨pairwise_map.mpr h.sorted, pairwise_insertionSort _ _, ?_⟩
    intro a ha b hb
    rw [(perm_insertionSort _ _).mem_iff] at hb
    obtain ⟨x, hx, rfl⟩ := mem_map.mp ha
    obtain ⟨y, hy, rfl⟩ := mem_map.mp hb
    exact hle x hx y hy
  have heq := hperm.eq_of_pairwise (fun a b _ _ hab hba => le_antisymm hba hab) hsorted (pairwise_insertionSort _ _)
  exact ⟨_, heq⟩

/-- **The keys of the leading values** are the same, however equal keys are ordered. -/
theorem Leading.keys_eq (h : Leading key l t) (h' : Leading key l t') (hlength : t.length = t'.length) :
    t.map key = t'.map key := by
  have hp := prefix_iff_eq_take.mp h.keys_prefix
  have hp' := prefix_iff_eq_take.mp h'.keys_prefix
  rw [hp, hp', length_map, length_map, hlength]

/-! ### Buckets -/

theorem perm_buckets (f : α → ℕ) (l : List α) (m : ℕ) :
    (((range m).flatMap fun i => l.filter (f · = i)) ++ l.filter (m ≤ f ·)).Perm l := by
  induction m with
  | zero => simp
  | succ m ih =>
    refine List.Perm.trans ?_ ih
    rw [range_succ, flatMap_append, flatMap_singleton, append_assoc]
    refine List.Perm.append_left _ ?_
    have hfirst : (l.filter (m ≤ f ·)).filter (f · = m) = l.filter (f · = m) := by
      rw [filter_filter]
      refine filter_congr fun a _ => ?_
      rw [← Bool.decide_and, decide_eq_decide]
      omega
    have hrest : (l.filter (m ≤ f ·)).filter (fun a => !decide (f a = m)) = l.filter (m + 1 ≤ f ·) := by
      rw [filter_filter]
      refine filter_congr fun a _ => ?_
      rw [← decide_not, ← Bool.decide_and, decide_eq_decide]
      omega
    rw [← hfirst, ← hrest]
    exact filter_append_perm _ _

/-! ### Blocks that lie one behind the other -/

theorem flatMap_range_length_le (g : ℕ → List α) {m i : ℕ} (hi : i < m) :
    ((range i).flatMap g).length + (g i).length ≤ ((range m).flatMap g).length := by
  induction m with
  | zero => exact absurd hi (Nat.not_lt_zero i)
  | succ m ih =>
    rw [range_succ, flatMap_append, flatMap_singleton, length_append]
    by_cases him : i = m
    · rw [him]
    · have := ih (by omega)
      omega

theorem flatMap_range_set (g : ℕ → List α) {m i p : ℕ} (hi : i < m) (hp : p < (g i).length) (a : α) :
    ((range m).flatMap g).set (((range i).flatMap g).length + p) a =
      (range m).flatMap (update g i ((g i).set p a)) := by
  induction m with
  | zero => exact absurd hi (Nat.not_lt_zero i)
  | succ m ih =>
    rw [range_succ, flatMap_append, flatMap_append, flatMap_singleton, flatMap_singleton]
    by_cases him : i = m
    · subst him
      have hbefore : (range i).flatMap (update g i ((g i).set p a)) = (range i).flatMap g :=
        flatMap_congr fun j hj => update_of_ne (mem_range.mp hj).ne _ _
      rw [set_append_right _ _ (Nat.le_add_right _ _), Nat.add_sub_cancel_left, hbefore, update_self]
    · have hlt : i < m := by omega
      have hinside := flatMap_range_length_le g hlt
      rw [set_append_left _ _ (by omega), ih hlt, update_of_ne (Ne.symm him)]

/-- **Blocks that are filled from their beginnings**: `filled i` is in the block `i`, the rest of it is blank, and the
pointer of the block is behind what is filled. -/
structure Filling (blank : α) (m : ℕ) (size : ℕ → ℕ) (filled : ℕ → List α) (res : List α) (ptrs : List ℕ) : Prop where
  le : ∀ i < m, (filled i).length ≤ size i
  res : res = (range m).flatMap fun i => filled i ++ replicate (size i - (filled i).length) blank
  ptrs : ptrs = (range m).map fun i => ((range i).map size).sum + (filled i).length

variable {blank : α} {m : ℕ} {size : ℕ → ℕ} {filled : ℕ → List α} {res : List α} {ptrs : List ℕ}

theorem Filling.start (blank : α) (m : ℕ) (size : ℕ → ℕ) :
    Filling blank m size (fun _ => []) (replicate ((range m).map size).sum blank)
      ((range m).map fun i => ((range i).map size).sum) where
  le := fun i _ => Nat.zero_le (size i)
  res := by
    induction m with
    | zero => rfl
    | succ m ih =>
      rw [range_succ, map_append, sum_append, flatMap_append, ← ih, replicate_add]
      simp
  ptrs := rfl

theorem Filling.length_before (h : Filling blank m size filled res ptrs) {n : ℕ} (hn : n ≤ m) :
    ((range n).flatMap fun i => filled i ++ replicate (size i - (filled i).length) blank).length =
      ((range n).map size).sum := by
  induction n with
  | zero => rfl
  | succ n ih =>
    have hle := h.le n (by omega)
    rw [range_succ, flatMap_append, length_append, ih (by omega), map_append, sum_append,
      flatMap_singleton, length_append, length_replicate, map_singleton, sum_singleton]
    omega

theorem Filling.congr (h : Filling blank m size filled res ptrs) {filled' : ℕ → List α}
    (heq : ∀ i < m, filled' i = filled i) : Filling blank m size filled' res ptrs where
  le := fun i hi => (heq i hi).symm ▸ h.le i hi
  res := by
    rw [h.res]
    exact flatMap_congr fun i hi => by rw [heq i (mem_range.mp hi)]
  ptrs := by
    rw [h.ptrs]
    exact map_congr_left fun i hi => by rw [heq i (mem_range.mp hi)]

/-- **One more value** is written where the pointer of its block is. -/
theorem Filling.put (h : Filling blank m size filled res ptrs) {i : ℕ} (hi : i < m) (hroom : (filled i).length < size i)
    (a : α) :
    ∃ p, ptrs[i]? = some p ∧ p < res.length ∧
      Filling blank m size (update filled i (filled i ++ [a])) (res.set p a) (ptrs.set i (p + 1)) := by
  have hbegin := h.length_before hi.le
  have hend := flatMap_range_length_le
    (fun i => filled i ++ replicate (size i - (filled i).length) blank) hi
  rw [← h.res, hbegin, length_append, length_replicate] at hend
  refine ⟨((range i).map size).sum + (filled i).length, ?_, by omega, ?_, ?_, ?_⟩
  · rw [h.ptrs, getElem?_map, getElem?_range hi, Option.map_some]
  · intro j hj
    by_cases hij : j = i
    · rw [hij, update_self, length_append, length_singleton]
      exact hroom
    · rw [update_of_ne hij]
      exact h.le j hj
  · rw [h.res, ← hbegin, flatMap_range_set _ hi (by rw [length_append, length_replicate]; omega)]
    refine flatMap_congr fun j _ => ?_
    by_cases hij : j = i
    · subst hij
      have hblank : size j - (filled j).length = size j - ((filled j).length + 1) + 1 := by omega
      rw [update_self, update_self, set_append_right _ _ (Nat.le_refl _), Nat.sub_self, hblank,
        replicate_succ, set_cons_zero, length_append, length_singleton, append_assoc,
        singleton_append]
    · rw [update_of_ne hij, update_of_ne hij]
  · refine ext_getElem? fun j => ?_
    rw [h.ptrs]
    by_cases hij : j = i
    · subst hij
      rw [getElem?_set_self (by rwa [length_map, length_range]), getElem?_map, getElem?_range hi,
        Option.map_some, update_self, length_append, length_singleton, Nat.add_assoc]
    · rw [getElem?_set_ne (Ne.symm hij), getElem?_map, getElem?_map]
      by_cases hj : j < m
      · rw [getElem?_range hj, Option.map_some, Option.map_some, update_of_ne hij]
      · rw [getElem?_eq_none (by rw [length_range]; omega), Option.map_none, Option.map_none]

theorem Filling.full (h : Filling blank m size filled res ptrs) (hfull : ∀ i < m, size i ≤ (filled i).length) :
    res = (range m).flatMap filled := by
  rw [h.res]
  refine flatMap_congr fun i hi => ?_
  rw [Nat.sub_eq_zero_of_le (hfull i (mem_range.mp hi)), replicate_zero, append_nil]

end Buckets
