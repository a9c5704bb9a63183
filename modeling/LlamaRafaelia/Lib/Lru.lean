import Mathlib.Data.List.Nodup
import Mathlib.Data.List.Basic
import Mathlib.Tactic.Common

/-!
# Least recently used: the abstract policy

The policy remembers *all* keys that were ever used since it was cleared, the most recently used first.  A cache of
capacity `c` shows the first `c` of them (`State.visible`).

* `take_touch_of_mem`, `take_touch_of_notMem` - **what a use does to the visible part**: a visible key moves to the
  front, another one is put in front and the last visible one drops out.
-/

namespace Lru

open List

variable {K V : Type}

section Touch

variable [DecidableEq K]

def touch (k : K) (v : V) (l : List (K × V)) : List (K × V) := (k, v) :: l.filter fun p => p.1 ≠ k

theorem filter_ne_eq_self {l : List (K × V)} {k : K} (h : k ∉ l.map Prod.fst) : l.filter (fun p => p.1 ≠ k) = l := by
  refine filter_eq_self.mpr fun p hp => decide_eq_true ?_
  rintro rfl
  exact h (mem_map_of_mem hp)

omit [DecidableEq K] in
theorem exists_split {l : List (K × V)} {k : K} (hnodup : (l.map Prod.fst).Nodup) (h : k ∈ l.map Prod.fst) :
    ∃ l₁ v l₂, l = l₁ ++ (k, v) :: l₂ ∧ k ∉ l₁.map Prod.fst ∧ k ∉ l₂.map Prod.fst := by
  obtain ⟨⟨k', v⟩, hmem, rfl⟩ := mem_map.mp h
  obtain ⟨l₁, l₂, rfl⟩ := append_of_mem hmem
  rw [map_append, map_cons, nodup_append, nodup_cons] at hnodup
  refine ⟨l₁, v, l₂, rfl, fun hmem₁ => ?_, hnodup.2.1.1⟩
  exact hnodup.2.2 k' hmem₁ k' (mem_cons_self ..) rfl

theorem touch_split {l₁ l₂ : List (K × V)} {k : K} {w : V} (h₁ : k ∉ l₁.map Prod.fst) (h₂ : k ∉ l₂.map Prod.fst)
    (v : V) : touch k v (l₁ ++ (k, w) :: l₂) = (k, v) :: (l₁ ++ l₂) := by
  rw [touch, filter_append, filter_ne_eq_self h₁, filter_cons_of_neg (by simp), filter_ne_eq_self h₂]

theorem take_touch_of_mem {l : List (K × V)} (hnodup : (l.map Prod.fst).Nodup) {k : K} {c : ℕ}
    (h : k ∈ (l.take c).map Prod.fst) (v : V) : (touch k v l).take c = touch k v (l.take c) := by
  have hmem : k ∈ l.map Prod.fst := by
    rw [map_take] at h
    exact mem_of_mem_take h
  obtain ⟨l₁, w, l₂, rfl, h₁, h₂⟩ := exists_split hnodup hmem
  -- the key is among the first `c`, so what stands before it is shorter
  have hc : l₁.length < c := by
    by_contra hge
    rw [take_append_of_le_length (by omega), map_take] at h
    exact h₁ (mem_of_mem_take h)
  obtain ⟨d, rfl⟩ : ∃ d, c = l₁.length + (d + 1) := ⟨c - l₁.length - 1, by omega⟩
  have hvisible : (l₁ ++ (k, w) :: l₂).take (l₁.length + (d + 1)) = l₁ ++ (k, w) :: l₂.take d := by
    rw [take_length_add_append, take_succ_cons]
  have h₂' : k ∉ (l₂.take d).map Prod.fst := fun hmem =>
    h₂ (by rw [map_take] at hmem; exact mem_of_mem_take hmem)
  rw [hvisible, touch_split h₁ h₂, touch_split h₁ h₂', ← Nat.add_assoc, take_succ_cons,
    take_length_add_append]

/-- **A key that is not visible** is put in front, and the last visible one drops out. -/
theorem take_touch_of_notMem {l : List (K × V)} {k : K} {c : ℕ} (h : k ∉ (l.take c).map Prod.fst) (v : V) :
    (touch k v l).take c = ((k, v) :: l.take c).take c := by
  cases c with
  | zero => rfl
  | succ c =>
    have hfront : k ∉ (l.take c).map Prod.fst := fun hmem => h (by
      rw [map_take] at hmem ⊢
      exact take_subset_take_left _ (Nat.le_succ c) hmem)
    have hfilter : l.filter (fun p => p.1 ≠ k) = l.take c ++ (l.drop c).filter fun p => p.1 ≠ k := by
      conv_lhs => rw [← take_append_drop c l]
      rw [filter_append, filter_ne_eq_self hfront]
    rw [touch, take_succ_cons, take_succ_cons, take_take, Nat.min_eq_left (Nat.le_succ c), hfilter]
    congr 1
    by_cases hlen : c ≤ l.length
    · rw [take_append_of_le_length (by rw [length_take]; omega), take_take, Nat.min_self]
    · rw [drop_eq_nil_of_le (by omega), filter_nil, append_nil, take_take, Nat.min_self]

end Touch

/-! ### The policy as a machine -/

/-- All keys used since the last clear, the most recent first, with value and time; and the number of uses. -/
structure State (K V : Type) where
  recent : List (K × V × ℕ)
  clock : ℕ

/-- The operations. -/
inductive Op (K V : Type)
  | put (k : K) (v : V)
  | get (k : K)
  | clear

namespace State

def init : State K V := ⟨[], 0⟩

/-- What a cache of capacity `c` holds. -/
def visible (c : ℕ) (s : State K V) : List (K × V × ℕ) := s.recent.take c

/-- The keys are distinct, and the times decrease along the list. -/
structure Ok (s : State K V) : Prop where
  nodup : (s.recent.map Prod.fst).Nodup
  times : (s.recent.map fun p => p.2.2).Pairwise (· > ·)
  past : ∀ p ∈ s.recent, p.2.2 ≤ s.clock

theorem ok_init : (init : State K V).Ok := ⟨nodup_nil, List.Pairwise.nil, by simp [init]⟩

variable [DecidableEq K]

def use (s : State K V) (k : K) (v : V) : State K V := ⟨touch k (v, s.clock + 1) s.recent, s.clock + 1⟩

/-- The value under a key that a cache of capacity `c` holds. -/
def find (c : ℕ) (s : State K V) (k : K) : Option V :=
  ((s.visible c).find? fun p => decide (p.1 = k)).map fun p => p.2.1

theorem find_eq_none {c : ℕ} {s : State K V} {k : K} (h : k ∉ (s.visible c).map Prod.fst) : s.find c k = none := by
  refine Option.map_eq_none_iff.mpr (find?_eq_none.mpr fun p hp => ?_)
  rw [decide_eq_true_iff]
  rintro rfl
  exact h (mem_map_of_mem hp)

theorem find_eq_some {c : ℕ} {s : State K V} {k : K} {l₁ l₂ : List (K × V × ℕ)} {v : V} {t : ℕ}
    (h : s.visible c = l₁ ++ (k, v, t) :: l₂) (h₁ : k ∉ l₁.map Prod.fst) : s.find c k = some v := by
  have hbefore : l₁.find? (fun p => decide (p.1 = k)) = none := by
    refine find?_eq_none.mpr fun p hp => ?_
    rw [decide_eq_true_iff]
    rintro rfl
    exact h₁ (mem_map_of_mem hp)
  rw [find, h, find?_append, hbefore, find?_cons_of_pos (by simp)]
  rfl

/-- One operation, for a cache of capacity `c`. -/
def step (c : ℕ) (s : State K V) : Op K V → State K V
  | .put k v => s.use k v
  | .get k =>
    match s.find c k with
    | none => s
    | some v => s.use k v
  | .clear => ⟨[], s.clock⟩

theorem step_get_of_none {c : ℕ} {s : State K V} {k : K} (h : s.find c k = none) : s.step c (.get k) = s := by
  rw [step, h]

theorem step_get_of_some {c : ℕ} {s : State K V} {k : K} {v : V} (h : s.find c k = some v) :
    s.step c (.get k) = s.use k v := by
  rw [step, h]

theorem Ok.use {s : State K V} (h : s.Ok) (k : K) (v : V) : (s.use k v).Ok where
  nodup := by
    show ((k, _) :: s.recent.filter _).map Prod.fst |>.Nodup
    rw [map_cons, nodup_cons]
    constructor
    · intro hmem
      obtain ⟨p, hp, hk⟩ := mem_map.mp hmem
      exact of_decide_eq_true (mem_filter.mp hp).2 hk
    · exact h.nodup.sublist (filter_sublist.map Prod.fst)
  times := by
    show (((k, v, s.clock + 1) :: s.recent.filter _).map fun p => p.2.2).Pairwise (· > ·)
    rw [map_cons, pairwise_cons]
    constructor
    · intro t ht
      obtain ⟨p, hp, rfl⟩ := mem_map.mp ht
      exact Nat.lt_succ_of_le (h.past p (mem_filter.mp hp).1)
    · exact h.times.sublist (filter_sublist.map _)
  past := by
    intro p hp
    rcases mem_cons.mp hp with rfl | hp
    · exact Nat.le_refl _
    · exact Nat.le_succ_of_le (h.past p (mem_filter.mp hp).1)

theorem Ok.step {s : State K V} (h : s.Ok) (c : ℕ) (op : Op K V) : (s.step c op).Ok := by
  cases op with
  | put k v => exact h.use k v
  | get k =>
    cases hlookup : s.find c k with
    | none =>
      rw [step_get_of_none hlookup]
      exact h
    | some v =>
      rw [step_get_of_some hlookup]
      exact h.use k v
  | clear => exact ⟨nodup_nil, List.Pairwise.nil, by simp [State.step]⟩

end State

end Lru
