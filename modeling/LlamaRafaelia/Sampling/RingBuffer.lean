import Mathlib.Data.List.DropRight
import Mathlib.Data.Nat.ModEq
import Mathlib.Tactic.Common

/-!
# The ring buffer of the samplers

`ring_buffer` keeps the last `capacity` values that were pushed in a vector of fixed length, written cyclically.

* `Holds.push` - **pushing keeps the last `capacity` values**.
-/

namespace Sampling

open List

/-- `ring_buffer<T>`: the vector, the number of values in it, and where the oldest one is and the next one goes. -/
structure RingBuffer (α : Type) where
  capacity : ℕ
  sz : ℕ
  first : ℕ
  pos : ℕ
  data : List α
deriving DecidableEq, Repr

namespace RingBuffer

variable {α : Type}

/-- The constructor: a vector of `cap` default values. -/
def new [Inhabited α] (cap : ℕ) : RingBuffer α where
  capacity := cap
  sz := 0
  first := 0
  pos := 0
  data := List.replicate cap default

def size (rb : RingBuffer α) : ℕ := rb.sz

def front (rb : RingBuffer α) : Except String α :=
  if rb.sz = 0 then .error "ring buffer is empty"
  else
    match rb.data[rb.first]? with
    | some v => .ok v
    | none => .error "vector index out of range"

def pushed (rb : RingBuffer α) (value : α) : RingBuffer α where
  capacity := rb.capacity
  -- a full buffer advances its start
  first := if rb.sz = rb.capacity then (rb.first + 1) % rb.capacity else rb.first
  sz := if rb.sz = rb.capacity then rb.sz else rb.sz + 1
  data := rb.data.set rb.pos value
  pos := (rb.pos + 1) % rb.capacity

def push_back (rb : RingBuffer α) (value : α) : Except String (RingBuffer α) :=
  if rb.capacity = 0 then .error "ring buffer: capacity is zero" else .ok (rb.pushed value)

def rat (rb : RingBuffer α) (i : ℕ) : Except String α :=
  if rb.sz ≤ i then .error "ring buffer: index out of bounds"
  else
    match rb.data[(rb.first + rb.sz - i - 1) % rb.capacity]? with
    | some v => .ok v
    | none => .error "vector index out of range"

def clear (rb : RingBuffer α) : RingBuffer α := { rb with sz := 0, first := 0, pos := 0 }

/-! ### What a buffer holds -/

/-- The buffer holds the values of `l`, the oldest first. -/
structure Holds (rb : RingBuffer α) (l : List α) : Prop where
  length : rb.data.length = rb.capacity
  sz : rb.sz = l.length
  le : l.length ≤ rb.capacity
  first : rb.first < rb.capacity ∨ rb.capacity = 0
  pos : rb.pos = (rb.first + rb.sz) % rb.capacity
  value : ∀ i < l.length, rb.data[(rb.first + i) % rb.capacity]? = l[i]?

theorem new_holds [Inhabited α] (cap : ℕ) : (new cap : RingBuffer α).Holds [] where
  length := length_replicate
  sz := rfl
  le := Nat.zero_le _
  first := by
    show 0 < cap ∨ cap = 0
    omega
  pos := (Nat.zero_mod _).symm
  value := fun _ h => absurd h (Nat.not_lt_zero _)

theorem Holds.clear {rb : RingBuffer α} {l : List α} (h : rb.Holds l) : rb.clear.Holds [] where
  length := h.length
  sz := rfl
  le := Nat.zero_le _
  first := by
    show 0 < rb.capacity ∨ rb.capacity = 0
    omega
  pos := (Nat.zero_mod _).symm
  value := fun _ h => absurd h (Nat.not_lt_zero _)

theorem Holds.front {rb : RingBuffer α} {v : α} {l : List α} (h : rb.Holds (v :: l)) : rb.front = .ok v := by
  have hsz : rb.sz ≠ 0 := by
    rw [h.sz, length_cons]
    omega
  have hfirst : rb.first < rb.capacity := by
    rcases h.first with hlt | hzero
    · exact hlt
    · have hle := h.le
      rw [hzero, length_cons] at hle
      omega
  have hv := h.value 0 (Nat.succ_pos _)
  rw [Nat.add_zero, Nat.mod_eq_of_lt hfirst, getElem?_cons_zero] at hv
  rw [RingBuffer.front, if_neg hsz, hv]

theorem Holds.rat {rb : RingBuffer α} {l : List α} (h : rb.Holds l) {i : ℕ} {v : α} (hv : l.reverse[i]? = some v) :
    rb.rat i = .ok v := by
  have hi : i < l.length := by
    have := (List.getElem?_eq_some_iff.mp hv).1
    rwa [length_reverse] at this
  have hplace : rb.first + rb.sz - i - 1 = rb.first + (l.length - 1 - i) := by
    rw [h.sz]
    omega
  rw [getElem?_reverse hi] at hv
  rw [RingBuffer.rat, if_neg (by rw [h.sz]; exact Nat.not_le.mpr hi), hplace, h.value _ (by omega), hv]

theorem offset_inj {n a i j : ℕ} (hi : i < n) (hj : j < n) (h : (a + i) % n = (a + j) % n) : i = j := by
  have hmod : Nat.ModEq n i j := Nat.ModEq.add_left_cancel' a h
  exact hmod.eq_of_lt_of_lt hi hj

theorem Holds.pos_lt {rb : RingBuffer α} {l : List α} (h : rb.Holds l) (hcap : 0 < rb.capacity) :
    rb.pos < rb.data.length := by
  rw [h.length, h.pos]
  exact Nat.mod_lt _ hcap

theorem Holds.pushed_full {rb : RingBuffer α} {o v : α} {l : List α} (h : rb.Holds (o :: l))
    (hfull : l.length + 1 = rb.capacity) : (rb.pushed v).Holds (l ++ [v]) := by
  have hcap : 0 < rb.capacity := by omega
  have hsz : rb.sz = rb.capacity := h.sz.trans hfull
  have hpos : rb.pos = rb.first % rb.capacity := by rw [h.pos, hsz, Nat.add_mod_right]
  refine ⟨?_, ?_, ?_, ?_, ?_, ?_⟩
  · exact length_set.trans h.length
  · simp [pushed, hsz, hfull]
  · simp [pushed, hfull]
  · left
    simp only [pushed, if_pos hsz]
    exact Nat.mod_lt _ hcap
  · simp only [pushed, if_pos hsz]
    rw [hpos, hsz, Nat.add_mod_right, Nat.mod_add_mod, Nat.mod_mod]
  · intro i hi
    rw [length_append, length_singleton, hfull] at hi
    simp only [pushed, if_pos hsz, Nat.mod_add_mod]
    by_cases hi' : i = l.length
    · have hplace : (rb.first + 1 + i) % rb.capacity = rb.pos := by
        rw [hpos, hi', show rb.first + 1 + l.length = rb.first + rb.capacity from by omega, Nat.add_mod_right]
      rw [hplace, getElem?_set_self (h.pos_lt hcap), hi', getElem?_concat_length]
    · have hne : rb.pos ≠ (rb.first + 1 + i) % rb.capacity := by
        intro heq
        rw [hpos, Nat.add_assoc] at heq
        have := offset_inj (a := rb.first) hcap (show 1 + i < rb.capacity from by omega) heq
        omega
      rw [getElem?_set_ne hne, getElem?_append_left (by omega), Nat.add_assoc,
        h.value (1 + i) (by rw [length_cons]; omega), Nat.add_comm, getElem?_cons_succ]

theorem Holds.pushed_short {rb : RingBuffer α} {v : α} {l : List α} (h : rb.Holds l)
    (hlt : l.length < rb.capacity) : (rb.pushed v).Holds (l ++ [v]) := by
  have hcap : 0 < rb.capacity := by omega
  have hsz : rb.sz ≠ rb.capacity := by
    rw [h.sz]
    exact hlt.ne
  refine ⟨?_, ?_, ?_, ?_, ?_, ?_⟩
  · exact length_set.trans h.length
  · simp only [pushed, if_neg hsz, length_append, length_singleton]
    rw [h.sz]
  · rw [length_append, length_singleton]
    exact hlt
  · simpa only [pushed, if_neg hsz] using h.first
  · simp only [pushed, if_neg hsz, h.pos, Nat.mod_add_mod, Nat.add_assoc]
  · intro i hi
    rw [length_append, length_singleton] at hi
    simp only [pushed, if_neg hsz]
    by_cases hi' : i = l.length
    · rw [hi', ← h.sz, ← h.pos, getElem?_set_self (h.pos_lt hcap), h.sz, getElem?_concat_length]
    · have hne : rb.pos ≠ (rb.first + i) % rb.capacity := by
        intro heq
        rw [h.pos, h.sz] at heq
        exact hi' (offset_inj hlt (by omega) heq).symm
      rw [getElem?_set_ne hne, getElem?_append_left (by omega), h.value i (by omega)]

/-- **Pushing keeps the last values**: a full buffer drops its oldest one. -/
theorem Holds.push {rb : RingBuffer α} {l : List α} (h : rb.Holds l) (hcap : 0 < rb.capacity) (v : α) :
    rb.push_back v = .ok (rb.pushed v) ∧ (rb.pushed v).Holds ((l ++ [v]).rtake rb.capacity) := by
  refine ⟨if_neg hcap.ne', ?_⟩
  by_cases hfull : l.length = rb.capacity
  · obtain ⟨o, l, rfl⟩ := exists_cons_of_length_pos (l := l) (by omega)
    rw [length_cons] at hfull
    have hlast : ((o :: l) ++ [v]).rtake rb.capacity = l ++ [v] := by
      rw [List.rtake, ← hfull]
      simp
    rw [hlast]
    exact h.pushed_full hfull
  · have hlt : l.length < rb.capacity := Nat.lt_of_le_of_ne h.le hfull
    have hlast : (l ++ [v]).rtake rb.capacity = l ++ [v] := by
      rw [List.rtake, length_append, length_singleton, Nat.sub_eq_zero_of_le hlt, drop_zero]
    rw [hlast]
    exact h.pushed_short hlt

end RingBuffer

end Sampling
