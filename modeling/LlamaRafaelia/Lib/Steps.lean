import Mathlib.Data.List.Basic
import Mathlib.Tactic.Common

/-!
# Runs of a partial step function

A program takes step after step; a step may end it.  `Steps.run` is the state after a list of inputs.

* `Steps.run_keeps`, `Steps.run_keeps_from` - **what every good step keeps holds along a run of good steps**;
* `Steps.run_iff` - **every step conforms in every state of a run exactly when every step is a good one**, where an
  invariant holds as long as the steps are good, and under it good is the same as conforming.
-/

namespace Steps

open List

variable {σ ι : Type} (step : σ → ι → Option σ)

def run (s : σ) (l : List ι) : Option σ := l.foldlM step s

theorem run_concat (s : σ) (l : List ι) (i : ι) : run step s (l ++ [i]) = (run step s l).bind fun s' => step s' i := by
  rw [run, List.foldlM_append, ← run]
  cases run step s l with
  | none => rfl
  | some s' =>
    show (step s' i).bind some = step s' i
    exact Option.bind_fun_some _

/-- **Kept from a state of the run on.**  A property that every good step keeps, in a run of good steps. -/
theorem run_keeps_from {P : σ → Prop} {Good : σ → ι → Prop} (hstep : ∀ s i s', P s → Good s i → step s i = some s' → P s')
    {s₀ : σ} {l : List ι} (hgood : ∀ k i, l[k]? = some i → ∀ s, run step s₀ (l.take k) = some s → Good s i) {j : ℕ}
    (hj : ∀ s, run step s₀ (l.take j) = some s → P s) {k : ℕ} (hjk : j ≤ k) :
    ∀ s, run step s₀ (l.take k) = some s → P s := by
  induction hjk with
  | refl => exact hj
  | @step k _ ih =>
    intro s hs
    cases hi : l[k]? with
    | none =>
      rw [take_add_one, hi, Option.toList_none, append_nil] at hs
      exact ih s hs
    | some i =>
      rw [take_add_one, hi, Option.toList_some, run_concat, Option.bind_eq_some_iff] at hs
      obtain ⟨s', hs', hlast⟩ := hs
      exact hstep s' i s (ih s' hs') (hgood k i hi s' hs') hlast

theorem run_keeps {P : σ → Prop} {Good : σ → ι → Prop} (hstep : ∀ s i s', P s → Good s i → step s i = some s' → P s')
    {s₀ : σ} (h₀ : P s₀) {l : List ι}
    (hgood : ∀ k i, l[k]? = some i → ∀ s, run step s₀ (l.take k) = some s → Good s i) {s : σ}
    (hs : run step s₀ l = some s) : P s := by
  have hstart : ∀ s, run step s₀ (l.take 0) = some s → P s := fun s hs => Option.some.inj hs ▸ h₀
  rw [← take_length (l := l)] at hs
  exact run_keeps_from step hstep hgood hstart (Nat.zero_le _) s hs

/-- **Conforming runs.**  `P` is what should hold of every state, `Conf` what should hold of every step, and `Good` the
condition under which it does. -/
theorem run_iff {P : σ → Prop} {Conf Good : σ → ι → Prop} (hiff : ∀ s i, P s → (Conf s i ↔ Good s i))
    (hstep : ∀ s i s', P s → Good s i → step s i = some s' → P s') {s₀ : σ} (h₀ : P s₀) (l : List ι) :
    (∀ k s, run step s₀ (l.take k) = some s → P s ∧ ∀ i, l[k]? = some i → Conf s i) ↔
      ∀ k i, l[k]? = some i → ∀ s, run step s₀ (l.take k) = some s → Good s i := by
  constructor
  · intro h k i hi s hs
    obtain ⟨hP, hconf⟩ := h k s hs
    exact (hiff s i hP).mp (hconf i hi)
  · intro h
    have hstart : ∀ s, run step s₀ (l.take 0) = some s → P s := fun s hs => Option.some.inj hs ▸ h₀
    have hP : ∀ k s, run step s₀ (l.take k) = some s → P s :=
      fun k => run_keeps_from step hstep h hstart (Nat.zero_le k)
    intro k s hs
    exact ⟨hP k s hs, fun i hi => (hiff s i (hP k s hs)).mpr (h k i hi s hs)⟩

/-! ### Total steps -/

/-- **A property holds always exactly when every step is a good one**, where good steps are those that keep it. -/
theorem foldl_always_iff {next : σ → ι → σ} {P : σ → Prop} {Good : σ → ι → Prop}
    (hiff : ∀ s i, P s → (P (next s i) ↔ Good s i)) {s₀ : σ} (h₀ : P s₀) (l : List ι) :
    (∀ k, P ((l.take k).foldl next s₀)) ↔ ∀ k i, l[k]? = some i → Good ((l.take k).foldl next s₀) i := by
  have hnext : ∀ k i, l[k]? = some i → (l.take (k + 1)).foldl next s₀ = next ((l.take k).foldl next s₀) i := by
    intro k i hi
    rw [take_add_one, hi, Option.toList_some, foldl_append, foldl_cons, foldl_nil]
  constructor
  · intro h k i hi
    have hlast := h (k + 1)
    rw [hnext k i hi] at hlast
    exact (hiff _ i (h k)).mp hlast
  · intro h k
    induction k with
    | zero => exact h₀
    | succ k ih =>
      cases hi : l[k]? with
      | none =>
        rw [take_add_one, hi, Option.toList_none, append_nil]
        exact ih
      | some i =>
        rw [hnext k i hi]
        exact (hiff _ i ih).mpr (h k i hi)

end Steps
