import Mathlib.Data.List.Basic
import Mathlib.Tactic.Common

/-!
# Checked computations: a value together with the assertions met on the way

A C++ function compiled without `NDEBUG` stops at the first `assert` that fails; compiled with it, the function runs
on.  `Checked α` describes both builds with one definition; `loop_rule` and `loopRange_rule` are the rules for a `for`
loop.

* `checks` does the same for the checks that are compiled into every build and abort the process.
-/

/-- A value, the conjunction of the `assert`s evaluated on the way, and the conjunction of the
checks that stay in every build. -/
structure Checked (α : Type*) where
  value : α
  asserts : Bool
  checks : Bool

namespace Checked

open List

variable {α β σ ι : Type}

instance : Monad Checked where
  pure a := ⟨a, true, true⟩
  bind x f :=
    let y := f x.value
    ⟨y.value, x.asserts && y.asserts, x.checks && y.checks⟩

/-- `assert(b)`: recorded, and removed from the build that defines `NDEBUG`. -/
def assert (b : Bool) : Checked Unit := ⟨(), b, true⟩

def check (b : Bool) : Checked Unit := ⟨(), true, b⟩

@[simp] theorem pure_value (a : α) : (pure a : Checked α).value = a := rfl

@[simp] theorem pure_asserts (a : α) : (pure a : Checked α).asserts = true := rfl

@[simp] theorem pure_checks (a : α) : (pure a : Checked α).checks = true := rfl

@[simp] theorem bind_value (x : Checked α) (f : α → Checked β) :
    (x >>= f).value = (f x.value).value := rfl

@[simp] theorem bind_asserts (x : Checked α) (f : α → Checked β) :
    (x >>= f).asserts = (x.asserts && (f x.value).asserts) := rfl

@[simp] theorem bind_checks (x : Checked α) (f : α → Checked β) :
    (x >>= f).checks = (x.checks && (f x.value).checks) := rfl

@[simp] theorem assert_asserts (b : Bool) : (assert b).asserts = b := rfl

@[simp] theorem assert_checks (b : Bool) : (assert b).checks = true := rfl

@[simp] theorem check_asserts (b : Bool) : (check b).asserts = true := rfl

@[simp] theorem check_checks (b : Bool) : (check b).checks = b := rfl

@[simp] theorem ite_value (p : Prop) [Decidable p] (x y : Checked α) :
    (if p then x else y).value = if p then x.value else y.value := apply_ite _ _ _ _

@[simp] theorem ite_asserts (p : Prop) [Decidable p] (x y : Checked α) :
    (if p then x else y).asserts = if p then x.asserts else y.asserts := apply_ite _ _ _ _

@[simp] theorem ite_checks (p : Prop) [Decidable p] (x y : Checked α) :
    (if p then x else y).checks = if p then x.checks else y.checks := apply_ite _ _ _ _

/-! ### Loops -/

/-- A `for` loop over the indices in `l`, threading the state. -/
def loop (f : σ → ι → Checked σ) : σ → List ι → Checked σ
  | s, [] => pure s
  | s, i :: is => do
    let s' ← f s i
    loop f s' is

/-- The loop `for (i = 0; i < n; ++i)`. -/
def loopRange (n : ℕ) (f : σ → ℕ → Checked σ) (s : σ) : Checked σ := loop f s (List.range n)

@[simp] theorem loop_nil (f : σ → ι → Checked σ) (s : σ) : loop f s [] = pure s := rfl

theorem loop_cons (f : σ → ι → Checked σ) (s : σ) (i : ι) (is : List ι) :
    loop f s (i :: is) = f s i >>= fun s' => loop f s' is := rfl

theorem loop_value (f : σ → ι → Checked σ) (s : σ) (l : List ι) :
    (loop f s l).value = l.foldl (fun t i => (f t i).value) s := by
  induction l generalizing s with
  | nil => rfl
  | cons i is ih => exact ih (f s i).value

theorem loop_append_value (f : σ → ι → Checked σ) (s : σ) (l m : List ι) :
    (loop f s (l ++ m)).value = (loop f (loop f s l).value m).value := by
  simp only [loop_value, foldl_append]

theorem loop_append_asserts (f : σ → ι → Checked σ) (s : σ) (l m : List ι) :
    (loop f s (l ++ m)).asserts
      = ((loop f s l).asserts && (loop f (loop f s l).value m).asserts) := by
  induction l generalizing s with
  | nil => simp
  | cons i is ih =>
    simp only [cons_append, loop_cons, bind_asserts, bind_value, ih, Bool.and_assoc]

theorem loop_checks {f : σ → ι → Checked σ} (h : ∀ s i, (f s i).checks = true) (s : σ) (l : List ι) :
    (loop f s l).checks = true := by
  induction l generalizing s with
  | nil => rfl
  | cons i is ih => rw [loop_cons, bind_checks, h, ih, Bool.and_self]

/-- **The loop rule.**  If an iteration meets its assertions and carries `I` from the indices done
so far to one more, then the whole loop meets its assertions and ends in `I`. -/
theorem loop_rule {f : σ → ι → Checked σ} (I : List ι → σ → Prop) (l : List ι) {s : σ}
    (h0 : I [] s)
    (hstep : ∀ done i rest t, l = done ++ i :: rest → I done t →
      (f t i).asserts = true ∧ I (done ++ [i]) (f t i).value) :
    (loop f s l).asserts = true ∧ I l (loop f s l).value := by
  -- generalise over the prefix already done
  have key : ∀ (rest done : List ι) (t : σ), l = done ++ rest → I done t →
      (loop f t rest).asserts = true ∧ I l (loop f t rest).value := by
    intro rest
    induction rest with
    | nil =>
      intro done t hl hI
      rw [append_nil] at hl
      exact ⟨rfl, hl ▸ hI⟩
    | cons i is ih =>
      intro done t hl hI
      obtain ⟨ha, hn⟩ := hstep done i is t hl hI
      obtain ⟨ha', hn'⟩ := ih (done ++ [i]) (f t i).value (by simpa using hl) hn
      exact ⟨by simp only [loop_cons, bind_asserts, ha, ha', Bool.and_self], hn'⟩
  exact key l [] s rfl h0

theorem loop_value_rule {f : σ → ι → Checked σ} (I : List ι → σ → Prop) (l : List ι) {s : σ}
    (h0 : I [] s)
    (hstep : ∀ done i rest t, l = done ++ i :: rest → I done t → I (done ++ [i]) (f t i).value) :
    I l (loop f s l).value := by
  have h := loop_rule (f := fun t i => (⟨(f t i).value, true, true⟩ : Checked σ)) I l h0
    (fun done i rest t hl hI => ⟨rfl, hstep done i rest t hl hI⟩)
  rw [loop_value] at h ⊢
  exact h.2

theorem range_split {n i : ℕ} {done rest : List ℕ} (h : List.range n = done ++ i :: rest) :
    i < n ∧ done = List.range i := by
  have hlen : done.length < n := by
    have := congrArg List.length h
    simp only [length_range, length_append, length_cons] at this
    omega
  have hi : i = done.length := by
    have := congrArg (fun l => l[done.length]?) h
    simpa [getElem?_range hlen] using this.symm
  have hdone : done = (List.range n).take done.length := by rw [h, take_left]
  refine ⟨by omega, ?_⟩
  rw [hdone, take_range, hi, Nat.min_eq_left (Nat.le_of_lt hlen)]

/-- **The counted loop rule.**  `I i` holds before iteration `i`; it holds at `n` afterwards. -/
theorem loopRange_rule {f : σ → ℕ → Checked σ} (I : ℕ → σ → Prop) (n : ℕ) {s : σ}
    (h0 : I 0 s)
    (hstep : ∀ i t, i < n → I i t → (f t i).asserts = true ∧ I (i + 1) (f t i).value) :
    (loopRange n f s).asserts = true ∧ I n (loopRange n f s).value := by
  have h := loop_rule (f := f) (fun done t => I done.length t) (List.range n) h0
    (fun done i rest t hl hI => by
      obtain ⟨hi, rfl⟩ := range_split hl
      simp only [length_range, length_append, length_singleton] at hI ⊢
      exact hstep i t hi hI)
  simpa only [length_range, loopRange] using h

theorem loopRange_value_rule {f : σ → ℕ → Checked σ} (I : ℕ → σ → Prop) (n : ℕ) {s : σ}
    (h0 : I 0 s) (hstep : ∀ i t, i < n → I i t → I (i + 1) (f t i).value) :
    I n (loopRange n f s).value := by
  have h := loop_value_rule (f := f) (fun done t => I done.length t) (List.range n) h0
    (fun done i rest t hl hI => by
      obtain ⟨hi, rfl⟩ := range_split hl
      simp only [length_range, length_append, length_singleton] at hI ⊢
      exact hstep i t hi hI)
  simpa only [length_range, loopRange] using h

theorem loopRange_checks_rule {f : σ → ℕ → Checked σ} (I : ℕ → σ → Prop) (n : ℕ) {s : σ} (h0 : I 0 s)
    (hstep : ∀ i t, i < n → I i t → (f t i).checks = true ∧ I (i + 1) (f t i).value) :
    (loopRange n f s).checks = true ∧ I n (loopRange n f s).value := by
  induction n with
  | zero => exact ⟨rfl, h0⟩
  | succ n ih =>
    obtain ⟨hc, hI⟩ := ih fun i t hi ht => hstep i t (by omega) ht
    obtain ⟨hc', hI'⟩ := hstep n _ (Nat.lt_succ_self n) hI
    have happ : ∀ (l : List ℕ) (s : σ), (loop f s (l ++ [n])).checks
        = ((loop f s l).checks && (f (loop f s l).value n).checks) := by
      intro l
      induction l with
      | nil => simp [loop_cons]
      | cons i l ihl =>
        intro s
        simp only [cons_append, loop_cons, bind_checks, bind_value, ihl, Bool.and_assoc]
    rw [loopRange, range_succ]
    refine ⟨?_, ?_⟩
    · rw [happ]
      exact Bool.and_eq_true_iff.mpr ⟨hc, hc'⟩
    · rw [loop_append_value]
      exact hI'

theorem loopRange_asserts_step {f : σ → ℕ → Checked σ} (I : σ → Prop) {P : ℕ → Prop} {n : ℕ} {s : σ}
    (h0 : I s) (hI : ∀ t j, I t → I (f t j).value)
    (hf : ∀ t j, I t → (f t j).asserts = true → P j)
    (h : (loopRange n f s).asserts = true) : ∀ j < n, P j := by
  induction n with
  | zero => intro j hj; omega
  | succ n ih =>
    rw [loopRange, range_succ, loop_append_asserts, Bool.and_eq_true] at h
    intro j hj
    rcases Nat.lt_succ_iff_lt_or_eq.mp hj with hlt | rfl
    · exact ih h.1 j hlt
    · simp only [loop_cons, loop_nil, bind_asserts, Bool.and_eq_true] at h
      refine hf _ j (loop_value_rule (fun _ => I) _ h0 ?_) h.2.1
      exact fun _ k _ t _ ht => hI t k ht

end Checked
