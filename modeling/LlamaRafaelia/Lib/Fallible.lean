import LlamaRafaelia.Lib.Checked

/-!
# Computations that change a state and may throw

`Fallible σ ε α` changes a state `σ` and ends with a value or with an exception `ε`, which does not undo anything.  
Assertions are recorded as in `Checked`.
-/

def Fallible (σ ε α : Type) : Type := σ → Checked (Except ε α × σ)

namespace Fallible

variable {σ ε α β : Type}

def run (x : Fallible σ ε α) (s : σ) : Except ε α × σ := (x s).value

instance : Monad (Fallible σ ε) where
  pure a := fun s => pure (.ok a, s)
  bind x f := fun s => do
    let r ← x s
    match r.1 with
    | .ok a => f a r.2
    | .error e => return (.error e, r.2)

/-- `throw`. -/
def throw (e : ε) : Fallible σ ε α := fun s => pure (.error e, s)

def get : Fallible σ ε σ := fun s => pure (.ok s, s)

def set (s : σ) : Fallible σ ε Unit := fun _ => pure (.ok (), s)

def lift (x : Checked α) : Fallible σ ε α := fun s => do
  let a ← x
  return (.ok a, s)

@[simp] theorem run_pure (a : α) (s : σ) : (pure a : Fallible σ ε α).run s = (.ok a, s) := rfl

@[simp] theorem run_throw (e : ε) (s : σ) : (throw e : Fallible σ ε α).run s = (.error e, s) := rfl

@[simp] theorem run_get (s : σ) : (get : Fallible σ ε σ).run s = (.ok s, s) := rfl

@[simp] theorem run_set (s s' : σ) : (set s' : Fallible σ ε Unit).run s = (.ok (), s') := rfl

@[simp] theorem run_lift (x : Checked α) (s : σ) : (lift x : Fallible σ ε α).run s = (.ok x.value, s) := rfl

theorem run_bind (x : Fallible σ ε α) (f : α → Fallible σ ε β) (s : σ) :
    (x >>= f).run s = match x.run s with
      | (.ok a, s') => (f a).run s'
      | (.error e, s') => (.error e, s') := by
  show Checked.value (do
    let r ← x s
    match r.1 with
    | .ok a => f a r.2
    | .error e => return (.error e, r.2)) = _
  rw [Checked.bind_value, run]
  obtain ⟨r, s'⟩ := (x s).value
  cases r with
  | ok a => rfl
  | error e => rfl

theorem run_bind_ok {x : Fallible σ ε α} {f : α → Fallible σ ε β} {s s' : σ} {a : α}
    (h : x.run s = (.ok a, s')) : (x >>= f).run s = (f a).run s' := by
  rw [run_bind, h]

theorem run_bind_error {x : Fallible σ ε α} {f : α → Fallible σ ε β} {s s' : σ} {e : ε}
    (h : x.run s = (.error e, s')) : (x >>= f).run s = (.error e, s') := by
  rw [run_bind, h]

theorem run_bind_congr {x : Fallible σ ε α} {f g : α → Fallible σ ε β} (h : ∀ a s, (f a).run s = (g a).run s) (s : σ) :
    (x >>= f).run s = (x >>= g).run s := by
  rw [run_bind, run_bind]
  obtain ⟨r, s'⟩ := x.run s
  cases r with
  | ok a => exact h a s'
  | error e => rfl

theorem run_bind_assoc {γ : Type} (x : Fallible σ ε α) (f : α → Fallible σ ε β) (g : β → Fallible σ ε γ) (s : σ) :
    ((x >>= f) >>= g).run s = (x >>= fun a => f a >>= g).run s := by
  rw [run_bind, run_bind, run_bind]
  obtain ⟨r, s'⟩ := x.run s
  cases r with
  | ok a => exact (run_bind (f a) g s').symm
  | error e => rfl

@[simp] theorem run_ite (p : Prop) [Decidable p] (x y : Fallible σ ε α) (s : σ) :
    (if p then x else y).run s = if p then x.run s else y.run s := by
  split <;> rfl

/-! ### Loops -/

theorem forM_cons (f : α → Fallible σ ε Unit) (x : α) (l : List α) :
    (x :: l).forM f = f x >>= fun _ => l.forM f := rfl

theorem forM_append_ok {f : α → Fallible σ ε Unit} {l : List α} (m : List α) {s s' : σ}
    (h : (l.forM f).run s = (.ok (), s')) : ((l ++ m).forM f).run s = (m.forM f).run s' := by
  induction l generalizing s with
  | nil =>
    obtain rfl : s = s' := congrArg Prod.snd h
    rfl
  | cons x l ih =>
    rw [forM_cons, run_bind] at h
    rw [List.cons_append, forM_cons, run_bind]
    split at h
    · next a s1 hx => exact ih h
    · simp at h

theorem forM_rule {f : α → Fallible σ ε Unit} (I : List α → σ → Prop) (l : List α) {s : σ} (h0 : I [] s)
    (hstep : ∀ done x rest t, l = done ++ x :: rest → I done t →
      ∃ t', (f x).run t = (.ok (), t') ∧ I (done ++ [x]) t') :
    ∃ s', (l.forM f).run s = (.ok (), s') ∧ I l s' := by
  have key : ∀ (rest done : List α) (t : σ), l = done ++ rest → I done t →
      ∃ s', (rest.forM f).run t = (.ok (), s') ∧ I l s' := by
    intro rest
    induction rest with
    | nil =>
      intro done t hl hI
      rw [List.append_nil] at hl
      exact ⟨t, rfl, hl ▸ hI⟩
    | cons x rest ih =>
      intro done t hl hI
      obtain ⟨t', hrun, hI'⟩ := hstep done x rest t hl hI
      obtain ⟨s', hrest, hend⟩ := ih (done ++ [x]) t' (by simpa using hl) hI'
      refine ⟨s', ?_, hend⟩
      show (f x >>= fun _ => rest.forM f).run t = _
      rw [run_bind_ok hrun]
      exact hrest
  exact key l [] s rfl h0

end Fallible
