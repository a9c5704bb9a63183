import LlamaRafaelia.Lib.Leftmost
import Mathlib.Computability.Language
import Mathlib.Order.CompletePartialOrder

/-!
# The languages of forms

The words that a form derives, as a language, for the grammars of `Leftmost`.  The language of a form is the product of
the languages of its symbols, and those are the least solution of the productions.

* `Leftmost.words_le` - **the least solution**: whatever contains what the productions make contains the language.
-/

namespace Leftmost

open scoped Computability

variable {T N : Type*} {P : N → List (T ⊕ N) → Prop} {α β γ : List (T ⊕ N)}

def words (P : N → List (T ⊕ N) → Prop) (α : List (T ⊕ N)) : Language T := {w | Derives P α (w.map Sum.inl)}

theorem mem_words {w : List T} : w ∈ words P α ↔ Consumes P α w [] := derives_iff_consumes

def eval (I : N → Language T) : List (T ⊕ N) → Language T
  | [] => 1
  | Sum.inl c :: γ => {[c]} * eval I γ
  | Sum.inr A :: γ => I A * eval I γ

theorem eval_append (I : N → Language T) (α β : List (T ⊕ N)) : eval I (α ++ β) = eval I α * eval I β := by
  induction α with
  | nil => exact (one_mul _).symm
  | cons x α ih =>
    cases x with
    | inl c => rw [List.cons_append, eval, eval, ih, mul_assoc]
    | inr A => rw [List.cons_append, eval, eval, ih, mul_assoc]

theorem eval_mono {I J : N → Language T} (h : ∀ A, I A ≤ J A) (α : List (T ⊕ N)) : eval I α ≤ eval J α := by
  induction α with
  | nil => exact le_refl _
  | cons x α ih =>
    cases x with
    | inl c => exact mul_le_mul_right ih _
    | inr A => exact mul_le_mul' (h A) ih

theorem words_le_eval {I : N → Language T} (h : ∀ A δ, P A δ → eval I δ ≤ I A) (α : List (T ⊕ N)) :
    words P α ≤ eval I α := by
  intro w hw
  have hread := (mem_words).mp hw
  clear hw
  generalize hend : ([] : List (T ⊕ N)) = ω at hread
  induction hread with
  | stop β =>
    rw [← hend]
    exact Language.nil_mem_one
  | @expand A δ γ β w hprod _ ih =>
    have hmem : w ∈ eval I δ * eval I γ := by
      rw [← eval_append]
      exact ih hend
    exact mul_le_mul_left (h A δ hprod) (eval I γ) hmem
  | read c _ ih => exact Language.append_mem_mul (Set.mem_singleton [c]) (ih hend)

theorem words_nil : words P [] = 1 := by
  ext w
  rw [mem_words, Language.mem_one]
  constructor
  · intro h
    cases h
    rfl
  · intro h
    rw [h]
    exact Consumes.stop []

theorem mul_words_le (α β : List (T ⊕ N)) : words P α * words P β ≤ words P (α ++ β) := by
  intro w hw
  obtain ⟨u, hu, v, hv, rfl⟩ := Language.mem_mul.mp hw
  rw [mem_words] at hu hv
  refine (mem_words).mpr ?_
  clear hw
  generalize hend : ([] : List (T ⊕ N)) = ω at hu
  induction hu with
  | stop ω =>
    rw [← hend]
    exact hv
  | @expand A δ γ ω u hprod _ ih =>
    refine Consumes.expand hprod ?_
    show Consumes P (δ ++ (γ ++ β)) (u ++ v) ω
    rw [← List.append_assoc]
    exact ih hend
  | read c _ ih => exact Consumes.read c (ih hend)

theorem words_of_production {A : N} {δ : List (T ⊕ N)} (h : P A δ) : words P δ ≤ words P [Sum.inr A] := by
  intro w hw
  refine (mem_words).mpr (Consumes.expand h ?_)
  rw [List.append_nil]
  exact (mem_words).mp hw

theorem eval_words_le (α : List (T ⊕ N)) : eval (fun A => words P [Sum.inr A]) α ≤ words P α := by
  induction α with
  | nil => exact le_of_eq (words_nil).symm
  | cons x α ih =>
    cases x with
    | inl c =>
      have hletter : ({[c]} : Language T) ≤ words P [Sum.inl c] := by
        intro w hw
        rw [Set.mem_singleton_iff.mp hw]
        exact (mem_words).mpr (Consumes.read c (Consumes.stop []))
      exact (mul_le_mul' hletter ih).trans (mul_words_le [Sum.inl c] α)
    | inr A => exact (mul_le_mul_right ih _).trans (mul_words_le [Sum.inr A] α)

/-- **The language of a form** is made of those of its symbols. -/
theorem eval_words (α : List (T ⊕ N)) : eval (fun A => words P [Sum.inr A]) α = words P α :=
  le_antisymm (eval_words_le α)
    (words_le_eval (fun _ δ hprod => (eval_words_le δ).trans (words_of_production hprod)) α)

theorem words_append (α β : List (T ⊕ N)) : words P (α ++ β) = words P α * words P β := by
  rw [← eval_words, eval_append, eval_words, eval_words]

theorem words_le {I : N → Language T} (h : ∀ A δ, P A δ → eval I δ ≤ I A) (A : N) : words P [Sum.inr A] ≤ I A := by
  have hle := words_le_eval h [Sum.inr A]
  rw [eval, eval, mul_one] at hle
  exact hle

theorem mem_words_nonterminal {A : N} {w : List T} : w ∈ words P [Sum.inr A] ↔ ∃ δ, P A δ ∧ w ∈ words P δ := by
  constructor
  · intro hw
    have hread := (mem_words).mp hw
    cases hread with
    | expand hprod hread =>
      rw [List.append_nil] at hread
      exact ⟨_, hprod, (mem_words).mpr hread⟩
  · intro ⟨δ, hprod, hw⟩
    exact words_of_production hprod hw

theorem words_optional {A : N} (hA : ∀ δ, P A δ ↔ δ = α ∨ δ = []) : words P [Sum.inr A] = words P α + 1 := by
  ext w
  rw [mem_words_nonterminal, Language.mem_add]
  simp only [hA, or_and_right, exists_or, exists_eq_left, words_nil]

theorem words_star {A : N} (hA : ∀ δ, P A δ ↔ δ = β ++ [Sum.inr A] ∨ δ = []) :
    words P [Sum.inr A] = (words P β)∗ := by
  classical
  have hnil : (1 : Language T) ≤ words P [Sum.inr A] := by
    rw [← words_nil (P := P)]
    exact words_of_production ((hA []).mpr (Or.inr rfl))
  have hmore : words P β * words P [Sum.inr A] ≤ words P [Sum.inr A] := by
    rw [← words_append]
    exact words_of_production ((hA _).mpr (Or.inl rfl))
  have hge : (words P β)∗ ≤ words P [Sum.inr A] := by
    calc (words P β)∗ = (words P β)∗ * 1 := (mul_one _).symm
      _ ≤ (words P β)∗ * words P [Sum.inr A] := mul_le_mul_right hnil _
      _ ≤ words P [Sum.inr A] := kstar_mul_le_self hmore
  -- The star, and the other nonterminals as they are, solve the productions.
  have hbelow (B : N) : (if B = A then (words P β)∗ else words P [Sum.inr B]) ≤ words P [Sum.inr B] := by
    split
    · next h =>
      rw [h]
      exact hge
    · exact le_refl _
  refine le_antisymm ?_ hge
  have hle := words_le (P := P) (I := fun B => if B = A then (words P β)∗ else words P [Sum.inr B])
    (fun B δ hprod => ?_) A
  · rwa [if_pos rfl] at hle
  · split
    · next h =>
      rw [h] at hprod
      obtain rfl | rfl := (hA δ).mp hprod
      · rw [eval_append, eval, eval, mul_one, if_pos rfl]
        have hβ := (eval_mono hbelow β).trans (eval_words_le β)
        exact (mul_le_mul_left hβ _).trans mul_kstar_le_kstar
      · exact one_le_kstar
    · exact ((eval_mono hbelow δ).trans (eval_words_le δ)).trans (words_of_production hprod)

end Leftmost

/-! ### Powers -/

namespace Language

open scoped Computability

variable {α : Type*} {l : Language α}

/-- The powers with an exponent from `K`. -/
def powers (K : Set ℕ) (l : Language α) : Language α := {w | ∃ k ∈ K, w ∈ l ^ k}

theorem mem_powers {K : Set ℕ} {w : List α} : w ∈ powers K l ↔ ∃ k ∈ K, w ∈ l ^ k := Iff.rfl

theorem powers_univ : powers Set.univ l = l∗ := by
  ext w
  rw [kstar_eq_iSup_pow, mem_iSup, mem_powers]
  exact ⟨fun ⟨k, _, hk⟩ => ⟨k, hk⟩, fun ⟨k, hk⟩ => ⟨k, trivial, hk⟩⟩

theorem powers_zero : powers (Set.Iic 0) l = 1 := by
  ext w
  rw [mem_powers]
  constructor
  · intro ⟨k, hk, hw⟩
    rw [Nat.le_zero.mp hk, pow_zero] at hw
    exact hw
  · intro hw
    exact ⟨0, le_refl 0, by rw [pow_zero]; exact hw⟩

theorem powers_succ (n : ℕ) : powers (Set.Iic (n + 1)) l = l * powers (Set.Iic n) l + 1 := by
  ext w
  rw [mem_powers, mem_add, mem_mul]
  constructor
  · intro ⟨k, hk, hw⟩
    cases k with
    | zero =>
      rw [pow_zero] at hw
      exact Or.inr hw
    | succ k =>
      rw [pow_succ'] at hw
      obtain ⟨u, hu, v, hv, rfl⟩ := mem_mul.mp hw
      exact Or.inl ⟨u, hu, v, ⟨k, Nat.le_of_succ_le_succ hk, hv⟩, rfl⟩
  · intro hw
    obtain ⟨u, hu, v, ⟨k, hk, hv⟩, rfl⟩ | hw := hw
    · refine ⟨k + 1, Nat.succ_le_succ hk, ?_⟩
      rw [pow_succ']
      exact append_mem_mul hu hv
    · exact ⟨0, Nat.zero_le _, by rw [pow_zero]; exact hw⟩

theorem pow_mul_powers (m : ℕ) (K : Set ℕ) : l ^ m * powers K l = powers ((m + ·) '' K) l := by
  ext w
  rw [mem_mul, mem_powers]
  constructor
  · intro ⟨u, hu, v, ⟨k, hk, hv⟩, huv⟩
    refine ⟨m + k, ⟨k, hk, rfl⟩, ?_⟩
    rw [pow_add, ← huv]
    exact append_mem_mul hu hv
  · intro ⟨_, ⟨k, hk, rfl⟩, hw⟩
    dsimp only at hw
    rw [pow_add] at hw
    obtain ⟨u, hu, v, hv, huv⟩ := mem_mul.mp hw
    exact ⟨u, hu, v, ⟨k, hk, hv⟩, huv⟩

end Language
