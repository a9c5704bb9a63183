import Mathlib.Logic.Relation
import Mathlib.Data.List.Basic
import Mathlib.Order.WellFounded
import Mathlib.Data.Fintype.Card

/-!
# Leftmost derivations

A grammar over terminals `T` and nonterminals `N` is a relation between a nonterminal and the forms that may replace
it.  `Step` replaces the first nonterminal of a form; `Consumes α w β` follows a derivation and reads the terminals at
the front as it goes.  `Expand` replaces the first symbol as long as it is a nonterminal, which ends if there is no
infinite descent along `Left`.
-/

namespace Leftmost

open Relation

variable {T N : Type*} {P : N → List (T ⊕ N) → Prop} {α β γ : List (T ⊕ N)}

/-- The first nonterminal is replaced. -/
inductive Step (P : N → List (T ⊕ N) → Prop) : List (T ⊕ N) → List (T ⊕ N) → Prop
  | replace (w : List T) {A : N} {δ : List (T ⊕ N)} (h : P A δ) (γ : List (T ⊕ N)) :
      Step P (w.map Sum.inl ++ Sum.inr A :: γ) (w.map Sum.inl ++ (δ ++ γ))

def Derives (P : N → List (T ⊕ N) → Prop) : List (T ⊕ N) → List (T ⊕ N) → Prop := ReflTransGen (Step P)

theorem Step.cons (h : Step P α β) (c : T) : Step P (Sum.inl c :: α) (Sum.inl c :: β) := by
  obtain ⟨w, h, γ⟩ := h
  exact Step.replace (c :: w) h γ

theorem Step.append_right (h : Step P α β) (γ : List (T ⊕ N)) : Step P (α ++ γ) (β ++ γ) := by
  obtain ⟨w, h, δ⟩ := h
  have hstep := Step.replace w h (δ ++ γ)
  simpa only [List.append_assoc, List.cons_append] using hstep

theorem Derives.cons (h : Derives P α β) (c : T) : Derives P (Sum.inl c :: α) (Sum.inl c :: β) :=
  ReflTransGen.lift (Sum.inl c :: ·) (fun _ _ (hstep : Step P _ _) => hstep.cons c) _ _ h

theorem Derives.append_right (h : Derives P α β) (γ : List (T ⊕ N)) : Derives P (α ++ γ) (β ++ γ) :=
  ReflTransGen.lift (· ++ γ) (fun _ _ (hstep : Step P _ _) => hstep.append_right γ) _ _ h

theorem Derives.head {A : N} {δ : List (T ⊕ N)} (h : P A δ) (hd : Derives P (δ ++ γ) β) :
    Derives P (Sum.inr A :: γ) β :=
  ReflTransGen.head (Step.replace [] h γ) hd

theorem Derives.vanish_append (hα : Derives P α []) (hβ : Derives P β []) : Derives P (α ++ β) [] :=
  ReflTransGen.trans (hα.append_right β) hβ

/-! ### Reading along a derivation -/

/-- `α` derives `w` followed by `β`, where the terminals are read off as soon as they come first. -/
inductive Consumes (P : N → List (T ⊕ N) → Prop) : List (T ⊕ N) → List T → List (T ⊕ N) → Prop
  | stop (β : List (T ⊕ N)) : Consumes P β [] β
  | expand {A : N} {δ γ β : List (T ⊕ N)} {w : List T} (h : P A δ) (hd : Consumes P (δ ++ γ) w β) :
      Consumes P (Sum.inr A :: γ) w β
  | read {γ β : List (T ⊕ N)} {w : List T} (c : T) (hd : Consumes P γ w β) :
      Consumes P (Sum.inl c :: γ) (c :: w) β

theorem Consumes.derives {w : List T} (h : Consumes P α w β) : Derives P α (w.map Sum.inl ++ β) := by
  induction h with
  | stop β => exact ReflTransGen.refl
  | expand h _ ih => exact Derives.head h ih
  | read c _ ih => exact ih.cons c

theorem Consumes.of_step {w : List T} (hstep : Step P α β) (h : Consumes P β w γ) :
    ∃ γ', Consumes P α w γ' ∧ Derives P γ' γ := by
  obtain ⟨v, hA, δ⟩ := hstep
  -- the terminals before the nonterminal are read first, or reading stops among them
  induction v generalizing w with
  | nil => exact ⟨γ, Consumes.expand hA h, ReflTransGen.refl⟩
  | cons c v ih =>
    cases h with
    | stop => exact ⟨_, Consumes.stop _, ReflTransGen.single (Step.replace (c :: v) hA δ)⟩
    | read _ h =>
      obtain ⟨γ', hread, hd⟩ := ih h
      exact ⟨γ', Consumes.read c hread, hd⟩

theorem Derives.consumes {w : List T} (h : Derives P α (w.map Sum.inl ++ β)) :
    ∃ γ, Consumes P α w γ ∧ Derives P γ β := by
  generalize hω : w.map Sum.inl ++ β = ω at h
  induction h using ReflTransGen.head_induction_on with
  | refl =>
    subst hω
    refine ⟨β, ?_, ReflTransGen.refl⟩
    induction w with
    | nil => exact Consumes.stop β
    | cons c w ih => exact Consumes.read c ih
  | head hstep _ ih =>
    obtain ⟨γ, hread, hd⟩ := ih
    obtain ⟨γ', hread', hd'⟩ := hread.of_step hstep
    exact ⟨γ', hread', hd'.trans hd⟩

theorem exists_derives_iff_consumes {w : List T} :
    (∃ β, Derives P α (w.map Sum.inl ++ β)) ↔ ∃ β, Consumes P α w β := by
  constructor
  · rintro ⟨β, h⟩
    obtain ⟨γ, hread, -⟩ := h.consumes
    exact ⟨γ, hread⟩
  · rintro ⟨β, h⟩
    exact ⟨β, h.derives⟩

theorem Consumes.trans_vanish {w : List T} (h : Consumes P α w β) (hv : Consumes P β [] γ) :
    Consumes P α w γ := by
  induction h with
  | stop β => exact hv
  | expand h _ ih => exact Consumes.expand h (ih hv)
  | read c _ ih => exact Consumes.read c (ih hv)

theorem Derives.vanish (h : Derives P α []) : Consumes P α [] [] := by
  induction h using ReflTransGen.head_induction_on with
  | refl => exact Consumes.stop []
  | head hstep _ ih =>
    obtain ⟨v, hA, γ⟩ := hstep
    cases v with
    | nil => exact Consumes.expand hA ih
    | cons c v => cases ih

theorem derives_iff_consumes {w : List T} : Derives P α (w.map Sum.inl) ↔ Consumes P α w [] := by
  constructor
  · intro h
    rw [← List.append_nil (w.map Sum.inl)] at h
    obtain ⟨γ, hread, hd⟩ := h.consumes
    exact hread.trans_vanish hd.vanish
  · intro h
    rw [← List.append_nil (w.map Sum.inl)]
    exact h.derives

/-! ### Left recursion -/

/-- `B` can come first in what `A` derives: it stands in a production of `A` behind a prefix that can vanish. -/
def Left (P : N → List (T ⊕ N) → Prop) (A B : N) : Prop :=
  ∃ δ γ, P A (δ ++ Sum.inr B :: γ) ∧ Derives P δ []

/-- The first symbol is replaced. -/
inductive Expand (P : N → List (T ⊕ N) → Prop) : List (T ⊕ N) → List (T ⊕ N) → Prop
  | replace {A : N} {δ : List (T ⊕ N)} (h : P A δ) (γ : List (T ⊕ N)) : Expand P (Sum.inr A :: γ) (δ ++ γ)

theorem acc_expand_cons (hwf : WellFounded fun B A => Left P A B) (A : N) (γ : List (T ⊕ N))
    (hγ : Derives P [Sum.inr A] [] → Acc (fun β α => Expand P α β) γ) :
    Acc (fun β α => Expand P α β) (Sum.inr A :: γ) := by
  induction A using hwf.induction generalizing γ with
  | _ A ih =>
    refine Acc.intro _ fun β hβ => ?_
    cases hβ with
    | @replace A δ hA γ =>
      -- along the production, whose symbols so far have vanished
      have hrest : ∀ δ₂ δ₁, δ = δ₁ ++ δ₂ → Derives P δ₁ [] → Acc (fun β α => Expand P α β) (δ₂ ++ γ) := by
        intro δ₂
        induction δ₂ with
        | nil =>
          intro δ₁ hsplit hvanish
          rw [List.append_nil] at hsplit
          refine hγ (Derives.head hA ?_)
          rw [List.append_nil, hsplit]
          exact hvanish
        | cons x δ₂ ih₂ =>
          intro δ₁ hsplit hvanish
          cases x with
          | inl c => exact Acc.intro _ fun β hβ => nomatch hβ
          | inr B =>
            refine ih B ⟨δ₁, δ₂, hsplit ▸ hA, hvanish⟩ (δ₂ ++ γ) fun hB => ?_
            refine ih₂ (δ₁ ++ [Sum.inr B]) ?_ (hvanish.vanish_append hB)
            rw [hsplit, List.append_assoc]
            rfl
      exact hrest δ [] rfl ReflTransGen.refl

/-- **Expansion ends** when there is no infinite descent along `Left`. -/
theorem acc_expand (hwf : WellFounded fun B A => Left P A B) (α : List (T ⊕ N)) :
    Acc (fun β α => Expand P α β) α := by
  induction α with
  | nil => exact Acc.intro _ fun β hβ => nomatch hβ
  | cons x α ih =>
    cases x with
    | inl c => exact Acc.intro _ fun β hβ => nomatch hβ
    | inr A => exact acc_expand_cons hwf A α fun _ => ih

theorem wellFounded_of_acyclic {r : N → N → Prop} {S : Set N} (hfin : S.Finite) (hsub : ∀ A B, r A B → A ∈ S)
    (hacyclic : ∀ A, ¬ TransGen r A A) : WellFounded fun B A => r A B := by
  have : Finite S := hfin
  have : IsTrans S fun B A => TransGen r A.1 B.1 := ⟨fun _ _ _ h h' => h'.trans h⟩
  have : Std.Irrefl fun B A : S => TransGen r A.1 B.1 := ⟨fun A => hacyclic A.1⟩
  have hwf := Finite.wellFounded_of_trans_of_irrefl fun B A : S => TransGen r A.1 B.1
  have houter : ∀ A ∉ S, Acc (fun B A => r A B) A := fun A hA =>
    Acc.intro _ fun B hB => absurd (hsub A B hB) hA
  have hinner : ∀ A : S, Acc (fun B A => r A B) A.1 := by
    intro A
    induction A using hwf.induction with
    | _ A ih =>
      refine Acc.intro _ fun B hB => ?_
      by_cases hS : B ∈ S
      · exact ih ⟨B, hS⟩ (TransGen.single hB)
      · exact houter B hS
  refine ⟨fun A => ?_⟩
  by_cases hS : A ∈ S
  · exact hinner ⟨A, hS⟩
  · exact houter A hS

end Leftmost
