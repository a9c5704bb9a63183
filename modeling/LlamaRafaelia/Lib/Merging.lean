import Mathlib.Data.Nat.Notation
import Mathlib.Data.List.Basic
import Mathlib.Logic.Relation

/-!
# Merging neighbours

A word is cut into letters, and neighbouring groups of letters are joined as long as some rule allows the joined
group.  The order in which the rule is applied is left open, so this is what every merging tokenizer does, whatever its
priorities are:

A run neither drops, duplicates nor moves a letter (`Run.flatten_eq`), and only makes assembled groups
(`Run.assembled`).

* `Assembled J C` - the groups that can be made at all from letters in `C`.
-/

namespace Merging

open List

variable {α : Type} {J : List α → Prop} {C : α → Prop} {gs gs' : List (List α)}

/-- Two neighbouring groups are joined. -/
inductive Step (J : List α → Prop) : List (List α) → List (List α) → Prop
  | join (xs : List (List α)) (a b : List α) (ys : List (List α)) (h : J (a ++ b)) :
      Step J (xs ++ a :: b :: ys) (xs ++ (a ++ b) :: ys)

def Run (J : List α → Prop) : List (List α) → List (List α) → Prop := Relation.ReflTransGen (Step J)

def Stuck (J : List α → Prop) (gs : List (List α)) : Prop :=
  ∀ xs a b ys, gs = xs ++ a :: b :: ys → ¬ J (a ++ b)

/-- The groups that joins can make from letters in `C`. -/
inductive Assembled (J : List α → Prop) (C : α → Prop) : List α → Prop
  | letter {c : α} (h : C c) : Assembled J C [c]
  | join {a b : List α} (ha : Assembled J C a) (hb : Assembled J C b) (h : J (a ++ b)) : Assembled J C (a ++ b)

namespace Assembled

theorem ne_nil {g : List α} (h : Assembled J C g) : g ≠ [] := by
  induction h with
  | letter h => simp
  | join ha hb h iha ihb => simp [iha]

theorem letter_or_allowed {g : List α} (h : Assembled J C g) : (∃ c, g = [c] ∧ C c) ∨ J g := by
  cases h with
  | letter h => exact .inl ⟨_, rfl, h⟩
  | join ha hb h => exact .inr h

theorem letters {g : List α} (h : Assembled J C g) : ∀ c ∈ g, C c := by
  induction h with
  | letter h =>
    intro c hc
    rw [mem_singleton.mp hc]
    exact h
  | join ha hb h iha ihb =>
    intro c hc
    rcases mem_append.mp hc with hc | hc
    · exact iha c hc
    · exact ihb c hc

end Assembled

namespace Run

theorem flatten_eq (h : Run J gs gs') : gs'.flatten = gs.flatten := by
  induction h with
  | refl => rfl
  | tail _ hstep ih =>
    obtain ⟨xs, a, b, ys, -⟩ := hstep
    rw [← ih]
    simp

theorem assembled (h : Run J gs gs') (hgs : ∀ g ∈ gs, Assembled J C g) : ∀ g ∈ gs', Assembled J C g := by
  induction h with
  | refl => exact hgs
  | tail _ hstep ih =>
    obtain ⟨xs, a, b, ys, hab⟩ := hstep
    intro g hg
    have ha : Assembled J C a := ih a (by simp)
    have hb : Assembled J C b := ih b (by simp)
    rcases mem_append.mp hg with hg | hg
    · exact ih g (by simp [hg])
    · rcases mem_cons.mp hg with rfl | hg
      · exact .join ha hb hab
      · exact ih g (by simp [hg])

end Run

theorem group_of_letter {pre post : List α} {x : α} (h : gs.flatten = pre ++ x :: post) :
    ∃ front u v back, gs = front ++ (u ++ x :: v) :: back ∧ front.flatten ++ u = pre ∧ v ++ back.flatten = post := by
  induction gs generalizing pre with
  | nil => simp at h
  | cons g gs ih =>
    rw [flatten_cons, append_eq_append_iff] at h
    rcases h with ⟨pre', hpre, hrest⟩ | ⟨tail, hg, htail⟩
    · -- the letter is behind the first group
      obtain ⟨front, u, v, back, rfl, hfront, hback⟩ := ih hrest
      refine ⟨g :: front, u, v, back, rfl, ?_, hback⟩
      rw [hpre, ← hfront, flatten_cons, append_assoc]
    · cases tail with
      | nil =>
        have hrest : gs.flatten = [] ++ x :: post := by simpa using htail.symm
        obtain ⟨front, u, v, back, rfl, hfront, hback⟩ := ih hrest
        refine ⟨g :: front, u, v, back, rfl, ?_, hback⟩
        rw [flatten_cons, append_assoc, hfront, hg, append_nil, append_nil]
      | cons y tail =>
        obtain ⟨rfl, hpost⟩ := List.cons.inj htail
        exact ⟨[], pre, tail, gs, by rw [hg]; rfl, rfl, hpost.symm⟩

end Merging
