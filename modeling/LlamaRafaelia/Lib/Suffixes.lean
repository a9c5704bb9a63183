import Mathlib.Algebra.BigOperators.Group.List.Basic
import Mathlib.Data.List.Induction
import Mathlib.Data.List.Lex
import Mathlib.Data.List.Nodup
import Mathlib.Data.Set.Basic
import Mathlib.Tactic.Common
import Mathlib.Algebra.GroupWithZero.Nat

/-!
# Sets of words that are closed under suffixes

A text is read from its end.  After every letter the longest word of the set that the rest of the text begins with is a
state of an automaton: when the set has the tails of its words, the next state is the letter before a beginning of the
state.  The automaton can be kept as one table, with the rows of the words one behind the other.

* **`Longest.step`**, **`Longest.none`** - one letter more;
* `mem_before` - **sorting by reversed words puts a word behind its suffixes**.
-/

namespace Suffixes

open List

variable {α β γ : Type}

def Closed (S : Set (List α)) : Prop := ∀ c w, c :: w ∈ S → w ∈ S

/-- The longest word of the set that the text begins with. -/
structure Longest (S : Set (List α)) (text q : List α) : Prop where
  mem : q ∈ S
  begins : q <+: text
  longest : ∀ r ∈ S, r <+: text → r.length ≤ q.length

/-! ### One letter more -/

section Step

variable {S : Set (List α)} {text q p : List α} {c : α}

theorem Longest.isPrefix (h : Longest S text q) {r : List α} (hr : r ∈ S) (hbegins : r <+: text) : r <+: q :=
  prefix_of_prefix_length_le hbegins h.begins (h.longest r hr hbegins)

theorem Longest.of_cons (hclosed : Closed S) (h : Longest S text q) {r : List α} (hr : c :: r ∈ S)
    (hbegins : c :: r <+: c :: text) : r <+: q :=
  h.isPrefix (hclosed c r hr) (cons_prefix_cons.mp hbegins).2

/-- **The next state is the letter before the longest beginning of the state**, when there is one. -/
theorem Longest.step (hclosed : Closed S) (h : Longest S text q) (hmem : c :: p ∈ S) (hp : p <+: q)
    (hmax : ∀ r, c :: r ∈ S → r <+: q → r.length ≤ p.length) : Longest S (c :: text) (c :: p) where
  mem := hmem
  begins := cons_prefix_cons.mpr ⟨rfl, hp.trans h.begins⟩
  longest := by
    intro r hr hbegins
    cases r with
    | nil => exact Nat.zero_le _
    | cons d r =>
      obtain ⟨rfl, hrest⟩ := cons_prefix_cons.mp hbegins
      exact Nat.succ_le_succ (hmax r hr (h.of_cons hclosed hr hbegins))

theorem Longest.none (hclosed : Closed S) (h : Longest S text q) (hnil : [] ∈ S) (hnone : ∀ r, c :: r ∈ S → ¬ r <+: q) :
    Longest S (c :: text) [] where
  mem := hnil
  begins := nil_prefix
  longest := by
    intro r hr hbegins
    cases r with
    | nil => exact Nat.le_refl 0
    | cons d r =>
      obtain ⟨rfl, hrest⟩ := cons_prefix_cons.mp hbegins
      exact absurd (h.of_cons hclosed hr hbegins) (hnone r hr)

end Step

/-! ### The order of the words -/

section Order

variable [LinearOrder γ]

theorem lt_append (w : List γ) {u : List γ} (hu : u ≠ []) : w < w ++ u := by
  induction w with
  | nil =>
    cases u with
    | nil => exact absurd rfl hu
    | cons a u => exact nil_lt_cons a u
  | cons a w ih => exact cons_lt_cons_self.mpr ih

/-- **In a list that is sorted by a key, what has a beginning of the key stands before.** -/
theorem mem_before (key : β → List γ) {l l₁ l₂ : List β} {a b : β} (hsorted : l.Pairwise fun a b => key a ≤ key b)
    (hl : l = l₁ ++ b :: l₂) (ha : a ∈ l) (hbegins : key a <+: key b) (hne : key a ≠ key b) : a ∈ l₁ := by
  rw [hl] at ha hsorted
  rcases mem_append.mp ha with hbefore | hafter
  · exact hbefore
  · obtain ⟨u, hu⟩ := hbegins
    have hlt : key a < key b := by
      rw [← hu]
      refine lt_append _ fun hnil => hne ?_
      rw [← hu, hnil, append_nil]
    rcases mem_cons.mp hafter with rfl | hafter
    · exact absurd rfl hne
    · have hle := (pairwise_cons.mp (pairwise_append.mp hsorted).2.1).1 a hafter
      exact absurd hlt (not_lt_of_ge hle)

end Order

/-! ### Rows one behind the other -/

section Rows

variable {size : β → ℕ} {l l' : List β} {w w' : β} {k k' : ℕ}

/-- The rows of `w` start behind those of the words before. -/
def StartsAt (size : β → ℕ) (l : List β) (w : β) (k : ℕ) : Prop :=
  ∃ l₁ l₂, l = l₁ ++ w :: l₂ ∧ k = (l₁.map size).sum

theorem StartsAt.mem (h : StartsAt size l w k) : w ∈ l := by
  obtain ⟨l₁, l₂, rfl, -⟩ := h
  exact mem_append_right _ mem_cons_self

theorem exists_startsAt (size : β → ℕ) (h : w ∈ l) : ∃ k, StartsAt size l w k := by
  obtain ⟨l₁, l₂, rfl⟩ := append_of_mem h
  exact ⟨_, l₁, l₂, rfl, rfl⟩

theorem StartsAt.append (h : StartsAt size l w k) (l' : List β) : StartsAt size (l ++ l') w k := by
  obtain ⟨l₁, l₂, rfl, hk⟩ := h
  exact ⟨l₁, l₂ ++ l', by rw [append_assoc]; rfl, hk⟩

theorem startsAt_last (l : List β) (w : β) : StartsAt size (l ++ [w]) w (l.map size).sum := ⟨l, [], rfl, rfl⟩

theorem startsAt_concat_iff {v : β} (hnew : v ∉ l) :
    StartsAt size (l ++ [v]) w k ↔ StartsAt size l w k ∨ w = v ∧ k = (l.map size).sum := by
  constructor
  · intro ⟨l₁, l₂, hl, hk⟩
    rcases eq_nil_or_concat l₂ with rfl | ⟨l₂, u, rfl⟩
    · obtain ⟨rfl, hlast⟩ := append_inj' hl rfl
      exact Or.inr ⟨(singleton_inj.mp hlast).symm, hk⟩
    · rw [concat_eq_append, ← cons_append, ← append_assoc] at hl
      exact Or.inl ⟨l₁, l₂, (append_inj' hl rfl).1, hk⟩
  · intro h
    rcases h with h | ⟨rfl, rfl⟩
    · exact h.append [v]
    · exact startsAt_last l w

theorem StartsAt.unique (hnodup : l.Nodup) (h : StartsAt size l w k) (h' : StartsAt size l w k') : k = k' := by
  induction l using reverseRecOn with
  | nil => exact absurd h.mem not_mem_nil
  | append_singleton l v ih =>
    obtain ⟨hl, -, hdisjoint⟩ := nodup_append'.mp hnodup
    have hnew : v ∉ l := fun hmem => hdisjoint hmem mem_cons_self
    rcases (startsAt_concat_iff hnew).mp h with hin | ⟨hw, hk⟩
    · rcases (startsAt_concat_iff hnew).mp h' with hin' | ⟨hw, -⟩
      · exact ih hl hin hin'
      · exact absurd (hw ▸ hin.mem) hnew
    · rcases (startsAt_concat_iff hnew).mp h' with hin' | ⟨-, hk'⟩
      · exact absurd (hw ▸ hin'.mem) hnew
      · rw [hk, hk']

theorem StartsAt.injective (hpos : ∀ w, 0 < size w) (h : StartsAt size l w k) (h' : StartsAt size l w' k) : w = w' := by
  obtain ⟨l₁, l₂, hl, hk⟩ := h
  obtain ⟨l₁', l₂', hl', hk'⟩ := h'
  have hstrict : ∀ {a b : List β}, a <+: b → (a.map size).sum = (b.map size).sum → a.length = b.length := by
    intro a b ⟨u, hu⟩ hsum
    cases u with
    | nil => rw [← hu, append_nil]
    | cons x u =>
      rw [← hu, map_append, sum_append, map_cons, sum_cons] at hsum
      have := hpos x
      omega
  have hbegins : l₁ <+: l := hl ▸ prefix_append l₁ (w :: l₂)
  have hbegins' : l₁' <+: l := hl' ▸ prefix_append l₁' (w' :: l₂')
  have hlen : l₁.length = l₁'.length := by
    rcases Nat.le_total l₁.length l₁'.length with hle | hle
    · exact hstrict (prefix_of_prefix_length_le hbegins hbegins' hle) (hk.symm.trans hk')
    · exact (hstrict (prefix_of_prefix_length_le hbegins' hbegins hle) (hk'.symm.trans hk)).symm
  rw [hl] at hl'
  exact (cons.inj (append_inj hl' hlen).2).1

/-- **The table from the start of a word on** begins with the rows of the word. -/
theorem StartsAt.drop {ρ : Type} {rows : β → List ρ} (hsize : ∀ w ∈ l, (rows w).length = size w) (h : StartsAt size l w k)
    (more : List ρ) : ∃ rest, (l.flatMap rows ++ more).drop k = rows w ++ rest := by
  obtain ⟨l₁, l₂, rfl, rfl⟩ := h
  have hlen : (l₁.flatMap rows).length = (l₁.map size).sum := by
    rw [length_flatMap]
    exact congrArg sum (map_congr_left fun w hw => hsize w (mem_append_left _ hw))
  refine ⟨l₂.flatMap rows ++ more, ?_⟩
  rw [flatMap_append, flatMap_cons, ← hlen, append_assoc, drop_left, append_assoc]

end Rows

end Suffixes
