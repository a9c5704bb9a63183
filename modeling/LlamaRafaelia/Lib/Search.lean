import Mathlib.Data.List.Infix
import Mathlib.Data.List.Range
import Mathlib.Data.Nat.Find
import Mathlib.Order.Bounds.Basic
import Mathlib.Tactic.Common

/-!
# Searching words in a text that grows

Words are looked for in a text to which more is appended.  A part of the text is `Settled` when it does not end in the
beginning of a word: then no word that shows up later starts in it.

* `Search.Settled.end_lt` - **no word crosses the end of a settled part**.
-/

namespace Search

open List

variable {α : Type*}

def At (t w : List α) (i : ℕ) : Prop := w <+: t.drop i

def Occurs (words : List (List α)) (t : List α) (i : ℕ) : Prop := ∃ w ∈ words, At t w i

def Settled (words : List (List α)) (t : List α) : Prop := ∀ w ∈ words, ∀ i < t.length, ¬ t.drop i <+: w

variable {words : List (List α)} {t u w : List α} {i : ℕ}

theorem At.le (h : At t w i) (hne : w ≠ []) : i + w.length ≤ t.length := by
  have hlen := List.IsPrefix.length_le h
  have hpos := length_pos_iff.mpr hne
  rw [length_drop] at hlen
  omega

theorem At.append (h : At t w i) (u : List α) : At (t ++ u) w i := by
  rw [At, drop_append]
  exact h.trans (prefix_append _ _)

theorem at_drop (t w : List α) (n i : ℕ) : At (t.drop n) w i ↔ At t w (n + i) := by
  rw [At, At, drop_drop]

theorem at_iff_split (hne : w ≠ []) : At t w i ↔ ∃ before behind, t = before ++ (w ++ behind) ∧ before.length = i := by
  constructor
  · intro hat
    have hend := hat.le hne
    obtain ⟨behind, h⟩ := hat
    exact ⟨t.take i, behind, by rw [h, take_append_drop], by rw [length_take]; omega⟩
  · rintro ⟨before, behind, rfl, rfl⟩
    rw [At, drop_left]
    exact prefix_append w behind

theorem at_reverse (hne : w ≠ []) (hat : At t w i) : At t.reverse w.reverse (t.length - (i + w.length)) := by
  obtain ⟨before, behind, rfl, rfl⟩ := (at_iff_split hne).mp hat
  refine (at_iff_split (by simpa using hne)).mpr ⟨behind.reverse, before.reverse, by simp, ?_⟩
  simp only [length_reverse, length_append]
  omega

theorem isLeast_reverse (hne : w ≠ []) (h : IsGreatest {i | At t w i} i) :
    IsLeast {i | At t.reverse w.reverse i} (t.length - (i + w.length)) := by
  refine ⟨at_reverse hne h.1, fun e he => ?_⟩
  have hback := at_reverse (by simpa using hne) he
  simp only [reverse_reverse, length_reverse] at hback
  have hle := h.2 hback
  have hend := At.le he (by simpa using hne)
  have hend' := At.le h.1 hne
  simp only [length_reverse] at hend
  omega

theorem exists_at_iff : (∃ i, At t w i) ↔ w <:+: t := by
  constructor
  · intro ⟨i, hat⟩
    exact hat.isInfix.trans (drop_suffix i t).isInfix
  · intro ⟨before, behind, h⟩
    refine ⟨before.length, behind, ?_⟩
    rw [← h, append_assoc, drop_left]

theorem not_occurs_nil (hne : ∀ w ∈ words, w ≠ []) (i : ℕ) : ¬ Occurs words [] i := by
  intro h
  obtain ⟨w, hw, hat⟩ := h
  have hle := hat.le (hne w hw)
  have hpos := length_pos_iff.mpr (hne w hw)
  rw [length_nil] at hle
  omega

theorem settled_nil (words : List (List α)) : Settled words [] := fun _ _ i hi => absurd hi (Nat.not_lt_zero i)

theorem Settled.end_lt (h : Settled words t) (hw : w ∈ words) (hat : At (t ++ u) w i) (hi : i < t.length) :
    i + w.length < t.length := by
  have htail : t.drop i <+: (t ++ u).drop i := by
    rw [drop_append_of_le_length (Nat.le_of_lt hi)]
    exact prefix_append _ _
  obtain hshort | hlong := prefix_or_prefix_of_prefix hat htail
  · have hlen := hshort.length_le
    rw [length_drop] at hlen
    refine Nat.lt_of_le_of_ne (by omega) fun heq => ?_
    -- The word would be the end of the part.
    have hend : w = t.drop i := hshort.eq_of_length (by rw [length_drop]; omega)
    exact h w hw i hi (hend ▸ prefix_refl _)
  · exact absurd hlong (h w hw i hi)

theorem Settled.append_iff (h : Settled words t) : Settled words (t ++ u) ↔ Settled words u := by
  constructor
  · intro hall w hw i hi
    have hdrop := hall w hw (t.length + i) (by rw [length_append]; omega)
    rw [drop_length_add_append] at hdrop
    exact hdrop
  · intro hu w hw i hi hpre
    by_cases hlt : i < t.length
    · refine h w hw i hlt (List.IsPrefix.trans ?_ hpre)
      rw [drop_append_of_le_length (Nat.le_of_lt hlt)]
      exact prefix_append _ _
    · obtain ⟨k, rfl⟩ := Nat.exists_eq_add_of_le (Nat.le_of_not_lt hlt)
      rw [length_append] at hi
      rw [drop_length_add_append] at hpre
      exact hu w hw k (by omega) hpre

/-! ### The first start of a word -/

variable [DecidableEq α]

def find (t w : List α) (start : ℕ) : Option ℕ :=
  (range (t.length + 1)).find? fun i => start ≤ i ∧ w.isPrefixOf (t.drop i)

theorem find_eq_none {start : ℕ} (hne : w ≠ []) : find t w start = none ↔ ∀ i, start ≤ i → ¬ At t w i := by
  rw [find, find?_eq_none]
  constructor
  · intro h i hi hat
    have hle := hat.le hne
    refine h i (mem_range.mpr (by omega)) ?_
    exact decide_eq_true ⟨hi, isPrefixOf_iff_prefix.mpr hat⟩
  · intro h i _ hp
    obtain ⟨hi, hat⟩ := of_decide_eq_true hp
    exact h i hi (List.isPrefixOf_iff_prefix.mp hat)

theorem find_eq_some {start : ℕ} (hne : w ≠ []) :
    find t w start = some i ↔ IsLeast {j | start ≤ j ∧ At t w j} i := by
  rw [find, find?_range_eq_some]
  constructor
  · intro ⟨hp, _, hbefore⟩
    obtain ⟨hi, hat⟩ := of_decide_eq_true hp
    refine ⟨⟨hi, isPrefixOf_iff_prefix.mp hat⟩, fun j hj => Nat.le_of_not_lt fun hlt => ?_⟩
    have hnot := hbefore j hlt
    rw [decide_eq_true ⟨hj.1, isPrefixOf_iff_prefix.mpr hj.2⟩] at hnot
    cases hnot
  · intro ⟨⟨hi, hat⟩, hleast⟩
    have hle := hat.le hne
    refine ⟨decide_eq_true ⟨hi, isPrefixOf_iff_prefix.mpr hat⟩, mem_range.mpr (by omega), fun j hj => ?_⟩
    rw [Bool.not_eq_true', decide_eq_false_iff_not]
    intro ⟨hstart, hp⟩
    exact absurd (hleast ⟨hstart, isPrefixOf_iff_prefix.mp hp⟩) (Nat.not_le_of_lt hj)

theorem find_drop (hne : w ≠ []) (t : List α) (n : ℕ) : find t w n = (find (t.drop n) w 0).map (n + ·) := by
  cases h : find (t.drop n) w 0 with
  | none =>
    rw [Option.map_none, find_eq_none hne]
    intro i hi hat
    obtain ⟨k, rfl⟩ := Nat.exists_eq_add_of_le hi
    exact (find_eq_none hne).mp h k (Nat.zero_le k) ((at_drop t w n k).mpr hat)
  | some i =>
    obtain ⟨⟨_, hat⟩, hleast⟩ := (find_eq_some hne).mp h
    rw [Option.map_some, find_eq_some hne]
    refine ⟨⟨Nat.le_add_right n i, (at_drop t w n i).mp hat⟩, fun j hj => ?_⟩
    obtain ⟨k, rfl⟩ := Nat.exists_eq_add_of_le hj.1
    exact Nat.add_le_add_left (hleast ⟨Nat.zero_le k, (at_drop t w n k).mpr hj.2⟩) n

theorem exists_isLeast {P : ℕ → Prop} (h : ∃ n, P n) : ∃ n, IsLeast {n | P n} n := by
  classical
  exact ⟨Nat.find h, Nat.find_spec h, fun n hn => Nat.find_min' h hn⟩

theorem isLeast_of_isLeast {ι : Type*} {I : Set ι} {S : ι → Set ℕ} {p : ℕ}
    (h : IsLeast {q | ∃ i ∈ I, IsLeast (S i) q} p) : IsLeast {q | ∃ i ∈ I, q ∈ S i} p := by
  obtain ⟨⟨i, hi, hp⟩, hleast⟩ := h
  refine ⟨⟨i, hi, hp.1⟩, fun q hq => ?_⟩
  obtain ⟨j, hj, hq⟩ := hq
  obtain ⟨r, hfirst⟩ := exists_isLeast ⟨q, hq⟩
  exact (hleast ⟨j, hj, hfirst⟩).trans (hfirst.2 hq)

end Search
