import LlamaRafaelia.Lib.Search
import Mathlib.Data.List.TakeDrop

/-!
# Matching in one pass, without a failure function

A text is read once.  A letter that is the next one of the word is counted; any other letter throws away what was counted
and is itself not looked at again.

* `scan_cases` - **the matcher reads misses until the word is there or the text ends**;
* `scan_first_iff` - **it finds the first occurrence exactly when the text in front of it is made of misses**.
-/

namespace OnePass

open List Search

/-! ### Misses -/

section Misses

variable {α : Type} {p w : List α}

def Miss (p w : List α) : Prop := ∃ k c, k < p.length ∧ p[k]? ≠ some c ∧ w = p.take k ++ [c]

theorem Miss.length_pos (h : Miss p w) : 0 < w.length := by
  obtain ⟨k, c, -, -, rfl⟩ := h
  simp

theorem begin_cases (p t : List α) :
    (∃ k < p.length, t = p.take k) ∨ (∃ rest, t = p ++ rest) ∨ ∃ w rest, Miss p w ∧ t = w ++ rest := by
  induction p generalizing t with
  | nil => exact .inr (.inl ⟨t, rfl⟩)
  | cons a p ih =>
    cases t with
    | nil => exact .inl ⟨0, Nat.succ_pos _, rfl⟩
    | cons b t =>
      by_cases hab : a = b
      · subst hab
        rcases ih t with ⟨k, hk, rfl⟩ | ⟨rest, rfl⟩ | ⟨w, rest, ⟨k, c, hk, hc, rfl⟩, rfl⟩
        · exact .inl ⟨k + 1, Nat.succ_lt_succ hk, rfl⟩
        · exact .inr (.inl ⟨rest, rfl⟩)
        · exact .inr (.inr ⟨a :: (p.take k ++ [c]), rest, ⟨k + 1, c, Nat.succ_lt_succ hk, hc, rfl⟩, rfl⟩)
      · refine .inr (.inr ⟨[b], t, ⟨0, b, Nat.succ_pos _, ?_, rfl⟩, rfl⟩)
        rw [getElem?_cons_zero, Ne, Option.some.injEq]
        exact hab

end Misses

/-! ### The matcher -/

section Matcher

variable {α : Type} [DecidableEq α] {p t w rest : List α}

/-- The matcher when `q` letters of the word were just read. -/
def scan (p : List α) : ℕ → List α → Option ℕ
  | _, [] => none
  | q, c :: t =>
    if p[q]? = some c then if q + 1 = p.length then some t.length else scan p (q + 1) t
    else scan p 0 t

theorem scan_take (p t : List α) (k q : ℕ) (h : q + k < p.length) :
    scan p q ((p.drop q).take k ++ t) = scan p (q + k) t := by
  induction k generalizing q with
  | zero => rfl
  | succ k ih =>
    have hq : q < p.length := by omega
    rw [drop_eq_getElem_cons hq, take_succ_cons, cons_append, scan,
      if_pos (getElem?_eq_getElem hq), if_neg (by omega), ih (q + 1) (by omega)]
    congr 1
    omega

theorem scan_take_zero {k : ℕ} (h : k < p.length) (t : List α) : scan p 0 (p.take k ++ t) = scan p k t := by
  have hscan := scan_take p t k 0 (by omega)
  rwa [drop_zero, Nat.zero_add] at hscan

theorem scan_miss (h : Miss p w) (t : List α) : scan p 0 (w ++ t) = scan p 0 t := by
  obtain ⟨k, c, hk, hc, rfl⟩ := h
  rw [append_assoc, singleton_append, scan_take_zero hk, scan, if_neg hc]

theorem scan_misses {blocks : List (List α)} (h : ∀ w ∈ blocks, Miss p w) (t : List α) :
    scan p 0 (blocks.flatten ++ t) = scan p 0 t := by
  induction blocks with
  | nil => rfl
  | cons w blocks ih =>
    rw [flatten_cons, append_assoc, scan_miss (h w (mem_cons_self ..)),
      ih fun w hw => h w (mem_cons_of_mem _ hw)]

theorem scan_match (hp : p ≠ []) (t : List α) : scan p 0 (p ++ t) = some t.length := by
  have hpos : 0 < p.length := length_pos_iff.mpr hp
  have hlast : p.length - 1 < p.length := by omega
  have hsplit : p = p.take (p.length - 1) ++ [p[p.length - 1]] := by
    rw [take_append_getElem hlast, Nat.sub_add_cancel hpos, take_length]
  conv_lhs =>
    arg 3
    rw [hsplit, append_assoc, singleton_append]
  rw [scan_take_zero hlast, scan, if_pos (getElem?_eq_getElem hlast), if_pos (Nat.sub_add_cancel hpos)]

/-- **What the matcher reads**: misses, until the word is there or the text ends. -/
theorem scan_cases (hp : p ≠ []) (t : List α) : ∃ blocks : List (List α), (∀ w ∈ blocks, Miss p w) ∧
    ((∃ k < p.length, t = blocks.flatten ++ p.take k ∧ scan p 0 t = none) ∨
      ∃ rest, t = blocks.flatten ++ (p ++ rest) ∧ scan p 0 t = some rest.length) := by
  induction hn : t.length using Nat.strong_induction_on generalizing t with
  | _ n ih =>
    rcases begin_cases p t with ⟨k, hk, rfl⟩ | ⟨rest, rfl⟩ | ⟨w, rest, hw, rfl⟩
    · refine ⟨[], by simp, .inl ⟨k, hk, rfl, ?_⟩⟩
      have hscan := scan_take_zero hk []
      rwa [append_nil, scan] at hscan
    · exact ⟨[], by simp, .inr ⟨rest, rfl, scan_match hp rest⟩⟩
    · have hpos := hw.length_pos
      obtain ⟨blocks, hblocks, hcases⟩ := ih rest.length (by rw [← hn, length_append]; omega) rest rfl
      refine ⟨w :: blocks, ?_, ?_⟩
      · intro v hv
        rcases mem_cons.mp hv with rfl | hv
        · exact hw
        · exact hblocks v hv
      · rw [scan_miss hw, flatten_cons]
        refine hcases.imp ?_ ?_
        · rintro ⟨k, hk, heq, hscan⟩
          exact ⟨k, hk, by rw [heq, append_assoc], hscan⟩
        · rintro ⟨rest', heq, hscan⟩
          exact ⟨rest', by rw [heq, append_assoc], hscan⟩

theorem scan_none (hp : p ≠ []) (h : ∀ i, ¬ At t p i) : scan p 0 t = none := by
  obtain ⟨blocks, -, ⟨k, -, -, hscan⟩ | ⟨rest, heq, -⟩⟩ := scan_cases hp t
  · exact hscan
  · refine absurd ?_ (h blocks.flatten.length)
    rw [heq, At, drop_left]
    exact List.prefix_append p rest

/-- **The first occurrence is found exactly when the text in front of it is made of misses.** -/
theorem scan_first_iff (hp : p ≠ []) {e : ℕ} (he : IsLeast {i | At t p i} e) :
    scan p 0 t = some (t.length - (e + p.length)) ↔ ∃ blocks : List (List α), (∀ w ∈ blocks, Miss p w) ∧ t.take e = blocks.flatten := by
  have hend : e + p.length ≤ t.length := At.le he.1 hp
  constructor
  · intro hfound
    obtain ⟨blocks, hblocks, ⟨k, -, -, hscan⟩ | ⟨rest, heq, hscan⟩⟩ := scan_cases hp t
    · rw [hfound] at hscan
      cases hscan
    · rw [hfound, Option.some.injEq] at hscan
      have hlength := congrArg List.length heq
      simp only [length_append] at hlength
      have hblock : blocks.flatten.length = e := by omega
      refine ⟨blocks, hblocks, ?_⟩
      rw [heq, ← hblock, take_left]
  · rintro ⟨blocks, hblocks, htake⟩
    obtain ⟨rest, hrest⟩ := he.1
    have hsplit : t = blocks.flatten ++ (p ++ rest) := by rw [← htake, hrest, take_append_drop]
    have hlength := congrArg List.length hrest
    rw [length_append, length_drop] at hlength
    conv_lhs => rw [hsplit]
    rw [scan_misses hblocks, scan_match hp]
    congr 1
    omega

end Matcher

end OnePass
