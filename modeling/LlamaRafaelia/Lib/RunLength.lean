import Mathlib.Data.Nat.Notation
import Mathlib.Data.List.Basic
import Mathlib.Algebra.Order.Group.Nat
import Mathlib.Tactic.Common
import Mathlib.Algebra.GroupWithZero.Nat

/-!
# Run lengths

A text is a list of runs, the longest stretches of one letter.  An encoder that counts the letters of a run from left to
right, with a counter that is written out when it reaches a bound, cuts long runs into pieces.

* `expand_emit` - **nothing is lost**: the pieces spell the text.
-/

namespace RunLength

open List

variable {α : Type}

def groups [DecidableEq α] : List α → List (α × ℕ)
  | [] => []
  | c :: l =>
    match groups l with
    | [] => [(c, 1)]
    | (d, n) :: rest => if c = d then (d, n + 1) :: rest else (c, 1) :: (d, n) :: rest

def expand (runs : List (α × ℕ)) : List α := runs.flatMap fun r => List.replicate r.2 r.1

/-- A run cut into pieces of at most `max` letters. -/
def cut (max : ℕ) (r : α × ℕ) : List (α × ℕ) :=
  List.replicate (r.2 / max) (r.1, max) ++ if r.2 % max = 0 then [] else [(r.1, r.2 % max)]

/-- What is written from a text on, when the counter stands at `n` letters `c`. -/
def emit [DecidableEq α] (max : ℕ) (c : α) (n : ℕ) : List α → List (α × ℕ)
  | [] => if n = 0 then [] else [(c, n)]
  | d :: l =>
    if d = c then
      if n + 1 = max then (c, max) :: emit max c 0 l else emit max c (n + 1) l
    else (c, n) :: emit max d 1 l

theorem expand_cons (r : α × ℕ) (runs : List (α × ℕ)) : expand (r :: runs) = List.replicate r.2 r.1 ++ expand runs := rfl

theorem expand_map {β : Type} (f : α → β) (runs : List (α × ℕ)) :
    expand (runs.map fun r => (f r.1, r.2)) = (expand runs).map f := by
  induction runs with
  | nil => rfl
  | cons r runs ih => rw [map_cons, expand_cons, ih, expand_cons, map_append, map_replicate]

theorem expand_length (runs : List (α × ℕ)) : (expand runs).length = (runs.map Prod.snd).sum := by
  induction runs with
  | nil => rfl
  | cons r runs ih => rw [expand_cons, length_append, length_replicate, ih, map_cons, sum_cons]

theorem cut_pos {max : ℕ} (hmax : 0 < max) {r p : α × ℕ} (h : p ∈ cut max r) : 0 < p.2 ∧ p.2 ≤ max := by
  rw [cut] at h
  rcases mem_append.mp h with hfull | hrest
  · rw [eq_of_mem_replicate hfull]
    exact ⟨hmax, le_rfl⟩
  · split at hrest
    · cases hrest
    · rename_i hne
      rw [mem_singleton.mp hrest]
      exact ⟨Nat.pos_of_ne_zero hne, (Nat.mod_lt _ hmax).le⟩

/-! ### Runs -/

variable [DecidableEq α]

theorem exists_run (c : α) (l : List α) : ∃ n rest, c :: l = List.replicate (n + 1) c ++ rest ∧
    groups (c :: l) = (c, n + 1) :: groups rest ∧ ∀ d t, rest = d :: t → d ≠ c := by
  induction l generalizing c with
  | nil => exact ⟨0, [], rfl, rfl, fun d t h => by cases h⟩
  | cons d l ih =>
    obtain ⟨n, rest, hl, hgroups, hrest⟩ := ih d
    by_cases hcd : c = d
    · subst hcd
      refine ⟨n + 1, rest, ?_, ?_, hrest⟩
      · rw [hl]
        rfl
      · rw [groups, hgroups]
        exact if_pos rfl
    · refine ⟨0, d :: l, rfl, ?_, ?_⟩
      · rw [groups, hgroups]
        exact if_neg hcd
      · intro e t h heq
        exact hcd (heq ▸ (List.cons.inj h).1.symm)

/-! ### What is written -/

section Emit

variable {max : ℕ}

theorem expand_emit (c : α) (n : ℕ) (l : List α) : expand (emit max c n l) = List.replicate n c ++ l := by
  induction l generalizing c n with
  | nil =>
    rw [emit]
    split
    · rename_i hzero
      rw [hzero]
      rfl
    · rw [expand_cons]
      rfl
  | cons d l ih =>
    rw [emit]
    split
    · rename_i hdc
      subst hdc
      split
      · rename_i hmax
        rw [expand_cons, ih, ← hmax, replicate_succ', append_assoc]
        rfl
      · rw [ih, replicate_succ', append_assoc]
        rfl
    · rw [expand_cons, ih]
      rfl

theorem emit_replicate (c : α) (k : ℕ) (t : List α) {n : ℕ} (hn : n < max) :
    emit max c n (List.replicate k c ++ t)
      = List.replicate ((n + k) / max) (c, max) ++ emit max c ((n + k) % max) t := by
  induction k generalizing n with
  | zero =>
    rw [Nat.add_zero, Nat.div_eq_of_lt hn, Nat.mod_eq_of_lt hn]
    rfl
  | succ k ih =>
    rw [replicate_succ, cons_append, emit, if_pos rfl]
    by_cases hfull : n + 1 = max
    · have hpos : 0 < max := by omega
      rw [if_pos hfull, ih hpos, show n + (k + 1) = k + max by omega, Nat.zero_add, Nat.add_div_right _ hpos,
        Nat.add_mod_right]
      rfl
    · rw [if_neg hfull, ih (by omega), show n + 1 + k = n + (k + 1) by omega]

theorem emit_seen (hmax : 1 < max) (c : α) (l : List α) : emit max c 1 l = emit max c 0 (c :: l) := by
  rw [emit, if_pos rfl, if_neg (by omega)]

/-- **The pieces of the runs**, when no run before the last has pieces of full length only. -/
theorem emit_eq (hmax : 1 < max) (c : α) (l : List α)
    (h : ∀ r ∈ (groups (c :: l)).dropLast, r.2 % max ≠ 0) :
    emit max c 0 (c :: l) = (groups (c :: l)).flatMap (cut max) := by
  induction hlen : l.length using Nat.strong_induction_on generalizing c l with
  | _ m ih =>
    obtain ⟨n, rest, hl, hgroups, hrest⟩ := exists_run c l
    rw [hgroups] at h
    rw [hgroups, hl, emit_replicate c (n + 1) rest (by omega), Nat.zero_add, flatMap_cons, cut, append_assoc]
    congr 1
    cases rest with
    | nil => rw [emit, groups, flatMap_nil, append_nil]
    | cons d t =>
      have hdc : d ≠ c := hrest d t rfl
      have hne : groups (d :: t) ≠ [] := by
        obtain ⟨k, rest', -, hg, -⟩ := exists_run d t
        rw [hg]
        exact cons_ne_nil _ _
      rw [dropLast_cons_of_ne_nil hne] at h
      have hfirst := h _ mem_cons_self
      have hshort : t.length < m := by
        have hcount := congrArg List.length hl
        simp only [length_cons, length_append, length_replicate] at hcount
        omega
      rw [emit, if_neg hdc, emit_seen hmax, ih t.length hshort d t (fun r hr => h r (mem_cons_of_mem _ hr)) rfl,
        if_neg hfirst]
      rfl

/-- Behind a run of full pieces only, an empty one is written. -/
theorem emit_empty (hmax : 1 < max) (c : α) (l : List α) {r : α × ℕ} (hr : r ∈ (groups (c :: l)).dropLast)
    (hfull : r.2 % max = 0) : ∃ p ∈ emit max c 0 (c :: l), p.2 = 0 := by
  induction hlen : l.length using Nat.strong_induction_on generalizing c l with
  | _ m ih =>
    obtain ⟨n, rest, hl, hgroups, hrest⟩ := exists_run c l
    rw [hgroups] at hr
    cases rest with
    | nil => cases hr
    | cons d t =>
      have hne : groups (d :: t) ≠ [] := by
        obtain ⟨k, rest', -, hg, -⟩ := exists_run d t
        rw [hg]
        exact cons_ne_nil _ _
      have hshort : t.length < m := by
        have hcount := congrArg List.length hl
        simp only [length_cons, length_append, length_replicate] at hcount
        omega
      rw [dropLast_cons_of_ne_nil hne] at hr
      rw [hl, emit_replicate c (n + 1) (d :: t) (by omega), Nat.zero_add, emit, if_neg (hrest d t rfl), emit_seen hmax]
      rcases mem_cons.mp hr with rfl | hr
      · exact ⟨_, mem_append_right _ mem_cons_self, hfull⟩
      · obtain ⟨p, hp, hzero⟩ := ih t.length hshort d t hr rfl
        exact ⟨p, mem_append_right _ (mem_cons_of_mem _ hp), hzero⟩

theorem emit_le (hmax : 1 < max) (c : α) {n : ℕ} (hn : n < max) (l : List α) : ∀ r ∈ emit max c n l, r.2 ≤ max := by
  induction l generalizing c n with
  | nil =>
    intro r hr
    rw [emit] at hr
    split at hr
    · cases hr
    · rw [mem_singleton.mp hr]
      exact hn.le
  | cons d l ih =>
    intro r hr
    rw [emit] at hr
    split at hr
    · split at hr
      · rcases mem_cons.mp hr with rfl | hr
        · exact le_rfl
        · exact ih c (by omega) r hr
      · exact ih c (by omega) r hr
    · rcases mem_cons.mp hr with rfl | hr
      · exact hn.le
      · exact ih d hmax r hr

end Emit

end RunLength
