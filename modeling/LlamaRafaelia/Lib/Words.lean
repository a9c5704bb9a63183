import Mathlib.Data.List.Basic
import Mathlib.Tactic.Common

/-!
# Words: cutting a text at separators and joining again

A text over any alphabet is cut into its words, the longest runs of letters; everything else separates.

* `split_append_sep` - **a separator cuts the text in two**: the words of the whole are those of both sides.
-/

namespace Words

open List

variable {α : Type} (isWord : α → Bool)

/-- The words of a text, when `current` is what was read of a word already. -/
def split (current : List α) : List α → List (List α)
  | [] => if current = [] then [] else [current]
  | c :: rest =>
    if isWord c then split (current ++ [c]) rest
    else if current = [] then split [] rest
    else current :: split [] rest

def join (sep : α) : List (List α) → List α
  | [] => []
  | word :: rest => word ++ rest.flatMap (sep :: ·)

/-- Two texts with one separator between them, where an empty text is left out. -/
def glue (sep : α) (l l' : List α) : List α :=
  if l = [] then l' else if l' = [] then l else l ++ sep :: l'

variable {isWord}

theorem split_append_sep {c : α} (hc : isWord c = false) (current l l' : List α) :
    split isWord current (l ++ c :: l') = split isWord current l ++ split isWord [] l' := by
  induction l generalizing current with
  | nil =>
    rw [nil_append, split, split, if_neg (by simp [hc])]
    split <;> rfl
  | cons b l ih =>
    rw [cons_append, split, split, ih, ih]
    split
    · rfl
    · split <;> rfl

theorem mem_split {Q : α → Prop} {current l : List α} (hcurrent : ∀ c ∈ current, Q c)
    (hl : ∀ c ∈ l, isWord c = true → Q c) {word : List α} (h : word ∈ split isWord current l) :
    word ≠ [] ∧ ∀ c ∈ word, Q c := by
  induction l generalizing current with
  | nil =>
    rw [split] at h
    split at h
    · cases h
    · rename_i hne
      obtain rfl := mem_singleton.mp h
      exact ⟨hne, hcurrent⟩
  | cons b l ih =>
    have hl' : ∀ c ∈ l, isWord c = true → Q c := fun c hc => hl c (mem_cons_of_mem _ hc)
    rw [split] at h
    split at h
    · rename_i hb
      refine ih (fun c hc => ?_) hl' h
      rcases mem_append.mp hc with hc | hc
      · exact hcurrent c hc
      · rw [mem_singleton.mp hc]
        exact hl b (mem_cons_self ..) hb
    · split at h
      · exact ih (by simp) hl' h
      · rename_i hne
        rcases mem_cons.mp h with rfl | h
        · exact ⟨hne, hcurrent⟩
        · exact ih (by simp) hl' h

theorem split_word {word : List α} (hword : ∀ c ∈ word, isWord c = true) (current l : List α) :
    split isWord current (word ++ l) = split isWord (current ++ word) l := by
  induction word generalizing current with
  | nil => simp
  | cons c word ih =>
    rw [cons_append, split, if_pos (hword c (mem_cons_self ..)),
      ih (fun c hc => hword c (mem_cons_of_mem _ hc)), append_assoc, singleton_append]

theorem split_join {sep : α} (hsep : isWord sep = false) {words : List (List α)}
    (hwords : ∀ word ∈ words, word ≠ [] ∧ ∀ c ∈ word, isWord c = true) :
    split isWord [] (join sep words) = words := by
  -- behind the first word, every word is announced by a separator
  have hrest : ∀ (current : List α) (rest : List (List α)), current ≠ [] →
      (∀ word ∈ rest, word ≠ [] ∧ ∀ c ∈ word, isWord c = true) →
      split isWord current (rest.flatMap (sep :: ·)) = current :: rest := by
    intro current rest hcurrent hrest
    induction rest generalizing current with
    | nil => rw [flatMap_nil, split, if_neg hcurrent]
    | cons word rest ih =>
      obtain ⟨hne, hletters⟩ := hrest word (mem_cons_self ..)
      rw [flatMap_cons, cons_append, split, if_neg (by simp [hsep]), if_neg hcurrent, split_word hletters,
        nil_append, ih word hne fun word' h' => hrest word' (mem_cons_of_mem _ h')]
  cases words with
  | nil => rfl
  | cons word rest =>
    obtain ⟨hne, hletters⟩ := hwords word (mem_cons_self ..)
    rw [join, split_word hletters, nil_append,
      hrest word rest hne fun word' h' => hwords word' (mem_cons_of_mem _ h')]

theorem mem_join {sep c : α} {words : List (List α)} (h : c ∈ join sep words) :
    c = sep ∨ ∃ word ∈ words, c ∈ word := by
  cases words with
  | nil => cases h
  | cons word rest =>
    rcases mem_append.mp h with h | h
    · exact .inr ⟨word, mem_cons_self .., h⟩
    · obtain ⟨word', hword', hmem⟩ := mem_flatMap.mp h
      rcases mem_cons.mp hmem with rfl | hmem
      · exact .inl rfl
      · exact .inr ⟨word', mem_cons_of_mem _ hword', hmem⟩

theorem join_eq_nil {sep : α} {words : List (List α)} (hwords : ∀ word ∈ words, word ≠ []) :
    join sep words = [] ↔ words = [] := by
  cases words with
  | nil => simp [join]
  | cons word rest => simp [join, hwords word (mem_cons_self ..)]

theorem join_append {sep : α} {words words' : List (List α)} (hwords : ∀ word ∈ words, word ≠ [])
    (hwords' : ∀ word ∈ words', word ≠ []) :
    join sep (words ++ words') = glue sep (join sep words) (join sep words') := by
  unfold glue
  cases words with
  | nil => simp [join]
  | cons word rest =>
    rw [if_neg (mt (join_eq_nil hwords).mp (by simp))]
    cases words' with
    | nil => simp [join]
    | cons word' rest' =>
      rw [if_neg (mt (join_eq_nil hwords').mp (by simp))]
      simp [join]

theorem infix_glue_left (sep : α) (l l' : List α) : l <:+: glue sep l l' := by
  unfold glue
  split
  · rename_i h
    rw [h]
    exact List.nil_infix
  · split
    · exact List.infix_rfl
    · exact ⟨[], sep :: l', by simp⟩

theorem infix_glue_right (sep : α) (l l' : List α) : l' <:+: glue sep l l' := by
  unfold glue
  split
  · exact List.infix_rfl
  · split
    · rename_i h
      rw [h]
      exact List.nil_infix
    · exact ⟨l ++ [sep], [], by simp⟩

end Words
