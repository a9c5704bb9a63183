import Mathlib.Data.Nat.Notation
import Mathlib.Data.List.Induction
import Mathlib.Data.List.Nodup
import Mathlib.Logic.Function.Basic
import Mathlib.Order.Bounds.Basic
import Mathlib.Tactic.Common

/-!
# Tries

A trie is a tree whose edges carry letters; a node with a value ends a key.  Inner nodes without a value are on the way to
some key only.

* **`Trie.begins_ofEntries`**, **`Trie.entry_ofEntries`** - a word leads to a node exactly when it begins a key, and to a
  value exactly when it is one;
* **`Trie.longest_isGreatest`** - the walk along a text goes as far as the text begins a key.
-/

/-- A tree whose edges carry letters and whose nodes may carry a value. -/
inductive Trie (α : Type) (β : Type) where
  | node (children : α → Option (Trie α β)) (value : Option β)

namespace Trie

open List Function

variable {α β : Type}

def traverse : Trie α β → α → Option (Trie α β)
  | node children _, c => children c

def value : Trie α β → Option β
  | node _ value => value

def empty : Trie α β := node (fun _ => none) none

/-- Follow the letters as far as the text begins a key; the number of letters, counted on from `offset`. -/
def longest : Trie α β → List α → ℕ → ℕ
  | _, [], offset => offset
  | t, c :: text, offset =>
    match t.traverse c with
    | some child => child.longest text (offset + 1)
    | none => offset

/-- The values on the way along the text, with the number of letters up to each, counted on from `offset`. -/
def hits : Trie α β → List α → ℕ → List (ℕ × β)
  | t, [], offset => (t.value.map fun v => (offset, v)).toList
  | t, c :: text, offset =>
    (t.value.map fun v => (offset, v)).toList ++ match t.traverse c with
      | some child => child.hits text (offset + 1)
      | none => []

def walk : Trie α β → List α → Option (Trie α β)
  | t, [] => some t
  | t, c :: word => (t.traverse c).bind fun child => child.walk word

def Begins (t : Trie α β) (word : List α) : Prop := (t.walk word).isSome

def entry (t : Trie α β) (word : List α) : Option β := (t.walk word).bind value

theorem walk_append (t : Trie α β) (w u : List α) : t.walk (w ++ u) = (t.walk w).bind fun child => child.walk u := by
  induction w generalizing t with
  | nil => rfl
  | cons c w ih =>
    show (t.traverse c).bind (fun child => child.walk (w ++ u)) = ((t.traverse c).bind fun child => child.walk w).bind _
    cases t.traverse c with
    | none => rfl
    | some child => exact ih child

theorem Begins.of_append {t : Trie α β} {w u : List α} (h : t.Begins (w ++ u)) : t.Begins w := by
  rw [Begins, walk_append] at h
  rw [Begins]
  cases hw : t.walk w with
  | none =>
    rw [hw] at h
    cases h
  | some child => rfl

theorem Begins.of_isPrefix {t : Trie α β} {w u : List α} (h : t.Begins u) (hle : w <+: u) : t.Begins w := by
  obtain ⟨v, rfl⟩ := hle
  exact h.of_append

theorem begins_of_entry {t : Trie α β} {w : List α} {v : β} (h : t.entry w = some v) : t.Begins w := by
  rw [entry] at h
  rw [Begins]
  cases hw : t.walk w with
  | none =>
    rw [hw] at h
    cases h
  | some child => rfl

theorem walk_concat {t child : Trie α β} {w : List α} (h : t.walk w = some child) (c : α) :
    t.walk (w ++ [c]) = child.traverse c := by
  rw [walk_append, h]
  show (child.traverse c).bind some = _
  cases child.traverse c with
  | none => rfl
  | some next => rfl

/-! ### The walk along a text -/

theorem longest_add (t : Trie α β) (text : List α) (offset : ℕ) : t.longest text offset = offset + t.longest text 0 := by
  induction text generalizing t offset with
  | nil => rfl
  | cons c text ih =>
    rw [longest, longest]
    cases t.traverse c with
    | none => rfl
    | some child =>
      show child.longest text (offset + 1) = offset + child.longest text (0 + 1)
      rw [ih child (offset + 1), ih child (0 + 1)]
      omega

theorem longest_isGreatest (t : Trie α β) (text : List α) :
    IsGreatest {l | l ≤ text.length ∧ t.Begins (text.take l)} (t.longest text 0) := by
  induction text generalizing t with
  | nil => exact ⟨⟨Nat.le_refl 0, rfl⟩, fun l hl => hl.1⟩
  | cons c text ih =>
    have hstep : ∀ l, t.walk ((c :: text).take (l + 1)) = (t.traverse c).bind fun child => child.walk (text.take l) :=
      fun l => rfl
    rw [longest]
    cases hc : t.traverse c with
    | none =>
      refine ⟨⟨Nat.zero_le _, rfl⟩, fun l hl => ?_⟩
      cases l with
      | zero => exact Nat.le_refl 0
      | succ l =>
        have hbegins := hl.2
        rw [Begins, hstep, hc] at hbegins
        cases hbegins
    | some child =>
      obtain ⟨⟨hle, hbegins⟩, hmax⟩ := ih child
      show IsGreatest _ (child.longest text (0 + 1))
      rw [longest_add, Nat.add_comm 0, Nat.add_zero, Nat.add_comm]
      refine ⟨⟨Nat.succ_le_succ hle, ?_⟩, fun l hl => ?_⟩
      · show (t.walk ((c :: text).take (child.longest text 0 + 1))).isSome = true
        rw [hstep, hc]
        exact hbegins
      · cases l with
        | zero => exact Nat.zero_le _
        | succ l =>
          refine Nat.succ_le_succ (hmax ⟨Nat.le_of_succ_le_succ hl.1, ?_⟩)
          have hbegins' := hl.2
          rw [Begins, hstep, hc] at hbegins'
          exact hbegins'

/-- **The values on the way along a text** are those of its beginnings. -/
theorem mem_hits_iff {t : Trie α β} {text : List α} {offset p : ℕ} {v : β} :
    (p, v) ∈ t.hits text offset ↔ ∃ l, p = offset + l ∧ l ≤ text.length ∧ t.entry (text.take l) = some v := by
  have hhere : ∀ {t : Trie α β} {offset : ℕ}, (p, v) ∈ (t.value.map fun v => (offset, v)).toList
      ↔ p = offset ∧ t.value = some v := by
    intro t offset
    rw [Option.mem_toList, Option.map_eq_some_iff]
    constructor
    · intro ⟨v', hv, heq⟩
      obtain ⟨rfl, rfl⟩ := Prod.mk.inj heq
      exact ⟨rfl, hv⟩
    · intro ⟨hp, hv⟩
      exact ⟨v, hv, Prod.ext hp.symm rfl⟩
  induction text generalizing t offset with
  | nil =>
    rw [hits, hhere]
    constructor
    · exact fun ⟨hp, hv⟩ => ⟨0, hp, Nat.le_refl 0, hv⟩
    · intro ⟨l, hp, hl, hv⟩
      obtain rfl := Nat.eq_zero_of_le_zero hl
      exact ⟨hp, hv⟩
  | cons c text ih =>
    have hstep : ∀ l, t.entry ((c :: text).take (l + 1)) = (t.traverse c).bind fun child => child.entry (text.take l) := by
      intro l
      show Option.bind ((t.traverse c).bind _) _ = _
      rw [Option.bind_assoc]
      rfl
    have hmore : (p, v) ∈ (match t.traverse c with | some child => child.hits text (offset + 1) | none => [])
        ↔ ∃ l, p = offset + (l + 1) ∧ l + 1 ≤ text.length + 1 ∧ t.entry ((c :: text).take (l + 1)) = some v := by
      cases hc : t.traverse c with
      | none =>
        refine ⟨fun h => absurd h not_mem_nil, fun ⟨l, _, _, hv⟩ => ?_⟩
        rw [hstep, hc] at hv
        cases hv
      | some child =>
        show (p, v) ∈ child.hits text (offset + 1) ↔ _
        refine ih.trans (exists_congr fun l => ?_)
        rw [hstep, hc, Nat.add_assoc, Nat.add_comm 1 l, Nat.add_le_add_iff_right]
        rfl
    rw [hits, mem_append, hhere, hmore]
    constructor
    · intro h
      rcases h with ⟨hp, hv⟩ | ⟨l, h⟩
      · exact ⟨0, hp, Nat.zero_le _, hv⟩
      · exact ⟨l + 1, h⟩
    · intro ⟨l, hp, hl, hv⟩
      cases l with
      | zero => exact Or.inl ⟨hp, hv⟩
      | succ l => exact Or.inr ⟨l, hp, hl, hv⟩

/-! ### Putting keys in -/

section Insert

variable [DecidableEq α]

def insert : Trie α β → List α → β → Trie α β
  | node children _, [], v => node children (some v)
  | node children value, c :: key, v =>
    node (update children c (some (((children c).getD empty).insert key v))) value

def ofEntries (entries : List (List α × β)) : Trie α β := entries.foldl (fun t e => t.insert e.1 e.2) empty

omit [DecidableEq α] in
theorem begins_empty_iff {w : List α} : (empty : Trie α β).Begins w ↔ w = [] := by
  cases w with
  | nil => exact ⟨fun _ => rfl, fun _ => rfl⟩
  | cons c w =>
    constructor
    · intro h
      cases h
    · intro h
      cases h

omit [DecidableEq α] in
theorem entry_empty (w : List α) : (empty : Trie α β).entry w = none := by
  cases w with
  | nil => rfl
  | cons c w => rfl

theorem begins_insert {t : Trie α β} {key w : List α} {v : β} : (t.insert key v).Begins w ↔ t.Begins w ∨ w <+: key := by
  induction key generalizing t w with
  | nil =>
    obtain ⟨children, value⟩ := t
    cases w with
    | nil => exact ⟨fun _ => Or.inl rfl, fun _ => rfl⟩
    | cons c w => exact ⟨fun h => Or.inl h, fun h => h.elim id fun hle => nomatch List.prefix_nil.mp hle⟩
  | cons c key ih =>
    obtain ⟨children, value⟩ := t
    cases w with
    | nil => exact ⟨fun _ => Or.inl rfl, fun _ => rfl⟩
    | cons d w =>
      by_cases hd : d = c
      · subst hd
        have hleft : ((node children value).insert (d :: key) v).Begins (d :: w)
            ↔ (((children d).getD empty).insert key v).Begins w := by
          show Option.isSome ((update children d _ d).bind _) = true ↔ _
          rw [update_self]
          rfl
        have hright : (node children value).Begins (d :: w) ∨ d :: w <+: d :: key
            ↔ ((children d).getD empty).Begins w ∨ w <+: key := by
          rw [List.cons_prefix_cons]
          show Option.isSome ((children d).bind _) = true ∨ d = d ∧ w <+: key ↔ _
          cases children d with
          | some child => exact ⟨fun h => h.imp_right And.right, fun h => h.imp_right fun hle => ⟨rfl, hle⟩⟩
          | none =>
            show false = true ∨ _ ↔ (empty : Trie α β).Begins w ∨ _
            rw [begins_empty_iff]
            constructor
            · exact fun h => h.elim (fun hfalse => nomatch hfalse) fun hle => Or.inr hle.2
            · rintro (rfl | hle)
              · exact Or.inr ⟨rfl, List.nil_prefix⟩
              · exact Or.inr ⟨rfl, hle⟩
        rw [hleft, hright]
        exact ih
      · have hleft : ((node children value).insert (c :: key) v).Begins (d :: w) ↔ (node children value).Begins (d :: w) := by
          show Option.isSome ((update children c _ d).bind _) = true ↔ Option.isSome ((children d).bind _) = true
          rw [update_of_ne hd]
        rw [hleft]
        exact ⟨Or.inl, fun h => h.elim id fun hle => absurd (List.cons_prefix_cons.mp hle).1 hd⟩

theorem entry_insert {t : Trie α β} {key w : List α} {v : β} :
    (t.insert key v).entry w = if w = key then some v else t.entry w := by
  induction key generalizing t w with
  | nil =>
    obtain ⟨children, value⟩ := t
    cases w with
    | nil => rfl
    | cons c w => rfl
  | cons c key ih =>
    obtain ⟨children, value⟩ := t
    cases w with
    | nil => rfl
    | cons d w =>
      by_cases hd : d = c
      · subst hd
        have hleft : ((node children value).insert (d :: key) v).entry (d :: w)
            = (((children d).getD empty).insert key v).entry w := by
          show ((update children d _ d).bind _).bind _ = _
          rw [update_self]
          rfl
        have hright : (node children value).entry (d :: w) = ((children d).getD empty).entry w := by
          show ((children d).bind _).bind _ = _
          cases children d with
          | some child => rfl
          | none => exact (entry_empty w).symm
        rw [hleft, hright, ih]
        simp only [List.cons.injEq, true_and]
      · have hleft : ((node children value).insert (c :: key) v).entry (d :: w) = (node children value).entry (d :: w) := by
          show ((update children c _ d).bind _).bind _ = ((children d).bind _).bind _
          rw [update_of_ne hd]
        rw [hleft, if_neg fun heq => hd (List.cons.inj heq).1]

theorem begins_ofEntries {entries : List (List α × β)} {w : List α} :
    (ofEntries entries).Begins w ↔ w = [] ∨ ∃ e ∈ entries, w <+: e.1 := by
  have hall : ∀ t : Trie α β, (entries.foldl (fun t e => t.insert e.1 e.2) t).Begins w
      ↔ t.Begins w ∨ ∃ e ∈ entries, w <+: e.1 := by
    induction entries with
    | nil => exact fun t => ⟨Or.inl, fun h => h.elim id fun hex => absurd hex.choose_spec.1 not_mem_nil⟩
    | cons e entries ih =>
      intro t
      rw [foldl_cons, ih, begins_insert, or_assoc]
      simp only [mem_cons, exists_eq_or_imp]
  rw [ofEntries, hall, begins_empty_iff]

/-- **A word leads to a value exactly when it is a key**, and then to the value that was put in last. -/
theorem entry_ofEntries (entries : List (List α × β)) (w : List α) :
    (ofEntries entries).entry w = (entries.reverse.find? fun e => decide (e.1 = w)).map Prod.snd := by
  induction entries using List.reverseRecOn with
  | nil => exact entry_empty w
  | append_singleton entries e ih =>
    rw [ofEntries, foldl_append]
    show ((ofEntries entries).insert e.1 e.2).entry w = _
    rw [entry_insert, ih, reverse_append, reverse_singleton, singleton_append, find?_cons]
    by_cases heq : w = e.1
    · rw [if_pos heq, decide_eq_true heq.symm]
      rfl
    · rw [if_neg heq, decide_eq_false fun h => heq h.symm]

theorem entry_isSome_iff {entries : List (List α × β)} {w : List α} :
    ((ofEntries entries).entry w).isSome ↔ ∃ e ∈ entries, e.1 = w := by
  rw [entry_ofEntries, Option.isSome_map, find?_isSome]
  simp only [mem_reverse, decide_eq_true_eq]

theorem mem_of_entry {entries : List (List α × β)} {w : List α} {v : β} (h : (ofEntries entries).entry w = some v) :
    (w, v) ∈ entries := by
  rw [entry_ofEntries, Option.map_eq_some_iff] at h
  obtain ⟨e, hfind, rfl⟩ := h
  have hkey : e.1 = w := by simpa using find?_some hfind
  rw [← hkey]
  exact mem_reverse.mp (mem_of_find?_eq_some hfind)

theorem entry_eq_some_iff {entries : List (List α × β)} (hdistinct : (entries.map Prod.fst).Nodup) {w : List α} {v : β} :
    (ofEntries entries).entry w = some v ↔ (w, v) ∈ entries := by
  refine ⟨mem_of_entry, fun h => ?_⟩
  obtain ⟨v', hv'⟩ := Option.isSome_iff_exists.mp ((entry_isSome_iff).mpr ⟨(w, v), h, rfl⟩)
  have heq : (w, v') = (w, v) := inj_on_of_nodup_map hdistinct (mem_of_entry hv') h rfl
  rw [hv', (Prod.mk.inj heq).2]

end Insert

end Trie
