import LlamaRafaelia.Lib.Linked
import LlamaRafaelia.Lib.Merging
import LlamaRafaelia.Tokenizer.Unicode

/-!
# The symbols of a merging session

`llm_tokenizer_spm_session` and `llm_tokenizer_bpe_session` keep a text as a vector of symbols, linked by indices.  A
symbol is a pointer into the text and a number of bytes.  Merging two neighbours in place lengthens the left one, sets
the number of the right one to zero and takes it out of the chain.

* **`Chain.merge`** - merging neighbours keeps that, and leaves every other symbol alone.
-/

namespace Tokenizer

open List Unicode Linked Function

/-! ### Symbols -/

/-- `text` and `n` of a symbol: the bytes from the pointer on, and how many of them are the symbol's. -/
structure Slice where
  text : List UInt8
  n : ℕ
  deriving DecidableEq, Repr

/-- `std::string(symbol.text, symbol.n)`. -/
def Slice.piece (s : Slice) : List UInt8 := s.text.take s.n

/-- `llm_symbol`, with `none` for the index `-1`. -/
structure Symbol extends Slice where
  prev : Option ℕ
  next : Option ℕ
  deriving DecidableEq, Repr

/-- The vector `symbols`. -/
abbrev Symbols := ℕ → Symbol

/-- Merge the right symbol into the left one, and remove the right one from the chain. -/
def mergeSymbols (S : Symbols) (left right : ℕ) : Symbols :=
  let S := update S left { S left with n := (S left).n + (S right).n }
  let S := update S right { S right with n := 0 }
  let S := update S left { S left with next := (S right).next }
  match (S right).next with
  | some k => update S k { S k with prev := some left }
  | none => S

/-- The loop that splits a text into characters: the symbols from `index` on.  Every round takes a byte, so there are at
most `fuel` of them. -/
def symbolsLoop : ℕ → ℕ → List UInt8 → List Symbol
  | 0, _, _ => []
  | _ + 1, _, [] => []
  | fuel + 1, index, b :: rest =>
    let n := min (lenUtf8 b) (b :: rest).length
    let offs := (b :: rest).drop n
    ⟨⟨b :: rest, n⟩, if index = 0 then none else some (index - 1), if offs = [] then none else some (index + 1)⟩ ::
      symbolsLoop fuel (index + 1) offs

def symbolsOf (text : List UInt8) : List Symbol := symbolsLoop text.length 0 text

/-- The characters of a text, as `unicode_len_utf8` cuts it. -/
def chars (text : List UInt8) : List (List UInt8) := (symbolsOf text).map fun s => s.toSlice.piece

/-- `symbols[i]`, a dead symbol beyond the vector. -/
def vector (syms : List Symbol) : Symbols := fun i => syms.getD i ⟨⟨[], 0⟩, none, none⟩

/-! ### Slices side by side -/

/-- The right slice begins where the left one ends, and both have bytes. -/
structure Slice.Meets (a b : Slice) : Prop where
  left_pos : 0 < a.n
  left_le : a.n ≤ a.text.length
  text_eq : b.text = a.text.drop a.n
  right_pos : 0 < b.n
  right_le : b.n ≤ b.text.length

theorem Slice.Meets.piece_append {a b : Slice} (h : a.Meets b) : a.piece ++ b.piece = a.text.take (a.n + b.n) := by
  show a.text.take a.n ++ b.text.take b.n = _
  rw [h.text_eq, take_add]

def Tiles (S : Symbols) : List ℕ → List UInt8 → Prop
  | [], rest => rest = []
  | i :: ids, rest => (S i).text = rest ∧ 0 < (S i).n ∧ (S i).n ≤ rest.length ∧ Tiles S ids (rest.drop (S i).n)

def pieces (S : Symbols) (ids : List ℕ) : List (List UInt8) := ids.map fun i => (S i).toSlice.piece

theorem pieces_pair (S : Symbols) (xs : List ℕ) (l r : ℕ) (ys : List ℕ) : pieces S (xs ++ l :: r :: ys) =
    pieces S xs ++ (S l).toSlice.piece :: (S r).toSlice.piece :: pieces S ys := by
  rw [pieces, map_append]
  rfl

namespace Tiles

variable {S S' : Symbols} {ids xs ys : List ℕ} {text : List UInt8} {i j : ℕ}

theorem congr (h : Tiles S ids text) (hS : ∀ i ∈ ids, (S' i).toSlice = (S i).toSlice) : Tiles S' ids text := by
  induction ids generalizing text with
  | nil => exact h
  | cons i ids ih =>
    obtain ⟨htext, hpos, hle, hrest⟩ := h
    have hi : (S' i).toSlice = (S i).toSlice := hS i mem_cons_self
    have hrest' : Tiles S' ids (text.drop (S i).n) := by
      apply ih hrest
      intro k hk
      exact hS k (mem_cons_of_mem i hk)
    show (S' i).toSlice.text = text ∧ 0 < (S' i).toSlice.n ∧ (S' i).toSlice.n ≤ text.length ∧
      Tiles S' ids (text.drop (S' i).toSlice.n)
    rw [hi]
    exact ⟨htext, hpos, hle, hrest'⟩

theorem flatten_pieces (h : Tiles S ids text) : (pieces S ids).flatten = text := by
  induction ids generalizing text with
  | nil => exact h.symm
  | cons i ids ih =>
    obtain ⟨htext, -, -, hrest⟩ := h
    show (S i).text.take (S i).n ++ (pieces S ids).flatten = text
    rw [ih hrest, htext, take_append_drop]

theorem pos (h : Tiles S ids text) : ∀ i ∈ ids, 0 < (S i).n := by
  induction ids generalizing text with
  | nil => simp
  | cons i ids ih =>
    obtain ⟨-, hpos, -, hrest⟩ := h
    intro k hk
    rcases mem_cons.mp hk with rfl | hk
    · exact hpos
    · exact ih hrest k hk

theorem meets (h : Tiles S (xs ++ i :: j :: ys) text) :
    (S i).toSlice.Meets (S j).toSlice ∧ (S i).text <:+ text := by
  induction xs generalizing text with
  | nil =>
    obtain ⟨htext, hpos, hle, htext', hpos', hle', -⟩ := h
    refine ⟨⟨hpos, by rw [htext]; exact hle, by rw [htext]; exact htext', hpos', by rw [htext']; exact hle'⟩, ?_⟩
    exact htext ▸ suffix_rfl
  | cons k xs ih =>
    obtain ⟨-, -, -, hrest⟩ := h
    obtain ⟨hmeets, hsuffix⟩ := ih hrest
    exact ⟨hmeets, hsuffix.trans (drop_suffix _ _)⟩

theorem merge (h : Tiles S (xs ++ i :: j :: ys) text) (hi : (S' i).toSlice = ⟨(S i).text, (S i).n + (S j).n⟩)
    (hS : ∀ k ∈ xs ++ ys, (S' k).toSlice = (S k).toSlice) : Tiles S' (xs ++ i :: ys) text := by
  induction xs generalizing text with
  | nil =>
    obtain ⟨htext, hpos, hle, htext', hpos', hle', hrest⟩ := h
    show (S' i).toSlice.text = text ∧ 0 < (S' i).toSlice.n ∧ (S' i).toSlice.n ≤ text.length ∧
      Tiles S' ys (text.drop (S' i).toSlice.n)
    rw [hi]
    show (S i).text = text ∧ 0 < (S i).n + (S j).n ∧ (S i).n + (S j).n ≤ text.length ∧
      Tiles S' ys (text.drop ((S i).n + (S j).n))
    rw [length_drop] at hle'
    rw [drop_drop] at hrest
    exact ⟨htext, by omega, by omega, hrest.congr hS⟩
  | cons k xs ih =>
    obtain ⟨htext, hpos, hle, hrest⟩ := h
    have hk : (S' k).toSlice = (S k).toSlice := hS k mem_cons_self
    have hrest' : Tiles S' (xs ++ i :: ys) (text.drop (S k).n) := by
      apply ih hrest
      intro l hl
      exact hS l (mem_cons_of_mem k hl)
    show (S' k).toSlice.text = text ∧ 0 < (S' k).toSlice.n ∧ (S' k).toSlice.n ≤ text.length ∧
      Tiles S' (xs ++ i :: ys) (text.drop (S' k).toSlice.n)
    rw [hk]
    exact ⟨htext, hpos, hle, hrest'⟩

end Tiles

/-! ### The chain -/

def links (S : Symbols) : Links ℕ := ⟨fun i => (S i).next, fun i => (S i).prev⟩

/-- The symbols `ids` of the `count` ones are linked from the first one on, and are the text; the others are dead. -/
structure Chain (S : Symbols) (count : ℕ) (text : List UInt8) (ids : List ℕ) : Prop where
  first : entry ids none = entry (range count) none
  linked : Seg (links S) none ids none
  sublist : ids.Sublist (range count)
  tiles : Tiles S ids text
  dead : ∀ i ∉ ids, (S i).n = 0

def Adjacent (ids : List ℕ) (l r : ℕ) : Prop := ∃ xs ys, ids = xs ++ l :: r :: ys

theorem adjacent_range {n l r : ℕ} : Adjacent (range n) l r ↔ r = l + 1 ∧ r < n := by
  constructor
  · rintro ⟨xs, ys, hrange⟩
    have hlen : n = xs.length + (ys.length + 2) := by
      have := congrArg length hrange
      simpa using this
    have hl := congrArg (fun ids => ids[xs.length]?) hrange
    have hr := congrArg (fun ids => ids[xs.length + 1]?) hrange
    simp [hlen] at hl hr
    omega
  · rintro ⟨rfl, hlt⟩
    refine ⟨range l, range' (l + 2) (n - (l + 2)), ?_⟩
    have hn : n = l + (n - (l + 2) + 1 + 1) := by omega
    conv_lhs => rw [hn, range_add, ← range'_eq_map_range]
    rfl

theorem mergeSymbols_slice (S : Symbols) {l r : ℕ} (hlr : l ≠ r) (i : ℕ) :
    (mergeSymbols S l r i).toSlice =
      if i = l then ⟨(S l).text, (S l).n + (S r).n⟩ else if i = r then ⟨(S r).text, 0⟩ else (S i).toSlice := by
  unfold mergeSymbols
  simp only [update_self, update_of_ne hlr, update_of_ne hlr.symm]
  cases hnext : (S r).next with
  | none => grind [update_apply]
  | some k => grind [update_apply]

theorem mergeSymbols_text (S : Symbols) {l r : ℕ} (hlr : l ≠ r) (i : ℕ) : (mergeSymbols S l r i).text = (S i).text := by
  show (mergeSymbols S l r i).toSlice.text = _
  rw [mergeSymbols_slice S hlr]
  split_ifs with hil hir
  · rw [hil]
  · rw [hir]
  · rfl

theorem links_mergeSymbols (S : Symbols) {l r : ℕ} (hlr : l ≠ r) :
    links (mergeSymbols S l r) = unlink (links S) l r := by
  unfold mergeSymbols
  simp only [update_self, update_of_ne hlr, update_of_ne hlr.symm]
  ext1
  · funext i
    show _ = update (fun i => (S i).next) l (S r).next i
    cases hnext : (S r).next with
    | none => grind [update_apply, links]
    | some k => grind [update_apply, links]
  · funext i
    show _ = setPrev (fun i => (S i).prev) (S r).next l i
    cases hnext : (S r).next with
    | none => grind [update_apply, links, setPrev]
    | some k =>
      show (links _).prev i = update (fun i => (S i).prev) k (some l) i
      unfold links
      dsimp only
      by_cases hik : i = k
      · rw [hik, update_self, update_self]
      · rw [update_of_ne hik, update_of_ne hik]
        grind [update_apply]

theorem mergeSymbols_next (S : Symbols) {l r i : ℕ} (hlr : l ≠ r) (hi : i ≠ l) :
    (mergeSymbols S l r i).next = (S i).next := by
  have hlinks := congrArg (fun L => L.next i) (links_mergeSymbols S hlr)
  exact hlinks.trans (update_of_ne hi _ _)

namespace Chain

variable {S : Symbols} {count : ℕ} {text : List UInt8} {ids : List ℕ} {l r : ℕ}

theorem nodup (h : Chain S count text ids) : ids.Nodup := h.sublist.nodup nodup_range

theorem meets (h : Chain S count text ids) (hlr : Adjacent ids l r) :
    (S l).toSlice.Meets (S r).toSlice ∧ (S l).text <:+ text := by
  obtain ⟨xs, ys, rfl⟩ := hlr
  exact h.tiles.meets

theorem ne (h : Chain S count text ids) (hlr : Adjacent ids l r) : l ≠ r := by
  obtain ⟨xs, ys, rfl⟩ := hlr
  have hnd := h.nodup
  rintro rfl
  simp [nodup_append] at hnd

theorem next_prev (h : Chain S count text ids) (hlr : Adjacent ids l r) :
    (S l).next = some r ∧ (S r).prev = some l := by
  obtain ⟨xs, ys, rfl⟩ := hlr
  have hlinked := ((Seg.append_iff).mp h.linked).2
  exact ⟨hlinked.2.1, hlinked.2.2.1⟩

theorem adjacent_of_next (h : Chain S count text ids) (hl : l ∈ ids) (hnext : (S l).next = some r) :
    Adjacent ids l r := by
  obtain ⟨xs, ys, rfl⟩ := append_of_mem hl
  have hentry : (S l).next = entry ys none := h.linked.next_eq
  cases ys with
  | nil => simp [hentry] at hnext
  | cons k ys =>
    rw [hentry, entry_cons] at hnext
    rw [Option.some.inj hnext]
    exact ⟨xs, ys, rfl⟩

theorem adjacent_iff (h : Chain S count text ids) : Adjacent ids l r ↔ l ∈ ids ∧ (S l).next = some r := by
  constructor
  · intro hlr
    refine ⟨?_, (h.next_prev hlr).1⟩
    obtain ⟨xs, ys, rfl⟩ := hlr
    simp
  · rintro ⟨hl, hnext⟩
    exact h.adjacent_of_next hl hnext

theorem adjacent_of_prev (h : Chain S count text ids) (hr : r ∈ ids) (hprev : (S r).prev = some l) :
    Adjacent ids l r := by
  obtain ⟨xs, ys, rfl⟩ := append_of_mem hr
  have hexit : (S r).prev = exit none xs := ((Seg.append_iff).mp h.linked).2.1
  rcases eq_nil_or_concat xs with rfl | ⟨front, k, rfl⟩
  · simp [hexit] at hprev
  · rw [hexit, concat_eq_append, exit_concat] at hprev
    rw [Option.some.inj hprev]
    exact ⟨front, ys, by simp⟩

/-- **Merging neighbours** keeps the chain, without the right one. -/
theorem merge {xs ys : List ℕ} (h : Chain S count text (xs ++ l :: r :: ys)) :
    Chain (mergeSymbols S l r) count text (xs ++ l :: ys) := by
  have hlr : l ≠ r := h.ne ⟨xs, ys, rfl⟩
  have hslice := mergeSymbols_slice S hlr
  have hnd := h.nodup
  constructor
  · rw [← h.first]
    cases xs with
    | nil => rfl
    | cons k xs => rfl
  · rw [links_mergeSymbols S hlr]
    exact h.linked.unlink hnd
  · apply List.Sublist.trans _ h.sublist
    apply List.Sublist.append_left
    exact (sublist_cons_self r ys).cons_cons l
  · apply h.tiles.merge
    · rw [hslice, if_pos rfl]
    · intro k hk
      have hkl : k ≠ l := by
        rintro rfl
        simp [nodup_append] at hnd
        grind
      have hkr : k ≠ r := by
        rintro rfl
        simp [nodup_append] at hnd
        grind
      rw [hslice, if_neg hkl, if_neg hkr]
  · intro k hk
    have hkl : k ≠ l := by
      rintro rfl
      simp at hk
    show (mergeSymbols S l r k).toSlice.n = 0
    rw [hslice, if_neg hkl]
    by_cases hkr : k = r
    · rw [if_pos hkr]
    · rw [if_neg hkr]
      apply h.dead
      simp at hk ⊢
      tauto

theorem pieces_merge {xs ys : List ℕ} (h : Chain S count text (xs ++ l :: r :: ys)) :
    pieces (mergeSymbols S l r) (xs ++ l :: ys) =
      pieces S xs ++ ((S l).toSlice.piece ++ (S r).toSlice.piece) :: pieces S ys := by
  have hadj : Adjacent (xs ++ l :: r :: ys) l r := ⟨xs, ys, rfl⟩
  have hslice := mergeSymbols_slice S (h.ne hadj)
  have hnd := h.nodup
  have hother : ∀ k ∈ xs ++ ys, (mergeSymbols S l r k).toSlice.piece = (S k).toSlice.piece := by
    intro k hk
    have hkl : k ≠ l := by
      rintro rfl
      simp [nodup_append] at hnd
      grind
    have hkr : k ≠ r := by
      rintro rfl
      simp [nodup_append] at hnd
      grind
    rw [hslice, if_neg hkl, if_neg hkr]
  have hl : (mergeSymbols S l r l).toSlice.piece = (S l).toSlice.piece ++ (S r).toSlice.piece := by
    rw [hslice, if_pos rfl, (h.meets hadj).1.piece_append]
    rfl
  unfold pieces
  rw [map_append, map_cons, hl, map_congr_left fun k hk => hother k (mem_append_left ys hk),
    map_congr_left fun k hk => hother k (mem_append_right xs hk)]

theorem filter_living (h : Chain S count text ids) :
    (range count).filter (fun i => decide (0 < (S i).n)) = ids := by
  have hmem : ∀ i, i ∈ (range count).filter (fun i => decide (0 < (S i).n)) ↔ i ∈ ids := by
    intro i
    rw [mem_filter, decide_eq_true_eq]
    constructor
    · intro hi
      by_contra hdead
      exact absurd (h.dead i hdead) hi.2.ne'
    · intro hi
      exact ⟨h.sublist.subset hi, h.tiles.pos i hi⟩
  have hsorted : (range count).Pairwise (· < ·) := pairwise_lt_range
  apply List.Perm.eq_of_pairwise (fun a b _ _ hab hba => absurd hab (Nat.lt_asymm hba)) (hsorted.filter _)
    (hsorted.sublist h.sublist)
  exact (perm_ext_iff_of_nodup (nodup_range.filter _) h.nodup).mpr hmem

end Chain

/-! ### The first symbols -/

def IsChar (c : List UInt8) : Prop := ∃ b bs, c = b :: bs ∧ c.length ≤ lenUtf8 b

theorem map_symbolsLoop {fuel fuel' : ℕ} {rest : List UInt8} (h : rest.length ≤ fuel) (h' : rest.length ≤ fuel')
    (index index' : ℕ) : (symbolsLoop fuel index rest).map (fun s => s.toSlice.piece) =
      (symbolsLoop fuel' index' rest).map fun s => s.toSlice.piece := by
  induction fuel generalizing fuel' rest index index' with
  | zero =>
    rw [eq_nil_of_length_eq_zero (Nat.le_zero.mp h)]
    cases fuel' with
    | zero => rfl
    | succ fuel' => rfl
  | succ fuel ih =>
    cases rest with
    | nil =>
      cases fuel' with
      | zero => rfl
      | succ fuel' => rfl
    | cons b rest =>
      cases fuel' with
      | zero => simp at h'
      | succ fuel' =>
        have hpos := lenUtf8_pos b
        have hdrop : ((b :: rest).drop (min (lenUtf8 b) (b :: rest).length)).length ≤ rest.length := by
          simp only [length_drop, length_cons]
          omega
        simp only [length_cons, Nat.add_le_add_iff_right] at h h'
        simp only [symbolsLoop, map_cons]
        rw [ih (hdrop.trans h) (hdrop.trans h') (index + 1) (index' + 1)]

theorem chars_cons (b : UInt8) (rest : List UInt8) :
    chars (b :: rest) = (b :: rest).take (lenUtf8 b) :: chars ((b :: rest).drop (lenUtf8 b)) := by
  have hpos := lenUtf8_pos b
  have htake : (b :: rest).take (min (lenUtf8 b) (b :: rest).length) = (b :: rest).take (lenUtf8 b) := by
    rw [← take_take, take_length]
  have hdrop : (b :: rest).drop (min (lenUtf8 b) (b :: rest).length) = (b :: rest).drop (lenUtf8 b) := by
    rcases Nat.le_total (lenUtf8 b) (b :: rest).length with hle | hle
    · rw [Nat.min_eq_left hle]
    · rw [Nat.min_eq_right hle, drop_length, drop_eq_nil_of_le hle]
  have hlen : ((b :: rest).drop (lenUtf8 b)).length ≤ rest.length := by
    simp only [length_drop, length_cons]
    omega
  unfold chars symbolsOf
  rw [length_cons, symbolsLoop]
  rw [map_cons, hdrop]
  exact congrArg₂ cons htake (map_symbolsLoop hlen le_rfl 1 0)

theorem isChar_of_mem_chars {text c : List UInt8} (h : c ∈ chars text) : IsChar c := by
  induction hlen : text.length using Nat.strong_induction_on generalizing text with
  | _ len ih =>
    cases text with
    | nil => cases h
    | cons b rest =>
      have hpos := lenUtf8_pos b
      rw [chars_cons] at h
      rcases mem_cons.mp h with rfl | h
      · obtain ⟨k, hk⟩ : ∃ k, lenUtf8 b = k + 1 := ⟨lenUtf8 b - 1, by omega⟩
        refine ⟨b, rest.take k, ?_, length_take_le _ _⟩
        rw [hk, take_succ_cons]
      · refine ih _ ?_ h rfl
        rw [← hlen, length_drop, length_cons]
        omega

theorem entry_symbolsLoop {fuel index : ℕ} {rest : List UInt8} (hfuel : rest.length ≤ fuel) :
    entry (range' index (symbolsLoop fuel index rest).length) none = if rest = [] then none else some index := by
  cases rest with
  | nil =>
    cases fuel with
    | zero => rfl
    | succ fuel => rfl
  | cons b rest =>
    cases fuel with
    | zero => simp at hfuel
    | succ fuel => rfl

theorem seg_symbolsLoop {S : Symbols} {fuel index : ℕ} {rest : List UInt8} (hfuel : rest.length ≤ fuel)
    (hS : ∀ i < (symbolsLoop fuel index rest).length,
      S (index + i) = (symbolsLoop fuel index rest).getD i ⟨⟨[], 0⟩, none, none⟩) :
    Seg (links S) (if index = 0 then none else some (index - 1))
        (range' index (symbolsLoop fuel index rest).length) none ∧
      Tiles S (range' index (symbolsLoop fuel index rest).length) rest := by
  induction fuel generalizing index rest with
  | zero => exact ⟨trivial, eq_nil_of_length_eq_zero (Nat.le_zero.mp hfuel)⟩
  | succ fuel ih =>
    cases rest with
    | nil => exact ⟨trivial, rfl⟩
    | cons b rest =>
      have hpos := lenUtf8_pos b
      simp only [symbolsLoop, length_cons] at hfuel hS ⊢
      generalize hn : min (lenUtf8 b) (rest.length + 1) = n at hS ⊢
      have hoffs : ((b :: rest).drop n).length ≤ fuel := by
        simp only [length_drop, length_cons]
        omega
      have hhead : S index = ⟨⟨b :: rest, n⟩, if index = 0 then none else some (index - 1),
          if (b :: rest).drop n = [] then none else some (index + 1)⟩ := hS 0 (by omega)
      have htail : ∀ i < (symbolsLoop fuel (index + 1) ((b :: rest).drop n)).length, S (index + 1 + i) =
          (symbolsLoop fuel (index + 1) ((b :: rest).drop n)).getD i ⟨⟨[], 0⟩, none, none⟩ := by
        intro i hi
        rw [show index + 1 + i = index + (i + 1) from by omega, hS (i + 1) (by omega)]
        rfl
      obtain ⟨hseg, htiles⟩ := ih hoffs htail
      rw [range'_succ]
      refine ⟨⟨congrArg Symbol.prev hhead, (congrArg Symbol.next hhead).trans (entry_symbolsLoop hoffs).symm, hseg⟩, ?_⟩
      show (S index).text = b :: rest ∧ 0 < (S index).n ∧ (S index).n ≤ (b :: rest).length ∧ Tiles S _ _
      rw [hhead]
      exact ⟨rfl, by dsimp only; omega, by dsimp only [length_cons]; omega, htiles⟩

theorem chain_symbolsOf (text : List UInt8) :
    Chain (vector (symbolsOf text)) (symbolsOf text).length text (range (symbolsOf text).length) := by
  obtain ⟨hseg, htiles⟩ := @seg_symbolsLoop (vector (symbolsOf text)) text.length 0 text le_rfl (by
    intro i _
    rw [Nat.zero_add]
    rfl)
  rw [← range_eq_range'] at hseg htiles
  refine ⟨rfl, hseg, List.Sublist.refl _, htiles, ?_⟩
  intro i hi
  have hlen : (symbolsOf text).length ≤ i := by simpa using hi
  show ((symbolsOf text).getD i _).n = 0
  rw [getD_eq_getElem?_getD, getElem?_eq_none hlen]
  rfl

theorem pieces_vector (syms : List Symbol) :
    pieces (vector syms) (range syms.length) = syms.map fun s => s.toSlice.piece := by
  apply ext_getElem
  · simp [pieces]
  · intro i hi hi'
    simp only [pieces, getElem_map, getElem_range, vector]
    rw [getD_eq_getElem?_getD, getElem?_eq_getElem (by simpa using hi')]
    rfl

theorem flatten_chars (text : List UInt8) : (chars text).flatten = text := by
  have h := (chain_symbolsOf text).tiles.flatten_pieces
  rwa [pieces_vector] at h

end Tokenizer
