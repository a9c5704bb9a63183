import Mathlib.Algebra.Order.Ring.Int
import LlamaRafaelia.Lib.BestPath
import LlamaRafaelia.Tokenizer.PlamoTable
import LlamaRafaelia.Tokenizer.Vocab

/-!
# Encoding with the PLaMo-2 tokenizer

The state is the longest suffix of a token that the rest begins with.  The loop over its rows stops at the first one
with the score of the sentinel, so a token with that score is taken for the sentinel.

* `Ready.step` - **one position**;
* **`plamo_iff`** - where no token with the score of the sentinel occurs, a call does what is expected exactly when `build`
  gets all byte tokens, none of them as the first token, and can number the rows.
-/

namespace Tokenizer.Plamo

open List Unicode Nat

/-- A piece of a segmentation: a token, or a code point by its bytes. -/
inductive Label where
  | token (id : ℕ)
  | bytes (c : ℕ)
  deriving DecidableEq, Repr

/-- The pieces of the text: tokens that are no byte tokens, with a score that is valid, and single code points. -/
inductive Segment (tokens : List PlamoToken) (data : List ℕ) : ℕ → ℕ → Label → ℤ → Prop
  | token {i id : ℕ} {t : PlamoToken} {k : ℤ} (get : tokens[id]? = some t) (text : t.byte = false) (score : t.score = some k)
      (valid : invalidScore < k) (ne : t.word ≠ []) (here : t.word <+: data.drop i) :
      Segment tokens data i (i + t.word.length) (.token id) k
  | bytes {i c : ℕ} (get : data[i]? = some c) : Segment tokens data i (i + 1) (.bytes c) unknownScore

/-- The tokens of a piece: the token itself, or byte tokens for the encoding. -/
inductive Spells (tokens : List PlamoToken) : Label → List ℕ → Prop
  | token (id : ℕ) : Spells tokens (.token id) [id]
  | bytes {c : ℕ} {ids : List ℕ}
      (each : List.Forall₂ (fun (b : UInt8) id => ∃ t, tokens[id]? = some t ∧ ByteToken t b.toNat) (encoding c) ids) :
      Spells tokens (.bytes c) ids

def tokenBytes (tokens : List PlamoToken) (id : ℕ) : List UInt8 :=
  match tokens[id]? with
  | some t =>
    if t.byte && isByteName t.text then
      match stoi (t.text.getD 3 0) (t.text.getD 4 0) with
      | some b => [UInt8.ofNat b.toNat]
      | none => []
    else t.text
  | none => []

def dataOf (text : List UInt8) : List ℕ := skipBom (cptsFromUtf8 text)

/-- **What is expected of a call**: it returns the tokens of a segmentation whose score is the greatest, and they stand for
the text. -/
def Encoded (tokens : List PlamoToken) (text : List UInt8) : Prop :=
  ∃ ids labels total, tokenize tokens text = .ok ids
    ∧ BestPath.Path (Segment tokens (dataOf text)) 0 (dataOf text).length labels total
    ∧ (∀ labels' total', BestPath.Path (Segment tokens (dataOf text)) 0 (dataOf text).length labels' total' → total' ≤ total)
    ∧ (∃ parts, List.Forall₂ (Spells tokens) labels parts ∧ ids = parts.flatten)
    ∧ ids.flatMap (tokenBytes tokens) = enc (dataOf text)

def NoSentinelToken (tokens : List PlamoToken) (data : List ℕ) : Prop :=
  ∀ t ∈ tokens, t.byte = false → t.score = some unknownScore → ¬ t.word <:+: data

/-! ### The next state -/

section Next

variable {tokens : List PlamoToken} {start : List ℕ → ℕ → Prop} {tables : Tables} {c : ℕ}

theorem found_eq (h : Automaton tokens start tables) {p : List ℕ} {k : ℕ} (hp : start p k) :
    (∃ m, start (c :: p) m ∧ ((Assoc.lookup Prod.fst (c, k) tables.toSuffixId).map Prod.snd).getD 0 = m ∧ 0 < m)
      ∨ c :: p ∉ Suff tokens ∧ ((Assoc.lookup Prod.fst (c, k) tables.toSuffixId).map Prod.snd).getD 0 = 0 := by
  by_cases hin : c :: p ∈ Suff tokens
  · obtain ⟨m, hm⟩ := h.exists_start hin
    refine Or.inl ⟨m, hm, ?_, h.startPos hm (cons_ne_nil c p)⟩
    rw [(h.next hp m).mpr hm]
    rfl
  · refine Or.inr ⟨hin, ?_⟩
    cases hfind : Assoc.lookup Prod.fst (c, k) tables.toSuffixId with
    | none => rfl
    | some e =>
      have hkey : e.1 = (c, k) := by simpa using find?_some hfind
      obtain ⟨⟨c', k'⟩, m⟩ := e
      obtain ⟨rfl, rfl⟩ := Prod.mk.inj (show (c', k') = (c, k) from hkey)
      exact absurd (h.mem ((h.next hp m).mp hfind)) hin

/-- **The loop finds the longest beginning** that goes on with the letter, when no row looks like the sentinel. -/
theorem nextSuffix_spec (h : Automaton tokens start tables) {ps : List (List ℕ)} {rs : List Row}
    (heach : List.Forall₂ (RowOf tokens start) ps rs) (hsorted : ps.Pairwise fun a b => b.length < a.length)
    (hmarked : ∀ row ∈ rs, row.score ≠ unknownScore) (rest : List Row) (suffixId : ℕ) :
    (∃ p, (p ∈ ps ∨ p = []) ∧ start (c :: p) (nextSuffix tables c (rs ++ sentinel :: rest) suffixId)
        ∧ ∀ r ∈ ps, c :: r ∈ Suff tokens → r.length ≤ p.length)
      ∨ (∀ r, r ∈ ps ∨ r = [] → c :: r ∉ Suff tokens) ∧ nextSuffix tables c (rs ++ sentinel :: rest) suffixId = 0 := by
  induction heach generalizing suffixId with
  | nil =>
    rw [nil_append, nextSuffix]
    have hstop : 0 < ((Assoc.lookup Prod.fst (c, sentinel.pieceId) tables.toSuffixId).map Prod.snd).getD 0
        ∨ sentinel.score = unknownScore := Or.inr rfl
    rw [if_pos hstop]
    rcases found_eq (c := c) h h.startNil with ⟨m, hm, heq, -⟩ | ⟨hnone, heq⟩
    · refine Or.inl ⟨[], Or.inr rfl, ?_, fun r hr => absurd hr not_mem_nil⟩
      rw [show sentinel.pieceId = 0 from rfl, heq]
      exact hm
    · refine Or.inr ⟨fun r hr => ?_, heq⟩
      rcases hr with hr | rfl
      · exact absurd hr not_mem_nil
      · exact hnone
  | @cons p row ps rs hrow heach ih =>
    obtain ⟨hlonger, hsorted⟩ := pairwise_cons.mp hsorted
    rw [cons_append, nextSuffix]
    rcases found_eq (c := c) h hrow.id with ⟨m, hm, heq, hpos⟩ | ⟨hnone, heq⟩
    · rw [heq, if_pos (Or.inl hpos)]
      refine Or.inl ⟨p, Or.inl mem_cons_self, hm, fun r hr _ => ?_⟩
      rcases mem_cons.mp hr with rfl | hr
      · exact le_refl _
      · exact le_of_lt (hlonger r hr)
    · have hgo : ¬ (0 < 0 ∨ row.score = unknownScore) := by
        intro hor
        exact hor.elim (lt_irrefl 0) (hmarked row mem_cons_self)
      rw [heq, if_neg hgo]
      rcases ih hsorted (fun row' hrow' => hmarked row' (mem_cons_of_mem row hrow')) 0 with ⟨p', hp', hstart, hmax⟩ | ⟨hall, hzero⟩
      · refine Or.inl ⟨p', hp'.imp_left (mem_cons_of_mem p), hstart, fun r hr hin => ?_⟩
        rcases mem_cons.mp hr with rfl | hr
        · exact absurd hin hnone
        · exact hmax r hr hin
      · refine Or.inr ⟨fun r hr => ?_, hzero⟩
        rcases hr with hr | rfl
        · rcases mem_cons.mp hr with rfl | hr
          · exact hnone
          · exact hall r (Or.inl hr)
        · exact hall [] (Or.inr rfl)

/-- **The next state** is the longest suffix that the longer text begins with. -/
theorem next_state (h : Automaton tokens start tables) {text q : List ℕ} {k : ℕ}
    (hq : Suffixes.Longest (Suff tokens) text q) {ps : List (List ℕ)} {rs : List Row}
    (hrows : RowsOf tokens start q (tables.table.drop k) ps rs) (hmarked : ∀ row ∈ rs, row.score ≠ unknownScore) :
    ∃ q', start q' (nextSuffix tables c (tables.table.drop k) k) ∧ Suffixes.Longest (Suff tokens) (c :: text) q' := by
  obtain ⟨rest, hrest⟩ := hrows.begins
  rw [append_assoc, singleton_append] at hrest
  rw [← hrest]
  have hin : ∀ {r}, c :: r ∈ Suff tokens → r <+: q → r ∈ ps ∨ r = [] := by
    intro r hr hbegins
    by_cases hne : r = []
    · exact Or.inr hne
    · exact Or.inl ((hrows.mem r).mpr ⟨hne, hbegins, suff_closed tokens c r hr⟩)
  rcases nextSuffix_spec (c := c) h hrows.each hrows.sorted hmarked rest k with ⟨p, hp, hnext, hmax⟩ | ⟨hnone, hzero⟩
  · have hbegins : p <+: q := by
      rcases hp with hp | rfl
      · exact ((hrows.mem p).mp hp).2.1
      · exact List.nil_prefix
    refine ⟨c :: p, hnext, hq.step (suff_closed tokens) (h.mem hnext) hbegins fun r hr hr' => ?_⟩
    rcases hin hr hr' with hr'' | rfl
    · exact hmax r hr'' hr
    · exact zero_le _
  · refine ⟨[], ?_, hq.none (suff_closed tokens) (Or.inl rfl) fun r hr hr' => hnone r (hin hr hr') hr⟩
    rw [hzero]
    exact h.startNil

end Next

/-! ### The best path from a position -/

section Update

variable {c i : ℕ} {cells : ℕ → PathCell} {row : Row} {rs : List Row}

theorem improve_of_ne {j : ℕ} (hj : j ≠ i) : improve c i row cells j = cells j := by
  unfold improve
  split
  · exact Function.update_of_ne hj _ _
  · rfl

theorem improve_le : (improve c i row cells i).score ≤ (cells (i + row.pieceLength)).score - row.score
    ∧ (improve c i row cells i).score ≤ (cells i).score := by
  unfold improve
  split
  · rw [Function.update_self]
    exact ⟨le_refl _, Int.le_of_lt ‹_›⟩
  · exact ⟨Int.not_lt.mp ‹_›, le_refl _⟩

theorem improve_eq : improve c i row cells i = cells i
    ∨ (improve c i row cells i).score = (cells (i + row.pieceLength)).score - row.score
      ∧ (improve c i row cells i).tokenLength = row.pieceLength ∧ (improve c i row cells i).tokenId = row.tokenId := by
  unfold improve
  split
  · rw [Function.update_self]
    exact Or.inr ⟨rfl, rfl, rfl⟩
  · exact Or.inl rfl

def usable (rs : List Row) : List Row := rs.filter fun row => invalidScore < row.score

theorem updatePath_eq (hmarked : ∀ row ∈ rs, row.score ≠ unknownScore) (rest : List Row) (cells : ℕ → PathCell) :
    updatePath c i (rs ++ sentinel :: rest) cells
      = (usable rs ++ [sentinel]).foldl (fun cells row => improve c i row cells) cells := by
  induction rs generalizing cells with
  | nil => rfl
  | cons row rs ih =>
    have hrest : ∀ row' ∈ rs, row'.score ≠ unknownScore := fun row' hrow' => hmarked row' (mem_cons_of_mem row hrow')
    rw [cons_append, updatePath, if_neg (hmarked row mem_cons_self), ih hrest]
    by_cases hvalid : invalidScore < row.score
    · have hcons : usable (row :: rs) = row :: usable rs := filter_cons_of_pos (decide_eq_true hvalid)
      rw [if_pos hvalid, hcons]
      rfl
    · have hcons : usable (row :: rs) = usable rs := filter_cons_of_neg fun h => hvalid (of_decide_eq_true h)
      rw [if_neg hvalid, hcons]

/-- **What some rows do to the entry**: it is the best of them, and one of them attains it unless it stays. -/
theorem improveAll_spec (cells : ℕ → PathCell) (hpos : ∀ row ∈ rs, 0 < row.pieceLength) :
    (∀ j, j ≠ i → rs.foldl (fun cells row => improve c i row cells) cells j = cells j)
      ∧ (rs.foldl (fun cells row => improve c i row cells) cells i).score ≤ (cells i).score
      ∧ (∀ row ∈ rs, (rs.foldl (fun cells row => improve c i row cells) cells i).score
          ≤ (cells (i + row.pieceLength)).score - row.score)
      ∧ (rs.foldl (fun cells row => improve c i row cells) cells i = cells i
        ∨ ∃ row ∈ rs, (rs.foldl (fun cells row => improve c i row cells) cells i).score
            = (cells (i + row.pieceLength)).score - row.score
          ∧ (rs.foldl (fun cells row => improve c i row cells) cells i).tokenLength = row.pieceLength
          ∧ (rs.foldl (fun cells row => improve c i row cells) cells i).tokenId = row.tokenId) := by
  induction rs generalizing cells with
  | nil => exact ⟨fun _ _ => rfl, le_refl _, fun row hrow => absurd hrow not_mem_nil, Or.inl rfl⟩
  | cons row rs ih =>
    have hlen : ∀ row' ∈ row :: rs, improve c i row cells (i + row'.pieceLength) = cells (i + row'.pieceLength) := by
      intro row' hrow'
      have := hpos row' hrow'
      exact improve_of_ne (by omega)
    obtain ⟨hother, hle, hall, hattain⟩ := ih (improve c i row cells) fun row' hrow' => hpos row' (mem_cons_of_mem row hrow')
    rw [foldl_cons]
    refine ⟨fun j hj => (hother j hj).trans (improve_of_ne hj), hle.trans (improve_le).2, fun row' hrow' => ?_, ?_⟩
    · rcases mem_cons.mp hrow' with rfl | hrow''
      · exact hle.trans (improve_le).1
      · rw [← hlen row' hrow']
        exact hall row' hrow''
    · rcases hattain with hstay | ⟨row', hrow', hscore, hrest⟩
      · rw [hstay]
        exact improve_eq.imp_right fun h => ⟨row, mem_cons_self, h⟩
      · rw [hlen row' (mem_cons_of_mem row hrow')] at hscore
        exact Or.inr ⟨row', mem_cons_of_mem row hrow', hscore, hrest⟩

end Update

/-! ### One position -/

section Step

variable {tokens : List PlamoToken} {start : List ℕ → ℕ → Prop} {tables : Tables} {data : List ℕ} {i : ℕ}
  {cells : ℕ → PathCell}

def labelOf (data : List ℕ) (cells : ℕ → PathCell) (j : ℕ) : Label :=
  if 0 ≤ (cells j).tokenId then .token (cells j).tokenId.toNat else .bytes (data.getD j 0)

def nextOf (cells : ℕ → PathCell) (j : ℕ) : ℕ := j + (cells j).tokenLength

/-- The loop has done its work from `i` on. -/
structure Ready (tokens : List PlamoToken) (start : List ℕ → ℕ → Prop) (data : List ℕ) (i suffixId : ℕ)
    (cells : ℕ → PathCell) : Prop where
  state : ∃ q, start q suffixId ∧ Suffixes.Longest (Suff tokens) (data.drop i) q
  solved : BestPath.Solved (Segment tokens data) data.length i (nextOf cells) (labelOf data cells) fun j => -(cells j).score
  cheap : (cells i).score ≤ (data.length - i : ℕ) * 10000000
  fresh : ∀ j < i, (cells j).score = 2 ^ 60

theorem Segment.lt {i j : ℕ} {a : Label} {k : ℤ} (h : Segment tokens data i j a k) : i < j := by
  cases h with
  | token get text score valid ne here => exact Nat.lt_add_of_pos_right (length_pos_iff.mpr ne)
  | bytes get => exact lt_succ_self i

theorem Segment.le {i j : ℕ} {a : Label} {k : ℤ} (h : Segment tokens data i j a k) : j ≤ data.length := by
  cases h with
  | token get text score valid ne here =>
    have hle := here.length_le
    have hpos := length_pos_iff.mpr ne
    rw [length_drop] at hle
    omega
  | bytes get => exact (List.getElem?_eq_some_iff.mp get).1

theorem eq_of_word_eq {V : PlamoVocab} {t t' : PlamoToken} (ht : t ∈ V.tokens) (ht' : t' ∈ V.tokens) (h : t.word = t'.word) :
    t = t' := by
  refine inj_on_of_nodup_map V.distinct ht ht' ?_
  rw [← (V.valid t ht).enc_cpts, ← (V.valid t' ht').enc_cpts]
  exact congrArg enc h

theorem exists_of_mem_right {α β : Type} {R : α → β → Prop} {l : List α} {l' : List β} (h : List.Forall₂ R l l') {b : β}
    (hb : b ∈ l') : ∃ a ∈ l, R a b := by
  induction h with
  | nil => exact absurd hb not_mem_nil
  | @cons a b' l l' hab _ ih =>
    rcases mem_cons.mp hb with rfl | hb
    · exact ⟨a, mem_cons_self, hab⟩
    · obtain ⟨a', ha', hR⟩ := ih hb
      exact ⟨a', mem_cons_of_mem a ha', hR⟩

theorem exists_of_mem_left {α β : Type} {R : α → β → Prop} {l : List α} {l' : List β} (h : List.Forall₂ R l l') {a : α}
    (ha : a ∈ l) : ∃ b ∈ l', R a b := by
  obtain ⟨b, hb, hR⟩ := exists_of_mem_right h.flip ha
  exact ⟨b, hb, hR⟩

theorem RowsOf.unmarked {w : List ℕ} {table : List Row} {ps : List (List ℕ)} {rs : List Row}
    (h : RowsOf tokens start w table ps rs) (hno : NoSentinelToken tokens data) (hw : w <+: data.drop i) :
    ∀ row ∈ rs, row.score ≠ unknownScore := by
  intro row hrow hscore
  obtain ⟨p, hp, hof⟩ := exists_of_mem_right h.each hrow
  rcases hof.token with ⟨id, t, hget, hbyte, hword, -, hvalue⟩ | ⟨hinvalid, -⟩
  · refine hno t (mem_of_getElem? hget) hbyte ?_ ?_
    · rw [hscore] at hvalue
      cases ht : t.score with
      | none =>
        rw [ht] at hvalue
        exact absurd hvalue (by decide)
      | some k =>
        rw [ht] at hvalue
        exact congrArg some hvalue.symm
    · rw [hword]
      exact (((h.mem p).mp hp).2.1.trans hw).isInfix.trans (drop_suffix i data).isInfix
  · rw [hscore] at hinvalid
    exact absurd hinvalid (by decide)

theorem RowsOf.segment {w : List ℕ} {table : List Row} {ps : List (List ℕ)} {rs : List Row}
    (h : RowsOf tokens start w table ps rs) (hw : w <+: data.drop i) {row : Row} (hrow : row ∈ usable rs) :
    ∃ id : ℕ, row.tokenId = (id : ℤ) ∧ 0 < row.pieceLength
      ∧ Segment tokens data i (i + row.pieceLength) (.token id) row.score := by
  obtain ⟨hrow, hvalid⟩ := mem_filter.mp hrow
  have hvalid := of_decide_eq_true hvalid
  obtain ⟨p, hp, hof⟩ := exists_of_mem_right h.each hrow
  obtain ⟨hne, hbegins, -⟩ := (h.mem p).mp hp
  rcases hof.token with ⟨id, t, hget, hbyte, hword, hid, hvalue⟩ | ⟨hinvalid, -⟩
  · refine ⟨id, hid, ?_, ?_⟩
    · rw [hof.length]
      exact length_pos_iff.mpr hne
    · cases ht : t.score with
      | none =>
        rw [hvalue, ht] at hvalid
        exact absurd hvalid (Int.lt_irrefl _)
      | some k =>
        rw [ht] at hvalue
        rw [show row.score = k from hvalue] at hvalid ⊢
        rw [hof.length, ← hword]
        exact .token hget hbyte ht hvalid (hword ▸ hne) (hword ▸ hbegins.trans hw)
  · rw [hinvalid] at hvalid
    exact absurd hvalid (Int.lt_irrefl _)

theorem RowsOf.exists_row {V : PlamoVocab} {w : List ℕ} {table : List Row} {ps : List (List ℕ)} {rs : List Row}
    (h : RowsOf V.tokens start w table ps rs) (hw : Suffixes.Longest (Suff V.tokens) (data.drop i) w) {t : PlamoToken} {k : ℤ}
    (ht : t ∈ V.tokens) (hbyte : t.byte = false) (hscore : t.score = some k) (hvalid : invalidScore < k) (hne : t.word ≠ [])
    (hhere : t.word <+: data.drop i) : ∃ row ∈ usable rs, row.pieceLength = t.word.length ∧ row.score = k := by
  have hsuff : t.word ∈ Suff V.tokens := Or.inr ⟨t, ht, hbyte, suffix_rfl⟩
  obtain ⟨row, hrow, hof⟩ := exists_of_mem_left h.each ((h.mem t.word).mpr ⟨hne, hw.isPrefix hsuff hhere, hsuff⟩)
  rcases hof.token with ⟨id, t', hget, -, hword, -, hvalue⟩ | ⟨-, hnone⟩
  · rw [eq_of_word_eq (mem_of_getElem? hget) ht hword, hscore] at hvalue
    have hk : row.score = k := hvalue
    exact ⟨row, mem_filter.mpr ⟨hrow, decide_eq_true (hk ▸ hvalid)⟩, hof.length, hk⟩
  · exact absurd rfl (hnone t ht hbyte)

theorem updatePath_spec (c : ℕ) (cells : ℕ → PathCell) {table : List Row} {w : List ℕ} {ps : List (List ℕ)} {rs : List Row}
    (h : RowsOf tokens start w table ps rs) (hno : NoSentinelToken tokens data) (hw : w <+: data.drop i) :
    (∀ j, j ≠ i → updatePath c i table cells j = cells j)
      ∧ (∀ row ∈ usable rs ++ [sentinel], (updatePath c i table cells i).score
          ≤ (cells (i + row.pieceLength)).score - row.score)
      ∧ (updatePath c i table cells i = cells i ∨ ∃ row ∈ usable rs ++ [sentinel],
          (updatePath c i table cells i).score = (cells (i + row.pieceLength)).score - row.score
          ∧ (updatePath c i table cells i).tokenLength = row.pieceLength
          ∧ (updatePath c i table cells i).tokenId = row.tokenId) := by
  obtain ⟨rest, hrest⟩ := h.begins
  rw [append_assoc, singleton_append] at hrest
  have hpos : ∀ row ∈ usable rs ++ [sentinel], 0 < row.pieceLength := by
    intro row hrow
    rcases mem_append.mp hrow with hrow | hrow
    · obtain ⟨id, -, hpos, -⟩ := h.segment hw hrow
      exact hpos
    · rw [mem_singleton.mp hrow]
      exact one_pos
  obtain ⟨hother, -, hall, hattain⟩ := improveAll_spec (c := c) (i := i) cells hpos
  rw [← hrest, updatePath_eq (h.unmarked hno hw)]
  exact ⟨hother, hall, hattain⟩

/-- **One position**: the state is the next one, and the entry is a best one. -/
theorem Ready.step {V : PlamoVocab} (A : Automaton V.tokens start tables) (hno : NoSentinelToken V.tokens data)
    (hlen : data.length < 2 ^ 31) {suffixId : ℕ} (h : Ready V.tokens start data (i + 1) suffixId cells) (hi : i < data.length) :
    Ready V.tokens start data i (nextSuffix tables (data.getD i 0) (tables.table.drop suffixId) suffixId)
      (updatePath (data.getD i 0) i
        (tables.table.drop (nextSuffix tables (data.getD i 0) (tables.table.drop suffixId) suffixId)) cells) := by
  obtain ⟨q, hq, hlongest⟩ := h.state
  obtain ⟨ps, rs, hrows⟩ := A.rows hq
  have hdrop : data.drop i = data.getD i 0 :: data.drop (i + 1) := by
    rw [getD_eq_getElem _ _ hi]
    exact drop_eq_getElem_cons hi
  obtain ⟨q', hq', hlongest'⟩ := next_state (c := data.getD i 0) A hlongest hrows (hrows.unmarked hno hlongest.begins)
  rw [← hdrop] at hlongest'
  generalize nextSuffix tables (data.getD i 0) (tables.table.drop suffixId) suffixId = suffixId' at hq' ⊢
  obtain ⟨ps', rs', hrows'⟩ := A.rows hq'
  obtain ⟨hother, hall, hattain⟩ := updatePath_spec (data.getD i 0) cells hrows' hno hlongest'.begins
  generalize updatePath (data.getD i 0) i (tables.table.drop suffixId') cells = cells' at hother hall hattain ⊢
  have hget : data[i]? = some (data.getD i 0) := by
    rw [getD_eq_getElem _ _ hi]
    exact getElem?_eq_getElem hi
  have hsentinel : (cells' i).score ≤ (cells (i + 1)).score - unknownScore :=
    hall sentinel (mem_append_right _ (mem_singleton_self _))
  have hcheap : (cells' i).score ≤ (data.length - i : ℕ) * 10000000 := by
    have hnext := h.cheap
    have hunknown : unknownScore = -10000000 := rfl
    have hsucc : data.length - i = data.length - (i + 1) + 1 := by omega
    rw [hsucc]
    push_cast
    omega
  have hlater : ∀ {j : ℕ}, i < j → cells' j = cells j := fun hj => hother _ (ne_of_gt hj)
  refine ⟨⟨q', hq', hlongest'⟩, ⟨?_, ?_, ?_⟩, hcheap, fun j hj => ?_⟩
  · show -(cells' data.length).score = 0
    rw [hlater hi]
    exact h.solved.last
  · intro j hj hlt
    rcases lt_or_eq_of_le hj with hgt | rfl
    · obtain ⟨w, hedge, hle, hscore⟩ := h.solved.tight hgt hlt
      have hright := hedge.lt
      have hnext : nextOf cells' j = nextOf cells j := by rw [nextOf, hlater hgt, nextOf]
      have hlabel : labelOf data cells' j = labelOf data cells j := by rw [labelOf, hlater hgt, labelOf]
      refine ⟨w, ?_, hnext ▸ hle, ?_⟩
      · rw [hnext, hlabel]
        exact hedge
      · show -(cells' j).score = w + -(cells' (nextOf cells' j)).score
        rw [hnext, hlater hgt, hlater (lt_trans hgt hright)]
        exact hscore
    · -- the entry is not the one of the beginning, since the sentinel is better
      rcases hattain with hstay | ⟨row, hrow, hscore, htl, hid⟩
      · have hfresh := h.fresh i (lt_succ_self i)
        rw [← hstay] at hfresh
        omega
      · have hedge : Segment V.tokens data i (nextOf cells' i) (labelOf data cells' i) row.score ∧ 0 < row.pieceLength := by
          rw [nextOf, labelOf, htl, hid]
          rcases mem_append.mp hrow with hrow | hrow
          · obtain ⟨id, hid', hpos, hsegment⟩ := hrows'.segment hlongest'.begins hrow
            rw [hid', if_pos (Int.natCast_nonneg id), Int.toNat_natCast]
            exact ⟨hsegment, hpos⟩
          · rw [mem_singleton.mp hrow]
            exact ⟨.bytes hget, Nat.one_pos⟩
        refine ⟨row.score, hedge.1, hedge.1.le, ?_⟩
        show -(cells' i).score = row.score + -(cells' (nextOf cells' i)).score
        have hnext : nextOf cells' i = i + row.pieceLength := by rw [nextOf, htl]
        have hpos := hedge.2
        have hright : i < i + row.pieceLength := Nat.lt_add_of_pos_right hpos
        rw [hnext, hlater hright, hscore]
        omega
  · intro j k a w hj hk hedge
    show w + -(cells' k).score ≤ -(cells' j).score
    rcases Nat.lt_or_eq_of_le hj with hgt | rfl
    · have hbound := h.solved.bound hgt hk hedge
      rw [hlater hgt, hlater (Nat.lt_trans hgt hedge.lt)]
      exact hbound
    · rw [hlater hedge.lt]
      cases hedge with
      | token get text score valid ne here =>
        obtain ⟨row, hrow, hrowlen, hrowscore⟩ :=
          hrows'.exists_row hlongest' (mem_of_getElem? get) text score valid ne here
        have hle := hall row (mem_append_left _ hrow)
        rw [hrowlen, hrowscore] at hle
        omega
      | bytes get => omega
  · rw [hother j (Nat.ne_of_lt hj)]
    exact h.fresh j (lt_succ_of_lt hj)

theorem encodeLoop_spec {V : PlamoVocab} (A : Automaton V.tokens start tables) (hno : NoSentinelToken V.tokens data)
    (hlen : data.length < 2 ^ 31) {suffixId : ℕ} (h : Ready V.tokens start data i suffixId cells) (hi : i ≤ data.length) :
    ∃ suffixId', Ready V.tokens start data 0 suffixId' (encodeLoop tables data i suffixId cells) := by
  induction i generalizing suffixId cells with
  | zero => exact ⟨suffixId, h⟩
  | succ i ih => exact ih (h.step A hno hlen hi) (le_of_succ_le hi)

def initialCells (data : List ℕ) : ℕ → PathCell := fun j =>
  { score := if j = data.length then 0 else 2 ^ 60, tokenLength := 0, tokenId := 0, numTokens := 0 }

theorem ready_init (A : Automaton tokens start tables) (data : List ℕ) :
    Ready tokens start data data.length 0 (initialCells data) := by
  have hlast : (initialCells data data.length).score = 0 := if_pos rfl
  refine ⟨⟨[], A.startNil, ⟨Or.inl rfl, List.nil_prefix, fun r _ hr => ?_⟩⟩, BestPath.Solved.init Segment.lt ?_, ?_, ?_⟩
  · rw [drop_length] at hr
    exact hr.length_le
  · show -(initialCells data data.length).score = 0
    rw [hlast, Int.neg_zero]
  · rw [hlast, Nat.sub_self]
    exact Int.le_refl 0
  · exact fun j hj => if_neg (Nat.ne_of_lt hj)

end Step

/-! ### The tokens of the path -/

section Decode

variable {tokens : List PlamoToken} {bytes data : List ℕ}

def idsOf (bytes : List ℕ) : Label → List ℕ
  | .token id => [id]
  | .bytes c => fallback bytes c

/-- **The loop pushes the tokens of the pieces** that the entries lead along. -/
theorem decodePath_eq (bytes : List ℕ) {cells : ℕ → PathCell} {pos fuel : ℕ} {labels : List Label}
    (h : BestPath.Follow data.length (nextOf cells) (labelOf data cells) pos labels) (hfuel : data.length < pos + fuel)
    (tokenIds : List ℕ) :
    decodePath bytes data data.length cells fuel pos tokenIds = .ok (tokenIds ++ labels.flatMap (idsOf bytes)) := by
  induction h generalizing fuel tokenIds with
  | stop =>
    obtain ⟨fuel, rfl⟩ : ∃ k, fuel = k + 1 := ⟨fuel - 1, by omega⟩
    rw [decodePath, if_neg (lt_irrefl _), flatMap_nil, append_nil]
  | @go j labels lt right le more ih =>
    obtain ⟨fuel, rfl⟩ : ∃ k, fuel = k + 1 := ⟨fuel - 1, by omega⟩
    have hids : (if 0 ≤ (cells j).tokenId then [(cells j).tokenId.toNat] else fallback bytes (data.getD j 0))
        = idsOf bytes (labelOf data cells j) := by
      rw [labelOf]
      split
      · rfl
      · rfl
    rw [decodePath, if_pos lt]
    simp only [hids]
    rw [flatMap_cons, ← append_assoc]
    exact ih (by omega) _

theorem tail_eq (c k : ℕ) : 0x80 ||| ((c >>> k) &&& 0x3F) = 0x80 + c / 2 ^ k % 64 := by
  have hor : ∀ x < 64, 0x80 ||| x = 0x80 + x := by decide
  have hand : (c >>> k) &&& 0x3F = c / 2 ^ k % 64 := by
    rw [shiftRight_eq_div_pow]
    exact and_two_pow_sub_one_eq_mod _ 6
  rw [hand]
  exact hor _ (mod_lt _ (by decide))

theorem toNat_ofNat {n : ℕ} (h : n < 256) : (UInt8.ofNat n).toNat = n := by
  rw [UInt8.toNat_ofNat']
  exact mod_eq_of_lt h

theorem fallback_eq (bytes : List ℕ) {c : ℕ} (h : c ≤ 0x10FFFF) :
    fallback bytes c = (encoding c).map fun b => bytes.getD b.toNat 0 := by
  have hlead2 : ∀ x < 32, 0xC0 ||| (x &&& 0x3F) = 0xC0 + x := by decide
  have hlead3 : ∀ x < 16, 0xE0 ||| (x &&& 0x3F) = 0xE0 + x := by decide
  have hlead4 : ∀ x < 8, 0xF0 ||| (x &&& 0x3F) = 0xF0 + x := by decide
  have hone : ∀ x < 128, x % 256 ||| (x >>> 0 &&& 0x3F) = x := by decide
  rcases lt_or_ge c 0x80 with h1 | h1
  · have hextra : extraBytes c = 0 := by
      rw [extraBytes, if_neg (by omega), if_neg (by omega), if_neg (by omega)]
    have henc : encoding c = [UInt8.ofNat c] := by
      rw [encoding, cptToUtf8, if_pos (by omega)]
    rw [fallback, hextra, henc, map_singleton, toNat_ofNat (by omega)]
    show [bytes.getD (c % 256 ||| (c >>> 0 &&& 0x3F)) 0] = _
    rw [hone c h1]
  · rcases lt_or_ge c 0x800 with h2 | h2
    · have hextra : extraBytes c = 1 := by
        rw [extraBytes, if_pos h1, if_neg (by omega), if_neg (by omega)]
      have henc : encoding c = [UInt8.ofNat (0xc0 + c / 64 % 32), UInt8.ofNat (0x80 + c % 64)] := by
        rw [encoding, cptToUtf8, if_neg (by omega), if_pos (by omega)]
      rw [fallback, hextra, henc, map_cons, map_singleton, toNat_ofNat (by omega), toNat_ofNat (by omega)]
      show [bytes.getD (0xC0 ||| (c >>> 6 &&& 0x3F)) 0, bytes.getD (0x80 ||| (c >>> 0 &&& 0x3F)) 0] = _
      rw [tail_eq, Nat.shiftRight_eq_div_pow, hlead2 _ (by omega), Nat.pow_zero, Nat.div_one,
        mod_eq_of_lt (show c / 64 < 32 by omega)]
    · rcases lt_or_ge c 0x10000 with h3 | h3
      · have hextra : extraBytes c = 2 := by
          rw [extraBytes, if_pos h1, if_pos h2, if_neg (by omega)]
        have henc : encoding c = [UInt8.ofNat (0xe0 + c / 4096 % 16), UInt8.ofNat (0x80 + c / 64 % 64),
            UInt8.ofNat (0x80 + c % 64)] := by
          rw [encoding, cptToUtf8, if_neg (by omega), if_neg (by omega), if_pos (by omega)]
        rw [fallback, hextra, henc, map_cons, map_cons, map_singleton, toNat_ofNat (by omega),
          toNat_ofNat (by omega), toNat_ofNat (by omega)]
        show [bytes.getD (0xE0 ||| (c >>> 12 &&& 0x3F)) 0, bytes.getD (0x80 ||| (c >>> 6 &&& 0x3F)) 0,
          bytes.getD (0x80 ||| (c >>> 0 &&& 0x3F)) 0] = _
        rw [tail_eq, tail_eq, Nat.shiftRight_eq_div_pow, hlead3 _ (by omega), Nat.pow_zero, Nat.div_one,
          mod_eq_of_lt (show c / 4096 < 16 by omega)]
        rfl
      · have hextra : extraBytes c = 3 := by
          rw [extraBytes, if_pos h1, if_pos h2, if_pos h3]
        have henc : encoding c = [UInt8.ofNat (0xf0 + c / 262144 % 8), UInt8.ofNat (0x80 + c / 4096 % 64),
            UInt8.ofNat (0x80 + c / 64 % 64), UInt8.ofNat (0x80 + c % 64)] := by
          rw [encoding, cptToUtf8, if_neg (by omega), if_neg (by omega), if_neg (by omega), if_pos h]
        rw [fallback, hextra, henc, map_cons, map_cons, map_cons, map_singleton, toNat_ofNat (by omega),
          toNat_ofNat (by omega), toNat_ofNat (by omega), toNat_ofNat (by omega)]
        show [bytes.getD (0xF0 ||| (c >>> 18 &&& 0x3F)) 0, bytes.getD (0x80 ||| (c >>> 12 &&& 0x3F)) 0,
          bytes.getD (0x80 ||| (c >>> 6 &&& 0x3F)) 0, bytes.getD (0x80 ||| (c >>> 0 &&& 0x3F)) 0] = _
        rw [tail_eq, tail_eq, tail_eq, Nat.shiftRight_eq_div_pow, hlead4 _ (by omega), Nat.pow_zero, Nat.div_one,
          mod_eq_of_lt (show c / 262144 < 8 by omega)]
        rfl

theorem spells (hbytes : BytesOf tokens bytes) (hset : ∀ b < 256, bytes.getD b 0 ≠ 0) {i j : ℕ} {a : Label} {k : ℤ}
    (h : Segment tokens data i j a k) (hdata : Encodable data) : Spells tokens a (idsOf bytes a) := by
  cases h with
  | @token id t k get text score valid ne here => exact .token id
  | @bytes c get =>
    refine .bytes ?_
    rw [idsOf, fallback_eq bytes (hdata c (mem_of_getElem? get)), forall₂_map_right_iff, forall₂_same]
    exact fun b _ => hbytes.sound (hset b.toNat b.toNat_lt)

theorem Segment.spelled {i j : ℕ} {a : Label} {k : ℤ} (h : Segment tokens data i j a k)
    (hvalid : ∀ t ∈ tokens, IsUtf8 t.text) {ids : List ℕ} (hids : Spells tokens a ids) :
    ids.flatMap (tokenBytes tokens) ++ enc (data.drop j) = enc (data.drop i) := by
  cases h with
  | @token id t k get text score valid ne here =>
    cases hids with
    | token id =>
      obtain ⟨rest, hrest⟩ := here
      have hbytes : tokenBytes tokens id = enc t.word := by
        rw [tokenBytes, get]
        dsimp only
        rw [text, Bool.false_and, if_neg Bool.noConfusion]
        exact ((hvalid t (mem_of_getElem? get)).enc_cpts).symm
      rw [flatMap_singleton, hbytes, ← drop_drop, ← hrest, drop_left, enc_append]
  | @bytes c get =>
    obtain ⟨hlt, rfl⟩ := List.getElem?_eq_some_iff.mp get
    cases hids with
    | bytes each =>
      have hbytes : ids.flatMap (tokenBytes tokens) = encoding data[i] := by
        generalize encoding data[i] = bs at each
        induction each with
        | nil => rfl
        | @cons b id bs ids hfirst _ ih =>
          obtain ⟨t, hget, hbyte, hname, hvalue⟩ := hfirst
          rw [flatMap_cons, ih, tokenBytes, hget]
          dsimp only
          rw [hbyte, hname, Bool.and_true, if_pos rfl, hvalue]
          dsimp only
          rw [Int.toNat_natCast, UInt8.ofNat_toNat]
          rfl
      rw [hbytes, drop_eq_getElem_cons hlt]
      rfl

theorem path_spelled (hvalid : ∀ t ∈ tokens, IsUtf8 t.text) {i j : ℕ} {labels : List Label} {total : ℤ}
    (h : BestPath.Path (Segment tokens data) i j labels total) {parts : List (List ℕ)}
    (hparts : List.Forall₂ (Spells tokens) labels parts) :
    parts.flatten.flatMap (tokenBytes tokens) ++ enc (data.drop j) = enc (data.drop i) := by
  induction h generalizing parts with
  | nil =>
    cases hparts
    rfl
  | cons edge more ih =>
    cases hparts with
    | cons hids hparts =>
      rw [flatten_cons, flatMap_append, append_assoc, ih hparts]
      exact edge.spelled hvalid hids

end Decode

/-! ### Calls -/

theorem encode_eq {tables : Tables} {text : List UInt8} (hlen : (dataOf text).length < 2 ^ 31) :
    encode tables text = decodePath tables.bytes (dataOf text) (dataOf text).length
      (encodeLoop tables (dataOf text) (dataOf text).length 0 (initialCells (dataOf text))) ((dataOf text).length + 1) 0 [] := by
  have hmod : (Int.bmod (dataOf text).length (2 ^ 32)).toNat = (dataOf text).length := by
    rw [Int.bmod_eq_of_le (by omega) (by omega)]
    exact Int.toNat_natCast _
  show (if dataOf text = [] then Except.ok [] else
    decodePath tables.bytes (dataOf text) (Int.bmod (dataOf text).length (2 ^ 32)).toNat
      (encodeLoop tables (dataOf text) (Int.bmod (dataOf text).length (2 ^ 32)).toNat 0 (initialCells (dataOf text)))
      ((Int.bmod (dataOf text).length (2 ^ 32)).toNat + 1) 0 []) = _
  rw [hmod]
  by_cases hempty : dataOf text = []
  · rw [if_pos hempty, hempty]
    rfl
  · rw [if_neg hempty]

theorem encodable_dataOf {text : List UInt8} (hvalid : IsUtf8 text) : Encodable (dataOf text) := by
  have hall := hvalid.encodable
  rw [dataOf]
  cases hcpts : cptsFromUtf8 text with
  | nil => exact fun c hc => absurd hc not_mem_nil
  | cons c cpts =>
    rw [hcpts] at hall
    rw [skipBom]
    split
    · exact hall.sublist (sublist_cons_self c cpts)
    · exact hall

/-- **The PLaMo-2 tokenizer** returns a best segmentation that stands for the text, where no token with the score of the
sentinel occurs, exactly when every byte has a token behind the first one, the rows can be numbered and the scores fit.  A
call gets at most `2 ^ 31 - 1` bytes of text. -/
theorem plamo_iff (V : PlamoVocab) {text : List UInt8} (hvalid : IsUtf8 text) (hlen : (dataOf text).length < 2 ^ 31)
    (hno : NoSentinelToken V.tokens (dataOf text)) :
    Encoded V.tokens text ↔ Buildable V.tokens := by
  constructor
  · intro ⟨ids, _, _, hrun, _⟩
    by_contra hnot
    obtain ⟨e, he⟩ := build_throws V hnot
    rw [tokenize, he] at hrun
    cases hrun
  · intro hcan
    obtain ⟨start, tables, hbuild, A⟩ := build_spec V hcan
    obtain ⟨_, hready⟩ := encodeLoop_spec A hno hlen (ready_init A (dataOf text)) (le_refl _)
    obtain ⟨labels, hfollow, hpath, hbest⟩ := hready.solved.follow Segment.lt (le_refl 0) (zero_le _)
    have hfuel : (dataOf text).length < 0 + ((dataOf text).length + 1) := by omega
    have hdecode := decodePath_eq tables.bytes hfollow hfuel []
    have hspells : ∀ {i j : ℕ} {labels : List Label} {total : ℤ},
        BestPath.Path (Segment V.tokens (dataOf text)) i j labels total →
        List.Forall₂ (Spells V.tokens) labels (labels.map (idsOf tables.bytes)) := by
      intro i j labels total hpath
      induction hpath with
      | nil => exact .nil
      | cons edge more ih => exact .cons (spells A.bytes A.bytesSet edge (encodable_dataOf hvalid)) ih
    have hflat : labels.flatMap (idsOf tables.bytes) = (labels.map (idsOf tables.bytes)).flatten := flatMap_def
    refine ⟨labels.flatMap (idsOf tables.bytes), labels, _, ?_, hpath, fun labels' total' hpath' => hbest.2 ⟨labels', hpath'⟩,
      ⟨_, hspells hpath, hflat⟩, ?_⟩
    · rw [tokenize, hbuild]
      show encode tables text = _
      rw [encode_eq hlen, hdecode, nil_append]
    · have hspelled := path_spelled V.valid hpath (hspells hpath)
      rw [drop_length, drop_zero, ← hflat] at hspelled
      rw [← hspelled]
      exact (append_nil _).symm

/-! ### A small vocabulary -/

/-- A token without a score, the byte tokens, `a`, `b`, and `ab` with some score. -/
def sampleTokens (k : ℤ) : List PlamoToken :=
  { text := [0x3F, 0x3F], byte := false, score := none }
    :: ((List.range 256).map fun b => { text := byteName (UInt8.ofNat b), byte := true, score := none })
    ++ [{ text := [0x61], byte := false, score := some (-10000) }, { text := [0x62], byte := false, score := some (-10000) },
      { text := [0x61, 0x62], byte := false, score := some k }]

def sampleTexts : List (List UInt8) :=
  [0x3F, 0x3F] :: ((List.range 256).map fun b => byteName (UInt8.ofNat b)) ++ [[0x61], [0x62], [0x61, 0x62]]

theorem sampleTokens_text (k : ℤ) : (sampleTokens k).map PlamoToken.text = sampleTexts := by
  rw [sampleTokens, sampleTexts, map_append, map_cons, map_map]
  rfl

theorem sampleTexts_spec : sampleTexts.Nodup ∧ ∀ s ∈ sampleTexts, s ≠ [] ∧ ∀ b ∈ s, b < 0x80 := by
  have hascii : ∀ s ∈ sampleTexts, s ≠ [] ∧ (s.all fun b => b < 0x80) = true := by decide +kernel
  refine ⟨?_, fun s hs => ⟨(hascii s hs).1, fun b hb => of_decide_eq_true (all_eq_true.mp (hascii s hs).2 b hb)⟩⟩
  have hnames : ((List.range 256).map fun b => byteName (UInt8.ofNat b)).Nodup := by
    refine nodup_range.map_on fun b hb b' hb' heq => ?_
    rw [← toNat_ofNat (List.mem_range.mp hb), byteName_injective heq, toNat_ofNat (List.mem_range.mp hb')]
  -- a name of a byte has six bytes, every other text fewer
  have hlen : ∀ s ∈ (List.range 256).map fun b => byteName (UInt8.ofNat b), s.length = 6 := by
    intro s hs
    obtain ⟨b, -, rfl⟩ := mem_map.mp hs
    rfl
  refine nodup_cons.mpr ⟨fun hmem => ?_, hnames.append (by decide) fun s hs hshort => ?_⟩
  · rcases mem_append.mp hmem with hin | hin
    · cases hlen _ hin
    · revert hin
      decide
  · have hall : ∀ s ∈ [[0x61], [0x62], [0x61, 0x62]], (s : List UInt8).length ≠ 6 := by decide
    exact hall s hshort (hlen s hs)

theorem isUtf8_of_ascii {s : List UInt8} (h : ∀ b ∈ s, b < 0x80) : IsUtf8 s := by
  have hbyte : ∀ b ∈ s, b.toNat < 0x80 := fun b hb => h b hb
  refine ⟨s.map UInt8.toNat, fun c hc => ?_, ?_⟩
  · obtain ⟨b, hb, rfl⟩ := mem_map.mp hc
    have := hbyte b hb
    omega
  · rw [enc, flatMap_map]
    refine (flatMap_singleton' s).symm.trans (flatMap_congr fun b hb => ?_)
    have := hbyte b hb
    rw [encoding, cptToUtf8, if_pos (by omega), UInt8.ofNat_toNat]

def sampleVocab (k : ℤ) : PlamoVocab where
  tokens := sampleTokens k
  distinct := by
    rw [sampleTokens_text]
    exact (sampleTexts_spec).1
  nonempty := by
    intro t ht
    have hmem := mem_map_of_mem (f := PlamoToken.text) ht
    rw [sampleTokens_text] at hmem
    exact ((sampleTexts_spec).2 _ hmem).1
  valid := by
    intro t ht
    have hmem := mem_map_of_mem (f := PlamoToken.text) ht
    rw [sampleTokens_text] at hmem
    exact isUtf8_of_ascii ((sampleTexts_spec).2 _ hmem).2

theorem sample_bytesSet (k : ℤ) : BytesSet (sampleTokens k) := by
  have htoken : ∀ b < 256, ByteToken { text := byteName (UInt8.ofNat b), byte := true, score := none } b := by
    have hall : ∀ b < 256, isByteName (byteName (UInt8.ofNat b)) = true
        ∧ stoi ((byteName (UInt8.ofNat b)).getD 3 0) ((byteName (UInt8.ofNat b)).getD 4 0) = some (b : ℤ) := by
      decide +kernel
    exact fun b hb => ⟨rfl, hall b hb⟩
  constructor
  · intro t ht ⟨hbyte, hname, hnone⟩
    rw [sampleTokens, mem_append, mem_cons, mem_map] at ht
    rcases ht with (rfl | ⟨b, hb, rfl⟩) | ht
    · cases hbyte
    · exact hnone b (htoken b (List.mem_range.mp hb)).2.2
    · have hother : ∀ t ∈ [({ text := [0x61], byte := false, score := some (-10000) } : PlamoToken),
          { text := [0x62], byte := false, score := some (-10000) }, { text := [0x61, 0x62], byte := false, score := some k }],
          t.byte = false := by
        intro t ht
        rcases mem_cons.mp ht with rfl | ht
        · rfl
        · rcases mem_cons.mp ht with rfl | ht
          · rfl
          · rw [mem_singleton.mp ht]
      rw [hother t ht] at hbyte
      cases hbyte
  · intro b hb
    refine ⟨b + 1, _, succ_pos b, ?_, htoken b hb⟩
    rw [sampleTokens, cons_append, getElem?_cons_succ, getElem?_append_left (by simpa using hb),
      getElem?_map, getElem?_range hb]
    rfl

theorem sample_scoresFit : ScoresFit (sampleTokens (-5)) := by
  have hall : ∀ t ∈ sampleTokens (-5), (t.score.all fun k => -2 ^ 31 ≤ k ∧ k < 2 ^ 31) = true := by decide +kernel
  intro t ht _ k hk
  have hfit := hall t ht
  rw [Option.mem_def.mp hk] at hfit
  exact of_decide_eq_true hfit

/-- `ab`, with a token for it that is better than `a` and `b`. -/
theorem plamo_ab : Encoded (sampleTokens (-5)) [0x61, 0x62] :=
  (plamo_iff (sampleVocab (-5)) (isUtf8_of_ascii (by decide +kernel)) (by decide)
    (fun t ht _ hscore => absurd hscore ((show ∀ t ∈ sampleTokens (-5), t.score ≠ some unknownScore by decide +kernel) t ht))).mpr
    ⟨sample_bytesSet (-5), by decide +kernel, sample_scoresFit⟩

/-- The maps of the small vocabulary. -/
def sampleMaps (k : ℤ) : Maps where
  bytes := List.range' 1 256
  suffixToScore := [([63, 63], none), ([63], none), ([97], some (-10000)), ([98], some (-10000)), ([97, 98], some k)]
  tokenToId := (sampleTokens k).zipIdx.map fun e => (e.1.text, e.2)

theorem sample_collect : collect (sampleTokens (-10000000)) = .ok (sampleMaps (-10000000)) := by
  have hfields : (collect (sampleTokens (-10000000))).toOption.map (fun m => (m.bytes, m.suffixToScore))
      = some ((sampleMaps (-10000000)).bytes, (sampleMaps (-10000000)).suffixToScore) := by
    decide +kernel
  cases hmaps : collect (sampleTokens (-10000000)) with
  | error e =>
    rw [hmaps] at hfields
    cases hfields
  | ok maps =>
    have hids := collect_ids (sampleTokens (-10000000)) (sampleVocab (-10000000)).distinct hmaps
    rw [hmaps] at hfields
    obtain ⟨bytes, suffixToScore, tokenToId⟩ := maps
    obtain ⟨rfl, rfl⟩ := Prod.mk.inj (Option.some.inj hfields)
    obtain rfl := hids
    rfl

/-- `ab`, with a token for it that has the score of the sentinel: the row of `a` is not looked at. -/
theorem not_encoded_ab : ¬ Encoded (sampleTokens (-10000000)) [0x61, 0x62] := by
  intro ⟨ids, labels, total, hrun, hpath, hbest, ⟨parts, hparts, hflatten⟩, _⟩
  have hids : tokenize (sampleTokens (-10000000)) [0x61, 0x62] = .ok [259] := by
    rw [tokenize, build_eq, sample_collect]
    decide +kernel
  have hdata : dataOf [0x61, 0x62] = [0x61, 0x62] := by decide
  obtain rfl : [259] = ids := Except.ok.inj (hids.symm.trans hrun)
  rw [hdata] at hpath hbest
  have hab : (sampleTokens (-10000000))[259]? = some { text := [0x61, 0x62], byte := false, score := some (-10000000) } := by
    decide +kernel
  -- the tokens `a` and `b`
  have hsum : -20000 ≤ total := by
    have ha : Segment (sampleTokens (-10000000)) [0x61, 0x62] 0 1 (.token 257) (-10000) :=
      .token (t := { text := [0x61], byte := false, score := some (-10000) }) (by decide +kernel) rfl rfl (by decide) (by decide)
        (by decide)
    have hb : Segment (sampleTokens (-10000000)) [0x61, 0x62] 1 2 (.token 258) (-10000) :=
      .token (t := { text := [0x62], byte := false, score := some (-10000) }) (by decide +kernel) rfl rfl (by decide) (by decide)
        (by decide)
    exact hbest _ _ (.cons ha (.cons hb .nil))
  cases hpath with
  | cons edge more =>
    cases hparts with
    | cons hspell hparts =>
      rw [flatten_cons] at hflatten
      cases edge with
      | token get text score valid ne here =>
        cases hspell with
        | token id =>
          obtain ⟨rfl, -⟩ := List.cons.inj hflatten
          obtain rfl := Option.some.inj (hab.symm.trans get)
          obtain rfl := Option.some.inj score
          cases more with
          | nil => omega
          | cons edge' more' =>
            have hlt := edge'.lt
            have hle := edge'.le
            have hword : 0 + (PlamoToken.word { text := [0x61, 0x62], byte := false, score := some (-10000000) }).length = 2 := by
              decide
            rw [hword] at hlt
            exact absurd hle (Nat.not_le_of_lt hlt)
      | bytes get =>
        obtain rfl := Option.some.inj get
        cases hspell with
        | bytes each =>
          cases each with
          | cons hfirst _ =>
            obtain ⟨t, hget, hbyte, -⟩ := hfirst
            obtain ⟨rfl, -⟩ := List.cons.inj hflatten
            obtain rfl := Option.some.inj (hab.symm.trans hget)
            cases hbyte

end Tokenizer.Plamo
