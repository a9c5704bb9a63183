import Mathlib.Algebra.Order.Ring.Rat
import LlamaRafaelia.Lib.BestPath
import LlamaRafaelia.Tokenizer.Vocab

/-!
# The unigram tokenizer

Every token, and every unknown code point, is an edge over the bytes that it stands for, and the table of the results
is relaxed from code point to code point.  Scores are exact numbers; `-DBL_MAX` is the bottom.

* **`tokenize_best`** - the call returns a segmentation of maximal score, and the loops do not fail.
-/

namespace Tokenizer.Ugm

open List Nat BestPath

/-- What the tokenizer reads of a token: its text, its score and its flags. -/
structure UgmToken where
  text : List UInt8
  score : ℚ
  normal : Bool
  userDefined : Bool
  unused : Bool
  deriving DecidableEq, Repr

/-- The tokens of the trie `token_matcher`. -/
def UgmToken.matched (t : UgmToken) : Bool := t.normal || t.userDefined || t.unused

def UgmToken.tokenScore (t : UgmToken) : ℚ := if t.userDefined then 0 else t.score

/-- The vocabulary after loading: no text is empty and no two tokens have the same one. -/
structure UgmVocab where
  tokens : List UgmToken
  unk : ℕ
  distinct : (tokens.map UgmToken.text).Nodup
  nonempty : ∀ t ∈ tokens, t.text ≠ []

/-- `FLT_MAX`. -/
def fltMax : ℚ := (2 ^ 24 - 1) * 2 ^ 104

namespace UgmVocab

/-- `min_score`. -/
def minScore (V : UgmVocab) : ℚ := V.tokens.foldl (fun m t => if t.normal then min m t.score else m) fltMax

/-- `unknown_token_score`; the penalty is 10. -/
def unknownTokenScore (V : UgmVocab) : ℚ := V.minScore - 10

/-- What `llm_tokenizer_ugm` inserts into `token_matcher`. -/
def entries (V : UgmVocab) : List (List UInt8 × ℕ) :=
  (V.tokens.zipIdx.filter fun e => e.1.matched).map fun e => (e.1.text, e.2)

/-- `token_matcher`. -/
def tokenMatcher (V : UgmVocab) : NaiveTrie := Trie.ofEntries V.entries

def tokenScore (V : UgmVocab) (id : ℕ) : ℚ := (V.tokens[id]?.map UgmToken.tokenScore).getD 0

end UgmVocab

/-- `best_tokenization`: `token_id`, `input_offset` and `score_sum`. -/
abbrev BestTokenization := BestPath.Cell ℕ ℚ

/-- `tokenization_results`. -/
abbrev Results := ℕ → BestTokenization

/-- How the call could fail: a loop that does not end, or an entry that no segmentation leads to. -/
inductive UgmFault where
  | fuel
  | unreached
  deriving DecidableEq, Repr

/-- `n_utf8_code_units` of the code point that the rest of the text begins with. -/
def nUtf8CodeUnits : List UInt8 → ℕ
  | [] => 0
  | c :: rest => min (Unicode.lenUtf8 c) (rest.length + 1)

/-- The body of the loop over the nodes: the token that ends at the node, if one does. -/
def recordToken (V : UgmVocab) (inputOffset units : ℕ) (node : NaiveTrie) (prefixOffset : ℕ) (state : Results × Bool) :
    Results × Bool :=
  match node.value with
  | some id => (relax inputOffset state.1 ⟨prefixOffset, id, V.tokenScore id⟩,
      state.2 || prefixOffset - inputOffset == units)
  | none => state

/-- The loop over the nodes of the trie; the list is the text from `prefix_offset` on.  The zero byte behind the text is
read, but then the loop is over. -/
def matchTokens (V : UgmVocab) (inputOffset units : ℕ) : NaiveTrie → List UInt8 → ℕ → Results × Bool → Results × Bool
  | node, [], prefixOffset, state => recordToken V inputOffset units node prefixOffset state
  | node, c :: rest, prefixOffset, state =>
    match node.traverse c with
    | some child =>
      matchTokens V inputOffset units child rest (prefixOffset + 1) (recordToken V inputOffset units node prefixOffset state)
    | none => recordToken V inputOffset units node prefixOffset state

/-- The tokens at `input_offset`, and the unknown token when none of them is the whole code point. -/
def processCodePoint (V : UgmVocab) (inputOffset : ℕ) (c : UInt8) (rest : List UInt8) (results : Results) : Results :=
  let units := nUtf8CodeUnits (c :: rest)
  let walked := match V.tokenMatcher.traverse c with
    | some node => matchTokens V inputOffset units node rest (inputOffset + 1) (results, false)
    | none => (results, false)
  if walked.2 then walked.1
  else relax inputOffset walked.1 ⟨inputOffset + units, V.unk, V.unknownTokenScore⟩

/-- The loop over the code points; the list is the text from `input_offset` on. -/
def forward (V : UgmVocab) : ℕ → List UInt8 → ℕ → Results → Except UgmFault Results
  | _, [], _, results => .ok results
  | 0, _ :: _, _, _ => .error .fuel
  | fuel + 1, c :: rest, inputOffset, results =>
    forward V fuel ((c :: rest).drop (nUtf8CodeUnits (c :: rest))) (inputOffset + nUtf8CodeUnits (c :: rest))
      (processCodePoint V inputOffset c rest results)

/-- The last loop.  `tokenization` refers to the entry at `input_len`, so every step overwrites that entry. -/
def backtrack (unk inputLen : ℕ) : ℕ → Results → Bool → List ℕ → Except UgmFault (List ℕ)
  | 0, _, _, _ => .error .fuel
  | fuel + 1, results, isPrevUnknown, output =>
    -- the code does not look whether the entry is reached
    if (results inputLen).score = ⊥ then .error .unreached
    else
      let isUnknown := (results inputLen).label == unk
      let output := if isPrevUnknown && isUnknown then output else output ++ [(results inputLen).label]
      if (results inputLen).source = 0 then .ok output
      else backtrack unk inputLen fuel (Function.update results inputLen (results (results inputLen).source)) isUnknown output

/-- `tokenization_results` at the beginning. -/
def initialResults (unk : ℕ) : Results := fun j => { label := unk, source := 0, score := if j = 0 then 0 else ⊥ }

/-- `llm_tokenizer_ugm_session::tokenize` of a normalized text, behind what the output already holds. -/
def tokenize (V : UgmVocab) (normalized : List UInt8) (output : List ℕ) : Except UgmFault (List ℕ) :=
  if normalized.length = 0 then .ok output
  else do
    let results ← forward V normalized.length normalized 0 (initialResults V.unk)
    let gathered ← backtrack V.unk normalized.length (normalized.length + 1) results false output
    return gathered.take output.length ++ (gathered.drop output.length).reverse

/-! ### Segmentations -/

/-- Where the code points of the text begin, and its end. -/
inductive Boundary (text : List UInt8) : ℕ → Prop
  | zero : Boundary text 0
  | next {i : ℕ} (h : Boundary text i) : Boundary text (i + nUtf8CodeUnits (text.drop i))

/-- The pieces of a segmentation: tokens that begin with a code point, and code points that no token equals. -/
inductive Piece (V : UgmVocab) (text : List UInt8) : ℕ → ℕ → ℕ → ℚ → Prop
  | token {i id : ℕ} {t : UgmToken} (boundary : Boundary text i) (get : V.tokens[id]? = some t) (matched : t.matched)
      (here : t.text <+: text.drop i) : Piece V text i (i + t.text.length) id t.tokenScore
  | unknown {i : ℕ} (boundary : Boundary text i) (lt : i < text.length)
      (none : ∀ t ∈ V.tokens, t.matched → t.text ≠ (text.drop i).take (nUtf8CodeUnits (text.drop i))) :
      Piece V text i (i + nUtf8CodeUnits (text.drop i)) V.unk V.unknownTokenScore

def collapse (unk : ℕ) : List ℕ → List ℕ
  | [] => []
  | id :: ids => if ids.head? = some unk ∧ id = unk then collapse unk ids else id :: collapse unk ids

/-! ### The tokens of the trie -/

section Walk

variable {V : UgmVocab}

theorem UgmVocab.entry_eq_some_iff {w : List UInt8} {id : ℕ} :
    V.tokenMatcher.entry w = some id ↔ ∃ t, V.tokens[id]? = some t ∧ t.matched ∧ t.text = w := by
  have hkeys : V.entries.map Prod.fst = (V.tokens.zipIdx.filter fun e => e.1.matched).map fun e => e.1.text := by
    rw [UgmVocab.entries, map_map]
    rfl
  have hdistinct : (V.entries.map Prod.fst).Nodup := by
    have hall : (V.tokens.zipIdx.map fun e => e.1.text).Nodup := by
      have hmap : (V.tokens.zipIdx.map fun e => e.1.text) = V.tokens.map UgmToken.text := by
        rw [← zipIdx_map_fst 0 V.tokens, map_map, zipIdx_map_fst]
        rfl
      rw [hmap]
      exact V.distinct
    rw [hkeys]
    exact hall.sublist ((filter_sublist).map _)
  rw [UgmVocab.tokenMatcher, Trie.entry_eq_some_iff hdistinct, UgmVocab.entries, mem_map]
  constructor
  · intro ⟨e, he, heq⟩
    obtain ⟨hmem, hmatched⟩ := mem_filter.mp he
    obtain ⟨rfl, rfl⟩ := Prod.mk.inj heq
    exact ⟨e.1, mem_zipIdx_iff_getElem?.mp hmem, hmatched, rfl⟩
  · intro ⟨t, hget, hmatched, htext⟩
    exact ⟨(t, id), mem_filter.mpr ⟨mem_zipIdx_iff_getElem?.mpr hget, hmatched⟩, Prod.ext htext rfl⟩

def tokenEdge (V : UgmVocab) (hit : ℕ × ℕ) : BestPath.Edge ℕ ℚ := ⟨hit.1, hit.2, V.tokenScore hit.2⟩

theorem recordToken_eq (inputOffset units : ℕ) (node : NaiveTrie) (p : ℕ) (state : Results × Bool) :
    recordToken V inputOffset units node p state
      = (((node.value.map fun id => (p, id)).toList.map (tokenEdge V)).foldl (relax inputOffset) state.1,
        state.2 || (node.value.map fun id => (p, id)).toList.any fun hit => hit.1 - inputOffset == units) := by
  rw [recordToken]
  cases node.value with
  | none => exact Prod.ext rfl (Bool.or_false _).symm
  | some id =>
    show (_, state.2 || p - inputOffset == units) = (_, state.2 || (p - inputOffset == units || false))
    rw [Bool.or_false]
    rfl

/-- **The walk through the trie** relaxes the edges of the tokens on the way. -/
theorem matchTokens_spec (inputOffset units : ℕ) (node : NaiveTrie) (rest : List UInt8) (p : ℕ) (state : Results × Bool) :
    matchTokens V inputOffset units node rest p state
      = (((node.hits rest p).map (tokenEdge V)).foldl (relax inputOffset) state.1,
        state.2 || (node.hits rest p).any fun hit => hit.1 - inputOffset == units) := by
  induction rest generalizing node p state with
  | nil => exact recordToken_eq inputOffset units node p state
  | cons c rest ih =>
    rw [matchTokens, Trie.hits]
    cases node.traverse c with
    | none =>
      show recordToken V inputOffset units node p state = _
      rw [append_nil]
      exact recordToken_eq inputOffset units node p state
    | some child =>
      show matchTokens V inputOffset units child rest (p + 1) (recordToken V inputOffset units node p state) = _
      rw [ih, recordToken_eq, map_append, foldl_append, any_append, Bool.or_assoc]

def tokenHits (V : UgmVocab) (inputOffset : ℕ) (c : UInt8) (rest : List UInt8) : List (ℕ × ℕ) :=
  match V.tokenMatcher.traverse c with
  | some node => node.hits rest (inputOffset + 1)
  | none => []

theorem mem_tokenHits_iff {inputOffset : ℕ} {c : UInt8} {rest : List UInt8} {p id : ℕ} :
    (p, id) ∈ tokenHits V inputOffset c rest
      ↔ ∃ t, V.tokens[id]? = some t ∧ t.matched ∧ t.text <+: c :: rest ∧ p = inputOffset + t.text.length := by
  have hentry : (p, id) ∈ tokenHits V inputOffset c rest ↔ ∃ l, p = inputOffset + (l + 1) ∧ l ≤ rest.length
      ∧ V.tokenMatcher.entry ((c :: rest).take (l + 1)) = some id := by
    have hstep : ∀ l, V.tokenMatcher.entry ((c :: rest).take (l + 1))
        = (V.tokenMatcher.traverse c).bind fun child => child.entry (rest.take l) := by
      intro l
      show Option.bind ((V.tokenMatcher.traverse c).bind _) _ = _
      rw [Option.bind_assoc]
      rfl
    simp only [tokenHits, hstep]
    cases V.tokenMatcher.traverse c with
    | none => exact ⟨fun h => absurd h not_mem_nil, fun ⟨l, _, _, h⟩ => nomatch h⟩
    | some node =>
      refine (Trie.mem_hits_iff).trans (exists_congr fun l => ?_)
      rw [add_assoc, add_comm 1 l]
      rfl
  rw [hentry]
  constructor
  · intro ⟨l, hp, hl, h⟩
    obtain ⟨t, hget, hmatched, htext⟩ := (UgmVocab.entry_eq_some_iff).mp h
    refine ⟨t, hget, hmatched, htext ▸ List.take_prefix _ _, ?_⟩
    rw [hp, htext, length_take, length_cons, Nat.min_eq_left (Nat.succ_le_succ hl)]
  · intro ⟨t, hget, hmatched, hbegins, hp⟩
    have hpos : 0 < t.text.length := length_pos_iff.mpr (V.nonempty t (mem_of_getElem? hget))
    have hle : t.text.length ≤ rest.length + 1 := hbegins.length_le
    refine ⟨t.text.length - 1, by omega, by omega, ?_⟩
    rw [Nat.sub_add_cancel hpos]
    exact (UgmVocab.entry_eq_some_iff).mpr ⟨t, hget, hmatched, List.prefix_iff_eq_take.mp hbegins⟩

/-- The edges from an offset: the tokens there, and the unknown token when none of them is the whole code point. -/
def edgesAt (V : UgmVocab) (inputOffset : ℕ) (c : UInt8) (rest : List UInt8) : List (BestPath.Edge ℕ ℚ) :=
  let units := nUtf8CodeUnits (c :: rest)
  (tokenHits V inputOffset c rest).map (tokenEdge V)
    ++ if (tokenHits V inputOffset c rest).any fun hit => hit.1 - inputOffset == units then []
      else [⟨inputOffset + units, V.unk, V.unknownTokenScore⟩]

theorem processCodePoint_eq (inputOffset : ℕ) (c : UInt8) (rest : List UInt8) (results : Results) :
    processCodePoint V inputOffset c rest results
      = (edgesAt V inputOffset c rest).foldl (relax inputOffset) results := by
  have hwalk : (match V.tokenMatcher.traverse c with
      | some node => matchTokens V inputOffset (nUtf8CodeUnits (c :: rest)) node rest (inputOffset + 1) (results, false)
      | none => (results, false))
      = (((tokenHits V inputOffset c rest).map (tokenEdge V)).foldl (relax inputOffset) results,
        (tokenHits V inputOffset c rest).any fun hit => hit.1 - inputOffset == nUtf8CodeUnits (c :: rest)) := by
    rw [tokenHits]
    cases V.tokenMatcher.traverse c with
    | none => rfl
    | some node => exact matchTokens_spec _ _ node rest _ _
  rw [processCodePoint, hwalk, edgesAt, foldl_append]
  split
  · rfl
  · rfl

end Walk

/-! ### The edges are the pieces -/

section Pieces

variable {V : UgmVocab} {text : List UInt8}

theorem nUtf8CodeUnits_pos {rest : List UInt8} (h : rest ≠ []) : 0 < nUtf8CodeUnits rest := by
  cases rest with
  | nil => exact absurd rfl h
  | cons c rest => exact Nat.lt_min.mpr ⟨Unicode.lenUtf8_pos c, Nat.succ_pos _⟩

theorem nUtf8CodeUnits_le (rest : List UInt8) : nUtf8CodeUnits rest ≤ rest.length := by
  cases rest with
  | nil => exact le_refl 0
  | cons c rest => exact min_le_right _ _

theorem Piece.lt {i j a : ℕ} {w : ℚ} (h : Piece V text i j a w) : i < j := by
  cases h with
  | token boundary get matched here =>
    exact Nat.lt_add_of_pos_right (length_pos_iff.mpr (V.nonempty _ (mem_of_getElem? get)))
  | unknown boundary lt none =>
    refine Nat.lt_add_of_pos_right (nUtf8CodeUnits_pos fun hnil => ?_)
    exact absurd (drop_eq_nil_iff.mp hnil) (Nat.not_le_of_lt lt)

theorem Piece.boundary {i j a : ℕ} {w : ℚ} (h : Piece V text i j a w) : Boundary text i := by
  cases h with
  | token boundary get matched here => exact boundary
  | unknown boundary lt none => exact boundary

theorem piece_iff_mem {i : ℕ} {c : UInt8} {rest : List UInt8} (hrest : text.drop i = c :: rest) (hbound : Boundary text i)
    (j a : ℕ) (w : ℚ) : Piece V text i j a w ↔ ⟨j, a, w⟩ ∈ edgesAt V i c rest := by
  have hscore : ∀ {id : ℕ} {t : UgmToken}, V.tokens[id]? = some t → V.tokenScore id = t.tokenScore := by
    intro id t hget
    rw [UgmVocab.tokenScore, hget]
    rfl
  have hfound : ((tokenHits V i c rest).any fun hit => hit.1 - i == nUtf8CodeUnits (c :: rest)) = true
      ↔ ∃ t ∈ V.tokens, t.matched ∧ t.text = (c :: rest).take (nUtf8CodeUnits (c :: rest)) := by
    rw [any_eq_true]
    constructor
    · intro ⟨⟨p, id⟩, hmem, hlen⟩
      obtain ⟨t, hget, hmatched, hbegins, rfl⟩ := (mem_tokenHits_iff).mp hmem
      rw [beq_iff_eq, Nat.add_sub_cancel_left] at hlen
      refine ⟨t, mem_of_getElem? hget, hmatched, ?_⟩
      rw [← hlen]
      exact List.prefix_iff_eq_take.mp hbegins
    · intro ⟨t, ht, hmatched, htext⟩
      obtain ⟨id, hget⟩ := getElem?_of_mem ht
      refine ⟨(i + t.text.length, id), (mem_tokenHits_iff).mpr ⟨t, hget, hmatched, htext ▸ List.take_prefix _ _, rfl⟩, ?_⟩
      rw [beq_iff_eq, Nat.add_sub_cancel_left, htext, length_take, Nat.min_eq_left (nUtf8CodeUnits_le _)]
  have htoken : (⟨j, a, w⟩ : BestPath.Edge ℕ ℚ) ∈ (tokenHits V i c rest).map (tokenEdge V)
      ↔ ∃ t, V.tokens[a]? = some t ∧ t.matched ∧ t.text <+: c :: rest ∧ j = i + t.text.length ∧ w = t.tokenScore := by
    rw [mem_map]
    constructor
    · intro ⟨⟨p, id⟩, hmem, heq⟩
      obtain ⟨t, hget, hmatched, hbegins, hp⟩ := (mem_tokenHits_iff).mp hmem
      obtain ⟨rfl, rfl, rfl⟩ := BestPath.Edge.mk.inj heq
      exact ⟨t, hget, hmatched, hbegins, hp, hscore hget⟩
    · intro ⟨t, hget, hmatched, hbegins, hj, hw⟩
      refine ⟨(j, a), (mem_tokenHits_iff).mpr ⟨t, hget, hmatched, hbegins, hj⟩, ?_⟩
      rw [tokenEdge, hw, hscore hget]
  have hi : i < text.length := by
    refine Nat.lt_of_not_le fun hle => ?_
    rw [drop_eq_nil_of_le hle] at hrest
    cases hrest
  rw [edgesAt, mem_append, htoken]
  constructor
  · intro h
    cases h with
    | token boundary get matched here => exact Or.inl ⟨_, get, matched, hrest ▸ here, rfl, rfl⟩
    | unknown boundary lt none =>
      refine Or.inr ?_
      rw [if_neg fun h => ?_, mem_singleton, hrest]
      obtain ⟨t, ht, hmatched, htext⟩ := hfound.mp h
      exact none t ht hmatched (hrest ▸ htext)
  · intro h
    rcases h with ⟨t, hget, hmatched, hbegins, rfl, rfl⟩ | h
    · exact .token hbound hget hmatched (hrest ▸ hbegins)
    · split at h
      · exact absurd h not_mem_nil
      · rename_i hnone
        obtain ⟨rfl, rfl, rfl⟩ := BestPath.Edge.mk.inj (mem_singleton.mp h)
        have hunknown := Piece.unknown (V := V) hbound hi fun t ht hmatched htext =>
          hnone (hfound.mpr ⟨t, ht, hmatched, hrest ▸ htext⟩)
        rw [hrest] at hunknown
        exact hunknown

/-! ### From code point to code point -/

/-- At a boundary, everything before is settled and the boundary itself is reached. -/
structure Arrived (V : UgmVocab) (text : List UInt8) (i : ℕ) (results : Results) : Prop where
  settled : BestPath.Settled (Piece V text) i results
  reached : (results i).score ≠ ⊥
  boundary : Boundary text i
  before : ∀ b, Boundary text b → b < i → b + nUtf8CodeUnits (text.drop b) ≤ i

theorem Arrived.le_of_boundary {i : ℕ} {results : Results} (h : Arrived V text i results) {b : ℕ} (hb : Boundary text b)
    (hlt : b < i + nUtf8CodeUnits (text.drop i)) : b ≤ i := by
  induction hb with
  | zero => exact zero_le i
  | @next b hb ih =>
    have hle : b ≤ i := ih (lt_of_le_of_lt (le_add_right _ _) hlt)
    rcases lt_or_eq_of_le hle with hbefore | rfl
    · exact h.before b hb hbefore
    · exact absurd hlt (lt_irrefl _)

theorem exists_piece_codePoint {i : ℕ} (hb : Boundary text i) (hi : i < text.length) :
    ∃ a w, Piece V text i (i + nUtf8CodeUnits (text.drop i)) a w := by
  by_cases hnone : ∀ t ∈ V.tokens, t.matched → t.text ≠ (text.drop i).take (nUtf8CodeUnits (text.drop i))
  · exact ⟨_, _, .unknown hb hi hnone⟩
  · push Not at hnone
    obtain ⟨t, ht, hmatched, htext⟩ := hnone
    obtain ⟨id, hget⟩ := getElem?_of_mem ht
    have hlen : t.text.length = nUtf8CodeUnits (text.drop i) := by
      rw [htext, length_take, min_eq_left (nUtf8CodeUnits_le _)]
    have hpiece := Piece.token hb hget hmatched (htext ▸ List.take_prefix _ _)
    rw [hlen] at hpiece
    exact ⟨_, _, hpiece⟩

theorem Arrived.next {i : ℕ} {results : Results} (h : Arrived V text i results) {c : UInt8} {rest : List UInt8}
    (hrest : text.drop i = c :: rest) :
    Arrived V text (i + nUtf8CodeUnits (c :: rest)) (processCodePoint V i c rest results) := by
  have hi : i < text.length := by
    refine Nat.lt_of_not_le fun hle => ?_
    rw [drop_eq_nil_of_le hle] at hrest
    cases hrest
  have hpos : 0 < nUtf8CodeUnits (c :: rest) := nUtf8CodeUnits_pos (cons_ne_nil c rest)
  have hsettled : BestPath.Settled (Piece V text) (i + 1) (processCodePoint V i c rest results) := by
    rw [processCodePoint_eq]
    exact h.settled.relaxAll Piece.lt (piece_iff_mem hrest h.boundary)
  have hinside : ∀ b, Boundary text b → b < i + nUtf8CodeUnits (c :: rest) → b ≤ i := by
    intro b hb hlt
    rw [← hrest] at hlt
    exact h.le_of_boundary hb hlt
  have hsame : processCodePoint V i c rest results i = results i := by
    rw [processCodePoint_eq]
    exact (relaxAll_spec results fun e he => ((piece_iff_mem hrest h.boundary _ _ _).mpr he).lt).1 i (le_refl i)
  refine ⟨hsettled.skip (by omega) fun hle hlt hpiece => ?_, ?_, hrest ▸ h.boundary.next, fun b hb hlt => ?_⟩
  · exact absurd (hinside _ hpiece.boundary hlt) (Nat.not_le_of_lt hle)
  · obtain ⟨a, w, hpiece⟩ := exists_piece_codePoint (V := V) h.boundary hi
    rw [hrest] at hpiece
    have hle := hsettled.relaxed (lt_succ_self i) hpiece
    rw [hsame] at hle
    intro hbot
    rw [hbot, le_bot_iff, WithBot.add_eq_bot] at hle
    exact hle.elim h.reached WithBot.coe_ne_bot
  · rcases lt_or_eq_of_le (hinside b hb hlt) with hbefore | rfl
    · exact (h.before b hb hbefore).trans (le_add_right _ _)
    · rw [hrest]

/-- **The table in the end**: everything is settled, and the end of the text is reached. -/
theorem forward_spec {fuel i : ℕ} {rest : List UInt8} {results : Results} (hrest : text.drop i = rest)
    (hlen : i + rest.length = text.length) (hfuel : rest.length ≤ fuel) (h : Arrived V text i results) :
    ∃ results', forward V fuel rest i results = .ok results' ∧ Arrived V text text.length results' := by
  induction fuel generalizing rest i results with
  | zero =>
    obtain rfl := length_eq_zero_iff.mp (eq_zero_of_le_zero hfuel)
    exact ⟨results, rfl, hlen ▸ h⟩
  | succ fuel ih =>
    cases rest with
    | nil => exact ⟨results, rfl, hlen ▸ h⟩
    | cons c rest =>
      have hpos : 0 < nUtf8CodeUnits (c :: rest) := nUtf8CodeUnits_pos (cons_ne_nil c rest)
      have hle : nUtf8CodeUnits (c :: rest) ≤ (c :: rest).length := nUtf8CodeUnits_le _
      have hmore : ((c :: rest).drop (nUtf8CodeUnits (c :: rest))).length = (c :: rest).length - nUtf8CodeUnits (c :: rest) :=
        length_drop
      refine ih ?_ (by omega) (by omega) (h.next hrest)
      rw [← hrest, drop_drop]

theorem arrived_init (V : UgmVocab) (text : List UInt8) : Arrived V text 0 (initialResults V.unk) where
  settled := by
    refine BestPath.Settled.init rfl fun j hpos => ?_
    show (if j = 0 then (0 : WithBot ℚ) else ⊥) = ⊥
    rw [if_neg (ne_of_gt hpos)]
  reached := WithBot.zero_ne_bot
  boundary := .zero
  before b _ hlt := absurd hlt (not_lt_zero b)

end Pieces

/-! ### Backtracking -/

section Backtrack

variable {unk inputLen : ℕ} {table results : Results}

theorem trace_zero {ids : List ℕ} (h : BestPath.Trace table 0 ids) : ids = [] := by
  generalize hn : 0 = n at h
  cases h with
  | nil => rfl
  | snoc left reached more => omega

/-- **The last loop** gathers the labels of the trace, the last one first, without the repetitions of the unknown token:
`tail` is what it has passed already. -/
theorem backtrack_spec (unk : ℕ) (tail output : List ℕ) {n fuel : ℕ} {ids : List ℕ} (htrace : BestPath.Trace table n ids) (hpos : 0 < n)
    (hle : n ≤ inputLen) (hfuel : n ≤ fuel) (hentry : results inputLen = table n)
    (hbefore : ∀ j < inputLen, results j = table j) :
    backtrack unk inputLen fuel results (decide (tail.head? = some unk)) (output ++ (collapse unk tail).reverse)
      = .ok (output ++ (collapse unk (ids ++ tail)).reverse) := by
  induction htrace generalizing fuel tail results with
  | nil => exact absurd hpos (lt_irrefl 0)
  | @snoc n as left reached more ih =>
    obtain ⟨fuel, rfl⟩ : ∃ k, fuel = k + 1 := ⟨fuel - 1, by omega⟩
    have hpush : (if (decide (tail.head? = some unk) && (table n).label == unk) = true
        then output ++ (collapse unk tail).reverse
        else output ++ (collapse unk tail).reverse ++ [(table n).label])
        = output ++ (collapse unk ((table n).label :: tail)).reverse := by
      rw [collapse]
      by_cases hrun : tail.head? = some unk ∧ (table n).label = unk
      · rw [if_pos hrun, if_pos (by rw [decide_eq_true hrun.1, hrun.2, beq_self_eq_true]; rfl)]
      · rw [if_neg hrun, if_neg fun h => hrun ?_, reverse_cons, append_assoc]
        obtain ⟨hhead, hlabel⟩ := Bool.and_eq_true_iff.mp h
        exact ⟨of_decide_eq_true hhead, beq_iff_eq.mp hlabel⟩
    have hflag : ((table n).label == unk) = decide (((table n).label :: tail).head? = some unk) := by
      rw [head?_cons, Bool.eq_iff_iff, beq_iff_eq, decide_eq_true_iff, Option.some.injEq]
    rw [backtrack, hentry, if_neg reached]
    simp only [hpush]
    rw [hflag]
    by_cases hzero : (table n).source = 0
    · rw [if_pos hzero]
      rw [hzero] at more
      rw [trace_zero more]
      rfl
    · rw [if_neg hzero, append_assoc]
      refine ih _ (pos_of_ne_zero hzero) (by omega) (by omega) ?_ fun j hj => ?_
      · rw [Function.update_self]
        exact hbefore _ (by omega)
      · rw [Function.update_of_ne (Nat.ne_of_lt hj)]
        exact hbefore j hj

end Backtrack

/-- **The unigram tokenizer** returns a segmentation whose score is the greatest, with runs of unknown tokens as one; none
of its loops fails, and it follows no entry that is not reached. -/
theorem tokenize_best (V : UgmVocab) (normalized : List UInt8) (output : List ℕ) :
    ∃ ids total, BestPath.Path (Piece V normalized) 0 normalized.length ids total
      ∧ (∀ ids' total', BestPath.Path (Piece V normalized) 0 normalized.length ids' total' → total' ≤ total)
      ∧ tokenize V normalized output = .ok (output ++ collapse V.unk ids) := by
  obtain ⟨results, hforward, h⟩ := forward_spec (drop_zero (l := normalized)) (zero_add _) (le_refl _)
    (arrived_init V normalized)
  obtain ⟨ids, total, htrace, hpath, hbest⟩ := h.settled.trace Piece.lt (le_refl _) h.reached
  refine ⟨ids, total, hpath, fun ids' total' hpath' => hbest.2 ⟨ids', hpath'⟩, ?_⟩
  rw [tokenize]
  by_cases hempty : normalized.length = 0
  · rw [hempty] at htrace
    rw [if_pos hempty, trace_zero htrace, collapse, append_nil]
  · have hback := backtrack_spec V.unk [] output htrace (pos_of_ne_zero hempty)
      (le_refl _) (le_succ _) rfl fun j _ => rfl
    rw [append_nil] at hback
    have hback' : backtrack V.unk normalized.length (normalized.length + 1) results false output
        = .ok (output ++ (collapse V.unk ids).reverse) := by
      rw [← hback, collapse, reverse_nil, append_nil]
      rfl
    rw [if_neg hempty, hforward]
    show (backtrack _ _ _ _ _ _ >>= _) = _
    rw [hback']
    show Except.ok _ = _
    rw [take_left, drop_left, reverse_reverse]

/-- An unknown token, "a", "b" and "ab", with "ab" better than "a" and "b". -/
def lettersVocab : UgmVocab where
  tokens := [⟨[0x3F], 0, false, false, false⟩, ⟨[0x61], -1, true, false, false⟩, ⟨[0x62], -2, true, false, false⟩,
    ⟨[0x61, 0x62], -5 / 2, true, false, false⟩]
  unk := 0
  distinct := by decide
  nonempty := by decide

/-- In `abxya` the two unknown letters become one token. -/
theorem tokenize_best_unknown : ∃ ids total,
    BestPath.Path (Piece lettersVocab [0x61, 0x62, 0x78, 0x79, 0x61]) 0 5 ids total ∧
      (∀ ids' total', BestPath.Path (Piece lettersVocab [0x61, 0x62, 0x78, 0x79, 0x61]) 0 5 ids' total' → total' ≤ total) ∧
      collapse 0 ids = [3, 0, 1] := by
  obtain ⟨ids, total, hpath, hbest, hrun⟩ := tokenize_best lettersVocab [0x61, 0x62, 0x78, 0x79, 0x61] []
  have hvalue : tokenize lettersVocab [0x61, 0x62, 0x78, 0x79, 0x61] [] = .ok [3, 0, 1] := by decide +kernel
  exact ⟨ids, total, hpath, hbest, Except.ok.inj (hrun.symm.trans hvalue)⟩

end Tokenizer.Ugm
