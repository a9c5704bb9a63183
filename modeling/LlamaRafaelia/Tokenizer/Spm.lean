import LlamaRafaelia.Tokenizer.Session
import LlamaRafaelia.Tokenizer.Vocab

/-!
# The SPM session

`llm_tokenizer_spm_session` merges neighbours whose text together is the text of a token, the highest score first.  
**`spm_spec`**: the characters are gathered into groups until no two neighbours are a token, and each group is put out
as its token or as its bytes (`emit`).
-/

namespace Tokenizer

open List Unicode Linked Merging

/-- `llm_bigram_spm`, with the scores in any order. -/
structure BigramSpm (κ : Type) where
  left : ℕ
  right : ℕ
  score : κ
  size : ℕ
  deriving DecidableEq, Repr

/-- The map `rev_merge`, the last entry of a text first. -/
abbrev RevMerge := List (List UInt8 × ℕ × ℕ)

variable {κ : Type} [LinearOrder κ]

/-- What `llm_tokenizer_spm_session` does with two symbols and with its queue; `score` is that of a token. -/
def spmRules (V : Vocab) (score : ℕ → κ) : Rules (BigramSpm κ) RevMerge TokenizeError where
  left := BigramSpm.left
  right := BigramSpm.right
  bigram? l r a b :=
    let text := a.text.take (a.n + b.n)
    match V.textToToken text with
    | none => .ok none
    | some token =>
      -- `token >= vocab.n_tokens()`
      if V.tokens.length ≤ token then .ok none else .ok (some ⟨l, r, score token, text.length⟩)
  outdated e a b := a.n = 0 ∨ b.n = 0 ∨ a.n + b.n ≠ e.size
  below e e' := e.score < e'.score ∨ e.score = e'.score ∧ e'.left < e.left
  remember e a b revMerge := (a.text.take (a.n + b.n), e.left, e.right) :: revMerge

/-- The score of a token, as `get_token_data` has it. -/
def Vocab.score (V : Vocab) (token : ℕ) : ℤ := (V.tokens[token]?).elim 0 TokenData.score

/-- `llm_tokenizer_spm_session::resegment`.  `depth` bounds the recursion. -/
def resegment (V : Vocab) (S : Symbols) (revMerge : RevMerge) : ℕ → Slice → Except TokenizeError (List ℕ)
  | 0, _ => .error .recursion
  | depth + 1, symbol =>
    match V.textToToken symbol.piece with
    | some token => .ok [token]
    | none =>
      match revMerge.lookup symbol.piece with
      -- output any symbols that did not form tokens as bytes
      | none => symbol.piece.mapM V.byteToToken
      | some (l, r) => do
        let left ← resegment V S revMerge depth (S l).toSlice
        let right ← resegment V S revMerge depth (S r).toSlice
        return left ++ right

/-- `llm_tokenizer_spm_session::tokenize`.  The last loop starts at the first symbol, also when there is none. -/
def spmTokenize (V : Vocab) (text : List UInt8) : Except TokenizeError (List ℕ) := do
  let syms := symbolsOf text
  let w ← (spmRules V V.score).session syms []
  if syms = [] then .error .emptyVector
  else do
    let ids := read (fun i => (w.symbols i).next) syms.length (some 0)
    let output ← ids.mapM fun i => resegment V w.symbols w.memo (syms.length + 1) (w.symbols i).toSlice
    return output.flatten

/-! ### The session as merging -/

def emit (V : Vocab) (text : List UInt8) : Except TokenizeError (List ℕ) :=
  match V.textToToken text with
  | some token => .ok [token]
  | none => text.mapM V.byteToToken

def joins (V : Vocab) (g : List (List UInt8)) : Prop := V.Has g.flatten

theorem spm_lawful (V : Vocab) (score : ℕ → κ) (text : List UInt8) :
    Lawful (spmRules V score) text V.Has (fun at_ e => V.Has (at_.take e.size))
      fun revMerge => ∀ entry ∈ revMerge, V.Has entry.1 := by
  constructor
  · intro l r a b hmeets _
    cases htoken : V.textToToken (a.text.take (a.n + b.n)) with
    | none => exact ⟨none, by simp [spmRules, htoken], by simp⟩
    | some token =>
      obtain ⟨data, hdata, htext⟩ := V.textToToken_eq_some htoken
      have hhas : V.Has (a.text.take (a.n + b.n)) := ⟨data, mem_of_getElem? hdata, htext⟩
      have hlen : (a.text.take (a.n + b.n)).length = a.n + b.n := by
        have hle := hmeets.right_le
        rw [hmeets.text_eq, length_drop] at hle
        have := hmeets.left_le
        rw [length_take]
        omega
      have hlt : ¬ V.tokens.length ≤ token := Nat.not_le.mpr (List.getElem?_eq_some_iff.mp hdata).1
      refine ⟨some ⟨l, r, score token, (a.text.take (a.n + b.n)).length⟩, by simp only [spmRules, htoken, if_neg hlt], ?_⟩
      rintro e ⟨⟩
      refine ⟨rfl, rfl, ?_, ?_, ?_⟩
      · show V.Has (a.text.take (a.text.take (a.n + b.n)).length)
        rw [hlen]
        exact hhas
      · have hleft := hmeets.left_pos
        have hright := hmeets.right_pos
        simp only [spmRules, hlen, decide_eq_false_iff_not]
        omega
      · intro revMerge hrev entry hentry
        rcases mem_cons.mp hentry with rfl | hentry
        · exact hhas
        · exact hrev entry hentry
  · intro e a b hmeets hclaims hfresh
    simp only [spmRules, decide_eq_false_iff_not, not_or, not_not] at hfresh
    rw [hmeets.piece_append, hfresh.2.2]
    exact hclaims
  · intro e a b hfresh
    simp only [spmRules, decide_eq_false_iff_not, not_or] at hfresh
    omega

theorem resegment_eq {V : Vocab} {S : Symbols} {revMerge : RevMerge} (h : ∀ entry ∈ revMerge, V.Has entry.1)
    (depth : ℕ) (symbol : Slice) : resegment V S revMerge (depth + 1) symbol = emit V symbol.piece := by
  rw [resegment, emit]
  cases htoken : V.textToToken symbol.piece with
  | some token => rfl
  | none =>
    have hnone : revMerge.lookup symbol.piece = none := by
      rw [List.lookup_eq_none_iff]
      intro entry hentry
      have hhas := h entry hentry
      rw [bne_iff_ne]
      intro heq
      rw [← heq] at hhas
      exact (V.textToToken_eq_none).mp htoken hhas
    dsimp only
    rw [hnone]

/-- **The SPM session.**  The characters of the text are gathered by merges into groups, no two neighbouring groups are
a token together, and each group is put out. -/
theorem spm_spec (V : Vocab) {text : List UInt8} (hne : text ≠ []) :
    ∃ gs, gs.flatten = chars text ∧ (∀ g ∈ gs, Assembled (joins V) IsChar g) ∧ Stuck (joins V) gs ∧
      spmTokenize V text = (gs.mapM fun g => emit V g.flatten).map List.flatten := by
  have hempty : ∀ entry ∈ ([] : RevMerge), V.Has entry.1 := by simp
  obtain ⟨w, ids, gs, hsession, hchain, hholds, hrun, hdone, hmemo⟩ :=
    session_spec (spm_lawful V V.score text) (chain_symbolsOf text) hempty
  refine ⟨gs, ?_, ?_, ?_, ?_⟩
  · rw [hrun.flatten_eq]
    unfold chars
    induction symbolsOf text with
    | nil => rfl
    | cons s syms ih => simpa using ih
  · apply hrun.assembled
    intro g hg
    obtain ⟨s, hs, rfl⟩ := mem_map.mp hg
    exact .letter (isChar_of_mem_chars (mem_map.mpr ⟨s, hs, rfl⟩))
  · -- neighbouring groups are in neighbouring symbols
    intro xs a b ys hgs hab
    rw [hgs] at hholds
    unfold Holds pieces at hholds
    rw [map_append, map_cons, map_cons] at hholds
    obtain ⟨ix, is, rfl, -, hrest⟩ := map_eq_append_iff.mp hholds
    obtain ⟨i, is, rfl, ha, hrest⟩ := map_eq_cons_iff.mp hrest
    obtain ⟨j, iy, rfl, hb, -⟩ := map_eq_cons_iff.mp hrest
    have hadj : Adjacent (ix ++ i :: j :: iy) i j := ⟨ix, iy, rfl⟩
    have hnone := hdone i j hadj
    have hjoin : V.Has ((w.symbols i).text.take ((w.symbols i).n + (w.symbols j).n)) := by
      rw [← (hchain.meets hadj).1.piece_append, ha, hb, ← flatten_append]
      exact hab
    obtain ⟨token, htoken⟩ := V.textToToken_of_has hjoin
    obtain ⟨data, hdata, -⟩ := V.textToToken_eq_some htoken
    have hlt : ¬ V.tokens.length ≤ token := Nat.not_le.mpr (List.getElem?_eq_some_iff.mp hdata).1
    simp [spmRules, htoken, if_neg hlt] at hnone
  · have hsyms : symbolsOf text ≠ [] := by
      intro hnil
      have hflat := flatten_chars text
      rw [chars, hnil] at hflat
      exact hne hflat.symm
    have hentry : entry ids none = some 0 := by
      rw [hchain.first]
      cases hlen : (symbolsOf text).length with
      | zero => exact absurd (eq_nil_of_length_eq_zero hlen) hsyms
      | succ len => rw [range_succ_eq_map, entry_cons]
    have hread : read (fun i => (w.symbols i).next) (symbolsOf text).length (some 0) = ids := by
      rw [← hentry]
      exact hchain.linked.read_eq (by simpa using hchain.sublist.length_le)
    have hemit : (ids.mapM fun i => resegment V w.symbols w.memo ((symbolsOf text).length + 1) (w.symbols i).toSlice) =
        gs.mapM fun g => emit V g.flatten := by
      have hpieces : (pieces w.symbols ids).mapM (emit V) = (gs.map List.flatten).mapM (emit V) := by
        rw [show pieces w.symbols ids = gs.map List.flatten from hholds]
      unfold pieces at hpieces
      rw [mapM_map, mapM_map] at hpieces
      simp only [resegment_eq hmemo]
      exact hpieces
    unfold spmTokenize
    dsimp only
    rw [hsession]
    show (if symbolsOf text = [] then _ else _) = _
    rw [if_neg hsyms, hread, hemit]
    cases gs.mapM fun g => emit V g.flatten with
    | error e => rfl
    | ok output => rfl

end Tokenizer
