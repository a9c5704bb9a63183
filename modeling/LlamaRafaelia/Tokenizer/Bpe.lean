import LlamaRafaelia.Tokenizer.Session
import LlamaRafaelia.Tokenizer.Vocab

/-!
# The BPE session

`llm_tokenizer_bpe_session` cuts a text into words with `unicode_regex_split`, and merges the symbols of each word by the
ranks of the merges.  The words are byte-encoded: each of their characters stands for a byte, and none of them is a
blank, so the assertions of `find_bpe_rank` hold.

* **`bpeWord_spec`** - the symbols of a word, in the order of the vector, are the word, and each is a token if the
  vocabulary has the characters and the merges;
* **`bpe_lossless`** - then the tokens of a text spell its words.
-/

namespace Tokenizer

open List Unicode Linked Merging

/-- What `llm_tokenizer_bpe_session` reads: the tokens, the merges in the order of their ranks, and the flag
`ignore_merges`. -/
structure BpeVocab extends Vocab where
  merges : List (List UInt8 × List UInt8)
  ignoreMerges : Bool

/-- `llm_bigram_bpe`. -/
structure BigramBpe where
  left : ℕ
  right : ℕ
  text : List UInt8
  rank : ℕ
  size : ℕ
  deriving DecidableEq, Repr

/-- The tokens that `find_bpe_rank` accepts have neither a space nor a newline. -/
def isPlain (text : List UInt8) : Bool := text.all fun b => b ≠ 0x20 ∧ b ≠ 0x0A

/-- `find_bpe_rank`, with `none` for `-1`. -/
def findBpeRank (V : BpeVocab) (left right : List UInt8) : Except TokenizeError (Option ℕ) :=
  if isPlain left ∧ isPlain right then .ok (V.merges.findIdx? fun pair => pair = (left, right))
  else .error .assertFailed

/-- What `llm_tokenizer_bpe_session` does with two symbols and with its queue. -/
def bpeRules (V : BpeVocab) : Rules BigramBpe Unit TokenizeError where
  left := BigramBpe.left
  right := BigramBpe.right
  bigram? l r a b := do
    match ← findBpeRank V a.piece b.piece with
    | none => return none
    | some rank => return some ⟨l, r, a.piece ++ b.piece, rank, a.piece.length + b.piece.length⟩
  outdated e a b := a.n = 0 ∨ b.n = 0 ∨ a.piece ++ b.piece ≠ e.text
  below e e' := e'.rank < e.rank ∨ e.rank = e'.rank ∧ e'.left < e.left
  remember _ _ _ _ := ()

/-- A word: the texts of its finished symbols, in the order of the vector. -/
def bpeWord (V : BpeVocab) (word : List UInt8) : Except TokenizeError (List (List UInt8)) := do
  let syms :=
    if V.ignoreMerges ∧ V.textToToken word ≠ none then [⟨⟨word, word.length⟩, none, none⟩] else symbolsOf word
  let w ← (bpeRules V).session syms ()
  return pieces w.symbols ((List.range syms.length).filter fun i => 0 < (w.symbols i).n)

/-- The tokens of a finished symbol: its own, or those of its single bytes. -/
def emitBpe (V : BpeVocab) (str : List UInt8) : List ℕ :=
  match V.textToToken str with
  | some token => [token]
  | none => str.filterMap fun b => V.textToToken [b]

/-- `llm_tokenizer_bpe_session::tokenize`. -/
def bpeTokenize (V : BpeVocab) (sp : Splitter) (regexes : List String) (text : List UInt8) :
    Except TokenizeError (List ℕ) := do
  let words ← (regexSplit sp text regexes).mapError .split
  let symbolsFinal ← words.mapM (bpeWord V)
  return symbolsFinal.flatten.flatMap (emitBpe V)

/-! ### Byte-encoded words -/

theorem byteChar_spec (b : UInt8) :
    ∃ b₀ bs, encoding (byteToCpt b.toNat) = b₀ :: bs ∧ (b₀ :: bs).length = lenUtf8 b₀ ∧ isPlain (b₀ :: bs) = true := by
  have hall : ∀ n < 256, encoding (byteToCpt n) ≠ [] ∧
      (encoding (byteToCpt n)).length = lenUtf8 ((encoding (byteToCpt n)).headD 0) ∧
        isPlain (encoding (byteToCpt n)) = true := by
    decide +kernel
  obtain ⟨hne, hlen, hplain⟩ := hall b.toNat b.toNat_lt
  cases henc : encoding (byteToCpt b.toNat) with
  | nil => exact absurd henc hne
  | cons b₀ bs =>
    rw [henc] at hlen hplain
    exact ⟨b₀, bs, rfl, hlen, hplain⟩

theorem byteToCpt_injOn {n n' : ℕ} (hn : n < 256) (hn' : n' < 256) (h : byteToCpt n = byteToCpt n') : n = n' := by
  -- a byte that is not kept counts the ones before it
  have hcount : ∀ {k k' : ℕ}, isPrintable k = false → k < k' →
      ((List.range k).filter fun ch => ¬ isPrintable ch).length <
        ((List.range k').filter fun ch => ¬ isPrintable ch).length := by
    intro k k' hk hlt
    have hsub : (List.range (k + 1)).Sublist (List.range k') := range_sublist.mpr hlt
    have hle := (hsub.filter fun ch => ¬ isPrintable ch).length_le
    rw [range_succ, filter_append, length_append, filter_singleton, hk] at hle
    exact hle
  unfold byteToCpt at h
  split at h
  next hp =>
    split at h
    next => exact h
    next => omega
  next hp =>
    split at h
    next => omega
    next hp' =>
      rw [Bool.not_eq_true] at hp hp'
      rcases Nat.lt_trichotomy n n' with hlt | heq | hgt
      · have := hcount hp hlt
        omega
      · exact heq
      · have := hcount hp' hgt
        omega

theorem byteChar_injOn {n n' : ℕ} (hn : n < 256) (hn' : n' < 256)
    (h : encoding (byteToCpt n) = encoding (byteToCpt n')) : n = n' := by
  have hle : ∀ k < 256, byteToCpt k ≤ 0x10FFFF := by
    intro k hk
    have := byteToCpt_le (UInt8.ofNat k)
    rwa [UInt8.toNat_ofNat_of_lt' hk] at this
  have hdecode := cptFromUtf8_encoding (hle n hn) []
  rw [h, cptFromUtf8_encoding (hle n' hn') []] at hdecode
  exact byteToCpt_injOn hn hn' (Prod.mk.inj (Option.some.inj hdecode)).1.symm

theorem chars_byteEncoding (bytes : List UInt8) :
    chars (byteEncoding bytes) = bytes.map fun b => encoding (byteToCpt b.toNat) := by
  induction bytes with
  | nil => rfl
  | cons b bytes ih =>
    obtain ⟨b₀, bs, henc, hlen, -⟩ := byteChar_spec b
    rw [map_cons, ← ih, byteEncoding, flatMap_cons, henc, cons_append, chars_cons, ← cons_append,
      ← hlen, take_left, drop_left]
    rfl

theorem isPlain_byteEncoding (bytes : List UInt8) : isPlain (byteEncoding bytes) = true := by
  induction bytes with
  | nil => rfl
  | cons b bytes ih =>
    obtain ⟨b₀, bs, henc, -, hplain⟩ := byteChar_spec b
    unfold isPlain at hplain ih ⊢
    rw [byteEncoding, flatMap_cons, henc, all_append, hplain]
    exact ih

theorem encodeWord_byteEncoding {word encoded : List UInt8} (h : encodeWord word = .ok encoded) :
    ∃ bytes, encoded = byteEncoding bytes := by
  unfold encodeWord at h
  cases hutf : cptsToUtf8 (cptsFromUtf8 word) with
  | error e =>
    rw [hutf] at h
    cases h
  | ok textUtf =>
    have hbytes : ∀ b ∈ textUtf, byteToUtf8 b = .ok (encoding (byteToCpt b.toNat)) := fun b _ =>
      cptToUtf8_eq (byteToCpt_le b)
    rw [hutf] at h
    have hfold : textUtf.foldlM (fun encoded c => do
        let enc ← byteToUtf8 c
        return encoded ++ enc) [] = .ok encoded := h
    rw [foldlM_append hbytes, nil_append] at hfold
    exact ⟨textUtf, (Except.ok.inj hfold).symm⟩

theorem mem_mapM {α β ε : Type} {f : α → Except ε β} {l : List α} {l' : List β} (h : l.mapM f = .ok l') :
    ∀ y ∈ l', ∃ x ∈ l, f x = .ok y := by
  induction l generalizing l' with
  | nil =>
    cases h
    simp
  | cons x l ih =>
    rw [mapM_cons] at h
    cases hx : f x with
    | error e =>
      rw [hx] at h
      cases h
    | ok y =>
      cases hl : l.mapM f with
      | error e =>
        rw [hx, hl] at h
        cases h
      | ok ys =>
        rw [hx, hl] at h
        cases h
        intro z hz
        rcases mem_cons.mp hz with rfl | hz
        · exact ⟨x, mem_cons_self, hx⟩
        · obtain ⟨x', hx', hf⟩ := ih hl z hz
          exact ⟨x', mem_cons_of_mem x hx', hf⟩

theorem regexSplit_byteEncoding {sp : Splitter} {text : List UInt8} {regexes : List String} {words : List (List UInt8)}
    (h : regexSplit sp text regexes = .ok words) : ∀ word ∈ words, ∃ bytes, word = byteEncoding bytes := by
  unfold regexSplit at h
  dsimp only at h
  cases hsplit : splitLoop sp (cptsFromUtf8 text) regexes [(cptsFromUtf8 text).length] with
  | error e =>
    rw [hsplit] at h
    cases h
  | ok offsets =>
    cases hwords : wordsLoop (cptsFromUtf8 text) offsets 0 with
    | error e =>
      have herr : (wordsLoop (cptsFromUtf8 text) offsets 0 >>= fun words => words.mapM encodeWord) = .ok words := by
        rw [hsplit] at h
        exact h
      rw [hwords] at herr
      cases herr
    | ok raw =>
      have hmap : raw.mapM encodeWord = .ok words := by
        have hbind : (wordsLoop (cptsFromUtf8 text) offsets 0 >>= fun words => words.mapM encodeWord) = .ok words := by
          rw [hsplit] at h
          exact h
        rw [hwords] at hbind
        exact hbind
      intro word hword
      obtain ⟨w, -, hw⟩ := mem_mapM hmap word hword
      exact encodeWord_byteEncoding hw

/-! ### The session as merging -/

def mergeTexts (V : BpeVocab) (text : List UInt8) : Prop := ∃ pair ∈ V.merges, text = pair.1 ++ pair.2

theorem findBpeRank_piece (V : BpeVocab) {text : List UInt8} (hplain : isPlain text = true) {a b : Slice}
    (hmeets : a.Meets b) (hsuffix : a.text <:+ text) :
    findBpeRank V a.piece b.piece = .ok (V.merges.findIdx? fun pair => pair = (a.piece, b.piece)) := by
  have hsub : ∀ {t : List UInt8}, t ⊆ text → isPlain t = true := by
    intro t ht
    unfold isPlain at hplain ⊢
    rw [all_eq_true] at hplain ⊢
    intro b hb
    exact hplain b (ht hb)
  have ha : isPlain a.piece = true := hsub fun x hx => hsuffix.subset (mem_of_mem_take hx)
  have hb : isPlain b.piece = true := by
    apply hsub
    intro x hx
    have hx' := mem_of_mem_take hx
    rw [hmeets.text_eq] at hx'
    exact hsuffix.subset (mem_of_mem_drop hx')
  rw [findBpeRank, if_pos ⟨ha, hb⟩]

theorem bpe_lawful (V : BpeVocab) {text : List UInt8} (hplain : isPlain text = true) :
    Lawful (bpeRules V) text (mergeTexts V) (fun _ e => mergeTexts V e.text) fun _ => True := by
  constructor
  · intro l r a b hmeets hsuffix
    have hrank := findBpeRank_piece V hplain hmeets hsuffix
    cases hfind : V.merges.findIdx? fun pair => pair = (a.piece, b.piece) with
    | none =>
      refine ⟨none, ?_, by simp⟩
      simp only [bpeRules, hrank, hfind]
      rfl
    | some rank =>
      refine ⟨some ⟨l, r, a.piece ++ b.piece, rank, a.piece.length + b.piece.length⟩, ?_, ?_⟩
      · simp only [bpeRules, hrank, hfind]
        rfl
      · rintro e ⟨⟩
        refine ⟨rfl, rfl, ?_, ?_, fun _ _ => trivial⟩
        · obtain ⟨hlt, hpair, -⟩ := findIdx?_eq_some_iff_getElem.mp hfind
          have heq : V.merges[rank] = (a.piece, b.piece) := by simpa using hpair
          exact ⟨V.merges[rank], getElem_mem hlt, by rw [heq]⟩
        · have hleft := hmeets.left_pos
          have hright := hmeets.right_pos
          simp only [bpeRules, decide_eq_false_iff_not]
          grind
  · intro e a b _ hclaims hfresh
    simp only [bpeRules, decide_eq_false_iff_not, not_or, not_not] at hfresh
    rw [hfresh.2.2]
    exact hclaims
  · intro e a b hfresh
    simp only [bpeRules, decide_eq_false_iff_not, not_or] at hfresh
    omega

/-- The vocabulary has the 256 byte-level characters and the concatenation of every merge. -/
structure BpeVocab.Complete (V : BpeVocab) : Prop where
  chars : ∀ b utf8, byteToUtf8 b = .ok utf8 → V.Has utf8
  merges : ∀ pair ∈ V.merges, V.Has (pair.1 ++ pair.2)

def texts (V : Vocab) (ids : List ℕ) : List UInt8 := ids.flatMap fun id => (V.tokens[id]?).elim [] TokenData.text

theorem chain_whole {word : List UInt8} (h : word ≠ []) :
    Chain (vector [⟨⟨word, word.length⟩, none, none⟩]) 1 word (List.range 1) := by
  have hpos : 0 < word.length := length_pos_of_ne_nil h
  refine ⟨rfl, ⟨rfl, rfl, trivial⟩, List.Sublist.refl _, ⟨rfl, hpos, le_rfl, drop_length⟩, ?_⟩
  intro i hi
  cases i with
  | zero => simp at hi
  | succ i => rfl

/-- **A word.**  The finished symbols are the word, and each is the text of a token. -/
theorem bpeWord_spec {V : BpeVocab} (hV : V.Complete) (bytes : List UInt8) :
    ∃ strs, bpeWord V (byteEncoding bytes) = .ok strs ∧ strs.flatten = byteEncoding bytes ∧ ∀ str ∈ strs, V.Has str := by
  have hlaws := bpe_lawful V (isPlain_byteEncoding bytes)
  have hjoin : ∀ {text}, mergeTexts V text → V.Has text := by
    rintro text ⟨pair, hpair, rfl⟩
    exact hV.merges pair hpair
  -- the first symbols are tokens, whether the word is split or not
  obtain ⟨syms, hsyms, hchain, hfirst⟩ : ∃ syms, (if V.ignoreMerges ∧ V.textToToken (byteEncoding bytes) ≠ none then
        [⟨⟨byteEncoding bytes, (byteEncoding bytes).length⟩, none, none⟩] else symbolsOf (byteEncoding bytes)) = syms ∧
      Chain (vector syms) syms.length (byteEncoding bytes) (List.range syms.length) ∧
      ∀ s ∈ syms, V.Has s.toSlice.piece := by
    split
    next hwhole =>
      obtain ⟨id, hid⟩ := Option.ne_none_iff_exists'.mp hwhole.2
      obtain ⟨t, ht, htext⟩ := V.textToToken_eq_some hid
      have hmem := mem_of_getElem? ht
      refine ⟨_, rfl, chain_whole ?_, ?_⟩
      · rw [← htext]
        exact V.nonempty t hmem
      · intro s hs
        rw [mem_singleton.mp hs]
        exact ⟨t, hmem, htext.trans take_length.symm⟩
    next =>
      refine ⟨_, rfl, chain_symbolsOf _, ?_⟩
      intro s hs
      have hchar : s.toSlice.piece ∈ chars (byteEncoding bytes) := mem_map.mpr ⟨s, hs, rfl⟩
      rw [chars_byteEncoding] at hchar
      obtain ⟨b, -, hb⟩ := mem_map.mp hchar
      rw [← hb]
      exact hV.chars b _ (cptToUtf8_eq (byteToCpt_le b))
  obtain ⟨w, ids, gs, hsession, hchain', hholds, hrun, -, -⟩ := session_spec hlaws hchain trivial
  refine ⟨pieces w.symbols ids, ?_, hchain'.tiles.flatten_pieces, ?_⟩
  · unfold bpeWord
    dsimp only
    rw [hsyms, hsession]
    exact congrArg (fun ids => Except.ok (pieces w.symbols ids)) hchain'.filter_living
  · intro str hstr
    rw [show pieces w.symbols ids = gs.map List.flatten from hholds] at hstr
    obtain ⟨g, hg, rfl⟩ := mem_map.mp hstr
    have hassembled := hrun.assembled (C := fun c => V.Has c) (by
      intro g hg
      obtain ⟨s, hs, rfl⟩ := mem_map.mp hg
      exact .letter (hfirst s hs)) g hg
    rcases hassembled.letter_or_allowed with ⟨c, rfl, hc⟩ | hmerge
    · rw [flatten_singleton]
      exact hc
    · exact hjoin hmerge

theorem texts_emitBpe {V : BpeVocab} {strs : List (List UInt8)} (h : ∀ str ∈ strs, V.Has str) :
    texts V.toVocab (strs.flatMap (emitBpe V)) = strs.flatten := by
  induction strs with
  | nil => rfl
  | cons str strs ih =>
    obtain ⟨id, hid⟩ := V.textToToken_of_has (h str mem_cons_self)
    obtain ⟨t, ht, htext⟩ := V.textToToken_eq_some hid
    have hrest := ih fun str' hstr' => h str' (mem_cons_of_mem str hstr')
    have hemit : emitBpe V str = [id] := by
      rw [emitBpe, hid]
    rw [flatMap_cons, hemit, flatten_cons, ← hrest, ← htext]
    show (V.tokens[id]?).elim [] TokenData.text ++ _ = _
    rw [ht]
    rfl

/-- **BPE is lossless** on the byte-encoded words of every text. -/
theorem bpe_lossless {V : BpeVocab} (hV : V.Complete) {sp : Splitter} {text : List UInt8} {regexes : List String}
    {words : List (List UInt8)} (h : regexSplit sp text regexes = .ok words) :
    ∃ output, bpeTokenize V sp regexes text = .ok output ∧ texts V.toVocab output = words.flatten := by
  obtain ⟨strss, hmapM, hflat, hhas⟩ : ∃ strss, words.mapM (bpeWord V) = .ok strss ∧
      strss.flatten.flatten = words.flatten ∧ ∀ str ∈ strss.flatten, V.Has str := by
    have hwords := regexSplit_byteEncoding h
    clear h
    induction words with
    | nil => exact ⟨[], rfl, rfl, by simp⟩
    | cons word words ih =>
      obtain ⟨bytes, rfl⟩ := hwords word mem_cons_self
      obtain ⟨strs, hword, hstrs, hhas⟩ := bpeWord_spec hV bytes
      obtain ⟨strss, hmapM, hflat, hhas'⟩ := ih fun word' hword' => hwords word' (mem_cons_of_mem _ hword')
      refine ⟨strs :: strss, ?_, ?_, ?_⟩
      · rw [mapM_cons, hword, hmapM]
        rfl
      · rw [flatten_cons, flatten_append, hstrs, hflat, flatten_cons]
      · intro str hstr
        rw [flatten_cons, mem_append] at hstr
        rcases hstr with hstr | hstr
        · exact hhas str hstr
        · exact hhas' str hstr
  refine ⟨strss.flatten.flatMap (emitBpe V), ?_, (texts_emitBpe hhas).trans hflat⟩
  unfold bpeTokenize
  rw [h]
  show (words.mapM (bpeWord V) >>= fun symbolsFinal => .ok (symbolsFinal.flatten.flatMap (emitBpe V))) = _
  rw [hmapM]
  rfl

end Tokenizer
