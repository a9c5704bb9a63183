import Mathlib.Data.List.Dedup
import Mathlib.Data.List.GetD
import Mathlib.Data.List.Infix
import LlamaRafaelia.Lib.Suffixes
import LlamaRafaelia.Tokenizer.Plamo

/-!
# The tables of the PLaMo-2 tokenizer

`build` goes through when every byte has a token that is not the first one of the vocabulary, and the rows can be numbered.
The tables are then an automaton whose states are the suffixes of the tokens.

* `sortSuffixes_spec` - **a suffix stands before what it is a suffix of**;
* `Automaton`, **`build_spec`** - the rows of a suffix, and the suffix that a letter leads to.
-/

namespace Tokenizer.Plamo

open List Unicode PlamoToken Assoc Suffixes Or

/-! ### Words -/

def Encodable (w : List ℕ) : Prop := ∀ c ∈ w, c ≤ 0x10FFFF

def enc (w : List ℕ) : List UInt8 := w.flatMap encoding

def IsUtf8 (s : List UInt8) : Prop := ∃ w, Encodable w ∧ s = enc w

def PlamoToken.word (t : PlamoToken) : List ℕ := cptsFromUtf8 t.text

/-- A vocabulary of distinct non-empty tokens in UTF-8. -/
structure PlamoVocab where
  tokens : List PlamoToken
  distinct : (tokens.map text).Nodup
  nonempty : ∀ t ∈ tokens, t.text ≠ []
  valid : ∀ t ∈ tokens, IsUtf8 t.text

section Words

variable {u w : List ℕ}

theorem Encodable.sublist (h : Encodable w) (hsub : u.Sublist w) : Encodable u := fun c hc => h c (hsub.subset hc)

theorem enc_append (u w : List ℕ) : enc (u ++ w) = enc u ++ enc w := flatMap_append

theorem toUtf8_eq (h : Encodable w) : toUtf8 w = .ok (enc w) := by
  rw [toUtf8, cptsToUtf8_eq h]
  rfl

theorem cpts_enc (h : Encodable w) : cptsFromUtf8 (enc w) = w := cptsFromUtf8_encoding h

theorem enc_injective (hu : Encodable u) (hw : Encodable w) (h : enc u = enc w) : u = w := by
  rw [← cpts_enc hu, h, cpts_enc hw]

theorem enc_eq_nil (h : Encodable w) (hnil : enc w = []) : w = [] :=
  enc_injective h (fun _ hc => absurd hc not_mem_nil) hnil

theorem IsUtf8.encodable {s : List UInt8} (h : IsUtf8 s) : Encodable (cptsFromUtf8 s) := by
  obtain ⟨w, hw, rfl⟩ := h
  rw [cpts_enc hw]
  exact hw

theorem IsUtf8.enc_cpts {s : List UInt8} (h : IsUtf8 s) : enc (cptsFromUtf8 s) = s := by
  obtain ⟨w, hw, rfl⟩ := h
  rw [cpts_enc hw]

end Words

/-! ### Suffixes of the tokens -/

/-- The empty word and the suffixes of the tokens that are no byte tokens. -/
def Suff (tokens : List PlamoToken) : Set (List ℕ) := {w | w = [] ∨ ∃ t ∈ tokens, t.byte = false ∧ w <:+ t.word}

theorem suff_closed (tokens : List PlamoToken) : Suffixes.Closed (Suff tokens) := by
  intro c w h
  rcases h with hnil | ⟨t, ht, hbyte, hsuffix⟩
  · cases hnil
  · exact inr ⟨t, ht, hbyte, (suffix_cons c w).trans hsuffix⟩

def ByteToken (t : PlamoToken) (b : ℕ) : Prop :=
  t.byte = true ∧ isByteName t.text = true ∧ stoi (t.text.getD 3 0) (t.text.getD 4 0) = some (b : ℤ)

def BadByteToken (t : PlamoToken) : Prop :=
  t.byte = true ∧ isByteName t.text = true ∧ ∀ b : ℕ, stoi (t.text.getD 3 0) (t.text.getD 4 0) ≠ some (b : ℤ)

/-- **When `build` gets all byte tokens**: none is malformed, and every byte has one behind the first token. -/
def BytesSet (tokens : List PlamoToken) : Prop :=
  (∀ t ∈ tokens, ¬ BadByteToken t) ∧ ∀ b < 256, ∃ id t, 0 < id ∧ tokens[id]? = some t ∧ ByteToken t b

/-- The scores that are cast fit `int32_t`. -/
def ScoresFit (tokens : List PlamoToken) : Prop :=
  ∀ t ∈ tokens, t.byte = false → ∀ k ∈ t.score, -2 ^ 31 ≤ k ∧ k < 2 ^ 31

/-! ### The first loop -/

/-- `token_to_id` of some tokens. -/
structure IdsOf (tokens : List PlamoToken) (ids : List (List UInt8 × ℕ)) : Prop where
  keys : (ids.map Prod.fst).Nodup
  mem : ∀ {id t}, tokens[id]? = some t → (t.text, id) ∈ ids

/-- `suffix_to_score` of some tokens. -/
structure ScoresOf (tokens : List PlamoToken) (scores : List (List UInt8 × Option ℤ)) : Prop where
  keys : (scores.map Prod.fst).Nodup
  token : ∀ t ∈ tokens, t.byte = false → (t.text, t.score) ∈ scores
  suffix : ∀ w ∈ Suff tokens, w ≠ [] → enc w ∈ scores.map Prod.fst
  isSuffix : ∀ p ∈ scores, ∃ w ∈ Suff tokens, w ≠ [] ∧ p.1 = enc w
  isScore : ∀ p ∈ scores, p.2 = none ∨ ∃ t ∈ tokens, t.byte = false ∧ p = (t.text, t.score)

/-- `bytes_` of some tokens. -/
structure BytesOf (tokens : List PlamoToken) (bytes : List ℕ) : Prop where
  length : bytes.length = 256
  set : ∀ {b id t}, b < 256 → 0 < id → tokens[id]? = some t → ByteToken t b → bytes.getD b 0 ≠ 0
  sound : ∀ {b}, bytes.getD b 0 ≠ 0 → ∃ t, tokens[bytes.getD b 0]? = some t ∧ ByteToken t b

section Collect

variable {tokens : List PlamoToken} {maps : Maps} {t : PlamoToken}

theorem hexDigit?_lt {b : UInt8} {x : ℕ} (h : hexDigit? b = some x) : x < 16 := by
  unfold hexDigit? at h
  split at h
  · obtain rfl := Option.some.inj h
    omega
  · split at h
    · obtain rfl := Option.some.inj h
      omega
    · split at h
      · obtain rfl := Option.some.inj h
        omega
      · cases h

theorem stoi_lt {a b : UInt8} {v : ℕ} (h : stoi a b = some (v : ℤ)) : v < 256 := by
  unfold stoi at h
  split at h
  · rename_i x y hx hy
    have := hexDigit?_lt hx
    have := hexDigit?_lt hy
    have := Option.some.inj h
    omega
  · rename_i x hx hy
    have := hexDigit?_lt hx
    have := Option.some.inj h
    omega
  · rename_i y hx hy
    have := hexDigit?_lt hy
    split at h
    · have := Option.some.inj h
      omega
    · split at h
      · have := Option.some.inj h
        omega
      · cases h
  · cases h

theorem properSuffixes_eq (h : IsUtf8 t.text) :
    properSuffixes t.text = .ok ((List.range' 1 (t.word.length - 1)).map fun i => enc (t.word.drop i)) :=
  mapM_eq fun i _ => toUtf8_eq (h.encodable.sublist (drop_sublist i _))

theorem mem_properSuffixes {w : List ℕ} (hne : w ≠ []) (h : w <:+ t.word) (hproper : w ≠ t.word) :
    enc w ∈ (List.range' 1 (t.word.length - 1)).map fun i => enc (t.word.drop i) := by
  obtain ⟨u, hu⟩ := h
  have hupos : 0 < u.length := by
    refine length_pos_iff.mpr fun hnil => hproper ?_
    rw [← hu, hnil, nil_append]
  have hwpos := length_pos_iff.mpr hne
  refine mem_map.mpr ⟨u.length, mem_range'_1.mpr ⟨hupos, ?_⟩, ?_⟩
  · rw [← hu, length_append]
    omega
  · rw [← hu, drop_left]

theorem addSuffixes_spec (suffixes : List (List UInt8)) {scores : List (List UInt8 × Option ℤ)}
    (hkeys : (scores.map Prod.fst).Nodup) :
    ((suffixes.foldl addSuffix scores).map Prod.fst).Nodup
      ∧ ∀ p, p ∈ suffixes.foldl addSuffix scores ↔ p ∈ scores ∨ p.2 = none ∧ p.1 ∈ suffixes ∧ p.1 ∉ scores.map Prod.fst := by
  induction suffixes generalizing scores with
  | nil => exact ⟨hkeys, fun p => ⟨inl, fun h => h.elim id fun h => absurd h.2.1 not_mem_nil⟩⟩
  | cons s suffixes ih =>
    rw [foldl_cons]
    by_cases hs : s ∈ scores.map Prod.fst
    · have hadd : addSuffix scores s = scores := by rw [addSuffix, if_pos ((Assoc.lookup_isSome_iff).mpr hs)]
      rw [hadd]
      refine ⟨(ih hkeys).1, fun p => ((ih hkeys).2 p).trans (or_congr_right ?_)⟩
      constructor
      · exact fun ⟨hnone, hmem, hnew⟩ => ⟨hnone, mem_cons_of_mem s hmem, hnew⟩
      · intro ⟨hnone, hmem, hnew⟩
        rcases mem_cons.mp hmem with heq | hmem
        · exact absurd (heq ▸ hs) hnew
        · exact ⟨hnone, hmem, hnew⟩
    · have hadd : addSuffix scores s = put Prod.fst (s, none) scores := by
        rw [addSuffix, if_neg fun h => hs ((Assoc.lookup_isSome_iff).mp h)]
      have hput : ∀ p, p ∈ put Prod.fst (s, none) scores ↔ p = (s, none) ∨ p ∈ scores := by
        intro p
        rw [mem_put_iff (lone_of_nodup hkeys)]
        refine or_congr_right ⟨And.left, fun hp => ⟨hp, fun heq => hs ?_⟩⟩
        rw [← show p.1 = s from heq]
        exact mem_map_of_mem hp
      rw [hadd]
      have hkeys' : ((put Prod.fst (s, none) scores).map Prod.fst).Nodup := nodup_put hkeys
      obtain ⟨hnodup, hmem⟩ := ih hkeys'
      refine ⟨hnodup, fun p => (hmem p).trans ?_⟩
      have hkey : p.1 ∈ (put Prod.fst (s, none) scores).map Prod.fst ↔ p.1 = s ∨ p.1 ∈ scores.map Prod.fst := by
        simp only [mem_map, hput, or_and_right, exists_or, exists_eq_left]
        exact or_congr_left eq_comm
      rw [hput, hkey, mem_cons]
      constructor
      · intro h
        rcases h with (rfl | hp) | ⟨hnone, hin, hnew⟩
        · exact inr ⟨rfl, inl rfl, hs⟩
        · exact inl hp
        · exact inr ⟨hnone, inr hin, fun h => hnew (inr h)⟩
      · intro h
        rcases h with hp | ⟨hnone, heq | hin, hnew⟩
        · exact inl (inr hp)
        · exact inl (inl (Prod.ext heq hnone))
        · by_cases heq : p.1 = s
          · exact inl (inl (Prod.ext heq hnone))
          · exact inr ⟨hnone, hin, fun h => h.elim heq hnew⟩

theorem getElem?_concat_iff {id : ℕ} {t' : PlamoToken} :
    (tokens ++ [t])[id]? = some t' ↔ tokens[id]? = some t' ∨ id = tokens.length ∧ t' = t := by
  rcases Nat.lt_trichotomy id tokens.length with hlt | rfl | hgt
  · rw [getElem?_append_left hlt]
    exact (or_iff_left fun h => absurd h.1 (Nat.ne_of_lt hlt)).symm
  · rw [getElem?_concat_length, getElem?_eq_none (Nat.le_refl _), Option.some.injEq]
    constructor
    · exact fun h => inr ⟨rfl, h.symm⟩
    · intro h
      rcases h with h | ⟨-, h⟩
      · cases h
      · exact h.symm
  · have hlen : (tokens ++ [t]).length ≤ id := by
      rw [length_append, length_singleton]
      omega
    rw [getElem?_eq_none hlen, getElem?_eq_none (Nat.le_of_lt hgt)]
    exact (or_iff_left fun h => absurd h.1 (Nat.ne_of_gt hgt)).symm

theorem IdsOf.concat {ids : List (List UInt8 × ℕ)} (h : IdsOf tokens ids) (hnew : t.text ∉ tokens.map text) :
    IdsOf (tokens ++ [t]) (put Prod.fst (t.text, tokens.length) ids) where
  keys := nodup_put h.keys
  mem := by
    intro id t' hget
    rw [mem_put_iff (lone_of_nodup h.keys)]
    rcases getElem?_concat_iff.mp hget with hget | ⟨rfl, rfl⟩
    · refine inr ⟨h.mem hget, fun heq => hnew ?_⟩
      rw [← show t'.text = t.text from heq]
      exact mem_map_of_mem (mem_of_getElem? hget)
    · exact inl rfl

theorem suff_concat_byte (hbyte : t.byte = true) : Suff (tokens ++ [t]) = Suff tokens := by
  ext w
  refine or_congr_right ⟨fun ⟨t', ht', hbyte', hw⟩ => ?_, fun ⟨t', ht', h⟩ => ⟨t', mem_append_left _ ht', h⟩⟩
  rcases mem_append.mp ht' with ht' | ht'
  · exact ⟨t', ht', hbyte', hw⟩
  · rw [mem_singleton.mp ht', hbyte] at hbyte'
    cases hbyte'

theorem mem_suff_concat {w : List ℕ} (hbyte : t.byte = false) : w ∈ Suff (tokens ++ [t]) ↔ w ∈ Suff tokens ∨ w <:+ t.word := by
  constructor
  · intro h
    rcases h with hnil | ⟨t', ht', hbyte', hw⟩
    · exact inl (inl hnil)
    · rcases mem_append.mp ht' with ht' | ht'
      · exact inl (inr ⟨t', ht', hbyte', hw⟩)
      · rw [mem_singleton.mp ht'] at hw
        exact inr hw
  · intro h
    rcases h with (hnil | ⟨t', ht', h⟩) | hw
    · exact inl hnil
    · exact inr ⟨t', mem_append_left _ ht', h⟩
    · exact inr ⟨t, mem_append_right _ mem_cons_self, hbyte, hw⟩

theorem ScoresOf.byte {scores : List (List UInt8 × Option ℤ)} (h : ScoresOf tokens scores) (hbyte : t.byte = true) :
    ScoresOf (tokens ++ [t]) scores where
  keys := h.keys
  token := by
    intro t' ht' hbyte'
    rcases mem_append.mp ht' with ht' | ht'
    · exact h.token t' ht' hbyte'
    · rw [mem_singleton.mp ht', hbyte] at hbyte'
      cases hbyte'
  suffix := by
    rw [suff_concat_byte hbyte]
    exact h.suffix
  isSuffix := by
    rw [suff_concat_byte hbyte]
    exact h.isSuffix
  isScore p hp := (h.isScore p hp).imp_right fun ⟨t', ht', hp'⟩ => ⟨t', mem_append_left _ ht', hp'⟩

theorem ScoresOf.token_concat {scores : List (List UInt8 × Option ℤ)} (h : ScoresOf tokens scores)
    (hnew : t.text ∉ tokens.map text) (hutf : IsUtf8 t.text) (hne : t.text ≠ []) (hbyte : t.byte = false) :
    ScoresOf (tokens ++ [t]) (((List.range' 1 (t.word.length - 1)).map fun i => enc (t.word.drop i)).foldl addSuffix
      (put Prod.fst (t.text, t.score) scores)) := by
  have hput : ∀ p, p ∈ put Prod.fst (t.text, t.score) scores ↔ p = (t.text, t.score) ∨ p ∈ scores ∧ p.1 ≠ t.text :=
    fun p => mem_put_iff (lone_of_nodup h.keys)
  have hkeys : ((put Prod.fst (t.text, t.score) scores).map Prod.fst).Nodup := nodup_put h.keys
  obtain ⟨hnodup, hmem⟩ := addSuffixes_spec ((List.range' 1 (t.word.length - 1)).map fun i => enc (t.word.drop i)) hkeys
  generalize ((List.range' 1 (t.word.length - 1)).map fun i => enc (t.word.drop i)).foldl addSuffix
    (put Prod.fst (t.text, t.score) scores) = scores' at hnodup hmem ⊢
  have hword : enc t.word = t.text := hutf.enc_cpts
  -- the keys are those of before, the token and its suffixes
  have hkey : ∀ s, s ∈ scores.map Prod.fst ∨ s = t.text ∨ s ∈ ((List.range' 1 (t.word.length - 1)).map fun i => enc (t.word.drop i))
      → s ∈ scores'.map Prod.fst := by
    intro s hs
    by_cases hput' : s ∈ (put Prod.fst (t.text, t.score) scores).map Prod.fst
    · obtain ⟨p, hp, rfl⟩ := mem_map.mp hput'
      exact mem_map_of_mem ((hmem p).mpr (inl hp))
    · have hnone : s ∉ scores.map Prod.fst ∧ s ≠ t.text := by
        constructor
        · intro hin
          obtain ⟨p, hp, rfl⟩ := mem_map.mp hin
          by_cases heq : p.1 = t.text
          · exact hput' (mem_map.mpr ⟨_, (hput _).mpr (inl rfl), heq.symm⟩)
          · exact hput' (mem_map_of_mem ((hput p).mpr (inr ⟨hp, heq⟩)))
        · intro heq
          exact hput' (mem_map.mpr ⟨_, (hput _).mpr (inl rfl), heq.symm⟩)
      have hin := (hs.resolve_left hnone.1).resolve_left hnone.2
      exact mem_map.mpr ⟨(s, none), (hmem _).mpr (inr ⟨rfl, hin, hput'⟩), rfl⟩
  refine ⟨hnodup, ?_, ?_, ?_, ?_⟩
  · intro t' ht' hbyte'
    refine (hmem _).mpr (inl ((hput _).mpr ?_))
    rcases mem_append.mp ht' with ht' | ht'
    · refine inr ⟨h.token t' ht' hbyte', fun heq => hnew ?_⟩
      rw [← show t'.text = t.text from heq]
      exact mem_map_of_mem ht'
    · rw [mem_singleton.mp ht']
      exact inl rfl
  · intro w hw hwne
    rcases (mem_suff_concat hbyte).mp hw with hw | hw
    · exact hkey _ (inl (h.suffix w hw hwne))
    · by_cases heq : w = t.word
      · exact hkey _ (inr (inl (heq ▸ hword)))
      · exact hkey _ (inr (inr (mem_properSuffixes hwne hw heq)))
  · intro p hp
    rcases (hmem p).mp hp with hp | ⟨-, hp, -⟩
    · rcases (hput p).mp hp with rfl | ⟨hp, -⟩
      · refine ⟨t.word, (mem_suff_concat hbyte).mpr (inr suffix_rfl), fun hnil => hne ?_, hword.symm⟩
        rw [← hword, hnil]
        rfl
      · obtain ⟨w, hw, hwne, heq⟩ := h.isSuffix p hp
        exact ⟨w, (mem_suff_concat hbyte).mpr (inl hw), hwne, heq⟩
    · obtain ⟨i, hi, heq⟩ := mem_map.mp hp
      refine ⟨t.word.drop i, (mem_suff_concat hbyte).mpr (inr (drop_suffix i _)), fun hnil => ?_, heq.symm⟩
      have hlen := length_eq_zero_iff.mpr hnil
      have := mem_range'_1.mp hi
      rw [length_drop] at hlen
      omega
  · intro p hp
    rcases (hmem p).mp hp with hp | ⟨hnone, -⟩
    · rcases (hput p).mp hp with rfl | ⟨hp, -⟩
      · exact inr ⟨t, mem_append_right _ mem_cons_self, hbyte, rfl⟩
      · exact (h.isScore p hp).imp_right fun ⟨t', ht', hp'⟩ => ⟨t', mem_append_left _ ht', hp'⟩
    · exact inl hnone

theorem BytesOf.other {bytes : List ℕ} (h : BytesOf tokens bytes) (hother : ∀ b, ¬ ByteToken t b) :
    BytesOf (tokens ++ [t]) bytes where
  length := h.length
  set := by
    intro b id t' hb hid hget htoken
    rcases getElem?_concat_iff.mp hget with hget | ⟨-, rfl⟩
    · exact h.set hb hid hget htoken
    · exact absurd htoken (hother b)
  sound := by
    intro b hb
    obtain ⟨t', hget, htoken⟩ := h.sound hb
    exact ⟨t', getElem?_concat_iff.mpr (inl hget), htoken⟩

theorem ByteToken.unique {b b' : ℕ} (h : ByteToken t b) (h' : ByteToken t b') : b = b' := by
  have heq := Option.some.inj (h.2.2.symm.trans h'.2.2)
  omega

theorem BytesOf.concat {bytes : List ℕ} (h : BytesOf tokens bytes) {b : ℕ} (htoken : ByteToken t b) :
    BytesOf (tokens ++ [t]) (bytes.set b tokens.length) := by
  have hb : b < bytes.length := by
    rw [h.length]
    exact stoi_lt htoken.2.2
  have hget : ∀ b', (bytes.set b tokens.length).getD b' 0 = if b = b' then tokens.length else bytes.getD b' 0 := by
    intro b'
    rw [getD_eq_getElem?_getD, getElem?_set, getD_eq_getElem?_getD]
    by_cases heq : b = b'
    · rw [if_pos heq, if_pos heq, if_pos hb]
      rfl
    · rw [if_neg heq, if_neg heq]
  refine ⟨?_, ?_, ?_⟩
  · rw [length_set, h.length]
  · intro b' id t' hb' hid hget' htoken'
    rw [hget]
    by_cases heq : b = b'
    · -- an earlier token has a smaller number
      rw [if_pos heq]
      rcases getElem?_concat_iff.mp hget' with hget' | ⟨rfl, -⟩
      · obtain ⟨hlt, -⟩ := List.getElem?_eq_some_iff.mp hget'
        omega
      · omega
    · rw [if_neg heq]
      rcases getElem?_concat_iff.mp hget' with hget' | ⟨-, rfl⟩
      · exact h.set hb' hid hget' htoken'
      · exact absurd (htoken.unique htoken') heq
  · intro b' hb'
    rw [hget] at hb' ⊢
    by_cases heq : b = b'
    · rw [if_pos heq]
      exact ⟨t, getElem?_concat_iff.mpr (inr ⟨rfl, rfl⟩), heq ▸ htoken⟩
    · rw [if_neg heq] at hb' ⊢
      obtain ⟨t', hget', htoken'⟩ := h.sound hb'
      exact ⟨t', getElem?_concat_iff.mpr (inl hget'), htoken'⟩

/-- What the first loop has collected of some tokens. -/
structure Collected (tokens : List PlamoToken) (maps : Maps) : Prop where
  ids : IdsOf tokens maps.tokenToId
  scores : ScoresOf tokens maps.suffixToScore
  bytes : BytesOf tokens maps.bytes

theorem Collected.concat (h : Collected tokens maps) (hnew : t.text ∉ tokens.map text) (hutf : IsUtf8 t.text)
    (hne : t.text ≠ []) (hgood : ¬ BadByteToken t) :
    ∃ maps', collectToken maps (t, tokens.length) = .ok maps' ∧ Collected (tokens ++ [t]) maps' := by
  unfold collectToken
  dsimp only
  cases hbyte : t.byte with
  | false =>
    rw [if_neg Bool.noConfusion, properSuffixes_eq hutf]
    refine ⟨_, rfl, h.ids.concat hnew, h.scores.token_concat hnew hutf hne hbyte, h.bytes.other fun b htoken => ?_⟩
    rw [htoken.1] at hbyte
    cases hbyte
  | true =>
    rw [if_pos rfl]
    by_cases hname : isByteName t.text = true
    · rw [if_pos hname]
      have hnumber : ∃ b : ℕ, stoi (t.text.getD 3 0) (t.text.getD 4 0) = some (b : ℤ) := by
        by_contra hnone
        exact hgood ⟨hbyte, hname, not_exists.mp hnone⟩
      obtain ⟨b, hb⟩ := hnumber
      rw [hb]
      dsimp only
      rw [if_pos (Int.natCast_nonneg b), Int.toNat_natCast]
      exact ⟨_, rfl, h.ids.concat hnew, h.scores.byte hbyte, h.bytes.concat ⟨hbyte, hname, hb⟩⟩
    · rw [if_neg hname]
      exact ⟨_, rfl, h.ids.concat hnew, h.scores.byte hbyte, h.bytes.other fun b htoken => hname htoken.2.1⟩

theorem collectToken_bad (hbad : BadByteToken t) (maps : Maps) (id : ℕ) : ∃ e, collectToken maps (t, id) = .error e := by
  obtain ⟨hbyte, hname, hnone⟩ := hbad
  unfold collectToken
  dsimp only
  rw [if_pos hbyte, if_pos hname]
  cases hv : stoi (t.text.getD 3 0) (t.text.getD 4 0) with
  | none => exact ⟨_, rfl⟩
  | some v =>
    dsimp only
    rw [if_neg fun hpos => hnone v.toNat ?_]
    · exact ⟨_, rfl⟩
    · rw [hv, Int.toNat_of_nonneg hpos]

end Collect

def collect (tokens : List PlamoToken) : Except PlamoFault Maps :=
  tokens.zipIdx.foldlM collectToken { bytes := List.replicate 256 0, suffixToScore := [], tokenToId := [] }

theorem collect_concat (tokens : List PlamoToken) (t : PlamoToken) :
    collect (tokens ++ [t]) = (collect tokens).bind fun maps => collectToken maps (t, tokens.length) := by
  rw [collect, zipIdx_append, List.foldlM_append, collect]
  congr 1
  funext maps
  show (collectToken maps (t, 0 + tokens.length)).bind Except.ok = _
  rw [Nat.zero_add]
  cases collectToken maps (t, tokens.length) with
  | ok maps' => rfl
  | error e => rfl

/-- `token_to_id` of distinct texts: every text with its place. -/
theorem collect_ids (tokens : List PlamoToken) {maps : Maps} (hdistinct : (tokens.map text).Nodup)
    (h : collect tokens = .ok maps) : maps.tokenToId = tokens.zipIdx.map fun e => (e.1.text, e.2) := by
  induction tokens using List.reverseRecOn generalizing maps with
  | nil =>
    obtain rfl := Except.ok.inj h
    rfl
  | append_singleton tokens t ih =>
    rw [map_append, map_singleton, nodup_append] at hdistinct
    rw [collect_concat] at h
    cases hmaps : collect tokens with
    | error e =>
      rw [hmaps] at h
      cases h
    | ok maps₀ =>
      rw [hmaps] at h
      have hput : maps.tokenToId = put Prod.fst (t.text, tokens.length) maps₀.tokenToId := by
        replace h : collectToken maps₀ (t, tokens.length) = .ok maps := h
        rw [collectToken] at h
        repeat' split at h
        all_goals first | (obtain rfl := Except.ok.inj h; rfl) | cases h
      have hnew : maps₀.tokenToId.eraseP (fun a => decide (a.1 = t.text)) = maps₀.tokenToId := by
        refine eraseP_of_forall_not fun a ha heq => ?_
        rw [ih hdistinct.1 hmaps, mem_map] at ha
        obtain ⟨e, he, rfl⟩ := ha
        have hin := mem_map_of_mem (f := text) (fst_mem_of_mem_zipIdx he)
        exact hdistinct.2.2 _ hin _ (mem_singleton_self _) (of_decide_eq_true heq)
      rw [hput, put, remove, hnew, ih hdistinct.1 hmaps, zipIdx_append, map_append]
      rw [Nat.zero_add]
      rfl

theorem collected_nil : Collected [] { bytes := List.replicate 256 0, suffixToScore := [], tokenToId := [] } where
  ids := ⟨nodup_nil, fun hget => nomatch hget⟩
  scores := by
    refine ⟨nodup_nil, fun t ht => absurd ht not_mem_nil, ?_, fun p hp => absurd hp not_mem_nil,
      fun p hp => absurd hp not_mem_nil⟩
    intro w hw hne
    rcases hw with hnil | ⟨t, ht, -⟩
    · exact absurd hnil hne
    · exact absurd ht not_mem_nil
  bytes := by
    have hzero : ∀ b, (List.replicate 256 0).getD b 0 = 0 := by
      intro b
      rw [getD_eq_getElem?_getD, getElem?_replicate]
      split
      · rfl
      · rfl
    exact ⟨length_replicate, fun _ _ hget => (nomatch hget), fun {b} hb => absurd (hzero b) hb⟩

/-- **The first loop** throws exactly at a malformed byte token. -/
theorem collect_spec {tokens : List PlamoToken} (hdistinct : (tokens.map text).Nodup)
    (hvalid : ∀ t ∈ tokens, IsUtf8 t.text ∧ t.text ≠ []) :
    ((∀ t ∈ tokens, ¬ BadByteToken t) ∧ ∃ maps, collect tokens = .ok maps ∧ Collected tokens maps)
      ∨ (∃ t ∈ tokens, BadByteToken t) ∧ ∃ e, collect tokens = .error e := by
  induction tokens using List.reverseRecOn with
  | nil => exact inl ⟨fun t ht => absurd ht not_mem_nil, _, rfl, collected_nil⟩
  | append_singleton tokens t ih =>
    rw [map_append, map_singleton] at hdistinct
    obtain ⟨hold, -, hdisjoint⟩ := nodup_append'.mp hdistinct
    have hnew : t.text ∉ tokens.map text := fun hmem => hdisjoint hmem mem_cons_self
    obtain ⟨hutf, hne⟩ := hvalid t (mem_append_right _ mem_cons_self)
    rw [collect_concat]
    rcases ih hold fun t' ht' => hvalid t' (mem_append_left _ ht') with ⟨hgood, maps, hmaps, h⟩ | ⟨⟨t', ht', hbad⟩, e, he⟩
    · rw [hmaps]
      by_cases hbad : BadByteToken t
      · exact inr ⟨⟨t, mem_append_right _ mem_cons_self, hbad⟩, collectToken_bad hbad maps _⟩
      · refine inl ⟨fun t' ht' => ?_, h.concat hnew hutf hne hbad⟩
        rcases mem_append.mp ht' with ht' | ht'
        · exact hgood t' ht'
        · rw [mem_singleton.mp ht']
          exact hbad
    · rw [he]
      exact inr ⟨⟨t', mem_append_left _ ht', hbad⟩, e, rfl⟩

/-! ### The order of the suffixes -/

/-- The suffixes in an order in which a word stands behind its suffixes. -/
structure Ordered (tokens : List PlamoToken) (words : List (List ℕ)) : Prop where
  nodup : words.Nodup
  mem : ∀ w, w ∈ words ↔ w ∈ Suff tokens
  encodable : ∀ w ∈ words, Encodable w
  before : ∀ {l₁ l₂ w r}, words = l₁ ++ w :: l₂ → r <:+ w → r ≠ w → r ∈ l₁

theorem suff_encodable {tokens : List PlamoToken} (hvalid : ∀ t ∈ tokens, IsUtf8 t.text) {w : List ℕ} (hw : w ∈ Suff tokens) :
    Encodable w := by
  rcases hw with rfl | ⟨t, ht, -, hsuffix⟩
  · exact fun _ hc => absurd hc not_mem_nil
  · exact (hvalid t ht).encodable.sublist hsuffix.sublist

/-- **Sorting by reversed strings** puts a word behind its suffixes. -/
theorem sortSuffixes_spec {tokens : List PlamoToken} {scores : List (List UInt8 × Option ℤ)}
    (hvalid : ∀ t ∈ tokens, IsUtf8 t.text) (h : ScoresOf tokens scores) :
    ∃ words, sortSuffixes (scores.map Prod.fst ++ [[]]) = words.map enc ∧ Ordered tokens words := by
  have hperm : (sortSuffixes (scores.map Prod.fst ++ [[]])).Perm (scores.map Prod.fst ++ [[]]) :=
    perm_insertionSort _ _
  have hsorted : (sortSuffixes (scores.map Prod.fst ++ [[]])).Pairwise fun a b => reversed a ≤ reversed b := by
    have htotal : Std.Total fun a b : List UInt8 => reversed a ≤ reversed b := ⟨fun a b => le_total _ _⟩
    have htrans : IsTrans (List UInt8) fun a b => reversed a ≤ reversed b := ⟨fun a b c => le_trans⟩
    unfold sortSuffixes
    exact pairwise_insertionSort (fun a b : List UInt8 => reversed a ≤ reversed b) _
  have hstring : ∀ s, s ∈ scores.map Prod.fst ++ [[]] ↔ ∃ w ∈ Suff tokens, s = enc w := by
    intro s
    rw [mem_append, mem_singleton]
    constructor
    · intro hs
      rcases hs with hs | rfl
      · obtain ⟨p, hp, rfl⟩ := mem_map.mp hs
        obtain ⟨w, hw, -, heq⟩ := h.isSuffix p hp
        exact ⟨w, hw, heq⟩
      · exact ⟨[], inl rfl, rfl⟩
    · intro ⟨w, hw, hs⟩
      by_cases hne : w = []
      · rw [hs, hne]
        exact inr rfl
      · rw [hs]
        exact inl (h.suffix w hw hne)
  have hnodup : (scores.map Prod.fst ++ [[]]).Nodup := by
    refine nodup_append'.mpr ⟨h.keys, nodup_singleton _, fun s hs hnil => ?_⟩
    obtain ⟨p, hp, rfl⟩ := mem_map.mp hs
    obtain ⟨w, hw, hne, heq⟩ := h.isSuffix p hp
    exact hne (enc_eq_nil (suff_encodable hvalid hw) (heq.symm.trans (mem_singleton.mp hnil)))
  have hwords : sortSuffixes (scores.map Prod.fst ++ [[]])
      = ((sortSuffixes (scores.map Prod.fst ++ [[]])).map cptsFromUtf8).map enc := by
    rw [map_map]
    refine (map_id _).symm.trans (map_congr_left fun s hs => ?_)
    obtain ⟨w, hw, rfl⟩ := (hstring s).mp (hperm.mem_iff.mp hs)
    exact congrArg enc (cpts_enc (suff_encodable hvalid hw)).symm
  have hmem : ∀ w, w ∈ (sortSuffixes (scores.map Prod.fst ++ [[]])).map cptsFromUtf8 ↔ w ∈ Suff tokens := by
    intro w
    rw [mem_map]
    constructor
    · intro ⟨s, hs, heq⟩
      obtain ⟨w', hw', rfl⟩ := (hstring s).mp (hperm.mem_iff.mp hs)
      rw [cpts_enc (suff_encodable hvalid hw')] at heq
      exact heq ▸ hw'
    · intro hw
      exact ⟨enc w, hperm.mem_iff.mpr ((hstring _).mpr ⟨w, hw, rfl⟩), cpts_enc (suff_encodable hvalid hw)⟩
  generalize (sortSuffixes (scores.map Prod.fst ++ [[]])).map cptsFromUtf8 = words at hwords hmem
  rw [hwords] at hperm hsorted
  have hencodable : ∀ w ∈ words, Encodable w := fun w hw => suff_encodable hvalid ((hmem w).mp hw)
  refine ⟨words, hwords, List.Nodup.of_map enc (hperm.nodup_iff.mpr hnodup), hmem, hencodable, ?_⟩
  intro l₁ l₂ w r hsplit hsuffix hne
  have hw : w ∈ words := hsplit ▸ mem_append_right _ mem_cons_self
  have hr : r ∈ words := by
    rcases (hmem w).mp hw with rfl | ⟨t, ht, hbyte, hwt⟩
    · exact absurd (suffix_nil.mp hsuffix) hne
    · exact (hmem r).mpr (inr ⟨t, ht, hbyte, hsuffix.trans hwt⟩)
  rw [pairwise_map] at hsorted
  refine mem_before (fun w => reversed (enc w)) hsorted hsplit hr ?_ fun hkey => hne ?_
  · obtain ⟨u, rfl⟩ := hsuffix
    show reversed (enc r) <+: reversed (enc (u ++ r))
    rw [reversed, reversed, enc_append, reverse_append, map_append]
    exact List.prefix_append _ _
  · have hbytes : Function.Injective UInt8.toNat := fun a b => UInt8.toNat_inj.mp
    exact enc_injective (hencodable r hr) (hencodable w hw) (reverse_injective (map_injective_iff.mpr hbytes hkey))

/-! ### The numbers of the rows -/

section Rows

variable {tokens : List PlamoToken} {scores : List (List UInt8 × Option ℤ)} {words l : List (List ℕ)} {w : List ℕ}

def pieces (scores : List (List UInt8 × Option ℤ)) (w : List ℕ) : List Beginning :=
  (List.range' 1 w.length).reverse.filterMap fun l =>
    (lookup Prod.fst (enc (w.take l)) scores).map fun found => ⟨l, enc (w.take l), found.2⟩

theorem beginnings_eq (scores : List (List UInt8 × Option ℤ)) (h : Encodable w) : beginnings scores w = .ok (pieces scores w) := by
  have hpieces : (List.range' 1 w.length).reverse.mapM (fun l => (toUtf8 (w.take l)).map fun piece => (l, piece))
      = .ok ((List.range' 1 w.length).reverse.map fun l => (l, enc (w.take l))) := by
    refine mapM_eq fun l _ => ?_
    rw [toUtf8_eq (h.sublist (take_sublist l w))]
    rfl
  rw [beginnings, hpieces, pieces]
  dsimp only
  rw [filterMap_map]
  rfl

def size (scores : List (List UInt8 × Option ℤ)) (w : List ℕ) : ℕ := 1 + (pieces scores w).length

theorem size_pos (scores : List (List UInt8 × Option ℤ)) (w : List ℕ) : 0 < size scores w := by
  rw [size]
  omega

/-- What the pass that numbers the rows has computed of some words. -/
structure Numbered (scores : List (List UInt8 × Option ℤ)) (l : List (List ℕ)) (numbers : Numbers) : Prop where
  idKeys : (numbers.suffixToId.map Prod.fst).Nodup
  ids : ∀ s k, (s, k) ∈ numbers.suffixToId ↔ ∃ w, s = enc w ∧ Suffixes.StartsAt (size scores) l w k
  nextKeys : (numbers.toSuffixId.map Prod.fst).Nodup
  next : ∀ c k m, ((c, k), m) ∈ numbers.toSuffixId
    ↔ ∃ r, Suffixes.StartsAt (size scores) l r k ∧ Suffixes.StartsAt (size scores) l (c :: r) m
  count : numbers.numPieces = (l.map (size scores)).sum

theorem numbered_nil (scores : List (List UInt8 × Option ℤ)) :
    Numbered scores [] { suffixToId := [], toSuffixId := [], numPieces := 0 } where
  idKeys := nodup_nil
  ids _ _ := ⟨fun h => absurd h not_mem_nil, fun ⟨_, _, h⟩ => absurd h.mem not_mem_nil⟩
  nextKeys := nodup_nil
  next _ _ _ := ⟨fun h => absurd h not_mem_nil, fun ⟨_, h, _⟩ => absurd h.mem not_mem_nil⟩
  count := rfl

theorem Numbered.idOf_eq {numbers : Numbers} {k : ℕ} (h : Numbered scores l numbers)
    (hw : Suffixes.StartsAt (size scores) l w k) : idOf numbers.suffixToId (enc w) = k := by
  have hfind : lookup Prod.fst (enc w) numbers.suffixToId = some (enc w, k) :=
    (lookup_eq_some_iff h.idKeys).mpr ⟨(h.ids _ _).mpr ⟨w, rfl, hw⟩, rfl⟩
  rw [idOf, hfind]
  rfl

theorem Numbered.put_id {numbers : Numbers} (h : Numbered scores l numbers) (hl : ∀ v ∈ l, Encodable v) (hw : Encodable w)
    (hnew : w ∉ l) (s : List UInt8) (k : ℕ) : (s, k) ∈ put Prod.fst (enc w, numbers.numPieces) numbers.suffixToId
      ↔ ∃ v, s = enc v ∧ Suffixes.StartsAt (size scores) (l ++ [w]) v k := by
  rw [mem_put_iff (lone_of_nodup h.idKeys), h.ids]
  constructor
  · intro hin
    rcases hin with heq | ⟨⟨v, rfl, hv⟩, -⟩
    · obtain ⟨rfl, rfl⟩ := Prod.mk.inj heq
      exact ⟨w, rfl, (startsAt_concat_iff hnew).mpr (inr ⟨rfl, h.count⟩)⟩
    · exact ⟨v, rfl, hv.append [w]⟩
  · intro ⟨v, hs, hv⟩
    rcases (startsAt_concat_iff hnew).mp hv with hv | ⟨rfl, rfl⟩
    · refine inr ⟨⟨v, hs, hv⟩, fun heq => hnew ?_⟩
      rw [← enc_injective (hl v hv.mem) hw (hs.symm.trans heq)]
      exact hv.mem
    · exact inl (Prod.ext hs h.count.symm)

theorem Numbered.concat {numbers : Numbers} (h : Numbered scores l numbers) (hl : ∀ v ∈ l, Encodable v) (hnodup : l.Nodup)
    (hw : Encodable w) (hnew : w ∉ l) (hclosed : ∀ v ∈ l, ∀ r, r <:+ v → r ∈ l) (hbefore : ∀ r, r <:+ w → r ≠ w → r ∈ l) :
    ∃ numbers', numberSuffix scores numbers (enc w) = .ok numbers' ∧ Numbered scores (l ++ [w]) numbers' := by
  unfold numberSuffix
  rw [cpts_enc hw]
  have hcount : (l ++ [w]).map (size scores) = l.map (size scores) ++ [size scores w] := by
    rw [map_append, map_singleton]
  cases w with
  | nil =>
    -- no word comes before the empty one
    have hempty : l = [] := by
      cases l with
      | nil => rfl
      | cons v l => exact absurd (hclosed v mem_cons_self [] nil_suffix) hnew
    refine ⟨_, rfl, nodup_put h.idKeys, h.put_id hl hw hnew, h.nextKeys, fun c k m => ?_, ?_⟩
    · rw [h.next]
      subst hempty
      constructor
      · exact fun ⟨r, hr, _⟩ => absurd hr.mem not_mem_nil
      · intro ⟨r, _, hr⟩
        exact absurd (mem_singleton.mp hr.mem) (cons_ne_nil c r)
    · rw [hcount, sum_append, sum_singleton, ← h.count]
      rfl
  | cons c r =>
    have hr : Encodable r := hw.sublist (sublist_cons_self c r)
    have hrl : r ∈ l := hbefore r (suffix_cons c r) fun heq => cons_ne_self c r heq.symm
    obtain ⟨k₀, hk₀⟩ := exists_startsAt (size scores) hrl
    have hput : (put Prod.fst (enc (c :: r), numbers.numPieces) numbers.suffixToId).map Prod.fst |>.Nodup :=
      nodup_put h.idKeys
    have hid : idOf (put Prod.fst (enc (c :: r), numbers.numPieces) numbers.suffixToId) (enc r) = k₀ := by
      have hfind := (lookup_eq_some_iff hput).mpr
        ⟨(h.put_id hl hw hnew _ _).mpr ⟨r, rfl, hk₀.append [c :: r]⟩, rfl⟩
      rw [idOf, hfind]
      rfl
    dsimp only
    rw [toUtf8_eq hr, beginnings_eq scores hw]
    refine ⟨_, rfl, hput, h.put_id hl hw hnew, nodup_put h.nextKeys, fun c' k m => ?_, ?_⟩
    · rw [hid, mem_put_iff (lone_of_nodup h.nextKeys), h.next]
      constructor
      · intro hin
        rcases hin with heq | ⟨⟨r', hr', hm⟩, -⟩
        · obtain ⟨hkey, rfl⟩ := Prod.mk.inj heq
          obtain ⟨rfl, rfl⟩ := Prod.mk.inj hkey
          exact ⟨r, hk₀.append _, (startsAt_concat_iff hnew).mpr (inr ⟨rfl, h.count⟩)⟩
        · exact ⟨r', hr'.append _, hm.append _⟩
      · intro ⟨r', hstart, hgoes⟩
        rcases (startsAt_concat_iff hnew).mp hstart with hr' | ⟨rfl, -⟩
        · rcases (startsAt_concat_iff hnew).mp hgoes with hm | ⟨heq, hm⟩
          · refine inr ⟨⟨r', hr', hm⟩, fun hkey => hnew ?_⟩
            obtain ⟨hc, hk⟩ := Prod.mk.inj (show (c', k) = (c, k₀) from hkey)
            rw [hk] at hr'
            rw [← hr'.injective (size_pos scores) hk₀, ← hc]
            exact hm.mem
          · obtain ⟨hc, hr⟩ := List.cons.inj heq
            rw [hr] at hr'
            rw [hm, hc, hr'.unique hnodup hk₀, h.count]
            exact inl rfl
        · -- nothing in the list goes on with the new word
          rcases (startsAt_concat_iff hnew).mp hgoes with hm | ⟨heq, -⟩
          · exact absurd (hclosed _ hm.mem _ (suffix_cons c' (c :: r))) hnew
          · exact absurd heq (cons_ne_self c' (c :: r))
    · rw [hcount, sum_append, sum_singleton, ← h.count, size]

theorem Ordered.closed (h : Ordered tokens words) {l' : List (List ℕ)} (hl : words = l ++ l') {v : List ℕ} (hv : v ∈ l)
    {r : List ℕ} (hr : r <:+ v) : r ∈ l := by
  by_cases heq : r = v
  · exact heq ▸ hv
  · obtain ⟨a, b, rfl⟩ := append_of_mem hv
    rw [append_assoc] at hl
    exact mem_append_left _ (h.before hl hr heq)

theorem number_spec (scores : List (List UInt8 × Option ℤ)) (h : Ordered tokens words) : ∃ numbers,
    (words.map enc).foldlM (numberSuffix scores) { suffixToId := [], toSuffixId := [], numPieces := 0 } = .ok numbers
      ∧ Numbered scores words numbers := by
  have hrun : ∀ (l' l : List (List ℕ)) (numbers : Numbers), words = l ++ l' → Numbered scores l numbers →
      ∃ numbers', (l'.map enc).foldlM (numberSuffix scores) numbers = .ok numbers' ∧ Numbered scores words numbers' := by
    intro l'
    induction l' with
    | nil =>
      intro l numbers hl hnum
      rw [append_nil] at hl
      exact ⟨numbers, rfl, hl ▸ hnum⟩
    | cons w l' ih =>
      intro l numbers hl hnum
      have hnodup := h.nodup
      rw [hl] at hnodup
      obtain ⟨hnl, -, hdisjoint⟩ := nodup_append'.mp hnodup
      have hmem : ∀ v, v ∈ l → v ∈ words := fun v hv => hl ▸ mem_append_left _ hv
      have hw : w ∈ words := hl ▸ mem_append_right _ mem_cons_self
      obtain ⟨numbers', hstep, hnum'⟩ := hnum.concat (fun v hv => h.encodable v (hmem v hv)) hnl (h.encodable w hw)
        (fun hin => hdisjoint hin mem_cons_self) (fun v hv r hr => h.closed hl hv hr) fun r hr hne => h.before hl hr hne
      obtain ⟨numbers'', hrest, hnum''⟩ := ih (l ++ [w]) numbers' (by rw [hl, append_assoc]; rfl) hnum'
      refine ⟨numbers'', ?_, hnum''⟩
      rw [map_cons, foldlM_cons, hstep]
      exact hrest
  exact hrun words [] _ rfl (numbered_nil scores)

def rows (scores : List (List UInt8 × Option ℤ)) (tokenToId suffixToId : List (List UInt8 × ℕ)) (w : List ℕ) : List Row :=
  (pieces scores w).map (rowOf tokenToId suffixToId) ++ [sentinel]

theorem length_rows (scores : List (List UInt8 × Option ℤ)) (tokenToId suffixToId : List (List UInt8 × ℕ)) (w : List ℕ) :
    (rows scores tokenToId suffixToId w).length = size scores w := by
  rw [rows, length_append, length_map, length_singleton, size, Nat.add_comm]

theorem rowsOf_eq (tokenToId suffixToId : List (List UInt8 × ℕ)) (hl : ∀ w ∈ words, Encodable w) :
    (words.map enc).mapM (rowsOf scores tokenToId suffixToId) = .ok (words.map (rows scores tokenToId suffixToId)) := by
  have heach : ∀ s ∈ words.map enc, rowsOf scores tokenToId suffixToId s
      = .ok (rows scores tokenToId suffixToId (cptsFromUtf8 s)) := by
    intro s hs
    obtain ⟨w, hw, rfl⟩ := mem_map.mp hs
    rw [rowsOf, cpts_enc (hl w hw), beginnings_eq scores (hl w hw)]
    rfl
  rw [mapM_eq heach, map_map]
  refine congrArg Except.ok (map_congr_left fun w hw => ?_)
  show rows _ _ _ (cptsFromUtf8 (enc w)) = _
  rw [cpts_enc (hl w hw)]

theorem mem_pieces_iff {b : Beginning} (h : ScoresOf tokens scores) :
    b ∈ pieces scores w ↔ 1 ≤ b.length ∧ b.length ≤ w.length ∧ b.text = enc (w.take b.length) ∧ (b.text, b.score) ∈ scores := by
  rw [pieces, mem_filterMap]
  constructor
  · intro ⟨l, hl, hfound⟩
    rw [mem_reverse, mem_range'_1] at hl
    obtain ⟨p, hp, rfl⟩ := Option.map_eq_some_iff.mp hfound
    obtain ⟨hin, hkey⟩ := (lookup_eq_some_iff h.keys).mp hp
    have hle : l ≤ w.length := by omega
    exact ⟨hl.1, hle, rfl, hkey ▸ hin⟩
  · intro ⟨hpos, hle, htext, hin⟩
    refine ⟨b.length, mem_reverse.mpr (mem_range'_1.mpr ⟨hpos, by omega⟩), ?_⟩
    rw [← htext, (lookup_eq_some_iff h.keys).mpr ⟨hin, rfl⟩]
    rfl

end Rows

/-! ### The automaton -/

/-- The row of a word: a token that is no byte token, or nothing that can be used. -/
structure RowOf (tokens : List PlamoToken) (start : List ℕ → ℕ → Prop) (p : List ℕ) (row : Row) : Prop where
  length : row.pieceLength = p.length
  id : start p row.pieceId
  token : (∃ (id : ℕ) (t : PlamoToken), tokens[id]? = some t ∧ t.byte = false ∧ t.word = p ∧ row.tokenId = (id : ℤ)
      ∧ row.score = t.score.getD invalidScore)
    ∨ row.score = invalidScore ∧ ∀ t ∈ tokens, t.byte = false → t.word ≠ p

/-- The rows of a word: those of its beginnings that are suffixes of tokens, the longest one first, and the sentinel. -/
structure RowsOf (tokens : List PlamoToken) (start : List ℕ → ℕ → Prop) (w : List ℕ) (table : List Row) (ps : List (List ℕ))
    (rs : List Row) : Prop where
  begins : rs ++ [sentinel] <+: table
  each : List.Forall₂ (RowOf tokens start) ps rs
  mem : ∀ p, p ∈ ps ↔ p ≠ [] ∧ p <+: w ∧ p ∈ Suff tokens
  sorted : ps.Pairwise fun a b => b.length < a.length

/-- The tables as an automaton: `start` says at which row a suffix starts. -/
structure Automaton (tokens : List PlamoToken) (start : List ℕ → ℕ → Prop) (tables : Tables) : Prop where
  startNil : start [] 0
  startPos : ∀ {w k}, start w k → w ≠ [] → 0 < k
  next : ∀ {c r k}, start r k → ∀ m, lookup Prod.fst (c, k) tables.toSuffixId = some ((c, k), m) ↔ start (c :: r) m
  exists_start : ∀ {w}, w ∈ Suff tokens → ∃ k, start w k
  mem : ∀ {w k}, start w k → w ∈ Suff tokens
  rows : ∀ {w k}, start w k → ∃ ps rs, RowsOf tokens start w (tables.table.drop k) ps rs
  bytes : BytesOf tokens tables.bytes
  bytesSet : ∀ b < 256, tables.bytes.getD b 0 ≠ 0

def suffixWords (tokens : List PlamoToken) : List (List ℕ) :=
  ([] :: (tokens.filter fun t => !t.byte).flatMap fun t => t.word.tails).dedup

/-- The number of rows: every suffix has one for each of its beginnings that is a suffix of a token, and one more. -/
def rowCount (tokens : List PlamoToken) : ℕ :=
  ((suffixWords tokens).map fun w => 1 + (List.range' 1 w.length).countP fun l => w.take l ∈ suffixWords tokens).sum

/-- **What `build` needs** of a vocabulary. -/
structure Buildable (tokens : List PlamoToken) : Prop where
  bytes : BytesSet tokens
  rows : rowCount tokens < 2 ^ 31
  scores : ScoresFit tokens

theorem mem_suffixWords {tokens : List PlamoToken} {w : List ℕ} : w ∈ suffixWords tokens ↔ w ∈ Suff tokens := by
  rw [suffixWords, mem_dedup, mem_cons, mem_flatMap]
  refine or_congr_right (exists_congr fun t => ?_)
  rw [mem_filter, mem_tails, Bool.not_eq_true', and_assoc]

section Build

variable {tokens : List PlamoToken} {maps : Maps} {words : List (List ℕ)} {numbers : Numbers}

theorem ScoresOf.mem_keys_iff {scores : List (List UInt8 × Option ℤ)} (hvalid : ∀ t ∈ tokens, IsUtf8 t.text)
    (h : ScoresOf tokens scores) {w : List ℕ} (hw : Encodable w) (hne : w ≠ []) :
    enc w ∈ scores.map Prod.fst ↔ w ∈ Suff tokens := by
  constructor
  · intro hin
    obtain ⟨p, hp, heq⟩ := mem_map.mp hin
    obtain ⟨w', hw', -, heq'⟩ := h.isSuffix p hp
    rw [enc_injective hw (suff_encodable hvalid hw') (heq.symm.trans heq')]
    exact hw'
  · exact fun hin => h.suffix w hin hne

theorem size_eq {scores : List (List UInt8 × Option ℤ)} (hvalid : ∀ t ∈ tokens, IsUtf8 t.text) (h : ScoresOf tokens scores)
    {w : List ℕ} (hw : Encodable w) :
    size scores w = 1 + (List.range' 1 w.length).countP fun l => w.take l ∈ suffixWords tokens := by
  rw [size, pieces, length_filterMap_eq_countP, countP_reverse]
  refine congrArg (1 + ·) (countP_congr fun l hl => ?_)
  have hne : w.take l ≠ [] := by
    have hpos := mem_range'_1.mp hl
    refine ne_nil_of_length_pos ?_
    rw [length_take]
    omega
  rw [Option.isSome_map, Assoc.lookup_isSome_iff, decide_eq_true_iff, mem_suffixWords,
    h.mem_keys_iff hvalid (hw.sublist (take_sublist l w)) hne]

theorem sum_size_eq {scores : List (List UInt8 × Option ℤ)} (hvalid : ∀ t ∈ tokens, IsUtf8 t.text) (h : ScoresOf tokens scores)
    (hwords : Ordered tokens words) : (words.map (size scores)).sum = rowCount tokens := by
  have hperm : words.Perm (suffixWords tokens) := by
    have hnodup : (suffixWords tokens).Nodup := nodup_dedup _
    refine (perm_ext_iff_of_nodup hwords.nodup hnodup).mpr fun w => ?_
    rw [hwords.mem, mem_suffixWords]
  rw [rowCount, map_congr_left fun w hw => size_eq hvalid h (hwords.encodable w hw)]
  exact (hperm.map _).sum_eq

theorem rowOf_spec (hvalid : ∀ t ∈ tokens, IsUtf8 t.text) (hids : IdsOf tokens maps.tokenToId)
    (hscores : ScoresOf tokens maps.suffixToScore) (hwords : Ordered tokens words)
    (hnum : Numbered maps.suffixToScore words numbers) {w : List ℕ} (hw : Encodable w) {b : Beginning}
    (hb : b ∈ pieces maps.suffixToScore w) :
    RowOf tokens (Suffixes.StartsAt (size maps.suffixToScore) words) (w.take b.length)
      (rowOf maps.tokenToId numbers.suffixToId b) := by
  obtain ⟨hpos, hle, htext, hin⟩ := (mem_pieces_iff hscores).mp hb
  have hp : Encodable (w.take b.length) := hw.sublist (take_sublist _ w)
  have hne : w.take b.length ≠ [] := by
    refine ne_nil_of_length_pos ?_
    rw [length_take]
    omega
  have hsuff : w.take b.length ∈ Suff tokens :=
    (hscores.mem_keys_iff hvalid hp hne).mp (htext ▸ mem_map_of_mem hin)
  obtain ⟨k, hk⟩ := exists_startsAt (size maps.suffixToScore) ((hwords.mem _).mpr hsuff)
  refine ⟨?_, ?_, ?_⟩
  · show b.length = _
    rw [length_take, Nat.min_eq_left hle]
  · show Suffixes.StartsAt _ _ _ (idOf numbers.suffixToId b.text)
    rw [htext, hnum.idOf_eq hk]
    exact hk
  · by_cases htoken : ∃ t ∈ tokens, t.byte = false ∧ t.word = w.take b.length
    · obtain ⟨t, ht, hbyte, hword⟩ := htoken
      obtain ⟨id, hget⟩ := getElem?_of_mem ht
      have htext' : t.text = b.text := by rw [htext, ← hword, word, (hvalid t ht).enc_cpts]
      have hscore : t.score = b.score := by
        have heq := inj_on_of_nodup_map hscores.keys (hscores.token t ht hbyte) hin htext'
        exact (Prod.mk.inj heq).2
      have hid : lookup Prod.fst b.text maps.tokenToId = some (t.text, id) :=
        (lookup_eq_some_iff hids.keys).mpr ⟨hids.mem hget, htext'⟩
      refine inl ⟨id, t, hget, hbyte, hword, ?_, ?_⟩
      · rw [rowOf, hid]
      · rw [hscore]
        rfl
    · have hnone : ∀ t ∈ tokens, t.byte = false → t.word ≠ w.take b.length := fun t ht hbyte hword =>
        htoken ⟨t, ht, hbyte, hword⟩
      refine inr ⟨?_, hnone⟩
      rcases hscores.isScore _ hin with hnan | ⟨t, ht, hbyte, heq⟩
      · show b.score.getD invalidScore = invalidScore
        rw [show b.score = none from hnan]
        rfl
      · refine absurd ?_ (hnone t ht hbyte)
        rw [word, ← (Prod.mk.inj heq).1, htext, cpts_enc hp]

theorem rows_spec (hvalid : ∀ t ∈ tokens, IsUtf8 t.text) (hids : IdsOf tokens maps.tokenToId)
    (hscores : ScoresOf tokens maps.suffixToScore) (hwords : Ordered tokens words)
    (hnum : Numbered maps.suffixToScore words numbers) {w : List ℕ} (hw : Encodable w) {table : List Row}
    (htable : rows maps.suffixToScore maps.tokenToId numbers.suffixToId w <+: table) :
    RowsOf tokens (Suffixes.StartsAt (size maps.suffixToScore) words) w table
      ((pieces maps.suffixToScore w).map fun b => w.take b.length)
      ((pieces maps.suffixToScore w).map (rowOf maps.tokenToId numbers.suffixToId)) := by
  refine ⟨htable, ?_, ?_, ?_⟩
  · rw [forall₂_map_left_iff, forall₂_map_right_iff, forall₂_same]
    exact fun b hb => rowOf_spec hvalid hids hscores hwords hnum hw hb
  · intro p
    rw [mem_map]
    constructor
    · intro ⟨b, hb, hp⟩
      obtain ⟨hpos, hle, htext, hin⟩ := (mem_pieces_iff hscores).mp hb
      have hne : w.take b.length ≠ [] := by
        refine ne_nil_of_length_pos ?_
        rw [length_take]
        omega
      refine ⟨hp ▸ hne, hp ▸ List.take_prefix _ _, ?_⟩
      rw [← hp]
      exact (hscores.mem_keys_iff hvalid (hw.sublist (take_sublist _ w)) hne).mp (htext ▸ mem_map_of_mem hin)
    · intro ⟨hne, hbegins, hsuff⟩
      obtain ⟨e, he, hkey⟩ := mem_map.mp (hscores.suffix p hsuff hne)
      have htake : w.take p.length = p := (List.prefix_iff_eq_take.mp hbegins).symm
      refine ⟨⟨p.length, enc p, e.2⟩, (mem_pieces_iff hscores).mpr ⟨?_, hbegins.length_le, ?_, ?_⟩, htake⟩
      · exact length_pos_iff.mpr hne
      · rw [htake]
      · rw [← hkey]
        exact he
  · rw [pairwise_map, pieces, pairwise_filterMap]
    have hdecreasing : (List.range' 1 w.length).reverse.Pairwise fun a b => b < a ∧ b ≤ w.length ∧ a ≤ w.length := by
      rw [pairwise_reverse]
      refine (pairwise_lt_range' 1).imp_of_mem fun {a b} ha hb hlt => ?_
      rw [mem_range'_1] at ha hb
      omega
    refine hdecreasing.imp fun {a b} ⟨hlt, hb, ha⟩ x hx y hy => ?_
    obtain ⟨_, -, rfl⟩ := Option.map_eq_some_iff.mp hx
    obtain ⟨_, -, rfl⟩ := Option.map_eq_some_iff.mp hy
    show (w.take b).length < (w.take a).length
    rw [length_take, length_take]
    omega

theorem BytesOf.all_iff (h : BytesOf tokens maps.bytes) :
    (maps.bytes.all fun id => id ≠ 0) = true ↔ ∀ b < 256, ∃ id t, 0 < id ∧ tokens[id]? = some t ∧ ByteToken t b := by
  rw [all_eq_true]
  constructor
  · intro hall b hb
    have hlt : b < maps.bytes.length := by rw [h.length]; exact hb
    have hne : maps.bytes.getD b 0 ≠ 0 := by
      rw [getD_eq_getElem _ _ hlt]
      exact of_decide_eq_true (hall _ (getElem_mem hlt))
    obtain ⟨t, hget, htoken⟩ := h.sound hne
    exact ⟨_, t, Nat.pos_of_ne_zero hne, hget, htoken⟩
  · intro hall x hx
    obtain ⟨b, hb, rfl⟩ := mem_iff_getElem.mp hx
    obtain ⟨id, t, hpos, hget, htoken⟩ := hall b (h.length ▸ hb)
    have hne := h.set (h.length ▸ hb) hpos hget htoken
    rw [getD_eq_getElem _ _ hb] at hne
    exact decide_eq_true hne

theorem ScoresOf.fit_iff {scores : List (List UInt8 × Option ℤ)} (h : ScoresOf tokens scores) :
    scoresFit scores = true ↔ ScoresFit tokens := by
  rw [scoresFit, all_eq_true]
  constructor
  · intro hall t ht hbyte k hk
    have hfit := hall _ (h.token t ht hbyte)
    rw [Option.mem_def.mp hk] at hfit
    exact of_decide_eq_true hfit
  · intro hfit p hp
    rcases h.isScore p hp with hnone | ⟨t, ht, hbyte, rfl⟩
    · rw [hnone]
      rfl
    · cases hscore : t.score with
      | none => rfl
      | some k => exact decide_eq_true (hfit t ht hbyte k hscore)

theorem build_eq (tokens : List PlamoToken) : build tokens = (collect tokens).bind fun maps =>
    (ensure (maps.bytes.all fun id => id ≠ 0) .notSet).bind fun _ =>
      ((sortSuffixes (maps.suffixToScore.map Prod.fst ++ [[]])).foldlM (numberSuffix maps.suffixToScore)
        { suffixToId := [], toSuffixId := [], numPieces := 0 }).bind fun numbers =>
        (ensure (decide (numbers.numPieces < 2 ^ 31)) .overflow).bind fun _ =>
          (ensure (scoresFit maps.suffixToScore) .overflow).bind fun _ =>
            ((sortSuffixes (maps.suffixToScore.map Prod.fst ++ [[]])).mapM
              (rowsOf maps.suffixToScore maps.tokenToId numbers.suffixToId)).bind fun rows =>
              (fillTable numbers.numPieces rows.flatten).bind fun table =>
                .ok { bytes := maps.bytes, toSuffixId := numbers.toSuffixId, table := table } := rfl

theorem automaton_of (hvalid : ∀ t ∈ tokens, IsUtf8 t.text) (h : Collected tokens maps) (hwords : Ordered tokens words)
    (hnum : Numbered maps.suffixToScore words numbers) (hset : ∀ b < 256, maps.bytes.getD b 0 ≠ 0) :
    Automaton tokens (Suffixes.StartsAt (size maps.suffixToScore) words) {
      bytes := maps.bytes
      toSuffixId := numbers.toSuffixId
      table := words.flatMap (rows maps.suffixToScore maps.tokenToId numbers.suffixToId) } where
  startNil := by
    obtain ⟨l₁, l₂, hsplit⟩ := append_of_mem ((hwords.mem []).mpr (inl rfl))
    refine ⟨l₁, l₂, hsplit, ?_⟩
    -- nothing stands before the empty word
    cases l₁ with
    | nil => rfl
    | cons v l₁ =>
      have hnodup := hwords.nodup
      rw [hsplit] at hnodup
      have hne : ([] : List ℕ) ≠ v := fun heq =>
        (nodup_cons.mp hnodup).1 (heq ▸ mem_append_right _ mem_cons_self)
      have hbefore : [] ∈ ([] : List (List ℕ)) := hwords.before hsplit nil_suffix hne
      exact absurd hbefore not_mem_nil
  startPos := by
    intro w k hstart hne
    obtain ⟨l₁, l₂, hsplit, rfl⟩ := hstart
    have hnil : [] ∈ l₁ := hwords.before hsplit nil_suffix hne.symm
    obtain ⟨a, b, rfl⟩ := append_of_mem hnil
    rw [map_append, sum_append, map_cons, sum_cons]
    have := size_pos maps.suffixToScore []
    omega
  next := by
    intro c r k hstart m
    rw [lookup_eq_some_iff hnum.nextKeys, hnum.next]
    constructor
    · intro ⟨⟨r', hr', hm⟩, _⟩
      rw [← hr'.injective (size_pos maps.suffixToScore) hstart]
      exact hm
    · exact fun hm => ⟨⟨r, hstart, hm⟩, rfl⟩
  exists_start hw := exists_startsAt _ ((hwords.mem _).mpr hw)
  mem hstart := (hwords.mem _).mp hstart.mem
  rows := by
    intro w k hstart
    obtain ⟨rest, hrest⟩ := hstart.drop (fun v _ => length_rows maps.suffixToScore maps.tokenToId numbers.suffixToId v) []
    rw [append_nil] at hrest
    refine ⟨_, _, rows_spec hvalid h.ids h.scores hwords hnum (hwords.encodable w hstart.mem) ?_⟩
    exact ⟨rest, hrest.symm⟩
  bytes := h.bytes
  bytesSet := hset

/-- **The tables are an automaton** when every byte has a token behind the first one, the rows can be numbered and the
scores fit. -/
theorem build_spec (V : PlamoVocab) (hbuild : Buildable V.tokens) :
    ∃ start tables, build V.tokens = .ok tables ∧ Automaton V.tokens start tables := by
  rcases collect_spec V.distinct fun t ht => ⟨V.valid t ht, V.nonempty t ht⟩ with ⟨-, maps, hmaps, h⟩ | ⟨⟨t, ht, hbad⟩, -⟩
  · obtain ⟨words, hsort, hwords⟩ := sortSuffixes_spec V.valid h.scores
    obtain ⟨numbers, hnumbers, hnum⟩ := number_spec maps.suffixToScore hwords
    have hall := h.bytes.all_iff.mpr hbuild.bytes.2
    have hcount : numbers.numPieces < 2 ^ 31 := by
      rw [hnum.count, sum_size_eq V.valid h.scores hwords]
      exact hbuild.rows
    have hfit := h.scores.fit_iff.mpr hbuild.scores
    have hfill : fillTable numbers.numPieces
        (words.map (rows maps.suffixToScore maps.tokenToId numbers.suffixToId)).flatten
        = .ok (words.flatMap (rows maps.suffixToScore maps.tokenToId numbers.suffixToId)) := by
      have hlen : (words.flatMap (rows maps.suffixToScore maps.tokenToId numbers.suffixToId)).length = numbers.numPieces := by
        rw [hnum.count, length_flatMap]
        exact congrArg List.sum (map_congr_left fun w _ => length_rows _ _ _ w)
      rw [← flatMap_def, fillTable, hlen, if_neg (Nat.lt_irrefl _), Nat.sub_self, replicate_zero, append_nil]
    refine ⟨_, _, ?_, automaton_of V.valid h hwords hnum fun b hb => ?_⟩
    · rw [build_eq, hmaps]
      show (ensure (maps.bytes.all fun id => id ≠ 0) .notSet).bind _ = _
      rw [hall, hsort, hnumbers]
      show (ensure (decide (numbers.numPieces < 2 ^ 31)) .overflow).bind _ = _
      rw [decide_eq_true hcount]
      show (ensure (scoresFit maps.suffixToScore) .overflow).bind _ = _
      rw [hfit, rowsOf_eq _ _ hwords.encodable]
      show (fillTable numbers.numPieces _).bind _ = _
      rw [hfill]
      rfl
    · obtain ⟨id, t, hpos, hget, htoken⟩ := hbuild.bytes.2 b hb
      exact h.bytes.set hb hpos hget htoken
  · exact absurd hbad (hbuild.bytes.1 t ht)

theorem build_throws (V : PlamoVocab) (hnot : ¬ Buildable V.tokens) :
    ∃ e, build V.tokens = .error e := by
  rcases collect_spec V.distinct fun t ht => ⟨V.valid t ht, V.nonempty t ht⟩ with ⟨hgood, maps, hmaps, h⟩ | ⟨-, e, he⟩
  · obtain ⟨words, hsort, hwords⟩ := sortSuffixes_spec V.valid h.scores
    obtain ⟨numbers, hnumbers, hnum⟩ := number_spec maps.suffixToScore hwords
    rw [build_eq, hmaps]
    show ∃ e, (ensure (maps.bytes.all fun id => id ≠ 0) .notSet).bind _ = .error e
    rw [hsort]
    cases hall : maps.bytes.all fun id => id ≠ 0 with
    | false => exact ⟨_, rfl⟩
    | true =>
      rw [hnumbers]
      show ∃ e, (ensure (decide (numbers.numPieces < 2 ^ 31)) .overflow).bind _ = .error e
      by_cases hcount : numbers.numPieces < 2 ^ 31
      swap
      · rw [decide_eq_false hcount]
        exact ⟨_, rfl⟩
      rw [decide_eq_true hcount]
      show ∃ e, (ensure (scoresFit maps.suffixToScore) .overflow).bind _ = .error e
      cases hfit : scoresFit maps.suffixToScore with
      | false => exact ⟨_, rfl⟩
      | true =>
        rw [hnum.count, sum_size_eq V.valid h.scores hwords] at hcount
        exact absurd ⟨⟨hgood, h.bytes.all_iff.mp hall⟩, hcount, h.scores.fit_iff.mp hfit⟩ hnot
  · rw [build_eq, he]
    exact ⟨_, rfl⟩

end Build

end Tokenizer.Plamo
