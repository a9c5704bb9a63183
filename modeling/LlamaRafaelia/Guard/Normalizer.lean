import LlamaRafaelia.Lib.Words
import Mathlib.Data.List.Find
import Mathlib.Algebra.Group.Nat.Defs
import Mathlib.Data.List.Infix

/-!
# The synonym normaliser

Texts are byte strings, whether or not they are UTF-8.  `normalize_ascii` lowers ASCII letters, replaces the accented
letters of a table by plain ones and drops every other byte above `0x7F`; `tokenize_simple` cuts the result into
words; `normalize_token` replaces a word by its canonical synonym.

* `normalizeAscii_append` - **an ASCII byte cuts**: no key of the table reaches across it.
-/

namespace SmartGuard

open List Words

/-! ### The functions of the source -/

def ascii (s : String) : List UInt8 := s.toList.map fun c => UInt8.ofNat c.toNat

/-- `std::tolower` on ASCII. -/
def tolower (c : UInt8) : UInt8 := if 0x41 ≤ c ∧ c ≤ 0x5A then c + 0x20 else c

/-- `std::isalnum` in the "C" locale. -/
def isalnum (c : UInt8) : Bool :=
  decide ((0x30 ≤ c ∧ c ≤ 0x39) ∨ (0x41 ≤ c ∧ c ≤ 0x5A) ∨ (0x61 ≤ c ∧ c ≤ 0x7A))

/-- `map` of `normalize_ascii`: the UTF-8 spelling of an accented letter, and the plain letter. -/
def accentMap : List (List UInt8 × Char) :=
  [
    ([0xC3, 0xA1], 'a'), ([0xC3, 0xA0], 'a'), ([0xC3, 0xA2], 'a'), ([0xC3, 0xA3], 'a'), ([0xC3, 0xA4], 'a'),
    ([0xC3, 0x81], 'a'), ([0xC3, 0x80], 'a'), ([0xC3, 0x82], 'a'), ([0xC3, 0x83], 'a'), ([0xC3, 0x84], 'a'),
    ([0xC3, 0xA9], 'e'), ([0xC3, 0xAA], 'e'), ([0xC3, 0xA8], 'e'), ([0xC3, 0xAB], 'e'),
    ([0xC3, 0x89], 'e'), ([0xC3, 0x8A], 'e'), ([0xC3, 0x88], 'e'), ([0xC3, 0x8B], 'e'),
    ([0xC3, 0xAD], 'i'), ([0xC3, 0xAE], 'i'), ([0xC3, 0xAC], 'i'), ([0xC3, 0xAF], 'i'),
    ([0xC3, 0x8D], 'i'), ([0xC3, 0x8E], 'i'), ([0xC3, 0x8C], 'i'), ([0xC3, 0x8F], 'i'),
    ([0xC3, 0xB3], 'o'), ([0xC3, 0xB4], 'o'), ([0xC3, 0xB2], 'o'), ([0xC3, 0xB5], 'o'), ([0xC3, 0xB6], 'o'),
    ([0xC3, 0x93], 'o'), ([0xC3, 0x94], 'o'), ([0xC3, 0x92], 'o'), ([0xC3, 0x95], 'o'), ([0xC3, 0x96], 'o'),
    ([0xC3, 0xBA], 'u'), ([0xC3, 0xBB], 'u'), ([0xC3, 0xB9], 'u'), ([0xC3, 0xBC], 'u'),
    ([0xC3, 0x9A], 'u'), ([0xC3, 0x9B], 'u'), ([0xC3, 0x99], 'u'), ([0xC3, 0x9C], 'u'),
    ([0xC3, 0xA7], 'c'), ([0xC3, 0x87], 'c')
  ]

/-- The loop of `normalize_ascii`; `skip` is what is left to pass of a key that was matched. -/
def normalizeAsciiFrom : ℕ → List UInt8 → List UInt8
  | _, [] => []
  | skip + 1, _ :: rest => normalizeAsciiFrom skip rest
  | 0, c :: rest =>
    if c < 0x80 then tolower c :: normalizeAsciiFrom 0 rest
    else
      match accentMap.find? fun entry => entry.1.isPrefixOf (c :: rest) with
      | some entry => UInt8.ofNat entry.2.toNat :: normalizeAsciiFrom (entry.1.length - 1) rest
      | none => normalizeAsciiFrom 0 rest

/-- `normalize_ascii`. -/
def normalizeAscii (input : List UInt8) : List UInt8 := normalizeAsciiFrom 0 input

/-- `synonym_table`. -/
def synonymTable : List (List UInt8 × List UInt8) :=
  [("toranja", "grapefruit"), ("pomelo", "grapefruit"), ("grapefruit", "grapefruit"),
    ("gergelim", "sesame"), ("sesame", "sesame"), ("sesamo", "sesame")].map fun row => (ascii row.1, ascii row.2)

/-- `tokenize_simple`. -/
def tokenizeSimple (text : List UInt8) : List (List UInt8) := split isalnum [] text

/-- `normalize_token`. -/
def normalizeToken (token : List UInt8) : List UInt8 :=
  let normalized := normalizeAscii token
  match synonymTable.lookup normalized with
  | some canonical => canonical
  | none => normalized

/-- `normalize_text`. -/
def normalizeText (text : List UInt8) : List UInt8 :=
  join 0x20 ((tokenizeSimple (normalizeAscii text)).map normalizeToken)

/-! ### Cutting at an ASCII byte -/

theorem accentMap_key {entry : List UInt8 × Char} (h : entry ∈ accentMap) :
    ∃ b b', entry.1 = [b, b'] ∧ ¬ b' < 0x80 := by
  have hall : ∀ entry ∈ accentMap, entry.1.length = 2 ∧ (entry.1.tail.all fun b => ¬ b < 0x80) = true := by
    decide +kernel
  obtain ⟨hlen, htail⟩ := hall entry h
  obtain ⟨b, b', hkey⟩ := length_eq_two.mp hlen
  exact ⟨b, b', hkey, of_decide_eq_true (all_eq_true.mp htail b' (by rw [hkey]; simp))⟩

theorem normalizeAsciiFrom_ascii {c : UInt8} (hc : c < 0x80) (rest : List UInt8) :
    normalizeAsciiFrom 0 (c :: rest) = tolower c :: normalizeAsciiFrom 0 rest := by
  rw [normalizeAsciiFrom, if_pos hc]

theorem normalizeAsciiFrom_key {c : UInt8} {rest : List UInt8} (hc : ¬ c < 0x80) {entry : List UInt8 × Char}
    (h : (accentMap.find? fun entry => entry.1.isPrefixOf (c :: rest)) = some entry) :
    normalizeAsciiFrom 0 (c :: rest) =
      UInt8.ofNat entry.2.toNat :: normalizeAsciiFrom (entry.1.length - 1) rest := by
  rw [normalizeAsciiFrom, if_neg hc, h]

theorem normalizeAsciiFrom_dropped {c : UInt8} {rest : List UInt8} (hc : ¬ c < 0x80)
    (h : (accentMap.find? fun entry => entry.1.isPrefixOf (c :: rest)) = none) :
    normalizeAsciiFrom 0 (c :: rest) = normalizeAsciiFrom 0 rest := by
  rw [normalizeAsciiFrom, if_neg hc, h]

theorem find?_accentMap_append {c : UInt8} (hc : c < 0x80) (b : UInt8) (p q : List UInt8) :
    (accentMap.find? fun entry => entry.1.isPrefixOf (b :: (p ++ c :: q))) =
      accentMap.find? fun entry => entry.1.isPrefixOf (b :: p) := by
  refine find?_congr fun entry hentry => ?_
  obtain ⟨k, k', hkey, hk'⟩ := accentMap_key hentry
  rw [hkey]
  cases p with
  | nil =>
    have hne : k' ≠ c := fun heq => hk' (heq ▸ hc)
    simp [List.isPrefixOf, hne]
  | cons b' p => simp [List.isPrefixOf]

theorem normalizeAsciiFrom_append {c : UInt8} (hc : c < 0x80) (skip : ℕ) (p q : List UInt8)
    (hskip : skip ≤ p.length) :
    normalizeAsciiFrom skip (p ++ c :: q) = normalizeAsciiFrom skip p ++ tolower c :: normalizeAsciiFrom 0 q := by
  induction p generalizing skip with
  | nil =>
    obtain rfl : skip = 0 := by simpa using hskip
    exact normalizeAsciiFrom_ascii hc q
  | cons b p ih =>
    cases skip with
    | succ skip =>
      rw [cons_append, normalizeAsciiFrom, normalizeAsciiFrom]
      exact ih skip (by simpa using hskip)
    | zero =>
      rw [cons_append]
      by_cases hb : b < 0x80
      · rw [normalizeAsciiFrom_ascii hb, normalizeAsciiFrom_ascii hb, ih 0 (Nat.zero_le _), cons_append]
      · have hfind := find?_accentMap_append hc b p q
        cases hmatch : accentMap.find? fun entry => entry.1.isPrefixOf (b :: p) with
        | none =>
          rw [normalizeAsciiFrom_dropped hb hmatch, normalizeAsciiFrom_dropped hb (hfind.trans hmatch)]
          exact ih 0 (Nat.zero_le _)
        | some entry =>
          have hpre : entry.1.isPrefixOf (b :: p) = true := by simpa using find?_some hmatch
          have hlen := (List.isPrefixOf_iff_prefix.mp hpre).length_le
          rw [length_cons] at hlen
          rw [normalizeAsciiFrom_key hb hmatch, normalizeAsciiFrom_key hb (hfind.trans hmatch), ih _ (by omega),
            cons_append]

theorem normalizeAscii_append {c : UInt8} (hc : c < 0x80) (p q : List UInt8) :
    normalizeAscii (p ++ c :: q) = normalizeAscii p ++ tolower c :: normalizeAscii q :=
  normalizeAsciiFrom_append hc 0 p q (Nat.zero_le _)

/-! ### What comes out is plain -/

def Plain (c : UInt8) : Prop := c < 0x80 ∧ tolower c = c

instance (c : UInt8) : Decidable (Plain c) := inferInstanceAs (Decidable (_ ∧ _))

theorem plain_tolower {c : UInt8} (hc : c < 0x80) : Plain (tolower c) := by
  by_cases h : 0x41 ≤ c ∧ c ≤ 0x5A
  · have h1 : 65 ≤ c.toNat := UInt8.le_iff_toNat_le.mp h.1
    have h2 : c.toNat ≤ 90 := UInt8.le_iff_toNat_le.mp h.2
    have hsum : (c + 0x20).toNat = c.toNat + 32 := by
      rw [UInt8.toNat_add]
      show (c.toNat + 32) % 256 = _
      omega
    have hlower : tolower c = c + 0x20 := if_pos h
    rw [hlower]
    constructor
    · apply UInt8.lt_iff_toNat_lt.mpr
      show (c + 0x20).toNat < 128
      omega
    · refine if_neg fun hupper => ?_
      have : (c + 0x20).toNat ≤ 90 := UInt8.le_iff_toNat_le.mp hupper.2
      omega
  · have hlower : tolower c = c := if_neg h
    rw [Plain, hlower]
    exact ⟨hc, hlower⟩

theorem accentMap_plain {entry : List UInt8 × Char} (h : entry ∈ accentMap) : Plain (UInt8.ofNat entry.2.toNat) := by
  revert entry
  decide

theorem normalizeAsciiFrom_plain (skip : ℕ) (text : List UInt8) : ∀ c ∈ normalizeAsciiFrom skip text, Plain c := by
  induction text generalizing skip with
  | nil => simp [normalizeAsciiFrom]
  | cons b text ih =>
    cases skip with
    | succ skip => exact ih skip
    | zero =>
      by_cases hb : b < 0x80
      · rw [normalizeAsciiFrom_ascii hb]
        exact forall_mem_cons.mpr ⟨plain_tolower hb, ih 0⟩
      · cases hmatch : accentMap.find? fun entry => entry.1.isPrefixOf (b :: text) with
        | none =>
          rw [normalizeAsciiFrom_dropped hb hmatch]
          exact ih 0
        | some entry =>
          rw [normalizeAsciiFrom_key hb hmatch]
          exact forall_mem_cons.mpr ⟨accentMap_plain (mem_of_find?_eq_some hmatch), ih _⟩

theorem normalizeAscii_of_plain {text : List UInt8} (h : ∀ c ∈ text, Plain c) : normalizeAscii text = text := by
  induction text with
  | nil => rfl
  | cons c text ih =>
    obtain ⟨hascii, hlower⟩ := h c (mem_cons_self ..)
    show normalizeAsciiFrom 0 (c :: text) = _
    rw [normalizeAsciiFrom_ascii hascii, hlower]
    exact congrArg (c :: ·) (ih fun c hc => h c (mem_cons_of_mem _ hc))

/-! ### Words -/

/-- A word as the normaliser puts it out. -/
structure Token (token : List UInt8) : Prop where
  ne_nil : token ≠ []
  letters : ∀ c ∈ token, isalnum c = true
  plain : ∀ c ∈ token, Plain c

theorem synonymTable_row {row : List UInt8 × List UInt8} (h : row ∈ synonymTable) :
    (row.2 ≠ [] ∧ (∀ c ∈ row.2, isalnum c = true) ∧ ∀ c ∈ row.2, Plain c) ∧
      synonymTable.lookup row.2 = some row.2 := by
  have hall : ∀ row ∈ synonymTable, (row.2 ≠ [] ∧ row.2.all isalnum = true ∧
      (row.2.all fun c => decide (Plain c)) = true) ∧ synonymTable.lookup row.2 = some row.2 := by
    decide +kernel
  obtain ⟨⟨hne, hletters, hplain⟩, hlookup⟩ := hall row h
  exact ⟨⟨hne, all_eq_true.mp hletters, fun c hc => of_decide_eq_true (all_eq_true.mp hplain c hc)⟩, hlookup⟩

theorem lookup_row {token canonical : List UInt8} (h : synonymTable.lookup token = some canonical) :
    (token, canonical) ∈ synonymTable := by
  obtain ⟨l, l', hsplit, -⟩ := (List.lookup_eq_some_iff).mp h
  rw [hsplit]
  simp

theorem normalizeToken_token {token : List UInt8} (h : Token token) : Token (normalizeToken token) := by
  rw [normalizeToken, normalizeAscii_of_plain h.plain]
  cases hlookup : synonymTable.lookup token with
  | none => exact h
  | some canonical =>
    obtain ⟨⟨hne, hletters, hplain⟩, -⟩ := synonymTable_row (lookup_row hlookup)
    exact ⟨hne, hletters, hplain⟩

theorem normalizeToken_idempotent {token : List UInt8} (h : Token token) :
    normalizeToken (normalizeToken token) = normalizeToken token := by
  have hplain := (normalizeToken_token h).plain
  rw [normalizeToken, normalizeAscii_of_plain hplain]
  rw [normalizeToken, normalizeAscii_of_plain h.plain]
  cases hlookup : synonymTable.lookup token with
  | none => simp [hlookup]
  | some canonical =>
    have hself : synonymTable.lookup canonical = some canonical := (synonymTable_row (lookup_row hlookup)).2
    simp [hself]

theorem tokenizeSimple_token {text word : List UInt8} (h : word ∈ tokenizeSimple (normalizeAscii text)) : Token word := by
  have hletter : ∀ c ∈ normalizeAscii text, isalnum c = true → isalnum c = true ∧ Plain c := fun c hc halnum =>
    ⟨halnum, normalizeAsciiFrom_plain 0 text c hc⟩
  obtain ⟨hne, hletters⟩ := mem_split (by simp) hletter h
  exact ⟨hne, fun c hc => (hletters c hc).1, fun c hc => (hletters c hc).2⟩

def tokens (text : List UInt8) : List (List UInt8) := (tokenizeSimple (normalizeAscii text)).map normalizeToken

theorem tokens_token {text token : List UInt8} (h : token ∈ tokens text) : Token token := by
  obtain ⟨word, hword, rfl⟩ := mem_map.mp h
  exact normalizeToken_token (tokenizeSimple_token hword)

theorem tokens_ne_nil (text : List UInt8) : ∀ token ∈ tokens text, token ≠ [] := fun _ h => (tokens_token h).ne_nil

theorem isalnum_tolower {c : UInt8} (h : isalnum c = false) : isalnum (tolower c) = false := by
  have hnot : ¬ (0x41 ≤ c ∧ c ≤ 0x5A) := fun hupper =>
    of_decide_eq_false h (.inr (.inl hupper))
  rw [show tolower c = c from if_neg hnot]
  exact h

theorem tokens_append {c : UInt8} (hc : c < 0x80) (hsep : isalnum c = false) (p q : List UInt8) :
    tokens (p ++ c :: q) = tokens p ++ tokens q := by
  rw [tokens, normalizeAscii_append hc, tokenizeSimple, split_append_sep (isalnum_tolower hsep), map_append]
  rfl

theorem normalizeText_append {c : UInt8} (hc : c < 0x80) (hsep : isalnum c = false) (p q : List UInt8) :
    normalizeText (p ++ c :: q) = glue 0x20 (normalizeText p) (normalizeText q) := by
  show join 0x20 (tokens (p ++ c :: q)) = glue 0x20 (join 0x20 (tokens p)) (join 0x20 (tokens q))
  rw [tokens_append hc hsep, join_append (tokens_ne_nil p) (tokens_ne_nil q)]

theorem normalizeText_idempotent (text : List UInt8) : normalizeText (normalizeText text) = normalizeText text := by
  have hplain : normalizeAscii (normalizeText text) = normalizeText text := by
    refine normalizeAscii_of_plain fun c hc => ?_
    rcases mem_join hc with rfl | ⟨token, htoken, hmem⟩
    · decide
    · exact (tokens_token htoken).plain c hmem
  have hwords : tokenizeSimple (normalizeText text) = tokens text :=
    split_join (by decide) fun token h => ⟨(tokens_token h).ne_nil, (tokens_token h).letters⟩
  have hsame : (tokens text).map normalizeToken = tokens text := by
    rw [tokens, map_map]
    refine map_congr_left fun word hword => ?_
    exact normalizeToken_idempotent (tokenizeSimple_token hword)
  show join 0x20 ((tokenizeSimple (normalizeAscii (normalizeText text))).map normalizeToken) = join 0x20 (tokens text)
  rw [hplain, hwords, hsame]

example : normalizeText (ascii "Toranja e G" ++ [0xC3, 0xA9] ++ ascii "rgelim") = ascii "grapefruit e sesame" := by
  decide +kernel

end SmartGuard
