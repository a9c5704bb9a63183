import LlamaRafaelia.Lib.Trie
import LlamaRafaelia.Tokenizer.Unicode

/-!
# The vocabulary

Loading replaces empty texts and asserts that `token_to_id` is as large as `id_to_token`, so no text is empty and no
two tokens have the same one: a `Vocab` carries that.  A byte token is written `<0xHH>`, with upper case digits.
-/

namespace Tokenizer

/-- `naive_trie`. -/
abbrev NaiveTrie := Trie UInt8 ℕ

/-- The flags of `llama_token_attr` that the tokenizers look at. -/
structure TokenAttr where
  unknown : Bool
  control : Bool
  userDefined : Bool
  byte : Bool
  lstrip : Bool
  rstrip : Bool
  deriving DecidableEq, Repr

/-- `llama_vocab::token_data`.  Scores are only compared, so a score is the rank of its float. -/
structure TokenData where
  text : List UInt8
  score : ℤ
  attr : TokenAttr
  deriving DecidableEq, Repr

/-- How a call of a tokenizer fails: `token_to_id.at` does not find the text, a `GGML_ASSERT` fails, the splitting
throws, an empty vector is read, or a recursion does not return. -/
inductive TokenizeError where
  | outOfRange
  | assertFailed
  | split (e : Unicode.Throw)
  | emptyVector
  | recursion
  deriving DecidableEq, Repr

/-- The vocabulary after loading. -/
structure Vocab where
  tokens : List TokenData
  distinct : (tokens.map TokenData.text).Nodup
  nonempty : ∀ t ∈ tokens, t.text ≠ []

/-- `hex[d]`. -/
def hexDigit (d : ℕ) : UInt8 :=
  [0x30, 0x31, 0x32, 0x33, 0x34, 0x35, 0x36, 0x37, 0x38, 0x39, 0x41, 0x42, 0x43, 0x44, 0x45, 0x46].getD d 0

/-- `<0xHH>`. -/
def byteName (ch : UInt8) : List UInt8 :=
  [0x3C, 0x30, 0x78, hexDigit (ch.toNat / 16), hexDigit (ch.toNat % 16), 0x3E]

/-- The value `strtol` gives a digit. -/
def hexValue (b : UInt8) : ℕ := if b.toNat < 0x3A then b.toNat - 0x30 else b.toNat - 0x37

/-- `token_to_byte` of a text `<0xHH>`: the number in `text.substr(3, 2)`. -/
def tokenToByte (text : List UInt8) : UInt8 :=
  UInt8.ofNat (hexValue (text.getD 3 0) * 16 + hexValue (text.getD 4 0))

namespace Vocab

def Has (V : Vocab) (text : List UInt8) : Prop := ∃ t ∈ V.tokens, t.text = text

/-- `text_to_token`, with `none` for `LLAMA_TOKEN_NULL`. -/
def textToToken (V : Vocab) (text : List UInt8) : Option ℕ := V.tokens.findIdx? fun t => t.text = text

/-- `byte_to_token` of an SPM vocabulary. -/
def byteToToken (V : Vocab) (ch : UInt8) : Except TokenizeError ℕ :=
  match V.textToToken (byteName ch) with
  | some token => .ok token
  | none =>
    -- fall back to the byte as a C string
    match V.textToToken (if ch = 0 then [] else [ch]) with
    | some token => .ok token
    | none => .error .outOfRange

variable {V : Vocab} {text : List UInt8} {id : ℕ}

theorem textToToken_eq_some (h : V.textToToken text = some id) : ∃ t, V.tokens[id]? = some t ∧ t.text = text := by
  obtain ⟨hlt, htext, -⟩ := List.findIdx?_eq_some_iff_getElem.mp h
  exact ⟨V.tokens[id], List.getElem?_eq_getElem hlt, by simpa using htext⟩

theorem textToToken_eq_none : V.textToToken text = none ↔ ¬ V.Has text := by
  unfold textToToken Has
  simp [List.findIdx?_eq_none_iff]

theorem textToToken_of_has (h : V.Has text) : ∃ id, V.textToToken text = some id := by
  cases hfind : V.textToToken text with
  | none => exact absurd h ((textToToken_eq_none).mp hfind)
  | some id => exact ⟨id, rfl⟩

theorem eq_of_text_eq {t t' : TokenData} (ht : t ∈ V.tokens) (ht' : t' ∈ V.tokens) (h : t.text = t'.text) : t = t' :=
  List.inj_on_of_nodup_map V.distinct ht ht' h

end Vocab

/-! ### Names of bytes -/

theorem tokenToByte_byteName (b : UInt8) : tokenToByte (byteName b) = b := by
  have hdigit : ∀ d < 16, hexValue (hexDigit d) = d := by decide
  have hb := b.toNat_lt
  show UInt8.ofNat (hexValue (hexDigit (b.toNat / 16)) * 16 + hexValue (hexDigit (b.toNat % 16))) = b
  rw [hdigit _ (by omega), hdigit _ (by omega), Nat.div_add_mod', UInt8.ofNat_toNat]

theorem byteName_injective : Function.Injective byteName := by
  intro b b' h
  rw [← tokenToByte_byteName b, h, tokenToByte_byteName]

theorem byteName_ascii (b : UInt8) : (∀ x ∈ byteName b, x.toNat < 128) ∧ ∀ x ∈ (byteName b).tail, x ≠ 0x3C := by
  have hdigit : ∀ d < 16, (hexDigit d).toNat < 128 ∧ hexDigit d ≠ 0x3C := by decide
  have hb := b.toNat_lt
  have hhigh := hdigit (b.toNat / 16) (by omega)
  have hlow := hdigit (b.toNat % 16) (by omega)
  constructor
  · intro x hx
    simp only [byteName, List.mem_cons, List.not_mem_nil, or_false] at hx
    rcases hx with rfl | rfl | rfl | rfl | rfl | rfl
    · decide
    · decide
    · decide
    · exact hhigh.1
    · exact hlow.1
    · decide
  · intro x hx
    simp only [byteName, List.tail_cons, List.mem_cons, List.not_mem_nil, or_false] at hx
    rcases hx with rfl | rfl | rfl | rfl | rfl
    · decide
    · decide
    · exact hhigh.2
    · exact hlow.2
    · decide

end Tokenizer
