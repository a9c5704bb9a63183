import Mathlib.Data.List.Basic
import Mathlib.Data.Nat.Notation
import Mathlib.Tactic.Common

/-!
# JSON values and their text

The values that `nlohmann::ordered_json` holds, and `dump` without indentation.  A string is the list of its code
points: a string that is not UTF-8 cannot be dumped.  A number is given by the text that it is dumped as.

* `Json.backslash_mem_dump_iff` - **a dump has a backslash exactly when some string needs an escape**.
-/

def isNumberChar (c : Char) : Bool := c.isDigit || c = '-' || c = '+' || c = '.' || c = 'e' || c = 'E'

def NumberText : Type := { s : List Char // ∀ c ∈ s, isNumberChar c = true }

/-- A JSON value; the members of an object are in their order. -/
inductive Json where
  | null
  | bool (b : Bool)
  | number (text : NumberText)
  | string (s : List Char)
  | array (items : List Json)
  | object (members : List (List Char × Json))

namespace Json

open List

/-! ### Strings -/

/-- The conversion `%04x`. -/
def hex4 (n : ℕ) : List Char :=
  [Nat.digitChar (n / 4096 % 16), Nat.digitChar (n / 256 % 16), Nat.digitChar (n / 16 % 16), Nat.digitChar (n % 16)]

/-- `dump_escaped` of one code point. -/
def escapeChar (ensureAscii : Bool) (c : Char) : List Char :=
  let codepoint := c.toNat
  if codepoint = 0x08 then ['\\', 'b']
  else if codepoint = 0x09 then ['\\', 't']
  else if codepoint = 0x0A then ['\\', 'n']
  else if codepoint = 0x0C then ['\\', 'f']
  else if codepoint = 0x0D then ['\\', 'r']
  else if codepoint = 0x22 then ['\\', '"']
  else if codepoint = 0x5C then ['\\', '\\']
  else if codepoint ≤ 0x1F ∨ ensureAscii ∧ 0x7F ≤ codepoint then
    if codepoint ≤ 0xFFFF then '\\' :: 'u' :: hex4 codepoint
    else '\\' :: 'u' :: hex4 (0xD7C0 + codepoint / 1024) ++ '\\' :: 'u' :: hex4 (0xDC00 + codepoint % 1024)
  else [c]

def dumpString (ensureAscii : Bool) (s : List Char) : List Char := '"' :: (s.flatMap (escapeChar ensureAscii) ++ ['"'])

/-! ### Values -/

mutual

/-- `dump`, without indentation. -/
def dump (ensureAscii : Bool) : Json → List Char
  | null => ['n', 'u', 'l', 'l']
  | bool true => ['t', 'r', 'u', 'e']
  | bool false => ['f', 'a', 'l', 's', 'e']
  | number text => text.1
  | string s => dumpString ensureAscii s
  | array [] => ['[', ']']
  | array (v :: items) => '[' :: (dump ensureAscii v ++ dumpItems ensureAscii items)
  | object [] => ['\x7b', '\x7d']
  | object ((key, v) :: members) =>
    '\x7b' :: (dumpString ensureAscii key ++ ':' :: (dump ensureAscii v ++ dumpMembers ensureAscii members))

def dumpItems (ensureAscii : Bool) : List Json → List Char
  | [] => [']']
  | v :: items => ',' :: (dump ensureAscii v ++ dumpItems ensureAscii items)

def dumpMembers (ensureAscii : Bool) : List (List Char × Json) → List Char
  | [] => ['\x7d']
  | (key, v) :: members =>
    ',' :: (dumpString ensureAscii key ++ ':' :: (dump ensureAscii v ++ dumpMembers ensureAscii members))

end

mutual

def strings : Json → List (List Char)
  | null => []
  | bool _ => []
  | number _ => []
  | string s => [s]
  | array items => itemStrings items
  | object members => memberStrings members

def itemStrings : List Json → List (List Char)
  | [] => []
  | v :: items => strings v ++ itemStrings items

def memberStrings : List (List Char × Json) → List (List Char)
  | [] => []
  | (key, v) :: members => key :: (strings v ++ memberStrings members)

end

/-! ### Backslashes -/

/-- A character that a dump without `ensure_ascii` escapes: a quotation mark, a backslash or a control character. -/
def needsEscape (c : Char) : Prop := c = '"' ∨ c = '\\' ∨ c.toNat < 0x20

/-- The characters of a dump outside of its strings, and the quotation marks. -/
def isSyntaxChar (c : Char) : Bool :=
  isNumberChar c || ['n', 'u', 'l', 't', 'r', 'f', 'a', 's', '[', ']', '\x7b', '\x7d', ',', ':', '"'].contains c

section

variable {ensureAscii : Bool} {p : Char → Prop}

theorem dumpString_any (hp : ∀ c, isSyntaxChar c = true → ¬ p c) (s : List Char) :
    (∃ d ∈ dumpString ensureAscii s, p d) ↔ ∃ c ∈ s, ∃ d ∈ escapeChar ensureAscii c, p d := by
  have hquote : ¬ p '"' := hp _ (by decide)
  simp only [dumpString, mem_cons, mem_append, mem_flatMap, not_mem_nil, or_false]
  constructor
  · rintro ⟨d, hd, hpd⟩
    rcases hd with rfl | ⟨c, hc, hdc⟩ | rfl
    · exact (hquote hpd).elim
    · exact ⟨c, hc, d, hdc, hpd⟩
    · exact (hquote hpd).elim
  · rintro ⟨c, hc, d, hdc, hpd⟩
    exact ⟨d, .inr (.inl ⟨c, hc, hdc⟩), hpd⟩

mutual

theorem dump_any (hp : ∀ c, isSyntaxChar c = true → ¬ p c) (v : Json) :
    (∃ d ∈ v.dump ensureAscii, p d) ↔ ∃ s ∈ v.strings, ∃ c ∈ s, ∃ d ∈ escapeChar ensureAscii c, p d := by
  have hword : ∀ l : List Char, l.all isSyntaxChar = true → ¬ ∃ d ∈ l, p d := by
    rintro l hl ⟨d, hd, hpd⟩
    exact hp d (all_eq_true.mp hl d hd) hpd
  match v with
  | null =>
    have h := hword ['n', 'u', 'l', 'l'] rfl
    simpa only [dump, strings, not_mem_nil, false_and, exists_false, iff_false] using h
  | bool true =>
    have h := hword ['t', 'r', 'u', 'e'] rfl
    simpa only [dump, strings, not_mem_nil, false_and, exists_false, iff_false] using h
  | bool false =>
    have h := hword ['f', 'a', 'l', 's', 'e'] rfl
    simpa only [dump, strings, not_mem_nil, false_and, exists_false, iff_false] using h
  | number text =>
    have h := hword text.1 (all_eq_true.mpr fun c hc => by rw [isSyntaxChar, text.2 c hc, Bool.true_or])
    simpa only [dump, strings, not_mem_nil, false_and, exists_false, iff_false] using h
  | string s =>
    have h := @dumpString_any ensureAscii p hp s
    simpa only [dump, strings, mem_singleton, exists_eq_left] using h
  | array [] =>
    have h := hword ['[', ']'] rfl
    simpa only [dump, strings, itemStrings, not_mem_nil, false_and, exists_false, iff_false] using h
  | array (v :: items) =>
    have h1 : ¬ p '[' := hp _ (by decide)
    have hv := dump_any hp v
    have hitems := dumpItems_any hp items
    simp only [dump, strings, itemStrings, mem_cons, mem_append, or_and_right, exists_or, hv, hitems,
      exists_eq_left, h1, false_or]
  | object [] =>
    have h := hword ['\x7b', '\x7d'] rfl
    simpa only [dump, strings, memberStrings, not_mem_nil, false_and, exists_false, iff_false] using h
  | object ((key, v) :: members) =>
    have h1 : ¬ p '\x7b' := hp _ (by decide)
    have h2 : ¬ p ':' := hp _ (by decide)
    have hkey := @dumpString_any ensureAscii p hp key
    have hv := dump_any hp v
    have hmembers := dumpMembers_any hp members
    simp only [dump, strings, memberStrings, mem_cons, mem_append, or_and_right, exists_or, hkey, hv,
      hmembers, exists_eq_left, h1, h2, false_or]

theorem dumpItems_any (hp : ∀ c, isSyntaxChar c = true → ¬ p c) (items : List Json) :
    (∃ d ∈ dumpItems ensureAscii items, p d) ↔
      ∃ s ∈ itemStrings items, ∃ c ∈ s, ∃ d ∈ escapeChar ensureAscii c, p d := by
  match items with
  | [] =>
    have h1 : ¬ p ']' := hp _ (by decide)
    simp [dumpItems, itemStrings, h1]
  | v :: items =>
    have h1 : ¬ p ',' := hp _ (by decide)
    have hv := dump_any hp v
    have hitems := dumpItems_any hp items
    simp only [dumpItems, itemStrings, mem_cons, mem_append, or_and_right, exists_or, hv, hitems,
      exists_eq_left, h1, false_or]

theorem dumpMembers_any (hp : ∀ c, isSyntaxChar c = true → ¬ p c) (members : List (List Char × Json)) :
    (∃ d ∈ dumpMembers ensureAscii members, p d) ↔
      ∃ s ∈ memberStrings members, ∃ c ∈ s, ∃ d ∈ escapeChar ensureAscii c, p d := by
  match members with
  | [] =>
    have h1 : ¬ p '\x7d' := hp _ (by decide)
    simp [dumpMembers, memberStrings, h1]
  | (key, v) :: members =>
    have h1 : ¬ p ',' := hp _ (by decide)
    have h2 : ¬ p ':' := hp _ (by decide)
    have hkey := @dumpString_any ensureAscii p hp key
    have hv := dump_any hp v
    have hmembers := dumpMembers_any hp members
    simp only [dumpMembers, memberStrings, mem_cons, mem_append, or_and_right, exists_or, hkey, hv, hmembers,
      exists_eq_left, h1, h2, false_or]

end

end

theorem backslash_mem_escapeChar_iff (c : Char) : '\\' ∈ escapeChar false c ↔ needsEscape c := by
  have hquote : c.toNat = 0x22 ↔ c = '"' := ⟨fun h => Char.toNat_inj.mp h, fun h => by rw [h]; rfl⟩
  have hback : c.toNat = 0x5C ↔ '\\' = c := ⟨fun h => (Char.toNat_inj.mp h).symm, fun h => by rw [← h]; rfl⟩
  rw [needsEscape, ← hquote, eq_comm (a := c), ← hback, escapeChar]
  simp only [Bool.false_eq_true, false_and, or_false]
  split_ifs with h1 h2 h3 h4 h5 h6 h7 h8 h9
  all_goals simp only [mem_cons, mem_append, true_or, true_iff, not_mem_nil, or_false, ← hback]
  all_goals omega

/-- **A dump has a backslash exactly when some string needs an escape.** -/
theorem backslash_mem_dump_iff (v : Json) : '\\' ∈ v.dump false ↔ ∃ s ∈ v.strings, ∃ c ∈ s, needsEscape c := by
  have hsyntax : ∀ c, isSyntaxChar c = true → ¬ c = '\\' := by
    rintro c hc rfl
    exact absurd hc (by decide)
  have hany := @dump_any false (· = '\\') hsyntax v
  simpa only [exists_eq_right, backslash_mem_escapeChar_iff] using hany

theorem nul_notMem_hex4 (n : ℕ) : Char.ofNat 0 ∉ hex4 n := by
  have hdigit : ∀ k < 16, Char.ofNat 0 ≠ Nat.digitChar k := by decide
  have hlt : ∀ m, Char.ofNat 0 ≠ Nat.digitChar (m % 16) := fun m => hdigit _ (Nat.mod_lt _ (by decide))
  simp [hex4, hlt]

theorem nul_notMem_dump (ensureAscii : Bool) (v : Json) : Char.ofNat 0 ∉ v.dump ensureAscii := by
  have hsyntax : ∀ c, isSyntaxChar c = true → ¬ c = Char.ofNat 0 := by
    rintro c hc rfl
    exact absurd hc (by decide)
  intro hmem
  obtain ⟨s, -, c, -, d, hd, rfl⟩ := (@dump_any ensureAscii (· = Char.ofNat 0) hsyntax v).mp ⟨_, hmem, rfl⟩
  rw [escapeChar] at hd
  split_ifs at hd with h1 h2 h3 h4 h5 h6 h7 h8 h9
  all_goals simp [nul_notMem_hex4] at hd
  rw [← hd] at h8
  simp at h8

end Json
