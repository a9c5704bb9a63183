import LlamaRafaelia.Json.Value
import Mathlib.Data.List.TakeWhile

/-!
# Reading JSON

A reader of JSON texts by RFC 8259.  It rejects what is not well formed, and a surrogate without its other half.

* `Json.stringLoop_minimal` - **a string in which only `\`, `"`, `\n`, `\r` and `\t` are escaped is read back exactly
  when it has no other control character**.
-/

namespace Json

open List

/-! ### The reader -/

/-- `ws`. -/
def isSpace (c : Char) : Bool := c = ' ' || c = '\t' || c = '\n' || c = '\r'

def skipSpace (s : List Char) : List Char := s.dropWhile isSpace

/-- `exp`, or nothing. -/
def isExponent : List Char → Bool
  | [] => true
  | e :: s =>
    let digits := match s with
      | '+' :: s => s
      | '-' :: s => s
      | s => s
    (e = 'e' || e = 'E') && !digits.isEmpty && digits.all Char.isDigit

/-- `[ frac ] [ exp ]`. -/
def isFraction : List Char → Bool
  | '.' :: c :: s => c.isDigit && isExponent (s.dropWhile Char.isDigit)
  | s => isExponent s

/-- `int [ frac ] [ exp ]`. -/
def isUnsigned : List Char → Bool
  | [] => false
  | c :: s => if c = '0' then isFraction s else c.isDigit && isFraction (s.dropWhile Char.isDigit)

/-- `number`. -/
def isNumber : List Char → Bool
  | '-' :: s => isUnsigned s
  | s => isUnsigned s

def hexDigit (c : Char) : Option ℕ :=
  if c.isDigit then some (c.toNat - '0'.toNat)
  else if 'a' ≤ c ∧ c ≤ 'f' then some (c.toNat - 'a'.toNat + 10)
  else if 'A' ≤ c ∧ c ≤ 'F' then some (c.toNat - 'A'.toNat + 10)
  else none

/-- `4HEXDIG`. -/
def hex4? : List Char → Option (ℕ × List Char)
  | a :: b :: c :: d :: s => do
    let w ← hexDigit a
    let x ← hexDigit b
    let y ← hexDigit c
    let z ← hexDigit d
    some (((w * 16 + x) * 16 + y) * 16 + z, s)
  | _ => none

def scalar (n : ℕ) : Option Char := if n.isValidChar then some (Char.ofNat n) else none

def escapeSequence : List Char → Option (Char × List Char)
  | '"' :: s => some ('"', s)
  | '\\' :: s => some ('\\', s)
  | '/' :: s => some ('/', s)
  | 'b' :: s => some (Char.ofNat 8, s)
  | 'f' :: s => some (Char.ofNat 12, s)
  | 'n' :: s => some ('\n', s)
  | 'r' :: s => some ('\r', s)
  | 't' :: s => some ('\t', s)
  | 'u' :: s => do
    let (high, s) ← hex4? s
    if 0xD800 ≤ high ∧ high < 0xDC00 then
      match s with
      | '\\' :: 'u' :: s => do
        let (low, s) ← hex4? s
        if 0xDC00 ≤ low ∧ low < 0xE000 then
          let c ← scalar (0x10000 + (high - 0xD800) * 0x400 + (low - 0xDC00))
          some (c, s)
        else none
      | _ => none
    else
      let c ← scalar high
      some (c, s)
  | _ => none

def stringLoop : ℕ → List Char → Option (List Char × List Char)
  | 0, _ => none
  | _ + 1, [] => none
  | fuel + 1, c :: s =>
    if c = '"' then some ([], s)
    else if c = '\\' then do
      let (d, s) ← escapeSequence s
      let (l, s) ← stringLoop fuel s
      some (d :: l, s)
    else if c.toNat < 0x20 then none
    else do
      let (l, s) ← stringLoop fuel s
      some (c :: l, s)

def stringText (s : List Char) : Option (List Char × List Char) := stringLoop s.length s

section

variable {α : Type} (p : List Char → Option (α × List Char)) (close : Char)

def items : ℕ → List Char → Option (List α × List Char)
  | 0, _ => none
  | fuel + 1, s => do
    let (a, s) ← p s
    match skipSpace s with
    | [] => none
    | c :: s =>
      if c = ',' then do
        let (l, s) ← items fuel s
        some (a :: l, s)
      else if c = close then some ([a], s)
      else none

def bracketed (s : List Char) : Option (List α × List Char) :=
  match skipSpace s with
  | [] => none
  | c :: rest => if c = close then some ([], rest) else items p close (c :: rest).length (c :: rest)

end

/-- `member`. -/
def member (p : List Char → Option (Json × List Char)) (s : List Char) : Option ((List Char × Json) × List Char) :=
  match skipSpace s with
  | '"' :: s => do
    let (key, s) ← stringText s
    match skipSpace s with
    | ':' :: s => do
      let (v, s) ← p s
      some ((key, v), s)
    | _ => none
  | _ => none

def numberText (s : List Char) : NumberText := ⟨s.takeWhile isNumberChar, fun _ hc => mem_takeWhile_imp hc⟩

/-- `value`; the fuel bounds how deep values are nested. -/
def value : ℕ → List Char → Option (Json × List Char)
  | 0, _ => none
  | fuel + 1, s =>
    match skipSpace s with
    | '"' :: s => (stringText s).map fun (text, s) => (string text, s)
    | '[' :: s => (bracketed (value fuel) ']' s).map fun (l, s) => (array l, s)
    | '\x7b' :: s => (bracketed (member (value fuel)) '\x7d' s).map fun (l, s) => (object l, s)
    | 'n' :: 'u' :: 'l' :: 'l' :: s => some (null, s)
    | 't' :: 'r' :: 'u' :: 'e' :: s => some (bool true, s)
    | 'f' :: 'a' :: 'l' :: 's' :: 'e' :: s => some (bool false, s)
    | s => if isNumber (numberText s).1 then some (number (numberText s), s.dropWhile isNumberChar) else none

def decode (s : List Char) : Option Json := do
  let (v, s) ← value s.length s
  if skipSpace s = [] then some v else none

def decodeBytes (bytes : List UInt8) : Option Json := do
  let text ← bytes.toByteArray.utf8Decode?
  decode text.toList

theorem decodeBytes_utf8 (s : List Char) : decodeBytes (s.flatMap String.utf8EncodeChar) = decode s := by
  have htext : (s.flatMap String.utf8EncodeChar).toByteArray.utf8Decode? = some s.toArray := utf8Decode?_utf8Encode
  rw [decodeBytes, htext]
  rfl

/-! ### Strings with few escapes -/

/-- The escapes for which a writer cannot do without, and those of the line ends and the tab. -/
def minimalEscape (c : Char) : List Char :=
  if c = '\\' then ['\\', '\\']
  else if c = '"' then ['\\', '"']
  else if c = '\n' then ['\\', 'n']
  else if c = '\r' then ['\\', 'r']
  else if c = '\t' then ['\\', 't']
  else [c]

/-- A control character that `minimalEscape` leaves as it is. -/
def rawControl (c : Char) : Bool := c.toNat < 0x20 && c != '\n' && c != '\r' && c != '\t'

theorem stringLoop_minimalEscape (c : Char) (fuel : ℕ) (t : List Char) :
    stringLoop (fuel + 1) (minimalEscape c ++ t) =
      if rawControl c = true then none else (stringLoop fuel t).map fun r => (c :: r.1, r.2) := by
  have hbind : ∀ d : Char, (do
      let (l, s) ← stringLoop fuel t
      some (d :: l, s)) = (stringLoop fuel t).map fun r => (d :: r.1, r.2) := by
    intro d
    cases stringLoop fuel t <;> rfl
  by_cases h1 : c = '\\'
  · subst h1
    exact hbind '\\'
  by_cases h2 : c = '"'
  · subst h2
    exact hbind '"'
  by_cases h3 : c = '\n'
  · subst h3
    exact hbind '\n'
  by_cases h4 : c = '\r'
  · subst h4
    exact hbind '\r'
  by_cases h5 : c = '\t'
  · subst h5
    exact hbind '\t'
  have hself : minimalEscape c = [c] := by
    rw [minimalEscape, if_neg h1, if_neg h2, if_neg h3, if_neg h4, if_neg h5]
  have hraw : rawControl c = decide (c.toNat < 0x20) := by
    rw [rawControl, bne_iff_ne.mpr h3, bne_iff_ne.mpr h4, bne_iff_ne.mpr h5]
    simp only [Bool.and_true]
  rw [hself, hraw]
  show stringLoop (fuel + 1) (c :: t) = _
  rw [stringLoop, if_neg h2, if_neg h1, hbind c]
  simp only [decide_eq_true_eq]

/-- **A string with few escapes is read back, unless a control character stands in it as it is.** -/
theorem stringLoop_minimal (s rest : List Char) {fuel : ℕ} (hfuel : s.length < fuel) :
    stringLoop fuel (s.flatMap minimalEscape ++ '"' :: rest) =
      if s.any rawControl = true then none else some (s, rest) := by
  induction s generalizing fuel with
  | nil =>
    obtain ⟨fuel, rfl⟩ := Nat.exists_eq_succ_of_ne_zero (Nat.ne_of_gt hfuel)
    rfl
  | cons c s ih =>
    obtain ⟨fuel, rfl⟩ := Nat.exists_eq_succ_of_ne_zero (Nat.ne_zero_of_lt hfuel)
    have hs := ih (Nat.lt_of_succ_lt_succ hfuel)
    rw [flatMap_cons, append_assoc, stringLoop_minimalEscape, hs, any_cons]
    cases hc : rawControl c
    · cases hany : s.any rawControl <;> rfl
    · rfl

theorem length_le_minimalEscape (s : List Char) : s.length ≤ (s.flatMap minimalEscape).length := by
  induction s with
  | nil => exact Nat.le_refl _
  | cons c s ih =>
    have hc : 1 ≤ (minimalEscape c).length := by
      rw [minimalEscape]
      split_ifs <;> exact Nat.succ_le_succ (Nat.zero_le _)
    rw [flatMap_cons, length_append, length_cons]
    omega

theorem stringText_minimal (s rest : List Char) :
    stringText (s.flatMap minimalEscape ++ '"' :: rest) = if s.any rawControl = true then none else some (s, rest) := by
  have hlen := length_le_minimalEscape s
  refine stringLoop_minimal s rest ?_
  rw [length_append, length_cons]
  omega

/-! ### Values inside of a text -/

theorem skipSpace_cons {c : Char} (hc : isSpace c = false) (s : List Char) : skipSpace (c :: s) = c :: s := by
  rw [skipSpace, dropWhile_cons, hc]
  rfl

theorem isSpace_of_number {c : Char} (hc : isNumberChar c = true) : isSpace c = false := by
  cases hspace : isSpace c with
  | false => rfl
  | true =>
    simp only [isSpace, Bool.or_eq_true, decide_eq_true_eq] at hspace
    rcases hspace with ((rfl | rfl) | rfl) | rfl <;> exact absurd hc (by decide)

theorem value_number {text : NumberText} (h : isNumber text.1 = true) {d : Char} (hd : isNumberChar d = false)
    (rest : List Char) (fuel : ℕ) :
    value (fuel + 1) (text.1 ++ d :: rest) = some (number text, d :: rest) := by
  have htake : (text.1 ++ d :: rest).takeWhile isNumberChar = text.1 := by
    rw [takeWhile_append_of_pos text.2, takeWhile_cons, hd]
    exact append_nil _
  have hdrop : (text.1 ++ d :: rest).dropWhile isNumberChar = d :: rest := by
    rw [dropWhile_append_of_pos text.2, dropWhile_cons, hd]
    rfl
  obtain ⟨c, s, hcs, hc⟩ : ∃ c s, text.1 ++ d :: rest = c :: s ∧ isNumberChar c = true := by
    cases htext : text.1 with
    | nil =>
      rw [htext] at h
      cases h
    | cons c s => exact ⟨c, s ++ d :: rest, rfl, text.2 c (by rw [htext]; exact mem_cons_self ..)⟩
  have hskip : skipSpace (text.1 ++ d :: rest) = text.1 ++ d :: rest := by
    rw [hcs]
    exact skipSpace_cons (isSpace_of_number hc) s
  have hnumber : numberText (text.1 ++ d :: rest) = text := Subtype.ext htake
  have hvalue : value (fuel + 1) (text.1 ++ d :: rest) =
      if isNumber (numberText (text.1 ++ d :: rest)).1 then
        some (number (numberText (text.1 ++ d :: rest)), (text.1 ++ d :: rest).dropWhile isNumberChar)
      else none := by
    -- no other value begins with a character of a number
    rw [value, hskip, hcs]
    split
    all_goals first
      | rfl
      | rename_i heq
        rw [(List.cons.inj heq).1] at hc
        exact absurd hc (by decide)
  rw [hvalue, hnumber, if_pos h, hdrop]

theorem value_string (s rest : List Char) (fuel : ℕ) :
    value (fuel + 1) ('"' :: (s.flatMap minimalEscape ++ '"' :: rest)) =
      if s.any rawControl = true then none else some (string s, rest) := by
  show (stringText _).map _ = _
  rw [stringText_minimal]
  cases s.any rawControl <;> rfl

theorem member_eq (p : List Char → Option (Json × List Char)) {key : List Char} (hkey : key.any rawControl = false)
    (s : List Char) :
    member p ('"' :: (key.flatMap minimalEscape ++ '"' :: ':' :: s)) = (p s).map fun r => ((key, r.1), r.2) := by
  show (stringText _ >>= _) = _
  rw [stringText_minimal, hkey]
  show (p s >>= _) = _
  cases p s <;> rfl

section

variable {α : Type} {p : List Char → Option (α × List Char)} {close : Char} {a : α} {s rest : List Char}

theorem items_cons (h : p s = some (a, ',' :: rest)) (fuel : ℕ) :
    items p close (fuel + 1) s = (items p close fuel rest).map fun r => (a :: r.1, r.2) := by
  rw [items, h]
  show (items p close fuel rest >>= _) = _
  cases items p close fuel rest <;> rfl

theorem items_last (hclose : close ≠ ',') (hspace : isSpace close = false) (h : p s = some (a, close :: rest))
    (fuel : ℕ) : items p close (fuel + 1) s = some ([a], rest) := by
  rw [items, h]
  show (match skipSpace (close :: rest) with | [] => none | c :: s => _) = _
  rw [skipSpace_cons hspace]
  show (if close = ',' then _ else _) = _
  rw [if_neg hclose, if_pos rfl]

theorem items_none (h : p s = none) (fuel : ℕ) : items p close fuel s = none := by
  cases fuel with
  | zero => rfl
  | succ fuel => rw [items, h]; rfl

end

end Json
