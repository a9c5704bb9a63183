import Mathlib.Data.List.Lex
import Mathlib.Data.List.Sort
import LlamaRafaelia.Lib.Assoc
import LlamaRafaelia.Tokenizer.Unicode
import Mathlib.Algebra.Group.Int.Defs

/-!
# The PLaMo-2 tokenizer

`llm_tokenizer_plamo2::build` numbers the rows of all suffixes of the tokens in one pass and writes them in a second
one.  `encode` reads the text from its end, with the rows of a suffix as its state.  Scores are the integers
`std::round(score * 1e4)`, and nothing for a score that is not finite; a code of `to_suffix_id_` is a pair.

* `nextSuffix`, `updatePath`, `encodeLoop`, `decodePath`, `encode` - the text.
-/

namespace Tokenizer.Plamo

open Assoc

/-- What the tokenizer reads of a token. -/
structure PlamoToken where
  text : List UInt8
  byte : Bool
  score : Option ℤ
  deriving DecidableEq, Repr

/-- How the two calls fail: a byte token is not set, `std::stoi` finds no number, an index is out of bounds, the number of
the rows or a score does not fit `int32_t`, a code point has no encoding, or a loop does not end. -/
inductive PlamoFault where
  | notSet
  | invalidArgument
  | outOfBounds
  | overflow
  | encoding (e : Unicode.Throw)
  | endless
  deriving DecidableEq, Repr

def invalidScore : ℤ := -20000000

def unknownScore : ℤ := -10000000

/-- The loops that append `unicode_cpt_to_utf8` of some code points. -/
def toUtf8 (cpts : List ℕ) : Except PlamoFault (List UInt8) := (Unicode.cptsToUtf8 cpts).mapError .encoding

/-! ### Collecting the tokens -/

def hexDigit? (b : UInt8) : Option ℕ :=
  if 0x30 ≤ b.toNat ∧ b.toNat ≤ 0x39 then some (b.toNat - 0x30)
  else if 0x41 ≤ b.toNat ∧ b.toNat ≤ 0x46 then some (b.toNat - 0x37)
  else if 0x61 ≤ b.toNat ∧ b.toNat ≤ 0x66 then some (b.toNat - 0x57)
  else none

/-- `std::stoi(s, nullptr, 16)` of a string of two characters: it skips white space, takes a sign, and stops at what is no
digit; `none` when there is no digit. -/
def stoi (a b : UInt8) : Option ℤ :=
  match hexDigit? a, hexDigit? b with
  | some x, some y => some (x * 16 + y)
  | some x, none => some x
  | none, some y =>
    if a = 0x2B ∨ a = 0x20 ∨ (9 ≤ a.toNat ∧ a.toNat ≤ 13) then some y
    else if a = 0x2D then some (-y)
    else none
  | none, none => none

/-- `<0x..>`. -/
def isByteName (text : List UInt8) : Bool := text.length = 6 ∧ text.take 3 = [0x3C, 0x30, 0x78] ∧ text.getLast? = some 0x3E

/-- What the first loop of `build` collects. -/
structure Maps where
  bytes : List ℕ
  suffixToScore : List (List UInt8 × Option ℤ)
  tokenToId : List (List UInt8 × ℕ)

def addSuffix (scores : List (List UInt8 × Option ℤ)) (suffix : List UInt8) : List (List UInt8 × Option ℤ) :=
  if (lookup Prod.fst suffix scores).isSome then scores else put Prod.fst (suffix, none) scores

def properSuffixes (text : List UInt8) : Except PlamoFault (List (List UInt8)) :=
  let cpts := Unicode.cptsFromUtf8 text
  (List.range' 1 (cpts.length - 1)).mapM fun i => toUtf8 (cpts.drop i)

def collectToken (maps : Maps) (entry : PlamoToken × ℕ) : Except PlamoFault Maps :=
  let text := entry.1.text
  let maps := { maps with tokenToId := put Prod.fst (text, entry.2) maps.tokenToId }
  if entry.1.byte then
    if isByteName text then
      match stoi (text.getD 3 0) (text.getD 4 0) with
      | some byteVal =>
        if 0 ≤ byteVal then .ok { maps with bytes := maps.bytes.set byteVal.toNat entry.2 } else .error .outOfBounds
      | none => .error .invalidArgument
    else .ok maps
  else
    match properSuffixes text with
    | .ok suffixes =>
      .ok { maps with
        suffixToScore := suffixes.foldl addSuffix (put Prod.fst (text, entry.1.score) maps.suffixToScore) }
    | .error e => .error e

/-! ### The rows -/

/-- The comparison of `std::sort`: the bytes of the reversed strings. -/
def reversed (s : List UInt8) : List ℕ := s.reverse.map UInt8.toNat

def sortSuffixes (suffixes : List (List UInt8)) : List (List UInt8) :=
  suffixes.insertionSort fun a b => reversed a ≤ reversed b

/-- A beginning of a suffix that is a key of `suffix_to_score`. -/
structure Beginning where
  length : ℕ
  text : List UInt8
  score : Option ℤ

/-- The loop over the lengths of the beginnings, the longest one first. -/
def beginnings (scores : List (List UInt8 × Option ℤ)) (cpts : List ℕ) : Except PlamoFault (List Beginning) :=
  match (List.range' 1 cpts.length).reverse.mapM fun l => (toUtf8 (cpts.take l)).map fun piece => (l, piece) with
  | .ok pieces =>
    .ok (pieces.filterMap fun p => (lookup Prod.fst p.2 scores).map fun found => ⟨p.1, p.2, found.2⟩)
  | .error e => .error e

/-- What the pass that numbers the rows computes. -/
structure Numbers where
  suffixToId : List (List UInt8 × ℕ)
  toSuffixId : List ((ℕ × ℕ) × ℕ)
  numPieces : ℕ

/-- `suffix_to_id[s]`, which is 0 when there is no such key. -/
def idOf (suffixToId : List (List UInt8 × ℕ)) (s : List UInt8) : ℕ := ((lookup Prod.fst s suffixToId).map Prod.snd).getD 0

def numberSuffix (scores : List (List UInt8 × Option ℤ)) (numbers : Numbers) (suffix : List UInt8) :
    Except PlamoFault Numbers :=
  let suffixToId := put Prod.fst (suffix, numbers.numPieces) numbers.suffixToId
  match Unicode.cptsFromUtf8 suffix with
  -- the empty suffix has the sentinel row only
  | [] => .ok { numbers with suffixToId := suffixToId, numPieces := numbers.numPieces + 1 }
  | c :: cpts => do
    let remaining ← toUtf8 cpts
    let pieces ← beginnings scores (c :: cpts)
    return {
      suffixToId := suffixToId
      toSuffixId := put Prod.fst ((c, idOf suffixToId remaining), numbers.numPieces) numbers.toSuffixId
      numPieces := numbers.numPieces + (1 + pieces.length) }

/-- A row of `table_`. -/
structure Row where
  pieceLength : ℕ
  tokenId : ℤ
  score : ℤ
  pieceId : ℕ
  deriving DecidableEq, Repr

def sentinel : Row := { pieceLength := 1, tokenId := -1, score := unknownScore, pieceId := 0 }

def rowOf (tokenToId suffixToId : List (List UInt8 × ℕ)) (piece : Beginning) : Row where
  pieceLength := piece.length
  tokenId := match lookup Prod.fst piece.text tokenToId with
    | some entry => entry.2
    | none => -1
  score := piece.score.getD invalidScore
  pieceId := idOf suffixToId piece.text

def rowsOf (scores : List (List UInt8 × Option ℤ)) (tokenToId suffixToId : List (List UInt8 × ℕ)) (suffix : List UInt8) :
    Except PlamoFault (List Row) := do
  let pieces ← beginnings scores (Unicode.cptsFromUtf8 suffix)
  return pieces.map (rowOf tokenToId suffixToId) ++ [sentinel]

/-- The table has `num_pieces` rows, and the second pass writes them from the first one on. -/
def fillTable (numPieces : ℕ) (rows : List Row) : Except PlamoFault (List Row) :=
  if numPieces < rows.length then .error .outOfBounds
  else .ok (rows ++ List.replicate (numPieces - rows.length) { pieceLength := 0, tokenId := 0, score := 0, pieceId := 0 })

/-- What `build` leaves for `encode`. -/
structure Tables where
  bytes : List ℕ
  toSuffixId : List ((ℕ × ℕ) × ℕ)
  table : List Row

/-- `static_cast<int32_t>(std::round(score * 1e4))` is undefined where the value is too large. -/
def scoresFit (scores : List (List UInt8 × Option ℤ)) : Bool := scores.all fun p => p.2.all fun k => -2 ^ 31 ≤ k ∧ k < 2 ^ 31

def ensure (ok : Bool) (fault : PlamoFault) : Except PlamoFault Unit := if ok then .ok () else .error fault

/-- `llm_tokenizer_plamo2::build`. -/
def build (tokens : List PlamoToken) : Except PlamoFault Tables := do
  let maps ← tokens.zipIdx.foldlM collectToken { bytes := List.replicate 256 0, suffixToScore := [], tokenToId := [] }
  ensure (maps.bytes.all fun id => id ≠ 0) .notSet
  let suffixes := sortSuffixes (maps.suffixToScore.map Prod.fst ++ [[]])
  let numbers ← suffixes.foldlM (numberSuffix maps.suffixToScore) { suffixToId := [], toSuffixId := [], numPieces := 0 }
  ensure (decide (numbers.numPieces < 2 ^ 31)) .overflow
  ensure (scoresFit maps.suffixToScore) .overflow
  let rows ← suffixes.mapM (rowsOf maps.suffixToScore maps.tokenToId numbers.suffixToId)
  let table ← fillTable numbers.numPieces rows.flatten
  return { bytes := maps.bytes, toSuffixId := numbers.toSuffixId, table := table }

/-! ### Encoding -/

/-- `scores[i]` and `path[i]`. -/
structure PathCell where
  score : ℤ
  tokenLength : ℕ
  tokenId : ℤ
  numTokens : ℕ

/-- The loop that finds the next suffix, over the rows from `suffix_id` on. -/
def nextSuffix (tables : Tables) (c : ℕ) : List Row → ℕ → ℕ
  | [], suffixId => suffixId
  | row :: rows, _ =>
    let found := ((lookup Prod.fst (c, row.pieceId) tables.toSuffixId).map Prod.snd).getD 0
    if 0 < found ∨ row.score = unknownScore then found else nextSuffix tables c rows found

def extraBytes (c : ℕ) : ℕ := (if 0x80 ≤ c then 1 else 0) + (if 0x800 ≤ c then 1 else 0) + if 0x10000 ≤ c then 1 else 0

/-- A row improves the entry at `i` when its cost is less. -/
def improve (c i : ℕ) (row : Row) (cells : ℕ → PathCell) : ℕ → PathCell :=
  let s := (cells (i + row.pieceLength)).score - row.score
  if s < (cells i).score then
    Function.update cells i {
      score := s
      tokenLength := row.pieceLength
      tokenId := row.tokenId
      numTokens := (cells (i + row.pieceLength)).numTokens + 1 + if row.score = unknownScore then extraBytes c else 0 }
  else cells

/-- The loop that updates the best path, over the rows from `suffix_id` on. -/
def updatePath (c i : ℕ) : List Row → (ℕ → PathCell) → ℕ → PathCell
  | [], cells => cells
  | row :: rows, cells =>
    let cells := if invalidScore < row.score then improve c i row cells else cells
    if row.score = unknownScore then cells else updatePath c i rows cells

/-- The loop from the end of the text to its beginning, with `i` code points left. -/
def encodeLoop (tables : Tables) (data : List ℕ) : ℕ → ℕ → (ℕ → PathCell) → ℕ → PathCell
  | 0, _, cells => cells
  | i + 1, suffixId, cells =>
    let c := data.getD i 0
    let suffixId := nextSuffix tables c (tables.table.drop suffixId) suffixId
    encodeLoop tables data i suffixId (updatePath c i (tables.table.drop suffixId) cells)

def fallback (bytes : List ℕ) (c : ℕ) : List ℕ :=
  let s := 1 + extraBytes c
  (List.range s).map fun i =>
    let b := if s = 1 then c % 256 else if i = 0 then (0xF00 >>> s) &&& 0xFF else 0x80
    bytes.getD (b ||| ((c >>> ((s - i - 1) * 6)) &&& 0x3F)) 0

def decodePath (bytes data : List ℕ) (len : ℕ) (cells : ℕ → PathCell) : ℕ → ℕ → List ℕ → Except PlamoFault (List ℕ)
  | 0, _, _ => .error .endless
  | fuel + 1, pos, tokenIds =>
    if pos < len then
      let ids := if 0 ≤ (cells pos).tokenId then [(cells pos).tokenId.toNat] else fallback bytes (data.getD pos 0)
      decodePath bytes data len cells fuel (pos + (cells pos).tokenLength) (tokenIds ++ ids)
    else .ok tokenIds

def skipBom : List ℕ → List ℕ
  | [] => []
  | c :: cpts => if c = 0xFEFF then cpts else c :: cpts

/-- `llm_tokenizer_plamo2::encode`; the loops count in `int`, and `numTokens` is what the result is reserved for. -/
def encode (tables : Tables) (text : List UInt8) : Except PlamoFault (List ℕ) :=
  let data := skipBom (Unicode.cptsFromUtf8 text)
  if data = [] then .ok []
  else
    let len := (Int.bmod data.length (2 ^ 32)).toNat
    let cells := encodeLoop tables data len 0 fun j =>
      { score := if j = data.length then 0 else 2 ^ 60, tokenLength := 0, tokenId := 0, numTokens := 0 }
    decodePath tables.bytes data len cells (len + 1) 0 []

def tokenize (tokens : List PlamoToken) (text : List UInt8) : Except PlamoFault (List ℕ) := do
  let tables ← build tokens
  encode tables text

end Tokenizer.Plamo
