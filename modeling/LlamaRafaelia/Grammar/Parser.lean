import LlamaRafaelia.Grammar.Engine
import Mathlib.Algebra.Group.Nat.Defs

/-!
# The parser of grammar texts

`llama_grammar_parser` emits the elements of the rules as it reads.  A group in brackets becomes a rule of its own,
and so does every repetition; ids are given out in the order in which the names appear.  A text is a C string, `*pos`
is zero at its end, and the recursion has fuel.
-/

abbrev Text := List UInt8

/-- `std::runtime_error`: the message, with the rest of the text behind it. -/
structure ParseError where
  msg : String
  rest : Text
  deriving DecidableEq, Repr

/-- Why the parser did not return. -/
inductive ParseStop where
  | outOfFuel
  | thrown (e : ParseError)
  deriving DecidableEq, Repr

/-- `llama_grammar_parser`. -/
structure Parser where
  /-- `std::map<std::string, uint32_t>` -/
  symbolIds : List (Text × ℕ)
  rules : Rules
  deriving DecidableEq, Repr

namespace Text

/-- `pos[i]`. -/
def at_ (pos : Text) (i : ℕ) : UInt8 := pos.getD i 0

/-- `*pos`. -/
def cur (pos : Text) : UInt8 := pos.at_ 0

end Text

namespace Grammar

/-! ### Characters of the text -/

/-- `is_digit_char`. -/
def isDigitChar (c : UInt8) : Bool := 48 ≤ c ∧ c ≤ 57

/-- `is_word_char`: a letter, a hyphen or a digit. -/
def isWordChar (c : UInt8) : Bool := (97 ≤ c ∧ c ≤ 122) ∨ (65 ≤ c ∧ c ≤ 90) ∨ c = 45 ∨ isDigitChar c

def isNewline (c : UInt8) : Bool := c = 10 ∨ c = 13

/-- `throw std::runtime_error(msg + rest)`. -/
def throwAt {α : Type} (msg : String) (rest : Text) : Except ParseStop α := .error (.thrown ⟨msg, rest⟩)

/-- The inner loop of `decode_utf8`, with `n` bytes to go. -/
def decodeCharTail : ℕ → Text → ℕ → ℕ × Text
  | 0, pos, value => (value, pos)
  | n + 1, pos, value =>
    if pos.cur = 0 then (value, pos) else decodeCharTail n pos.tail ((value * 64 + pos.cur.toNat % 64) % 2 ^ 32)

/-- `decode_utf8` of one character, which "assumes valid utf8 (but checks for overrun)". -/
def decodeChar (src : Text) : ℕ × Text :=
  let firstByte := src.cur.toNat
  let len := [1, 1, 1, 1, 1, 1, 1, 1, 1, 1, 1, 1, 2, 2, 3, 4].getD (firstByte / 16) 0
  decodeCharTail (len - 1) src.tail (firstByte % 2 ^ (8 - len))

def hexDigit (c : UInt8) : Option ℕ :=
  if 97 ≤ c ∧ c ≤ 102 then some (c.toNat - 97 + 10)
  else if 65 ≤ c ∧ c ≤ 70 then some (c.toNat - 65 + 10)
  else if 48 ≤ c ∧ c ≤ 57 then some (c.toNat - 48)
  else none

/-- The loop of `parse_hex`; `none` if there are fewer digits. -/
def hexLoop : ℕ → Text → ℕ → Option (ℕ × Text)
  | 0, pos, value => some (value, pos)
  | n + 1, pos, value =>
    match hexDigit pos.cur with
    | some d => hexLoop n pos.tail ((value * 16 + d) % 2 ^ 32)
    | none => none

/-- `parse_hex`. -/
def parseHex (src : Text) (size : ℕ) : Except ParseStop (ℕ × Text) :=
  match hexLoop size src 0 with
  | some r => .ok r
  | none => throwAt ("expecting " ++ toString size ++ " hex chars at ") src

/-- `parse_space`; `comment` says that the loop over a comment is running. -/
def parseSpace (newlineOk : Bool) : Bool → Text → Text
  | _, [] => []
  | comment, c :: pos =>
    if comment ∧ c ≠ 0 ∧ ¬ isNewline c then parseSpace newlineOk true pos
    else if c = 35 then parseSpace newlineOk true pos
    else if c = 32 ∨ c = 9 ∨ newlineOk ∧ isNewline c then parseSpace newlineOk false pos
    else c :: pos

/-- `parse_name`: the name, and the pointer behind it. -/
def parseName (src : Text) : Except ParseStop (Text × Text) :=
  if isWordChar src.cur then .ok (src.takeWhile isWordChar, src.dropWhile isWordChar)
  else throwAt "expecting name at " src

/-- `parse_int`: the digits, and the pointer behind them. -/
def parseInt (src : Text) : Except ParseStop (Text × Text) :=
  if isDigitChar src.cur then .ok (src.takeWhile isDigitChar, src.dropWhile isDigitChar)
  else throwAt "expecting integer at " src

/-- `int n = std::stoul(digits)`: the number has to fit 64 bits, and is then cut to an `int`. -/
def stoul (digits : Text) : Except ParseStop ℤ :=
  let n : ℕ := digits.foldl (fun n c => n * 10 + (c.toNat - 48)) 0
  if n < 2 ^ 64 then .ok (Int.bmod n (2 ^ 32)) else throwAt "stoul" []

/-- `parse_char`. -/
def parseChar (src : Text) : Except ParseStop (ℕ × Text) :=
  if src.cur = 92 then
    let c := src.at_ 1
    if c = 120 then parseHex (src.drop 2) 2
    else if c = 117 then parseHex (src.drop 2) 4
    else if c = 85 then parseHex (src.drop 2) 8
    else if c = 116 then .ok (9, src.drop 2)
    else if c = 114 then .ok (13, src.drop 2)
    else if c = 110 then .ok (10, src.drop 2)
    else if c = 92 ∨ c = 34 ∨ c = 91 ∨ c = 93 then .ok (c.toNat, src.drop 2)
    else throwAt "unknown escape at " src
  else if src.cur ≠ 0 then .ok (decodeChar src)
  else throwAt "unexpected end of input" []

/-! ### Symbols and rules -/

end Grammar

namespace Parser

/-- `static_cast<uint32_t>(symbol_ids.size())`. -/
def nextId (st : Parser) : ℕ := st.symbolIds.length % 2 ^ 32

/-- `get_symbol_id`. -/
def getSymbolId (st : Parser) (name : Text) : ℕ × Parser :=
  match st.symbolIds.lookup name with
  | some id => (id, st)
  | none => (st.nextId, { st with symbolIds := st.symbolIds ++ [(name, st.nextId)] })

/-- `base_name + '_' + std::to_string(next_id)`. -/
def symbolName (baseName : Text) (id : ℕ) : Text :=
  baseName ++ 95 :: (Nat.toDigits 10 id).map fun c => UInt8.ofNat c.toNat

/-- `generate_symbol_id`. -/
def generateSymbolId (st : Parser) (baseName : Text) : ℕ × Parser :=
  let name := symbolName baseName st.nextId
  (st.nextId, { st with symbolIds := (st.symbolIds.filter fun kv => kv.1 ≠ name) ++ [(name, st.nextId)] })

/-- `add_rule`. -/
def addRule (st : Parser) (ruleId : ℕ) (rule : List Element) : Parser :=
  { st with rules := (st.rules ++ List.replicate (ruleId + 1 - st.rules.length) []).set ruleId rule }

end Parser

namespace Grammar

/-! ### Repetitions -/

/-- The loop of `handle_repetitions` that adds the rules `S'`, `n` of them left; `first` says that it is the first
round, `lastId` is `last_rec_rule_id`. -/
def recursiveRules (ruleName : Text) (prevRule : List Element) (maxTimes : ℤ) :
    ℕ → Bool → ℕ → Parser → ℕ × Parser
  | 0, _, lastId, st => (lastId, st)
  | n + 1, first, lastId, st =>
    let r := st.generateSymbolId ruleName
    let ref : List Element :=
      if ¬ first ∨ maxTimes < 0 then [⟨.ruleRef, if maxTimes < 0 then r.1 else lastId⟩] else []
    let recRule := prevRule ++ ref ++ [⟨.alt, 0⟩, ⟨.endOfRule, 0⟩]
    recursiveRules ruleName prevRule maxTimes n false r.1 (r.2.addRule r.1 recRule)

/-- `handle_repetitions`.  The difference of the counts is that of two `int`s. -/
def handleRepetitions (ruleName : Text) (pos : Text) (rule : List Element) (lastSymStart : ℕ)
    (minTimes maxTimes : ℤ) (st : Parser) : Except ParseStop (List Element × Parser) :=
  if lastSymStart = rule.length then throwAt "expecting preceding item to */+/?/\x7b at " pos
  else
    let prevRule := rule.drop lastSymStart
    let rule := if minTimes = 0 then rule.take lastSymStart
      else rule ++ (List.replicate (minTimes - 1).toNat prevRule).flatten
    let nOpt : ℤ := if maxTimes < 0 then 1 else Int.bmod (maxTimes - minTimes) (2 ^ 32)
    let r := recursiveRules ruleName prevRule maxTimes nOpt.toNat true 0 st
    .ok (if 0 < nOpt then rule ++ [⟨.ruleRef, r.1⟩] else rule, r.2)

/-! ### Sequences -/

def literalLoop : ℕ → Text → List Element → Except ParseStop (Text × List Element)
  | 0, _, _ => .error .outOfFuel
  | fuel + 1, pos, rule =>
    if pos.cur = 34 then .ok (pos, rule)
    else if pos.cur = 0 then throwAt "unexpected end of input" []
    else do
      let charPair ← parseChar pos
      literalLoop fuel charPair.2 (rule ++ [⟨.char, charPair.1⟩])

def classLoop (startType : Gretype) (lastSymStart : ℕ) :
    ℕ → Text → List Element → Except ParseStop (Text × List Element)
  | 0, _, _ => .error .outOfFuel
  | fuel + 1, pos, rule =>
    if pos.cur = 93 then .ok (pos, rule)
    else if pos.cur = 0 then throwAt "unexpected end of input" []
    else do
      let charPair ← parseChar pos
      let type := if lastSymStart < rule.length then .charAlt else startType
      let rule := rule ++ [⟨type, charPair.1⟩]
      let pos := charPair.2
      if pos.at_ 0 = 45 ∧ pos.at_ 1 ≠ 93 then
        if pos.at_ 1 = 0 then throwAt "unexpected end of input" []
        else do
          let endcharPair ← parseChar pos.tail
          classLoop startType lastSymStart fuel endcharPair.2 (rule ++ [⟨.charRngUpper, endcharPair.1⟩])
      else classLoop startType lastSymStart fuel pos rule

def parseCounts (isNested : Bool) (pos : Text) : Except ParseStop (ℤ × ℤ × Text) := do
  let pos := parseSpace isNested false pos
  if ¬ isDigitChar pos.cur then throwAt "expecting an int at " pos
  else do
    let (digits, intEnd) ← parseInt pos
    let minTimes ← stoul digits
    let pos := parseSpace isNested false intEnd
    if pos.cur = 125 then return (minTimes, minTimes, parseSpace isNested false pos.tail)
    else if pos.cur = 44 then do
      let pos := parseSpace isNested false pos.tail
      let (maxTimes, pos) ← if isDigitChar pos.cur then do
          let (digits, intEnd) ← parseInt pos
          let maxTimes ← stoul digits
          pure (maxTimes, parseSpace isNested false intEnd)
        else pure (-1, pos)
      if pos.cur ≠ 125 then throwAt "expecting '\x7d' at " pos
      else return (minTimes, maxTimes, parseSpace isNested false pos.tail)
    else throwAt "expecting ',' at " pos

/-- The loop of `parse_sequence`; `group` parses the alternates of a group into the rule with the given id. -/
def sequenceLoop (group : Text → ℕ → Parser → Except ParseStop (Text × Parser)) (ruleName : Text)
    (isNested : Bool) : ℕ → Text → List Element → ℕ → Parser → Except ParseStop (Text × List Element × Parser)
  | 0, _, _, _, _ => .error .outOfFuel
  | fuel + 1, pos, rule, lastSymStart, st =>
    let space := parseSpace isNested false
    if pos.cur = 0 then .ok (pos, rule, st)
    else if pos.cur = 34 then do -- literal string
      let (pos', rule') ← literalLoop fuel pos.tail rule
      sequenceLoop group ruleName isNested fuel (space pos'.tail) rule' rule.length st
    else if pos.cur = 91 then do -- char range(s)
      let pos : Text := pos.tail
      let negated := pos.cur = 94
      let (pos', rule') ← classLoop (if negated then .charNot else .char) rule.length fuel
        (if negated then pos.tail else pos) rule
      sequenceLoop group ruleName isNested fuel (space pos'.tail) rule' rule.length st
    else if isWordChar pos.cur then do -- rule reference
      let (name, nameEnd) ← parseName pos
      let (refRuleId, st) := st.getSymbolId name
      sequenceLoop group ruleName isNested fuel (space nameEnd) (rule ++ [⟨.ruleRef, refRuleId⟩]) rule.length st
    else if pos.cur = 40 then do -- grouping
      let pos := parseSpace true false pos.tail
      let (subRuleId, st) := st.generateSymbolId ruleName
      let (pos, st) ← group pos subRuleId st
      if pos.cur ≠ 41 then throwAt "expecting ')' at " pos
      else sequenceLoop group ruleName isNested fuel (space pos.tail) (rule ++ [⟨.ruleRef, subRuleId⟩]) rule.length st
    else if pos.cur = 46 then -- any char
      sequenceLoop group ruleName isNested fuel (space pos.tail) (rule ++ [⟨.charAny, 0⟩]) rule.length st
    else if pos.cur = 42 then do
      let pos := space pos.tail
      let (rule, st) ← handleRepetitions ruleName pos rule lastSymStart 0 (-1) st
      sequenceLoop group ruleName isNested fuel pos rule lastSymStart st
    else if pos.cur = 43 then do
      let pos := space pos.tail
      let (rule, st) ← handleRepetitions ruleName pos rule lastSymStart 1 (-1) st
      sequenceLoop group ruleName isNested fuel pos rule lastSymStart st
    else if pos.cur = 63 then do
      let pos := space pos.tail
      let (rule, st) ← handleRepetitions ruleName pos rule lastSymStart 0 1 st
      sequenceLoop group ruleName isNested fuel pos rule lastSymStart st
    else if pos.cur = 123 then do
      let (minTimes, maxTimes, pos) ← parseCounts isNested pos.tail
      let (rule, st) ← handleRepetitions ruleName pos rule lastSymStart minTimes maxTimes st
      sequenceLoop group ruleName isNested fuel pos rule lastSymStart st
    else .ok (pos, rule, st)

/-! ### Rules -/

/-- The loop of `parse_alternates`; `sequence` is `parse_sequence`. -/
def alternatesLoop (sequence : Text → List Element → Parser → Except ParseStop (Text × List Element × Parser)) :
    ℕ → Text → List Element → Parser → Except ParseStop (Text × List Element × Parser)
  | 0, _, _, _ => .error .outOfFuel
  | fuel + 1, pos, rule, st =>
    if pos.cur = 124 then do
      let (pos, rule, st) ← sequence (parseSpace true false pos.tail) (rule ++ [⟨.alt, 0⟩]) st
      alternatesLoop sequence fuel pos rule st
    else .ok (pos, rule, st)

/-- `parse_alternates`. -/
def parseAlternates (ruleName : Text) : ℕ → Bool → Text → ℕ → Parser → Except ParseStop (Text × Parser)
  | 0, _, _, _, _ => .error .outOfFuel
  | fuel + 1, isNested, src, ruleId, st => do
    -- `parse_sequence`, where the last symbol starts at the end of what is there
    let sequence := fun pos rule st =>
      sequenceLoop (parseAlternates ruleName fuel true) ruleName isNested fuel pos rule rule.length st
    let (pos, rule, st) ← sequence src [] st
    let (pos, rule, st) ← alternatesLoop sequence fuel pos rule st
    return (pos, st.addRule ruleId (rule ++ [⟨.endOfRule, 0⟩]))

/-- `parse_rule`. -/
def parseRule (fuel : ℕ) (src : Text) (st : Parser) : Except ParseStop (Text × Parser) := do
  let (name, nameEnd) ← parseName src
  let pos := parseSpace false false nameEnd
  let (ruleId, st) := st.getSymbolId name
  if ¬ (pos.at_ 0 = 58 ∧ pos.at_ 1 = 58 ∧ pos.at_ 2 = 61) then throwAt "expecting ::= at " pos
  else do
    let (pos, st) ← parseAlternates name fuel false (parseSpace true false (pos.drop 3)) ruleId st
    if pos.cur = 13 then
      return (parseSpace true false (pos.drop (if pos.at_ 1 = 10 then 2 else 1)), st)
    else if pos.cur = 10 then return (parseSpace true false pos.tail, st)
    else if pos.cur ≠ 0 then throwAt "expecting newline or end at " pos
    else return (parseSpace true false pos, st)

/-- The loop of `parse` over the rules. -/
def rulesLoop : ℕ → Text → Parser → Except ParseStop Parser
  | 0, _, _ => .error .outOfFuel
  | fuel + 1, pos, st =>
    if pos.cur = 0 then .ok st
    else do
      let (pos, st) ← parseRule fuel pos st
      rulesLoop fuel pos st

/-- What `parse` checks of an element: a reference is to a rule that has been defined.  A reference without a name
is let through. -/
def validateElement (st : Parser) (e : Element) : Except ParseStop Unit :=
  if e.type = .ruleRef ∧ (st.rules.length ≤ e.value ∨ st.rules.getD e.value [] = []) then
    match st.symbolIds.find? fun kv => kv.2 = e.value with
    | some kv => throwAt "Undefined rule identifier '" kv.1
    | none => .ok ()
  else .ok ()

/-- What `parse` checks of a rule. -/
def validateRule (st : Parser) (rule : List Element) : Except ParseStop Unit :=
  if rule = [] then throwAt "Undefined rule" []
  else rule.forM (validateElement st)

/-- `parse`, where it returns true: the parser afterwards. -/
def parse (fuel : ℕ) (src : Text) : Except ParseStop Parser := do
  let st ← rulesLoop fuel (parseSpace true false src) ⟨[], []⟩
  -- validate the state to ensure that all rules are defined
  st.rules.forM (validateRule st)
  return st

end Grammar
