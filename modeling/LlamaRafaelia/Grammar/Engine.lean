import Mathlib.Data.List.Basic
import Mathlib.Logic.Function.Basic
import Mathlib.Data.Int.Notation
import Mathlib.Data.Nat.Notation

/-!
# The grammar engine (`llama-grammar.cpp`)

A grammar is a list of rules, each an array of elements.  The engine is a pushdown automaton that follows all ways
through it at once: `llama_grammar_advance_stack` brings the top of a stack to a character class, and
`llama_grammar_accept` keeps the stacks whose top matches the next code point.  A pointer is a rule and an index into
it (`Pos`); the recursion of `advance_stack` takes fuel, and `Stop.abort` is a failed `GGML_ASSERT`.
-/

/-- `llama_gretype`. -/
inductive Gretype where
  /-- end of rule definition -/
  | endOfRule
  /-- start of alternate definition for rule -/
  | alt
  /-- reference to rule -/
  | ruleRef
  /-- character (code point) -/
  | char
  /-- inverse characters -/
  | charNot
  /-- makes the preceding element an inclusive range -/
  | charRngUpper
  /-- adds an alternate character to the preceding element -/
  | charAlt
  /-- any character -/
  | charAny
  deriving DecidableEq, Repr

/-- `llama_grammar_element`: the value is a code point or a rule. -/
structure Element where
  type : Gretype
  value : ℕ
  deriving DecidableEq, Repr

/-- `llama_grammar_rules`. -/
abbrev Rules := List (List Element)

/-- A pointer to an element of the rules. -/
structure Pos where
  rule : ℕ
  idx : ℕ
  deriving DecidableEq, Repr

/-- `llama_grammar_stack`, the top first. -/
abbrev Stack := List Pos

/-- Why a call does not return. -/
inductive Stop where
  | outOfFuel
  | abort
  deriving DecidableEq, Repr

/-- `llama_partial_utf8`. -/
structure PartialUtf8 where
  value : ℕ
  nRemain : ℤ
  deriving DecidableEq, Repr

/-- `llama_grammar`.  The triggers are left out, but for the flag that the grammar still waits for one. -/
structure Grammar where
  rules : Rules
  /-- `stacks`, which is a reserved word here -/
  stackSet : List Stack
  partialUtf8 : PartialUtf8
  awaitingTrigger : Bool
  deriving DecidableEq, Repr

namespace Rules

variable (rules : Rules)

def elemsAt (p : Pos) : List Element := (rules.getD p.rule []).drop p.idx

def elemAt (p : Pos) : Element := (rules.elemsAt p).headD ⟨.endOfRule, 0⟩

end Rules

namespace Pos

/-- `pos + n`. -/
def add (p : Pos) (n : ℕ) : Pos := ⟨p.rule, p.idx + n⟩

end Pos

namespace Grammar

/-- `llama_grammar_is_end_of_sequence`. -/
def isEndOfSequence (e : Element) : Bool := e.type = .endOfRule ∨ e.type = .alt

/-! ### Characters -/

/-- The loop of `llama_grammar_match_char`: whether one of the characters or ranges was found, and the number of
elements that were passed. -/
def matchLoop (chr : ℕ) : List Element → Bool → ℕ → Bool × ℕ
  | [], found, n => (found, n)
  | [e], found, n => (found || decide (e.type = .charAny) || decide (e.value = chr), n + 1)
  | e :: u :: es, found, n =>
    if u.type = .charRngUpper then
      -- inclusive range, e.g. [a-z]
      let found := found || decide (e.value ≤ chr ∧ chr ≤ u.value)
      if (es.headD ⟨.endOfRule, 0⟩).type = .charAlt then matchLoop chr es found (n + 2) else (found, n + 2)
    else
      -- any character matches ".", else exact char match
      let found := if e.type = .charAny then true else found || decide (e.value = chr)
      if u.type = .charAlt then matchLoop chr (u :: es) found (n + 1) else (found, n + 1)

/-- `llama_grammar_match_char`: whether `chr` satisfies the char range at `p`, and the pointer behind it. -/
def matchChar (rules : Rules) (p : Pos) (chr : ℕ) : Except Stop (Bool × Pos) :=
  let e := rules.elemAt p
  let isPositiveChar := decide (e.type = .char ∨ e.type = .charAny)
  if isPositiveChar ∨ e.type = .charNot then
    let r := matchLoop chr (rules.elemsAt p) false 0
    .ok (r.1 == isPositiveChar, p.add r.2)
  else .error .abort

/-! ### Stacks -/

/-- The starts of the alternates behind the element with index `i - 1`. -/
def altsFrom : List Element → ℕ → List ℕ
  | [], _ => []
  | e :: es, i =>
    match e.type with
    | .endOfRule => []
    | .alt => (i + 1) :: altsFrom es (i + 1)
    | _ => altsFrom es (i + 1)

def altStarts (rule : List Element) : List ℕ := 0 :: altsFrom rule 0

/-- A stack with `p` on top, unless `p` is the end of an alternate. -/
def push (rules : Rules) (p : Pos) (stack : Stack) : Stack :=
  if isEndOfSequence (rules.elemAt p) then stack else p :: stack

/-- The stacks that the loop of `llama_grammar_advance_stack` goes on with, for a rule reference at `p`: the
element behind it is next, and before that one of the alternates of the rule. -/
def expansions (rules : Rules) (p : Pos) (rest : Stack) : List Stack :=
  let r := (rules.elemAt p).value
  (altStarts (rules.getD r [])).map fun i => push rules ⟨r, i⟩ (push rules (p.add 1) rest)

/-- Adds a stack, "only if it's not a duplicate of one we already have". -/
def addNew (stack : Stack) (newStacks : List Stack) : List Stack :=
  if stack ∈ newStacks then newStacks else newStacks ++ [stack]

/-- `llama_grammar_advance_stack`. -/
def advanceStack (rules : Rules) : ℕ → Stack → List Stack → Except Stop (List Stack)
  | 0, _, _ => .error .outOfFuel
  | _ + 1, [], newStacks => .ok (addNew [] newStacks)
  | fuel + 1, p :: rest, newStacks =>
    match (rules.elemAt p).type with
    | .ruleRef =>
      (expansions rules p rest).foldlM (fun newStacks stack => advanceStack rules fuel stack newStacks) newStacks
    | .char => .ok (addNew (p :: rest) newStacks)
    | .charNot => .ok (addNew (p :: rest) newStacks)
    | .charAny => .ok (addNew (p :: rest) newStacks)
    | _ => .error .abort

/-- What `llama_grammar_accept` does with one stack. -/
def acceptStack (fuel : ℕ) (rules : Rules) (chr : ℕ) (stacksNew : List Stack) :
    Stack → Except Stop (List Stack)
  | [] => .ok stacksNew
  | p :: rest => do
    let m ← matchChar rules p chr
    -- update top of stack to next element, if any
    if m.1 then advanceStack rules fuel (push rules m.2 rest) stacksNew else .ok stacksNew

/-- `llama_grammar_accept`. -/
def accept (fuel : ℕ) (g : Grammar) (chr : ℕ) : Except Stop Grammar := do
  let stacksNew ← g.stackSet.foldlM (acceptStack fuel g.rules chr) []
  return { g with stackSet := stacksNew }

/-! ### Left recursion -/

/-- The three arrays of flags of `llama_grammar_detect_left_recursion`. -/
structure Marks where
  visited : ℕ → Bool
  inProgress : ℕ → Bool
  mayBeEmpty : ℕ → Bool

/-- The first loop of `llama_grammar_detect_left_recursion`: whether an alternate is empty. -/
def hasEmptyAlt : List Element → Bool → Bool
  | [], _ => false
  | e :: es, atRuleStart =>
    if isEndOfSequence e then if atRuleStart then true else hasEmptyAlt es true else hasEmptyAlt es false

/-- The second loop: "recurse into leftmost nonterminals (or next-leftmost as long as the previous nonterminal may
be empty)".  `detect` is the recursive call. -/
def detectLoop (detect : ℕ → Marks → Except Stop (Bool × Marks)) :
    List Element → Bool → Marks → Except Stop (Bool × Marks)
  | [], _, m => .ok (false, m)
  | e :: es, recurse, m =>
    if e.type = .ruleRef ∧ recurse then do
      let r ← detect e.value m
      if r.1 then return (true, r.2) else detectLoop detect es (r.2.mayBeEmpty e.value) r.2
    else detectLoop detect es (isEndOfSequence e) m

/-- `llama_grammar_detect_left_recursion`. -/
def detectLeftRecursion (rules : Rules) : ℕ → ℕ → Marks → Except Stop (Bool × Marks)
  | 0, _, _ => .error .outOfFuel
  | fuel + 1, r, m =>
    if m.inProgress r then .ok (true, m)
    else do
      let rule := rules.getD r []
      let m := { m with inProgress := Function.update m.inProgress r true }
      let m := if hasEmptyAlt rule true then { m with mayBeEmpty := Function.update m.mayBeEmpty r true } else m
      let res ← detectLoop (detectLeftRecursion rules fuel) rule true m
      if res.1 then return (true, res.2)
      else
        return (false, { res.2 with
          inProgress := Function.update res.2.inProgress r false
          visited := Function.update res.2.visited r true })

/-! ### A new grammar -/

/-- The copy of a rule, which ends at its first `LLAMA_GRETYPE_END`. -/
def copyRule (rule : List Element) : List Element :=
  rule.takeWhile (fun e => e.type ≠ .endOfRule) ++ [⟨.endOfRule, 0⟩]

/-- The check of all rules, `rs` of them left.  The recursion is at most as deep as there are rules. -/
def checkRules (rules : Rules) : List ℕ → Marks → Except Stop Bool
  | [], _ => .ok false
  | r :: rs, m =>
    if m.visited r then checkRules rules rs m
    else do
      let res ← detectLeftRecursion rules (rules.length + 1) r m
      if res.1 then return true else checkRules rules rs res.2

/-- The check of `llama_grammar_init_impl` for left recursion. -/
def isLeftRecursive (rules : Rules) : Except Stop Bool :=
  checkRules rules (List.range rules.length) ⟨fun _ => false, fun _ => false, fun _ => false⟩

/-- The loop of `llama_grammar_init_impl` over the alternates of the start rule. -/
def initialStacks (fuel : ℕ) (rules : Rules) (start : ℕ) : Except Stop (List Stack) :=
  (altStarts (rules.getD start [])).foldlM
    (fun newStacks i => advanceStack rules fuel (push rules ⟨start, i⟩ []) newStacks) []

/-- `llama_grammar_init_impl`; `none` is the null pointer. -/
def initImpl (fuel : ℕ) (rules : Rules) (start : ℕ) : Except Stop (Option Grammar) := do
  let vecRules := rules.map copyRule
  if ← isLeftRecursive vecRules then return none
  else
    let stackSet ← initialStacks fuel vecRules start
    return some ⟨vecRules, stackSet, ⟨0, 0⟩, false⟩

end Grammar
