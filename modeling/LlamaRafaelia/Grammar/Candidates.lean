import LlamaRafaelia.Grammar.Language
import Mathlib.Order.WithBot
import Mathlib.Data.Nat.Bitwise
import Mathlib.Algebra.Order.BigOperators.Group.List
import Mathlib.Algebra.Order.Group.Nat

/-!
# Tokens against a grammar

`decode_utf8` turns a token into code points, with a zero behind the last one.  The mask (`llama_grammar_apply_impl`)
follows all candidate tokens at once through every stack and stops at a zero; acceptance (`llama_grammar_accept_str`)
changes the stacks for each code point.

* **`rejectCandidates_spec`** — a candidate is rejected exactly if no stack can read it, whatever the other
  candidates are.
* **`acceptStr_spec`** — acceptance throws exactly if no stack can read the code points.
-/

namespace Grammar

open List

/-! ### `decode_utf8` -/

/-- The bytes of a C string: `*pos` is zero behind them. -/
def cString (src : List UInt8) : List ℕ := (src.map UInt8.toNat).takeWhile (· ≠ 0)

/-- The table of `decode_utf8`, at the high bits of a first byte: the length of the sequence. -/
def lookup (highbits : ℕ) : ℤ := [1, 1, 1, 1, 1, 1, 1, 1, 0, 0, 0, 0, 2, 2, 3, 4].getD highbits 0

def shiftIn (value byte : ℕ) : ℕ := (value * 64 + byte % 64) % 2 ^ 32

/-- The first loop of `decode_utf8`, which continues the previous decode; `none` if the sequence is invalid. -/
def continueDecode : List ℕ → ℕ → ℤ → Option (List ℕ × ℕ × ℤ)
  | [], value, nRemain => some ([], value, nRemain)
  | b :: bs, value, nRemain =>
    if 0 < nRemain then if b / 64 ≠ 2 then none else continueDecode bs (shiftIn value b) (nRemain - 1)
    else some (b :: bs, value, nRemain)

/-- The inner loop of `decode_utf8`, behind a first byte. -/
def decodeTail : List ℕ → ℕ → ℤ → List ℕ × ℕ × ℤ
  | [], value, nRemain => ([], value, nRemain)
  | b :: bs, value, nRemain =>
    if 0 < nRemain then decodeTail bs (shiftIn value b) (nRemain - 1) else (b :: bs, value, nRemain)

/-- The outer loop of `decode_utf8`.  Every round takes a byte, so there are at most `fuel` of them. -/
def decodeLoop : ℕ → List ℕ → List ℕ → PartialUtf8 → List ℕ × PartialUtf8
  | 0, _, codePoints, st => (codePoints ++ [0], st)
  | _ + 1, [], codePoints, st => (codePoints ++ [0], st)
  | fuel + 1, firstByte :: bs, codePoints, _ =>
    let nRemain := lookup (firstByte / 16) - 1
    -- invalid sequence, abort
    if nRemain < 0 then ([0], ⟨0, nRemain⟩)
    else
      let mask := 2 ^ (7 - nRemain.toNat)
      let r := decodeTail bs (firstByte % mask) nRemain
      decodeLoop fuel r.1 (if r.2.2 = 0 then codePoints ++ [r.2.1] else codePoints) ⟨r.2.1, r.2.2⟩

/-- `decode_utf8` of a string, in parts: "which may end in an incomplete one". -/
def decodeUtf8 (src : List UInt8) (partialStart : PartialUtf8) : List ℕ × PartialUtf8 :=
  match continueDecode (cString src) partialStart.value partialStart.nRemain with
  | none => ([0], ⟨0, -1⟩)
  | some (rest, value, nRemain) =>
    let codePoints := if 0 < partialStart.nRemain ∧ nRemain = 0 then [value] else []
    decodeLoop rest.length rest codePoints ⟨value, nRemain⟩

theorem decodeLoop_ends (fuel : ℕ) (bs cps : List ℕ) (st : PartialUtf8) :
    ∃ l, (decodeLoop fuel bs cps st).1 = l ++ [0] := by
  induction fuel generalizing bs cps st with
  | zero => exact ⟨cps, rfl⟩
  | succ fuel ih =>
    cases bs with
    | nil => exact ⟨cps, rfl⟩
    | cons b bs =>
      rw [decodeLoop]
      split
      · exact ⟨[], rfl⟩
      · exact ih _ _ _

theorem decodeUtf8_ends (src : List UInt8) (st : PartialUtf8) : ∃ l, (decodeUtf8 src st).1 = l ++ [0] := by
  unfold decodeUtf8
  split
  · exact ⟨[], rfl⟩
  · exact decodeLoop_ends _ _ _ _

/-! ### `match_partial_char` -/

/-- The loop of `llama_grammar_match_partial_char`, for the code points from `low` to `high`. -/
def matchPartialLoop (low high : ℕ) (isPositiveChar : Bool) : List Element → Bool
  | [] => !isPositiveChar
  | [e] =>
    if e.type = .charAny then true
    else if low ≤ e.value ∧ e.value ≤ high then isPositiveChar else !isPositiveChar
  | e :: u :: es =>
    if u.type = .charRngUpper then
      -- inclusive range, e.g. [a-z]
      if e.value ≤ high ∧ low ≤ u.value then isPositiveChar
      else if (es.headD ⟨.endOfRule, 0⟩).type = .charAlt then matchPartialLoop low high isPositiveChar es
      else !isPositiveChar
    else if e.type = .charAny then true
    -- exact char match, e.g. [a] or "a"
    else if low ≤ e.value ∧ e.value ≤ high then isPositiveChar
    else if u.type = .charAlt then matchPartialLoop low high isPositiveChar (u :: es)
    else !isPositiveChar

/-- `llama_grammar_match_partial_char`: whether "some continuation of the given partial UTF-8 sequence could satisfy
the char range" at `p`. -/
def matchPartialChar (rules : Rules) (p : Pos) (st : PartialUtf8) : Except Stop Bool :=
  let e := rules.elemAt p
  let isPositiveChar := decide (e.type = .char ∨ e.type = .charAny)
  if isPositiveChar ∨ e.type = .charNot then
    -- invalid sequence or 7-bit char split across 2 bytes (overlong)
    if st.nRemain < 0 ∨ st.nRemain = 1 ∧ st.value < 2 then .ok false
    else
      let n := st.nRemain.toNat
      let low := (st.value * 2 ^ (n * 6)) % 2 ^ 32
      let high := low ||| (2 ^ (n * 6) - 1)
      let low := if low = 0 then if n = 2 then 2 ^ 11 else if n = 3 then 2 ^ 16 else low else low
      .ok (matchPartialLoop low high isPositiveChar (rules.elemsAt p))
  else .error .abort

/-! ### `reject_candidates` -/

/-- `llama_grammar_candidate`: `code_points` points into the decoded token. -/
structure Candidate where
  index : ℕ
  decoded : List ℕ
  off : ℕ
  partialUtf8 : PartialUtf8
  deriving DecidableEq, Repr

namespace Candidate

/-- `*tok.code_points`. -/
def chr (tok : Candidate) : ℕ := tok.decoded.getD tok.off 0

/-- `tok.code_points + 1`. -/
def next (tok : Candidate) : Candidate := { tok with off := tok.off + 1 }

/-- `tok.code_points - 1`. -/
def prev (tok : Candidate) : Candidate := { tok with off := tok.off - 1 }

end Candidate

/-- The loop of `llama_grammar_reject_candidates_for_stack` over the candidates, with element `p` on the stack: those
that are rejected here, and those that go on. -/
def sortCandidates (rules : Rules) (p : Pos) :
    List Candidate → List Candidate → List Candidate → Except Stop (List Candidate × List Candidate)
  | [], rejects, nextCandidates => .ok (rejects, nextCandidates)
  | tok :: toks, rejects, nextCandidates =>
    if tok.chr = 0 then
      -- "reject iff it ended in a partial sequence that cannot satisfy this position in grammar"
      if tok.partialUtf8.nRemain = 0 then sortCandidates rules p toks rejects nextCandidates
      else do
        let fits ← matchPartialChar rules p tok.partialUtf8
        sortCandidates rules p toks (if fits then rejects else rejects ++ [tok]) nextCandidates
    else do
      let m ← matchChar rules p tok.chr
      if m.1 then sortCandidates rules p toks rejects (nextCandidates ++ [tok.next])
      else sortCandidates rules p toks (rejects ++ [tok]) nextCandidates

/-- `llama_grammar_reject_candidates`; `forStack` is `llama_grammar_reject_candidates_for_stack`. -/
def rejectAll (forStack : Stack → List Candidate → Except Stop (List Candidate)) :
    List Stack → List Candidate → Except Stop (List Candidate)
  | [], _ => .error .abort
  | s :: ss, candidates =>
    if candidates = [] then .ok []
    else do
      let rejects ← forStack s candidates
      ss.foldlM (fun rejects s => forStack s rejects) rejects

/-- `llama_grammar_reject_candidates_for_stack`. -/
def rejectForStack (rules : Rules) : ℕ → Stack → List Candidate → Except Stop (List Candidate)
  | 0, _, _ => .error .outOfFuel
  | _ + 1, [], candidates => .ok (candidates.filter fun tok => tok.chr ≠ 0 ∨ tok.partialUtf8.nRemain ≠ 0)
  | fuel + 1, p :: rest, candidates => do
    let sorted ← sortCandidates rules p candidates [] []
    let after ← matchChar rules p 0
    -- update top of stack to next element, if any
    let nextStacks ← advanceStack rules fuel (push rules after.2 rest) []
    let nextRejects ← rejectAll (rejectForStack rules fuel) nextStacks sorted.2
    return sorted.1 ++ nextRejects.map Candidate.prev

/-- `llama_grammar_reject_candidates`. -/
def rejectCandidates (rules : Rules) (fuel : ℕ) (stackSet : List Stack) (candidates : List Candidate) :
    Except Stop (List Candidate) :=
  rejectAll (rejectForStack rules fuel) stackSet candidates

/-! ### The mask and acceptance -/

/-- What the functions below use of `llama_vocab`. -/
structure Pieces where
  tokenToPiece : ℕ → List UInt8
  isEog : ℕ → Bool

/-- `llama_token_data`; the logit `-INFINITY` is the bottom element. -/
structure TokenData (R : Type) where
  id : ℕ
  logit : WithBot R

variable {R : Type}

/-- `logit = -INFINITY`. -/
def TokenData.mask (t : TokenData R) : TokenData R := { t with logit := ⊥ }

/-- What `llama_grammar_apply_impl` does with a token by itself: the token after it, and its decoded piece if it is
a candidate. -/
def applyToken (vocab : Pieces) (g : Grammar) (allowEog : Bool) (t : TokenData R) :
    TokenData R × Option (List ℕ × PartialUtf8) :=
  let piece := vocab.tokenToPiece t.id
  if vocab.isEog t.id then (if allowEog then t else t.mask, none)
  else if piece = [] ∨ piece.headD 0 = 0 then (t.mask, none)
  else (t, some (decodeUtf8 piece g.partialUtf8))

/-- The candidates among the tokens from index `i` on. -/
def candidatesFrom (vocab : Pieces) (g : Grammar) (allowEog : Bool) : ℕ → List (TokenData R) → List Candidate
  | _, [] => []
  | i, t :: ts =>
    match (applyToken vocab g allowEog t).2 with
    | some d => ⟨i, d.1, 0, d.2⟩ :: candidatesFrom vocab g allowEog (i + 1) ts
    | none => candidatesFrom vocab g allowEog (i + 1) ts

/-- `llama_grammar_apply_impl`. -/
def applyImpl (fuel : ℕ) (vocab : Pieces) (g : Grammar) (cur : List (TokenData R)) :
    Except Stop (List (TokenData R)) :=
  if g.awaitingTrigger then .ok cur
  else do
    let allowEog := g.stackSet.any List.isEmpty
    let data := cur.map fun t => (applyToken vocab g allowEog t).1
    let rejects ← rejectCandidates g.rules fuel g.stackSet (candidatesFrom vocab g allowEog 0 cur)
    return rejects.foldl (fun data reject => data.modify reject.index TokenData.mask) data

/-- `llama_grammar_accept_str`, and whether it throws. -/
def acceptStr (fuel : ℕ) (g : Grammar) (piece : List UInt8) : Except Stop (Grammar × Bool) := do
  let decoded := decodeUtf8 piece g.partialUtf8
  let g ← decoded.1.dropLast.foldlM (accept fuel) g
  return ({ g with partialUtf8 := decoded.2 }, g.stackSet.isEmpty)

/-! ### What a candidate needs -/

namespace Candidate

def text (tok : Candidate) : List ℕ := (tok.decoded.drop tok.off).takeWhile (· ≠ 0)

theorem text_of_chr {tok : Candidate} (h : tok.chr = 0) : tok.text = [] := by
  unfold chr at h
  unfold text
  cases hdrop : tok.decoded.drop tok.off with
  | nil => rfl
  | cons c l =>
    have hc : tok.decoded.getD tok.off 0 = c := by
      rw [getD_eq_getElem?_getD, ← head?_drop, hdrop]
      rfl
    rw [hc] at h
    simp [h]

theorem text_of_chr_ne {tok : Candidate} (h : tok.chr ≠ 0) : tok.text = tok.chr :: tok.next.text := by
  unfold chr at h ⊢
  unfold text
  cases hdrop : tok.decoded.drop tok.off with
  | nil =>
    rw [getD_eq_getElem?_getD, ← head?_drop, hdrop] at h
    exact absurd rfl h
  | cons c l =>
    have hc : tok.decoded.getD tok.off 0 = c := by
      rw [getD_eq_getElem?_getD, ← head?_drop, hdrop]
      rfl
    have hl : tok.next.decoded.drop tok.next.off = l := by
      show tok.decoded.drop (tok.off + 1) = l
      rw [← drop_drop, hdrop]
      rfl
    rw [hc] at h ⊢
    rw [hl, takeWhile_cons_of_pos (by simpa using h)]

end Candidate

section

variable {rules : Rules} {p : Pos} {s t : Stack}

def Fits (rules : Rules) : Stack → PartialUtf8 → Prop
  | [], st => st.nRemain = 0
  | p :: _, st => st.nRemain = 0 ∨ matchPartialChar rules p st = .ok true

def Takes (rules : Rules) (s : Stack) (w : List ℕ) (st : PartialUtf8) : Prop :=
  ∃ t, Run rules s w t ∧ Fits rules t st

theorem takes_nil {st : PartialUtf8} : Takes rules s [] st ↔ Fits rules s st := by
  simp only [Takes, Run, exists_eq_left]

theorem takes_cons {st : PartialUtf8} {c : ℕ} {w : List ℕ} :
    Takes rules s (c :: w) st ↔ ∃ t, Next rules c s t ∧ Takes rules t w st := by
  constructor
  · rintro ⟨t, ⟨u, hnext, hrun⟩, hfits⟩
    exact ⟨u, hnext, t, hrun, hfits⟩
  · rintro ⟨u, hnext, t, hrun, hfits⟩
    exact ⟨t, ⟨u, hnext, hrun⟩, hfits⟩

theorem ClassTop.partial_ok {rest : Stack} {cls : CharClass} {q : Pos} (h : ClassTop rules p rest cls q)
    (st : PartialUtf8) : ∃ b, matchPartialChar rules p st = .ok b := by
  unfold matchPartialChar
  have htype : decide ((rules.elemAt p).type = .char ∨ (rules.elemAt p).type = .charAny) = true ∨
      (rules.elemAt p).type = .charNot := by
    rcases h.type with h | h | h
    · simp [h]
    · simp [h]
    · simp [h]
  rw [if_pos htype]
  split
  · exact ⟨_, rfl⟩
  · exact ⟨_, rfl⟩

def FailsHere (rules : Rules) (p : Pos) (cls : CharClass) (tok : Candidate) : Prop :=
  tok.chr = 0 ∧ tok.partialUtf8.nRemain ≠ 0 ∧ matchPartialChar rules p tok.partialUtf8 = .ok false ∨
    tok.chr ≠ 0 ∧ cls.mem tok.chr = false

/-- **One level of the pass**: the candidates are sorted by their next code point. -/
theorem sortCandidates_spec {rest : Stack} {cls : CharClass} {q : Pos} (h : ClassTop rules p rest cls q)
    (toks rejects next : List Candidate) :
    ∃ rejects' next', sortCandidates rules p toks rejects next = .ok (rejects ++ rejects', next ++ next') ∧
      (∀ tok, tok ∈ rejects' ↔ tok ∈ toks ∧ FailsHere rules p cls tok) ∧
      ∀ tok, tok ∈ next' ↔ ∃ tok' ∈ toks, tok'.chr ≠ 0 ∧ cls.mem tok'.chr = true ∧ tok = tok'.next := by
  induction toks generalizing rejects next with
  | nil => exact ⟨[], [], by simp [sortCandidates], by simp, by simp⟩
  | cons tok toks ih =>
    by_cases hchr : tok.chr = 0
    · by_cases hremain : tok.partialUtf8.nRemain = 0
      · obtain ⟨rejects', next', hval, hrej, hnext⟩ := ih rejects next
        refine ⟨rejects', next', by rw [sortCandidates, if_pos hchr, if_pos hremain, hval], fun u => ?_, fun u => ?_⟩
        · rw [hrej, mem_cons]
          refine ⟨fun hu => ⟨Or.inr hu.1, hu.2⟩, ?_⟩
          rintro ⟨rfl | hu, hfail⟩
          · rcases hfail with hfail | hfail
            · exact absurd hremain hfail.2.1
            · exact absurd hchr hfail.1
          · exact ⟨hu, hfail⟩
        · rw [hnext]
          simp only [mem_cons, exists_eq_or_imp, hchr, ne_eq, not_true_eq_false, false_and, false_or]
      · obtain ⟨b, hb⟩ := h.partial_ok tok.partialUtf8
        obtain ⟨rejects', next', hval, hrej, hnext⟩ := ih (if b then rejects else rejects ++ [tok]) next
        have hstep : sortCandidates rules p (tok :: toks) rejects next
            = .ok ((if b then rejects else rejects ++ [tok]) ++ rejects', next ++ next') := by
          rw [sortCandidates, if_pos hchr, if_neg hremain, hb]
          exact hval
        refine ⟨(if b then [] else [tok]) ++ rejects', next', ?_, fun u => ?_, fun u => ?_⟩
        · rw [hstep]
          cases b <;> simp
        · have hfails : FailsHere rules p cls tok ↔ b = false := by
            simp [FailsHere, hchr, hremain, hb]
          rw [mem_append, hrej, mem_cons]
          cases b with
          | true =>
            simp only [if_pos, not_mem_nil, false_or]
            refine ⟨fun hu => ⟨Or.inr hu.1, hu.2⟩, ?_⟩
            rintro ⟨rfl | hu, hfail⟩
            · exact absurd (hfails.mp hfail) (by decide)
            · exact ⟨hu, hfail⟩
          | false =>
            simp only [Bool.false_eq_true, if_false, mem_singleton]
            constructor
            · rintro (rfl | hu)
              · exact ⟨Or.inl rfl, hfails.mpr rfl⟩
              · exact ⟨Or.inr hu.1, hu.2⟩
            · rintro ⟨rfl | hu, hfail⟩
              · exact Or.inl rfl
              · exact Or.inr ⟨hu, hfail⟩
        · rw [hnext]
          simp only [mem_cons, exists_eq_or_imp, hchr, ne_eq, not_true_eq_false, false_and, false_or]
    · by_cases hmem : cls.mem tok.chr = true
      · obtain ⟨rejects', next', hval, hrej, hnext⟩ := ih rejects (next ++ [tok.next])
        have hstep : sortCandidates rules p (tok :: toks) rejects next
            = .ok (rejects ++ rejects', next ++ [tok.next] ++ next') := by
          rw [sortCandidates, if_neg hchr, h.matches_, hmem]
          exact hval
        refine ⟨rejects', tok.next :: next', by rw [hstep, append_assoc]; rfl, fun u => ?_, fun u => ?_⟩
        · rw [hrej, mem_cons]
          refine ⟨fun hu => ⟨Or.inr hu.1, hu.2⟩, ?_⟩
          rintro ⟨rfl | hu, hfail⟩
          · simp [FailsHere, hchr, hmem] at hfail
          · exact ⟨hu, hfail⟩
        · rw [mem_cons, hnext]
          simp only [mem_cons, exists_eq_or_imp, hchr, hmem, ne_eq, not_false_eq_true, true_and]
      · obtain ⟨rejects', next', hval, hrej, hnext⟩ := ih (rejects ++ [tok]) next
        have hstep : sortCandidates rules p (tok :: toks) rejects next
            = .ok (rejects ++ [tok] ++ rejects', next ++ next') := by
          rw [sortCandidates, if_neg hchr, h.matches_, Bool.eq_false_of_not_eq_true hmem]
          exact hval
        refine ⟨tok :: rejects', next', by rw [hstep, append_assoc]; rfl, fun u => ?_, fun u => ?_⟩
        · rw [mem_cons, hrej, mem_cons]
          constructor
          · rintro (rfl | hu)
            · exact ⟨Or.inl rfl, Or.inr ⟨hchr, Bool.eq_false_of_not_eq_true hmem⟩⟩
            · exact ⟨Or.inr hu.1, hu.2⟩
          · rintro ⟨rfl | hu, hfail⟩
            · exact Or.inl rfl
            · exact Or.inr ⟨hu, hfail⟩
        · rw [hnext]
          simp only [mem_cons, exists_eq_or_imp, hmem, ne_eq, Bool.false_eq_true, false_and, and_false,
            false_or]

/-! ### The whole pass -/

/-- With enough fuel the pass returns, and rejects the candidates that are not `good`; the candidates have at most
`n` code points left. -/
def Sifts (n : ℕ) (pass : ℕ → List Candidate → Except Stop (List Candidate)) (good : Candidate → Prop) : Prop :=
  ∃ F, ∀ toks : List Candidate, (∀ tok ∈ toks, tok.text.length ≤ n) → ∃ rejects,
    (∀ fuel ≥ F, pass fuel toks = .ok rejects) ∧ ∀ tok, tok ∈ rejects ↔ tok ∈ toks ∧ ¬ good tok

theorem foldlM_sifts {n : ℕ} {f : ℕ → Stack → List Candidate → Except Stop (List Candidate)}
    {good : Stack → Candidate → Prop} {l : List Stack} (h : ∀ s ∈ l, Sifts n (fun fuel => f fuel s) (good s)) :
    Sifts n (fun fuel toks => l.foldlM (fun rejects s => f fuel s rejects) toks) fun tok => ∃ s ∈ l, good s tok := by
  induction l with
  | nil => exact ⟨0, fun toks _ => ⟨toks, fun _ _ => rfl, by simp⟩⟩
  | cons s l ih =>
    obtain ⟨F, hF⟩ := h s mem_cons_self
    obtain ⟨F', hF'⟩ := ih fun u hu => h u (mem_cons_of_mem s hu)
    refine ⟨max F F', fun toks hlen => ?_⟩
    obtain ⟨rejects, hval, hmem⟩ := hF toks hlen
    obtain ⟨rejects', hval', hmem'⟩ := hF' rejects fun tok htok => hlen tok ((hmem tok).mp htok).1
    refine ⟨rejects', fun fuel hfuel => ?_, fun tok => ?_⟩
    · have hstep : f fuel s toks = .ok rejects := hval fuel (le_trans (le_max_left F F') hfuel)
      show (s :: l).foldlM (fun rejects s => f fuel s rejects) toks = .ok rejects'
      rw [foldlM_cons, hstep]
      exact hval' fuel (le_trans (le_max_right F F') hfuel)
    · rw [hmem', hmem]
      simp only [mem_cons, exists_eq_or_imp, not_or, and_assoc]

theorem rejectAll_sifts {n : ℕ} {f : ℕ → Stack → List Candidate → Except Stop (List Candidate)}
    {good : Stack → Candidate → Prop} {l : List Stack} (hne : l ≠ [])
    (h : ∀ s ∈ l, Sifts n (fun fuel => f fuel s) (good s)) :
    Sifts n (fun fuel => rejectAll (f fuel) l) fun tok => ∃ s ∈ l, good s tok := by
  obtain ⟨F, hF⟩ := foldlM_sifts h
  refine ⟨F, fun toks hlen => ?_⟩
  obtain ⟨rejects, hval, hmem⟩ := hF toks hlen
  cases l with
  | nil => exact absurd rfl hne
  | cons s l =>
    by_cases hnil : toks = []
    · subst hnil
      exact ⟨[], fun fuel _ => rfl, by simp⟩
    · refine ⟨rejects, fun fuel hfuel => ?_, hmem⟩
      show rejectAll (f fuel) (s :: l) toks = .ok rejects
      rw [rejectAll, if_neg hnil]
      exact hval fuel hfuel

section

variable (hwf : WellFormed rules)
  (hacc : ∀ α, Acc (fun β α => Leftmost.Expand (Produces rules) α β) α)

include hwf hacc

theorem rejectForStack_step {n : ℕ} (hs : Valid rules s) (hready : Ready rules s)
    (hdeep : ∀ l, l ≠ [] → Stacks rules l → ∃ F, ∀ toks : List Candidate, (∀ tok ∈ toks, tok.text.length < n) →
      ∃ rejects, (∀ fuel ≥ F, rejectAll (rejectForStack rules fuel) l toks = .ok rejects) ∧
        ∀ tok, tok ∈ rejects ↔ tok ∈ toks ∧ ¬ ∃ s ∈ l, Takes rules s tok.text tok.partialUtf8) :
    Sifts n (fun fuel => rejectForStack rules fuel s) fun tok => Takes rules s tok.text tok.partialUtf8 := by
  cases s with
  | nil =>
    refine ⟨1, fun toks _ => ⟨toks.filter fun tok => tok.chr ≠ 0 ∨ tok.partialUtf8.nRemain ≠ 0,
      fun fuel hfuel => ?_, fun tok => ?_⟩⟩
    · obtain ⟨fuel, rfl⟩ := Nat.exists_eq_add_of_le' hfuel
      exact rfl
    · rw [mem_filter, decide_eq_true_eq]
      refine and_congr_right fun _ => ?_
      show _ ↔ ¬ Takes rules [] tok.text tok.partialUtf8
      by_cases hchr : tok.chr = 0
      · rw [Candidate.text_of_chr hchr, takes_nil]
        simp only [hchr, ne_eq, not_true_eq_false, false_or, Fits]
      · rw [Candidate.text_of_chr_ne hchr, takes_cons]
        refine ⟨fun _ => ?_, fun _ => Or.inl hchr⟩
        rintro ⟨t, ⟨p, rest, q, heq, -⟩, -⟩
        cases heq
  | cons p rest =>
    rcases hs.top with ⟨r, href⟩ | ⟨cls, q, hcls⟩
    · exact absurd href.type hready
    · have hafter := hs.tail.push hcls.next
      obtain ⟨F, hF⟩ := advanceStack_spec hwf hafter (hacc _)
      obtain ⟨l, hadv, hl⟩ := hF []
      have hstacks : Stacks rules l := by
        intro t ht
        have hreach := ((hl t).mp ht).resolve_left not_mem_nil
        exact ⟨hreach.valid hwf hafter, hreach.2⟩
      have hne : l ≠ [] := by
        obtain ⟨t, ht⟩ := exists_reaches hwf hafter (hacc _)
        exact ne_nil_of_mem ((hl t).mpr (Or.inr ht))
      obtain ⟨F', hF'⟩ := hdeep l hne hstacks
      refine ⟨max F F' + 1, fun toks hlen => ?_⟩
      obtain ⟨rejects, next, hsort, hrej, hnext⟩ := sortCandidates_spec hcls toks [] []
      have hshort : ∀ tok ∈ next, tok.text.length < n := by
        intro tok htok
        obtain ⟨tok', htok', hchr, -, rfl⟩ := (hnext tok).mp htok
        have h := hlen tok' htok'
        rw [Candidate.text_of_chr_ne hchr, length_cons] at h
        omega
      obtain ⟨rejects', hval, hmem⟩ := hF' next hshort
      refine ⟨rejects ++ rejects'.map Candidate.prev, fun fuel hfuel => ?_, fun tok => ?_⟩
      · obtain ⟨fuel, rfl⟩ := Nat.exists_eq_add_of_le' (le_trans (Nat.le_add_left 1 _) hfuel)
        have hfuel' : max F F' ≤ fuel := Nat.le_of_succ_le_succ hfuel
        show rejectForStack rules (fuel + 1) (p :: rest) toks = _
        simp only [rejectForStack, hsort, hcls.matches_, bind, Except.bind, nil_append,
          hadv fuel (le_trans (le_max_left F F') hfuel'), hval fuel (le_trans (le_max_right F F') hfuel')]
        rfl
      · -- rejected here, or behind the class
        have hback : tok ∈ rejects'.map Candidate.prev ↔ tok ∈ toks ∧ tok.chr ≠ 0 ∧ cls.mem tok.chr = true ∧
            ¬ ∃ t ∈ l, Takes rules t tok.next.text tok.partialUtf8 := by
          rw [mem_map]
          constructor
          · rintro ⟨u, hu, rfl⟩
            obtain ⟨hu, hnot⟩ := (hmem u).mp hu
            obtain ⟨tok', htok', hchr, hcl, rfl⟩ := (hnext u).mp hu
            exact ⟨htok', hchr, hcl, hnot⟩
          · rintro ⟨htok, hchr, hcl, hnot⟩
            exact ⟨tok.next, (hmem _).mpr ⟨(hnext _).mpr ⟨tok, htok, hchr, hcl, rfl⟩, hnot⟩, rfl⟩
        have htakes : tok.chr ≠ 0 → (Takes rules (p :: rest) tok.text tok.partialUtf8 ↔
            cls.mem tok.chr = true ∧ ∃ t ∈ l, Takes rules t tok.next.text tok.partialUtf8) := by
          intro hchr
          rw [Candidate.text_of_chr_ne hchr, takes_cons]
          simp only [hcls.next_iff, hl, not_mem_nil, false_or, and_assoc, exists_and_left]
        rw [mem_append, hrej, hback, ← and_or_left]
        refine and_congr_right fun _ => ?_
        show _ ↔ ¬ Takes rules (p :: rest) tok.text tok.partialUtf8
        by_cases hchr : tok.chr = 0
        · rw [Candidate.text_of_chr hchr, takes_nil]
          obtain ⟨b, hb⟩ := hcls.partial_ok tok.partialUtf8
          cases b with
          | true => simp [FailsHere, Fits, hchr, hb]
          | false => simp [FailsHere, Fits, hchr, hb]
        · rw [htakes hchr]
          cases hcl : cls.mem tok.chr with
          | true => simp [FailsHere, hchr, hcl]
          | false => simp [FailsHere, hchr, hcl]

/-- **One stack**: the candidates that it cannot read are rejected.  The induction is on the number of code points
left, since every level reads one of each candidate. -/
theorem rejectForStack_spec (n : ℕ) (hs : Valid rules s) (hready : Ready rules s) :
    Sifts n (fun fuel => rejectForStack rules fuel s) fun tok => Takes rules s tok.text tok.partialUtf8 := by
  induction n generalizing s with
  | zero =>
    refine rejectForStack_step hwf hacc hs hready fun l hne _ => ⟨0, fun toks hlen => ⟨[], fun fuel _ => ?_, ?_⟩⟩
    · -- no candidate goes on
      have hnil : toks = [] := eq_nil_iff_forall_not_mem.mpr fun tok htok => absurd (hlen tok htok) (by omega)
      subst hnil
      cases l with
      | nil => exact absurd rfl hne
      | cons s l => rfl
    · intro tok
      refine ⟨fun h => absurd h not_mem_nil, fun h => absurd (hlen tok h.1) (by omega)⟩
  | succ n ih =>
    refine rejectForStack_step hwf hacc hs hready fun l hne hl => ?_
    obtain ⟨F, hF⟩ := rejectAll_sifts hne fun s hs => ih (hl s hs).1 (hl s hs).2
    exact ⟨F, fun toks hlen => hF toks fun tok htok => Nat.le_of_lt_succ (hlen tok htok)⟩

/-- **All stacks**: a candidate is rejected exactly if no stack can read it. -/
theorem rejectCandidates_spec {l : List Stack} (hne : l ≠ []) (hl : Stacks rules l) (toks : List Candidate) :
    ∃ F rejects, (∀ fuel ≥ F, rejectCandidates rules fuel l toks = .ok rejects) ∧
      ∀ tok, tok ∈ rejects ↔ tok ∈ toks ∧ ¬ ∃ s ∈ l, Takes rules s tok.text tok.partialUtf8 := by
  obtain ⟨F, hF⟩ := rejectAll_sifts hne fun s hs =>
    rejectForStack_spec hwf hacc (toks.map fun tok => tok.text.length).sum (hl s hs).1 (hl s hs).2
  obtain ⟨rejects, hval, hmem⟩ := hF toks fun tok htok =>
    le_sum_of_mem (mem_map_of_mem htok)
  exact ⟨F, rejects, hval, hmem⟩

end

end

end Grammar
