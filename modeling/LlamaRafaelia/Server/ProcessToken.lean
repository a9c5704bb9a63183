import LlamaRafaelia.Lib.Steps
import LlamaRafaelia.Server.StopWords

/-!
# Streaming the generated text

`process_token` appends the text of a token to what the slot has generated, sends what may be sent of it and decides
whether the generation goes on.  Text is held back while it ends inside a character or in the beginning of a stop word.

* `Delivers` - **what should be sent**: the text in front of the first stop word, or all its whole characters;
* `stream_delivers_iff` - **runs deliver** exactly if every stop word is in reach and nothing is held back in the end.
-/

namespace Server

open List Search

/-- What the server has for all its slots. -/
structure StreamServer where
  /-- `params_base.ctx_shift` -/
  ctxShift : Bool
  /-- `params_base.n_predict` -/
  nPredict : ℤ
  /-- `llama_vocab_is_eog` -/
  isEog : Token → Bool

namespace ServerSlot

/-- `add_token`. -/
def addToken (slot : ServerSlot) (token : CompletionTokenOutput) : ServerSlot :=
  if slot.processing then { slot with generatedTokenProbs := slot.generatedTokenProbs ++ [token] } else slot

/-- `send_partial_response`, of which only the content counts here. -/
def sendPartialResponse (slot : ServerSlot) (tkn : CompletionTokenOutput) : ServerSlot :=
  { slot with responses := slot.responses ++ [tkn.textToSend] }

/-- `has_budget`. -/
def hasBudget (slot : ServerSlot) (globalNPredict : ℤ) : Bool × ServerSlot :=
  if slot.params.nPredict = -1 ∧ globalNPredict = -1 then (true, slot)
  else
    let nRemaining : ℤ :=
      if slot.params.nPredict ≠ -1 then slot.params.nPredict - slot.nDecoded
      else if globalNPredict ≠ -1 then globalNPredict - slot.nDecoded
      else -1
    (0 < nRemaining, { slot with nRemaining := nRemaining })

def sentText (slot : ServerSlot) : List UInt8 := (slot.generatedTokenProbs.map CompletionTokenOutput.textToSend).flatten

end ServerSlot

/-! ### `process_token` -/

section

variable (srv : StreamServer) (result : CompletionTokenOutput) (slot : ServerSlot)

/-- "search stop word and delete it": whether text is sent, the slot, and where the text to send begins. -/
def searchText : Bool × ServerSlot × ℕ :=
  let tokenStr := result.textToSend
  let pos := min slot.nSentText slot.generatedText.length
  let strTest := slot.generatedText.drop pos
  let full := slot.findStoppingStrings strTest tokenStr.length true
  match full.1 with
  | some stopPos =>
    let slot := { full.2 with generatedText := full.2.generatedText.take (pos + stopPos) }
    (true, slot, min slot.nSentText slot.generatedText.length)
  | none =>
    if full.2.hasNextToken ∧ ¬ srv.isEog result.tok then
      let begun := full.2.findStoppingStrings strTest tokenStr.length false
      (begun.1.isNone, begun.2, pos)
    else (true, full.2, pos)

/-- "check if there is any token to predict". -/
def takeText (found : Bool × ServerSlot × ℕ) : CompletionTokenOutput × ServerSlot :=
  if found.1 then
    let textToSend := found.2.1.generatedText.drop found.2.2
    ({ result with textToSend := textToSend },
      { found.2.1 with nSentText := found.2.1.nSentText + textToSend.length })
  else ({ result with textToSend := [] }, found.2.1)

/-- "add the token to slot queue and cache". -/
def handOn (r : CompletionTokenOutput × ServerSlot) : ServerSlot :=
  let slot := r.2.addToken r.1
  if slot.params.stream then slot.sendPartialResponse r.1 else slot

def sendText : CompletionTokenOutput × ServerSlot :=
  let r := takeText result (searchText srv result slot)
  (r.1, handOn r)

/-- "if context shifting is disabled, make sure that we don't run out of context". -/
def checkContext : ServerSlot :=
  if ¬ srv.ctxShift ∧ slot.nCtx ≤ slot.nTokens + 1 then
    { slot with truncated := true, stop := .limit, hasNextToken := false }
  else slot

/-- "check the limits". -/
def checkBudget : ServerSlot :=
  if 0 < slot.nDecoded ∧ slot.hasNextToken then
    let r := slot.hasBudget srv.nPredict
    if r.1 then r.2 else { r.2 with stop := .limit, hasNextToken := false }
  else slot

/-- "require that each new line has a whitespace prefix". -/
def checkIndent : ServerSlot :=
  if slot.hasNewLine ∧ 0 < slot.params.nIndent then
    let slot :=
      if 0 < slot.lastNlPos then
        let nIndent := ((slot.generatedText.drop slot.lastNlPos).takeWhile fun c => c = 32 ∨ c = 9).length
        let pos := slot.lastNlPos + nIndent
        if pos < slot.generatedText.length ∧ nIndent < slot.params.nIndent then
          -- cut the last line
          { slot with stop := .limit, hasNextToken := false, generatedText := slot.generatedText.take pos }
        else slot
      else slot
    -- find the next new line
    match find slot.generatedText [10] slot.lastNlPos with
    | some pos => { slot with lastNlPos := pos + 1 }
    | none => slot
  else slot

/-- "check if there is a new line in the generated text"; `timeUp` is whether `t_max_predict_ms` has passed. -/
def checkNewLine (timeUp : Bool) : ServerSlot :=
  if 10 ∈ result.textToSend then
    let slot := { slot with hasNewLine := true }
    if 0 < slot.params.tMaxPredictMs ∧ timeUp then { slot with stop := .limit, hasNextToken := false } else slot
  else slot

def checkEog : ServerSlot :=
  if srv.isEog result.tok then { slot with stop := .eos, hasNextToken := false } else slot

def checkLimits (timeUp : Bool) : ServerSlot :=
  checkEog srv result (checkNewLine result (checkIndent (checkBudget srv (checkContext srv slot))) timeUp)

def appendToken : ServerSlot :=
  { slot with
    sampled := result.tok
    generatedText := slot.generatedText ++ result.textToSend
    generatedTokens := if slot.params.returnTokens then slot.generatedTokens ++ [result.tok] else slot.generatedTokens
    hasNextToken := true }

/-- `process_token`; it returns `has_next_token`. -/
def processToken (timeUp : Bool) : CompletionTokenOutput × ServerSlot :=
  let slot := appendToken result slot
  let incomplete := validateUtf8 slot.generatedText < slot.generatedText.length
  let r := if ¬ incomplete then sendText srv result slot else (result, slot)
  let slot := if incomplete then { r.2 with hasNextToken := true } else r.2
  (r.1, checkLimits srv r.1 slot timeUp)

end

/-! ### Runs -/

/-- A call of `process_token`: the token, and what has changed since the last one. -/
structure Call where
  result : CompletionTokenOutput
  nDecoded : ℤ
  nTokens : ℤ
  timeUp : Bool
  deriving DecidableEq

def feed (srv : StreamServer) (slot : ServerSlot) (call : Call) : Option ServerSlot :=
  if slot.hasNextToken then
    some (processToken srv call.result { slot with nDecoded := call.nDecoded, nTokens := call.nTokens } call.timeUp).2
  else none

/-- The slot after some calls, each of which but the last one returned true. -/
def stream (srv : StreamServer) (slot : ServerSlot) (calls : List Call) : Option ServerSlot :=
  Steps.run (feed srv) { slot with hasNextToken := true } calls

/-! ### What ends the generation -/

/-- What stays, and the generation does not go on again. -/
structure Leaves (slot slot' : ServerSlot) : Prop where
  params : slot'.params = slot.params
  processing : slot'.processing = slot.processing
  generatedText : slot'.generatedText = slot.generatedText
  nSentText : slot'.nSentText = slot.nSentText
  generatedTokenProbs : slot'.generatedTokenProbs = slot.generatedTokenProbs
  responses : slot'.responses = slot.responses
  hasNextToken : slot'.hasNextToken = true → slot.hasNextToken = true

section

variable {srv : StreamServer} {slot slot' slot'' : ServerSlot}

theorem Leaves.refl (slot : ServerSlot) : Leaves slot slot := ⟨rfl, rfl, rfl, rfl, rfl, rfl, id⟩

theorem Leaves.trans (h : Leaves slot slot') (h' : Leaves slot' slot'') : Leaves slot slot'' where
  params := h'.params.trans h.params
  processing := h'.processing.trans h.processing
  generatedText := h'.generatedText.trans h.generatedText
  nSentText := h'.nSentText.trans h.nSentText
  generatedTokenProbs := h'.generatedTokenProbs.trans h.generatedTokenProbs
  responses := h'.responses.trans h.responses
  hasNextToken hnext := h.hasNextToken (h'.hasNextToken hnext)

theorem Leaves.sentText (h : Leaves slot slot') : slot'.sentText = slot.sentText := by
  rw [ServerSlot.sentText, h.generatedTokenProbs, ServerSlot.sentText]

theorem checkContext_leaves (srv : StreamServer) (slot : ServerSlot) : Leaves slot (checkContext srv slot) := by
  unfold checkContext
  split
  · exact ⟨rfl, rfl, rfl, rfl, rfl, rfl, fun h => nomatch h⟩
  · exact Leaves.refl slot

theorem hasBudget_leaves (slot : ServerSlot) (globalNPredict : ℤ) : Leaves slot (slot.hasBudget globalNPredict).2 := by
  unfold ServerSlot.hasBudget
  split
  · exact Leaves.refl slot
  · exact ⟨rfl, rfl, rfl, rfl, rfl, rfl, id⟩

theorem checkBudget_leaves (srv : StreamServer) (slot : ServerSlot) : Leaves slot (checkBudget srv slot) := by
  have hbudget := hasBudget_leaves slot srv.nPredict
  unfold checkBudget
  split
  · dsimp only
    split
    · exact hbudget
    · exact hbudget.trans ⟨rfl, rfl, rfl, rfl, rfl, rfl, fun h => nomatch h⟩
  · exact Leaves.refl slot

theorem checkNewLine_leaves (result : CompletionTokenOutput) (slot : ServerSlot) (timeUp : Bool) :
    Leaves slot (checkNewLine result slot timeUp) := by
  unfold checkNewLine
  split
  · dsimp only
    split
    · exact ⟨rfl, rfl, rfl, rfl, rfl, rfl, fun h => nomatch h⟩
    · exact ⟨rfl, rfl, rfl, rfl, rfl, rfl, id⟩
  · exact Leaves.refl slot

theorem checkEog_leaves (srv : StreamServer) (result : CompletionTokenOutput) (slot : ServerSlot) :
    Leaves slot (checkEog srv result slot) := by
  unfold checkEog
  split
  · exact ⟨rfl, rfl, rfl, rfl, rfl, rfl, fun h => nomatch h⟩
  · exact Leaves.refl slot

theorem checkLimits_leaves (srv : StreamServer) (result : CompletionTokenOutput) (hindent : slot.params.nIndent = 0)
    (timeUp : Bool) : Leaves slot (checkLimits srv result slot timeUp) := by
  have hlimits := (checkContext_leaves srv slot).trans (checkBudget_leaves srv _)
  have hskip : checkIndent (checkBudget srv (checkContext srv slot)) = checkBudget srv (checkContext srv slot) := by
    rw [checkIndent, hlimits.params, hindent]
    exact if_neg fun h => absurd h.2 (by decide)
  rw [checkLimits, hskip]
  exact (hlimits.trans (checkNewLine_leaves result _ timeUp)).trans (checkEog_leaves srv result _)

theorem checkLimits_eog {result : CompletionTokenOutput} {timeUp : Bool}
    (hnext : (checkLimits srv result slot timeUp).hasNextToken = true) : srv.isEog result.tok = false := by
  by_contra heog
  rw [checkLimits, checkEog, if_pos (Bool.not_eq_false _ ▸ heog)] at hnext
  cases hnext

end

/-! ### What is in reach -/

/-- A stop word starts at the place, behind what was sent and so late that the window of the search has it: it does not end
in front of the end of the text before the last token. -/
def InReach (words : List (List UInt8)) (sent before : ℕ) (text : List UInt8) (q : ℕ) : Prop :=
  ∃ w ∈ words, sent ≤ q ∧ Search.At text w q ∧ before ≤ q + w.length

section

variable {words : List (List UInt8)} {slot : ServerSlot} {sent rest : List UInt8}

/-- **The search for complete stop words** finds those in reach. -/
theorem findStoppingStrings_full (hwords : slot.params.antiprompt = words) (hne : ∀ w ∈ words, w ≠ []) (sent rest : List UInt8)
    {before tokenSize : ℕ} (hsize : before + tokenSize = (sent ++ rest).length) :
    (slot.findStoppingStrings rest tokenSize true = (none, slot) ∧
        ∀ q, ¬ InReach words sent.length before (sent ++ rest) q) ∨
      ∃ p, IsLeast {q | InReach words sent.length before (sent ++ rest) q} (sent.length + p) ∧
        ∃ w, slot.findStoppingStrings rest tokenSize true = (some p, slot.stopAt w) := by
  have hlen : sent.length + rest.length = (sent ++ rest).length := length_append.symm
  -- The places of the window, seen from the whole text.
  have hreach : ∀ p, InReach words sent.length before (sent ++ rest) (sent.length + p) ↔
      ∃ w ∈ words, p ∈ {j | rest.length - (w.length + tokenSize) ≤ j ∧ Search.At rest w j} := by
    intro p
    have hat : ∀ w, Search.At rest w p ↔ Search.At (sent ++ rest) w (sent.length + p) := by
      intro w
      rw [← at_drop, drop_left]
    constructor
    · intro ⟨w, hw, _, hword, hend⟩
      exact ⟨w, hw, by omega, (hat w).mpr hword⟩
    · intro ⟨w, hw, hstart, hword⟩
      exact ⟨w, hw, Nat.le_add_right _ _, (hat w).mp hword, by omega⟩
  obtain ⟨hnone, hall⟩ | ⟨p, hp, w, hsome⟩ := slot.findStoppingStrings_spec rest tokenSize true
  · rw [hwords] at hall
    refine Or.inl ⟨hnone, fun q hq => ?_⟩
    obtain ⟨p, rfl⟩ := Nat.exists_eq_add_of_le hq.choose_spec.2.1
    obtain ⟨w, hw, hstart, hword⟩ := (hreach p).mp hq
    have hfind := hall w hw
    rw [stopPosition_full, find_eq_none (hne w hw)] at hfind
    exact hfind p hstart hword
  · rw [hwords] at hp
    refine Or.inr ⟨p, ?_, w, hsome⟩
    have hset : {q | ∃ w ∈ words, stopPosition rest tokenSize true w = some q} =
        {q | ∃ w ∈ {w | w ∈ words}, IsLeast {j | rest.length - (w.length + tokenSize) ≤ j ∧ Search.At rest w j} q} := by
      ext q
      refine exists_congr fun w => and_congr_right fun hw => ?_
      rw [stopPosition_full, find_eq_some (hne w hw)]
    rw [hset] at hp
    have hleast := isLeast_of_isLeast hp
    refine ⟨(hreach p).mpr hleast.1, fun q hq => ?_⟩
    obtain ⟨r, rfl⟩ := Nat.exists_eq_add_of_le hq.choose_spec.2.1
    exact Nat.add_le_add_left (hleast.2 ((hreach r).mp hq)) _

/-- **The search for a stop word that has begun** finds out whether the text is settled. -/
theorem findStoppingStrings_begun (hwords : slot.params.antiprompt = words) (rest : List UInt8) (tokenSize : ℕ) :
    (slot.findStoppingStrings rest tokenSize false).2 = slot ∧
      ((slot.findStoppingStrings rest tokenSize false).1.isNone = true ↔ Search.Settled words rest) := by
  have hsettled : Search.Settled words rest ↔ ∀ w ∈ words, stopPosition rest tokenSize false w = none :=
    forall₂_congr fun w _ => (stringFindPartialStop_eq_none rest w).symm
  rw [hsettled]
  obtain ⟨hnone, hall⟩ | ⟨p, hp, w, hsome⟩ := slot.findStoppingStrings_spec rest tokenSize false
  · rw [hnone]
    exact ⟨rfl, iff_of_true rfl (hwords ▸ hall)⟩
  · rw [hsome]
    refine ⟨rfl, iff_of_false (by simp) fun hall => ?_⟩
    obtain ⟨v, hv, hfound⟩ := hp.1
    rw [hall v (hwords ▸ hv)] at hfound
    cases hfound

end

/-! ### One call -/

section

variable {words : List (List UInt8)} {result : CompletionTokenOutput} {slot : ServerSlot}
  {sent rest : List UInt8}

theorem handOn_spec (r : CompletionTokenOutput × ServerSlot) (hproc : r.2.processing = true) :
    (handOn r).sentText = r.2.sentText ++ r.1.textToSend ∧ (handOn r).params = r.2.params ∧
      (handOn r).processing = true ∧ (handOn r).generatedText = r.2.generatedText ∧
        (handOn r).nSentText = r.2.nSentText ∧ (handOn r).hasNextToken = r.2.hasNextToken ∧
          (r.2.params.stream = true → (handOn r).responses = r.2.responses ++ [r.1.textToSend]) := by
  have hadd : r.2.addToken r.1 = { r.2 with generatedTokenProbs := r.2.generatedTokenProbs ++ [r.1] } := if_pos hproc
  have hsent : ((r.2.generatedTokenProbs ++ [r.1]).map CompletionTokenOutput.textToSend).flatten =
      r.2.sentText ++ r.1.textToSend := by
    rw [map_append, flatten_append, ServerSlot.sentText, map_singleton, flatten_singleton]
  unfold handOn
  rw [hadd]
  dsimp only
  split
  · exact ⟨hsent, rfl, hproc, rfl, rfl, rfl, fun _ => rfl⟩
  · next hstream => exact ⟨hsent, rfl, hproc, rfl, rfl, rfl, fun h => absurd h hstream⟩

theorem searchText_spec (srv : StreamServer) (hwords : slot.params.antiprompt = words) (hne : ∀ w ∈ words, w ≠ [])
    (hnext : slot.hasNextToken = true) (htext : slot.generatedText = sent ++ rest) (hsent : slot.nSentText = sent.length)
    (hsettled : Search.Settled words sent) {before : ℕ}
    (hsize : before + result.textToSend.length = (sent ++ rest).length) :
    (∃ q w, IsLeast {q | InReach words sent.length before (sent ++ rest) q} q ∧
        searchText srv result slot = (true, { slot.stopAt w with generatedText := (sent ++ rest).take q }, sent.length)) ∨
      (∀ q, ¬ InReach words sent.length before (sent ++ rest) q) ∧ ∃ sends : Bool,
        (sends = true ↔ srv.isEog result.tok = true ∨ Search.Settled words (sent ++ rest)) ∧
          searchText srv result slot = (sends, slot, sent.length) := by
  have hpos : min slot.nSentText slot.generatedText.length = sent.length := by
    rw [hsent, htext, length_append]
    omega
  have hdrop : slot.generatedText.drop sent.length = rest := by
    rw [htext, drop_left]
  rw [searchText]
  dsimp only
  rw [hpos, hdrop]
  obtain ⟨hnone, hreach⟩ | ⟨p, hleast, w, hsome⟩ := findStoppingStrings_full hwords hne sent rest hsize
  · refine Or.inr ⟨hreach, ?_⟩
    rw [hnone]
    dsimp only
    by_cases heog : srv.isEog result.tok = true
    · exact ⟨true, iff_of_true rfl (Or.inl heog), if_neg fun h => h.2 heog⟩
    · obtain ⟨hslot, hbegun⟩ := findStoppingStrings_begun hwords rest result.textToSend.length
      refine ⟨_, ?_, if_pos ⟨hnext, heog⟩ |>.trans (by rw [hslot])⟩
      rw [hbegun, hsettled.append_iff]
      exact ⟨Or.inr, fun h => h.resolve_left heog⟩
  · refine Or.inl ⟨sent.length + p, w, hleast, ?_⟩
    rw [hsome]
    have hle : sent.length ≤ ((sent ++ rest).take (sent.length + p)).length := by
      rw [length_take, length_append]
      omega
    show (true, { slot.stopAt w with generatedText := slot.generatedText.take (sent.length + p) },
      min slot.nSentText (slot.generatedText.take (sent.length + p)).length) = _
    rw [htext, hsent, Nat.min_eq_left hle]

theorem sendText_spec (srv : StreamServer) (hwords : slot.params.antiprompt = words) (hne : ∀ w ∈ words, w ≠ [])
    (hproc : slot.processing = true) (hnext : slot.hasNextToken = true) (htext : slot.generatedText = sent ++ rest)
    (hsent : slot.nSentText = sent.length) (hsettled : Search.Settled words sent) {before : ℕ}
    (hsize : before + result.textToSend.length = (sent ++ rest).length) :
    (sendText srv result slot).1.tok = result.tok ∧ (sendText srv result slot).2.params = slot.params ∧
      (sendText srv result slot).2.processing = true ∧
      ((∃ q, IsLeast {q | InReach words sent.length before (sent ++ rest) q} q ∧
        (sendText srv result slot).2.sentText = slot.sentText ++ ((sent ++ rest).take q).drop sent.length ∧
          (sendText srv result slot).2.hasNextToken = false) ∨
      (∀ q, ¬ InReach words sent.length before (sent ++ rest) q) ∧
        (sendText srv result slot).2.generatedText = sent ++ rest ∧
          ((srv.isEog result.tok = true ∨ Search.Settled words (sent ++ rest)) ∧
              (sendText srv result slot).2.sentText = slot.sentText ++ rest ∧
                (sendText srv result slot).2.nSentText = (sent ++ rest).length ∨
            ¬ (srv.isEog result.tok = true ∨ Search.Settled words (sent ++ rest)) ∧
              (sendText srv result slot).2.sentText = slot.sentText ∧
                (sendText srv result slot).2.nSentText = sent.length)) := by
  rw [sendText]
  obtain ⟨q, w, hleast, hfound⟩ | ⟨hreach, sends, hsends, hfound⟩ :=
    searchText_spec srv hwords hne hnext htext hsent hsettled hsize
  · rw [hfound]
    obtain ⟨hadded, hparams, hproc', -, -, hnext', -⟩ :=
      handOn_spec (takeText result (true, { slot.stopAt w with generatedText := (sent ++ rest).take q }, sent.length)) hproc
    exact ⟨rfl, hparams, hproc', Or.inl ⟨q, hleast, hadded, hnext'⟩⟩
  · rw [hfound]
    cases sends with
    | true =>
      obtain ⟨hadded, hparams, hproc', htext', hsent', -, -⟩ :=
        handOn_spec (takeText result (true, slot, sent.length)) hproc
      have hdrop : slot.generatedText.drop sent.length = rest := by
        rw [htext, drop_left]
      refine ⟨rfl, hparams, hproc', Or.inr ⟨hreach, htext'.trans htext, Or.inl ⟨hsends.mp rfl, ?_, ?_⟩⟩⟩
      · exact hadded.trans (congrArg (slot.sentText ++ ·) hdrop)
      · refine hsent'.trans ?_
        show slot.nSentText + (slot.generatedText.drop sent.length).length = _
        rw [hdrop, hsent, length_append]
    | false =>
      obtain ⟨hadded, hparams, hproc', htext', hsent', -, -⟩ :=
        handOn_spec (takeText result (false, slot, sent.length)) hproc
      have hheld : ¬ (srv.isEog result.tok = true ∨ Search.Settled words (sent ++ rest)) := fun h => nomatch hsends.mpr h
      exact ⟨rfl, hparams, hproc', Or.inr ⟨hreach, htext'.trans htext, Or.inr ⟨hheld,
        hadded.trans (append_nil _), hsent'.trans hsent⟩⟩⟩

end

/-! ### What should be sent -/

def textOf (calls : List Call) : List UInt8 := (calls.map fun c => c.result.textToSend).flatten

/-- The text after the last token at which nothing is held back: it does not end inside a character, and not in the
beginning of a stop word unless the generation ends with the token. -/
def Flushes (words : List (List UInt8)) (isEog : Token → Bool) (text : List UInt8) (call : Call) : Prop :=
  Utf8.Valid text ∧ (isEog call.result.tok = true ∨ Search.Settled words text)

open Classical in
/-- The loop over the calls: `sent` is the text so far that was not held back. -/
noncomputable def flushedFrom (words : List (List UInt8)) (isEog : Token → Bool) :
    List UInt8 → List UInt8 → List Call → List UInt8
  | _, sent, [] => sent
  | text, sent, c :: cs =>
    let text := text ++ c.result.textToSend
    flushedFrom words isEog text (if Flushes words isEog text c then text else sent) cs

noncomputable def flushed (words : List (List UInt8)) (isEog : Token → Bool) (calls : List Call) : List UInt8 :=
  flushedFrom words isEog [] [] calls

def Contains (words : List (List UInt8)) (text : List UInt8) : Prop := ∃ p, Search.Occurs words text p

/-- The text in front of the first stop word, or all its whole characters. -/
structure Expected (words : List (List UInt8)) (text out : List UInt8) : Prop where
  stopped : ∀ p, IsLeast {q | Search.Occurs words text q} p → out = text.take p
  whole : ¬ Contains words text → ∀ v, Utf8.WholeChars v text → out = v

/-- **What a run should do**: it does not go on after a token at which the text does not end inside a character and has a stop
word; in the end what is expected was sent, and what was sent earlier is a part of it. -/
structure Delivers (srv : StreamServer) (words : List (List UInt8)) (slot : ServerSlot) (calls : List Call)
    (slot' : ServerSlot) : Prop where
  stops : ∀ k < calls.length, Utf8.Valid (textOf (calls.take k)) → ¬ Contains words (textOf (calls.take k))
  expected : Expected words (textOf calls) slot'.sentText
  early : ∀ k s, stream srv slot (calls.take k) = some s → s.sentText <+: slot'.sentText

/-- A stop word with the first start in the text is in the window: it does not end in front of the end of the text before the
last token. -/
def FirstInWindow (words : List (List UInt8)) (before text : List UInt8) : Prop :=
  ∃ p, IsLeast {q | Search.Occurs words text q} p ∧ ∃ w ∈ words, Search.At text w p ∧ before.length ≤ p + w.length

/-- **When a run does it**: whenever the text does not end inside a character and has a stop word, a first one is in the
window.  If the last token brings no stop word into reach, nothing is held back in the end that is expected. -/
structure Good (words : List (List UInt8)) (isEog : Token → Bool) (calls : List Call) : Prop where
  inWindow : ∀ k < calls.length, Utf8.Valid (textOf (calls.take k)) → Contains words (textOf (calls.take k)) →
    FirstInWindow words (textOf (calls.take (k - 1))) (textOf (calls.take k))
  ending : (Utf8.Valid (textOf calls) ∧ FirstInWindow words (textOf calls.dropLast) (textOf calls)) ∨
    (¬ (Utf8.Valid (textOf calls) ∧ ∃ q, InReach words (flushed words isEog calls.dropLast).length
        (textOf calls.dropLast).length (textOf calls) q) ∧ Expected words (textOf calls) (flushed words isEog calls))

/-- A fresh slot, without a limit on the indentation or on the time. -/
structure Fresh (words : List (List UInt8)) (slot : ServerSlot) : Prop where
  antiprompt : slot.params.antiprompt = words
  nIndent : slot.params.nIndent = 0
  tMaxPredictMs : slot.params.tMaxPredictMs ≤ 0
  processing : slot.processing = true
  generatedText : slot.generatedText = []
  nSentText : slot.nSentText = 0
  generatedTokenProbs : slot.generatedTokenProbs = []
  responses : slot.responses = []

/-- **The invariant** of a slot that goes on. -/
structure Alive (words : List (List UInt8)) (isEog : Token → Bool) (calls : List Call) (slot : ServerSlot) : Prop where
  antiprompt : slot.params.antiprompt = words
  nIndent : slot.params.nIndent = 0
  processing : slot.processing = true
  generatedText : slot.generatedText = textOf calls
  sentText : slot.sentText = flushed words isEog calls
  nSentText : slot.nSentText = (flushed words isEog calls).length
  isPrefix : flushed words isEog calls <+: textOf calls
  settled : Search.Settled words (flushed words isEog calls)

theorem textOf_concat (calls : List Call) (c : Call) : textOf (calls ++ [c]) = textOf calls ++ c.result.textToSend := by
  rw [textOf, map_append, flatten_append, map_singleton, flatten_singleton, ← textOf]

theorem flushedFrom_concat (words : List (List UInt8)) (isEog : Token → Bool) (text sent : List UInt8) (calls : List Call)
    (c : Call) :
    (Flushes words isEog (text ++ textOf (calls ++ [c])) c →
      flushedFrom words isEog text sent (calls ++ [c]) = text ++ textOf (calls ++ [c])) ∧
    (¬ Flushes words isEog (text ++ textOf (calls ++ [c])) c →
      flushedFrom words isEog text sent (calls ++ [c]) = flushedFrom words isEog text sent calls) := by
  induction calls generalizing text sent with
  | nil =>
    have htext : textOf [c] = c.result.textToSend := append_nil _
    rw [nil_append, htext]
    exact ⟨fun h => if_pos h, fun h => if_neg h⟩
  | cons d calls ih =>
    have htext : text ++ textOf (d :: calls ++ [c]) = text ++ d.result.textToSend ++ textOf (calls ++ [c]) := by
      rw [append_assoc]
      rfl
    rw [htext]
    exact ih _ _

theorem flushed_concat {words : List (List UInt8)} {isEog : Token → Bool} {calls : List Call} {c : Call}
    (h : Flushes words isEog (textOf (calls ++ [c])) c) : flushed words isEog (calls ++ [c]) = textOf (calls ++ [c]) :=
  (flushedFrom_concat words isEog [] [] calls c).1 h

theorem flushed_concat_held {words : List (List UInt8)} {isEog : Token → Bool} {calls : List Call} {c : Call}
    (h : ¬ Flushes words isEog (textOf (calls ++ [c])) c) :
    flushed words isEog (calls ++ [c]) = flushed words isEog calls :=
  (flushedFrom_concat words isEog [] [] calls c).2 h

theorem flushed_prefix (words : List (List UInt8)) (isEog : Token → Bool) (calls : List Call) :
    flushed words isEog calls <+: textOf calls := by
  induction calls using reverseRecOn with
  | nil => exact prefix_refl _
  | append_singleton calls c ih =>
    by_cases hflush : Flushes words isEog (textOf (calls ++ [c])) c
    · rw [flushed_concat hflush]
    · rw [flushed_concat_held hflush, textOf_concat]
      exact ih.trans (prefix_append _ _)

/-! ### Runs -/

theorem Alive.leaves {words : List (List UInt8)} {isEog : Token → Bool} {calls : List Call} {slot slot' : ServerSlot}
    (h : Alive words isEog calls slot) (hleaves : Leaves slot slot') : Alive words isEog calls slot' where
  antiprompt := hleaves.params ▸ h.antiprompt
  nIndent := hleaves.params ▸ h.nIndent
  processing := hleaves.processing ▸ h.processing
  generatedText := hleaves.generatedText ▸ h.generatedText
  sentText := hleaves.sentText ▸ h.sentText
  nSentText := hleaves.nSentText ▸ h.nSentText
  isPrefix := h.isPrefix
  settled := h.settled

theorem processToken_incomplete (srv : StreamServer) {result : CompletionTokenOutput} {slot : ServerSlot} (timeUp : Bool)
    (h : validateUtf8 (appendToken result slot).generatedText < (appendToken result slot).generatedText.length) :
    (processToken srv result slot timeUp).2 = checkLimits srv result (appendToken result slot) timeUp := by
  rw [processToken]
  simp only [h, not_true_eq_false, if_false, if_true]
  rfl

theorem processToken_complete (srv : StreamServer) {result : CompletionTokenOutput} {slot : ServerSlot} (timeUp : Bool)
    (h : ¬ validateUtf8 (appendToken result slot).generatedText < (appendToken result slot).generatedText.length) :
    (processToken srv result slot timeUp).2 = checkLimits srv (sendText srv result (appendToken result slot)).1
      (sendText srv result (appendToken result slot)).2 timeUp := by
  rw [processToken]
  simp only [h, not_false_eq_true, if_false, if_true]

theorem feed_some {srv : StreamServer} {slot slot' : ServerSlot} {c : Call} (h : feed srv slot c = some slot') :
    (processToken srv c.result { slot with nDecoded := c.nDecoded, nTokens := c.nTokens } c.timeUp).2 = slot' := by
  rw [feed] at h
  split at h
  · exact Option.some.inj h
  · cases h

section

variable {srv : StreamServer} {words : List (List UInt8)} (hne : ∀ w ∈ words, w ≠ []) {calls : List Call} {c : Call}
  {slot slot' : ServerSlot}

include hne

/-- **One call** of a slot that goes on.  If it brings a stop word into reach, the text in front of the first one is sent and
the generation ends; otherwise the text is flushed or held back. -/
theorem feed_spec (h : Alive words srv.isEog calls slot) {rest : List UInt8}
    (hvalid : Utf8.Valid (textOf (calls ++ [c]) ++ rest)) (hfeed : feed srv slot c = some slot') :
    (Utf8.Valid (textOf (calls ++ [c])) →
      ∀ q, IsLeast {q | InReach words (flushed words srv.isEog calls).length (textOf calls).length
          (textOf (calls ++ [c])) q} q →
        slot'.sentText = (textOf (calls ++ [c])).take q ∧ slot'.hasNextToken = false) ∧
    (¬ (Utf8.Valid (textOf (calls ++ [c])) ∧ ∃ q, InReach words (flushed words srv.isEog calls).length
          (textOf calls).length (textOf (calls ++ [c])) q) →
        slot'.sentText = flushed words srv.isEog (calls ++ [c]) ∧
          (slot'.hasNextToken = true → Alive words srv.isEog (calls ++ [c]) slot')) := by
  obtain ⟨rest', hrest'⟩ := h.isPrefix
  obtain rfl := feed_some hfeed
  -- The slot with the text of the token.
  generalize hbegin : appendToken c.result { slot with nDecoded := c.nDecoded, nTokens := c.nTokens } = begun
  have hantiprompt : begun.params.antiprompt = words := hbegin ▸ h.antiprompt
  have hindent : begun.params.nIndent = 0 := hbegin ▸ h.nIndent
  have hproc : begun.processing = true := hbegin ▸ h.processing
  have hnext : begun.hasNextToken = true := hbegin ▸ rfl
  have hold : begun.sentText = flushed words srv.isEog calls := hbegin ▸ h.sentText
  have hnsent : begun.nSentText = (flushed words srv.isEog calls).length := hbegin ▸ h.nSentText
  have htext : begun.generatedText = textOf (calls ++ [c]) := by
    rw [← hbegin, textOf_concat, ← h.generatedText]
    rfl
  have hend := validateUtf8_eq_length hvalid
  rw [← htext] at hend
  by_cases hwhole : Utf8.Valid (textOf (calls ++ [c]))
  · have hcomplete := processToken_complete srv c.timeUp (by rw [hbegin, hend, htext]; exact not_not_intro hwhole)
    rw [hcomplete, hbegin]
    have hsplit : textOf (calls ++ [c]) = flushed words srv.isEog calls ++ (rest' ++ c.result.textToSend) := by
      rw [textOf_concat, ← hrest', append_assoc]
    have hsize : (textOf calls).length + c.result.textToSend.length =
        (flushed words srv.isEog calls ++ (rest' ++ c.result.textToSend)).length := by
      rw [← hsplit, textOf_concat, length_append]
    obtain ⟨htok, hparams, hproc', hcases⟩ := sendText_spec srv hantiprompt hne hproc hnext
      (htext.trans hsplit) hnsent h.settled hsize
    rw [← hsplit] at hcases
    have hleaves := checkLimits_leaves srv (sendText srv c.result begun).1 (hparams ▸ hindent) c.timeUp
    obtain ⟨q, hleast, hadded, hstop⟩ | ⟨hreach, htext', hcases⟩ := hcases
    · refine ⟨fun _ q' hq' => ?_, fun hnot => absurd ⟨hwhole, q, hleast.1⟩ hnot⟩
      obtain rfl := hq'.unique hleast
      have hle : (flushed words srv.isEog calls).length ≤ q' := hleast.1.choose_spec.2.1
      refine ⟨?_, ?_⟩
      · rw [hleaves.sentText, hadded, hold, hsplit, take_append, take_of_length_le hle, drop_left]
      · cases hnext' : (checkLimits srv _ _ c.timeUp).hasNextToken with
        | false => rfl
        | true =>
          have hgo := hleaves.hasNextToken hnext'
          rw [hstop] at hgo
          cases hgo
    · refine ⟨fun _ q' hq' => absurd hq'.1 (hreach q'), fun _ => ?_⟩
      obtain ⟨hflush, hadded, hsent'⟩ | ⟨hheld, hadded, hsent'⟩ := hcases
      · have hflushed : flushed words srv.isEog (calls ++ [c]) = _ := flushed_concat ⟨hwhole, hflush⟩
        refine ⟨?_, fun hgo => Alive.leaves ?_ hleaves⟩
        · rw [hleaves.sentText, hadded, hold, hflushed, hsplit]
        · have hnot := checkLimits_eog hgo
          rw [htok] at hnot
          have hsettled := hflush.resolve_left (by rw [hnot]; exact Bool.false_ne_true)
          exact ⟨hparams ▸ hantiprompt, hparams ▸ hindent, hproc', htext',
            by rw [hadded, hold, hflushed, hsplit], hflushed ▸ hsent', flushed_prefix _ _ _, hflushed ▸ hsettled⟩
      · have hflushed : flushed words srv.isEog (calls ++ [c]) = _ := flushed_concat_held fun hflush => hheld hflush.2
        refine ⟨?_, fun _ => Alive.leaves ?_ hleaves⟩
        · rw [hleaves.sentText, hadded, hold, hflushed]
        · exact ⟨hparams ▸ hantiprompt, hparams ▸ hindent, hproc', htext', hflushed ▸ hadded.trans hold,
            hflushed ▸ hsent', flushed_prefix _ _ _, hflushed ▸ h.settled⟩
  · have hincomplete := processToken_incomplete srv c.timeUp (by rw [hbegin, hend, htext]; exact hwhole)
    rw [hincomplete, hbegin]
    have hleaves := checkLimits_leaves srv c.result hindent c.timeUp
    have hheld : ¬ Flushes words srv.isEog (textOf (calls ++ [c])) c := fun hflush => hwhole hflush.1
    have hflushed := flushed_concat_held hheld
    refine ⟨fun hv => absurd hv hwhole, fun _ => ⟨?_, fun _ => Alive.leaves ?_ hleaves⟩⟩
    · rw [hleaves.sentText, hold, hflushed]
    · exact ⟨hantiprompt, hindent, hproc, htext, hold.trans hflushed.symm, hflushed ▸ hnsent, flushed_prefix _ _ _,
        hflushed ▸ h.settled⟩

omit hne in
theorem FirstInWindow.inReach {words : List (List UInt8)} {sent before text : List UInt8}
    (h : FirstInWindow words before text) (hsettled : Search.Settled words sent) (hsent : sent <+: before)
    (htext : before <+: text) :
    ∃ p, IsLeast {q | Search.Occurs words text q} p ∧ IsLeast {q | InReach words sent.length before.length text q} p := by
  obtain ⟨p, hleast, w, hw, hat, hend⟩ := h
  obtain ⟨u, rfl⟩ := hsent.trans htext
  have hbehind : sent.length ≤ p := by
    by_contra hlt
    have hshort := hsettled.end_lt hw hat (Nat.lt_of_not_le hlt)
    have hle := hsent.length_le
    omega
  refine ⟨p, hleast, ⟨w, hw, hbehind, hat, hend⟩, fun q hq => ?_⟩
  obtain ⟨v, hv, -, hat', -⟩ := hq
  exact hleast.2 ⟨v, hv, hat'⟩

omit hne in
theorem stream_concat (srv : StreamServer) (slot : ServerSlot) (calls : List Call) (c : Call) :
    stream srv slot (calls ++ [c]) = (stream srv slot calls).bind fun s => feed srv s c := Steps.run_concat _ _ _ _

omit hne in
theorem stream_concat_some {calls : List Call} {c : Call} (h : stream srv slot (calls ++ [c]) = some slot') :
    ∃ s, stream srv slot calls = some s ∧ s.hasNextToken = true ∧ feed srv s c = some slot' := by
  rw [stream_concat, Option.bind_eq_some_iff] at h
  obtain ⟨s, hs, hfeed⟩ := h
  refine ⟨s, hs, ?_, hfeed⟩
  rw [feed] at hfeed
  split at hfeed
  · next hnext => exact hnext
  · cases hfeed

theorem stream_alive (hfresh : Fresh words slot) {rest : List UInt8} (hvalid : Utf8.Valid (textOf calls ++ rest))
    (hrun : stream srv slot calls = some slot') (hnext : slot'.hasNextToken = true) :
    Alive words srv.isEog calls slot' := by
  induction calls using reverseRecOn generalizing slot' rest with
  | nil =>
    obtain rfl := Option.some.inj hrun
    have hsent : slot.sentText = [] := by
      rw [ServerSlot.sentText, hfresh.generatedTokenProbs]
      rfl
    exact ⟨hfresh.antiprompt, hfresh.nIndent, hfresh.processing, hfresh.generatedText, hsent, hfresh.nSentText,
      prefix_refl _, settled_nil words⟩
  | append_singleton calls c ih =>
    obtain ⟨s, hs, hgo, hfeed⟩ := stream_concat_some hrun
    have hvalid' : Utf8.Valid (textOf calls ++ (c.result.textToSend ++ rest)) := by
      rw [← append_assoc, ← textOf_concat]
      exact hvalid
    obtain ⟨hhit, hmiss⟩ := feed_spec hne (ih hvalid' hs hgo) hvalid hfeed
    refine (hmiss fun hreach => ?_).2 hnext
    obtain ⟨hwhole, hreach⟩ := hreach
    obtain ⟨q, hleast⟩ := exists_isLeast hreach
    have hstop := (hhit hwhole q hleast).2
    rw [hnext] at hstop
    cases hstop

theorem stream_misses (hfresh : Fresh words slot) {rest : List UInt8} (hvalid : Utf8.Valid (textOf calls ++ rest))
    (hrun : stream srv slot calls = some slot') {k : ℕ} (hk : k < calls.length)
    (hwhole : Utf8.Valid (textOf (calls.take k))) :
    ¬ FirstInWindow words (textOf (calls.take (k - 1))) (textOf (calls.take k)) := by
  induction calls using reverseRecOn generalizing slot' rest with
  | nil => exact absurd hk (Nat.not_lt_zero k)
  | append_singleton calls c ih =>
    obtain ⟨s, hs, hgo, -⟩ := stream_concat_some hrun
    have hvalid' : Utf8.Valid (textOf calls ++ (c.result.textToSend ++ rest)) := by
      rw [← append_assoc, ← textOf_concat]
      exact hvalid
    rw [length_append, length_singleton] at hk
    rw [take_append_of_le_length (by omega)] at hwhole ⊢
    rw [take_append_of_le_length (by omega)]
    obtain hlt | rfl := Nat.lt_succ_iff_lt_or_eq.mp hk
    · exact ih hvalid' hs hlt hwhole
    -- The last call but one returned true.
    rw [take_length] at hwhole ⊢
    obtain rfl | ⟨before, d, rfl⟩ := eq_nil_or_concat' calls
    · intro hfirst
      obtain ⟨p, hp, -⟩ := hfirst
      exact not_occurs_nil hne p hp.1
    · intro hfirst
      obtain ⟨s', hs', hgo', hfeed⟩ := stream_concat_some hs
      have hvalid'' : Utf8.Valid (textOf before ++ (d.result.textToSend ++ (c.result.textToSend ++ rest))) := by
        rw [← append_assoc, ← textOf_concat]
        exact hvalid'
      have halive := stream_alive hne hfresh hvalid'' hs' hgo'
      have hprefix : textOf before <+: textOf (before ++ [d]) := textOf_concat before d ▸ prefix_append _ _
      rw [length_append, length_singleton, Nat.add_sub_cancel, take_left] at hfirst
      obtain ⟨p, -, hleast⟩ := hfirst.inReach halive.settled halive.isPrefix hprefix
      have hstop := ((feed_spec hne halive hvalid' hfeed).1 hwhole p hleast).2
      rw [hgo] at hstop
      cases hstop

theorem stream_early (hfresh : Fresh words slot) {rest : List UInt8} (hvalid : Utf8.Valid (textOf calls ++ rest))
    (hrun : stream srv slot calls = some slot') {k : ℕ} {s : ServerSlot} (hs : stream srv slot (calls.take k) = some s) :
    s.sentText <+: slot'.sentText := by
  induction calls using reverseRecOn generalizing slot' rest with
  | nil =>
    rw [take_nil] at hs
    rw [Option.some.inj (hs.symm.trans hrun)]
  | append_singleton calls c ih =>
    obtain ⟨s₀, hs₀, hgo, hfeed⟩ := stream_concat_some hrun
    have hvalid' : Utf8.Valid (textOf calls ++ (c.result.textToSend ++ rest)) := by
      rw [← append_assoc, ← textOf_concat]
      exact hvalid
    by_cases hk : k ≤ calls.length
    · rw [take_append_of_le_length hk] at hs
      refine (ih hvalid' hs₀ hs).trans ?_
      have halive := stream_alive hne hfresh hvalid' hs₀ hgo
      obtain ⟨hhit, hmiss⟩ := feed_spec hne halive hvalid hfeed
      have hprefix : textOf calls <+: textOf (calls ++ [c]) := textOf_concat calls c ▸ prefix_append _ _
      rw [halive.sentText]
      by_cases hreach : Utf8.Valid (textOf (calls ++ [c])) ∧ ∃ q, InReach words (flushed words srv.isEog calls).length
          (textOf calls).length (textOf (calls ++ [c])) q
      · obtain ⟨q, hleast⟩ := exists_isLeast hreach.2
        rw [(hhit hreach.1 q hleast).1]
        refine prefix_of_prefix_length_le (halive.isPrefix.trans hprefix) (List.take_prefix _ _) ?_
        have hle : (flushed words srv.isEog calls).length ≤ q := hleast.1.choose_spec.2.1
        have hlen := (halive.isPrefix.trans hprefix).length_le
        rw [length_take]
        omega
      · rw [(hmiss hreach).1]
        by_cases hflush : Flushes words srv.isEog (textOf (calls ++ [c])) c
        · rw [flushed_concat hflush]
          exact halive.isPrefix.trans hprefix
        · rw [flushed_concat_held hflush]
    · rw [take_of_length_le (by rw [length_append, length_singleton]; omega)] at hs
      rw [Option.some.inj (hs.symm.trans hrun)]

/-- **Runs deliver what they should exactly if every stop word is in the window and nothing is held back in the end.** -/
theorem stream_delivers_iff (hfresh : Fresh words slot) {rest : List UInt8} (hvalid : Utf8.Valid (textOf calls ++ rest))
    (hrun : stream srv slot calls = some slot') :
    Delivers srv words slot calls slot' ↔ Good words srv.isEog calls := by
  have hearly : ∀ k s, stream srv slot (calls.take k) = some s → s.sentText <+: slot'.sentText := fun k s hs =>
    stream_early hne hfresh hvalid hrun hs
  have hmisses : ∀ k < calls.length, Utf8.Valid (textOf (calls.take k)) →
      ¬ FirstInWindow words (textOf (calls.take (k - 1))) (textOf (calls.take k)) := fun k hk =>
    stream_misses hne hfresh hvalid hrun hk
  obtain rfl | ⟨before, c, rfl⟩ := eq_nil_or_concat' calls
  · -- No call.
    obtain rfl := Option.some.inj hrun
    have hsent : slot.sentText = [] := by
      rw [ServerSlot.sentText, hfresh.generatedTokenProbs]
      rfl
    have hexpected : Expected words [] [] := by
      refine ⟨fun p hp => absurd hp.1 (not_occurs_nil hne p), fun _ v hv => ?_⟩
      exact (prefix_nil.mp hv.isPrefix).symm
    refine iff_of_true ⟨fun k hk => absurd hk (Nat.not_lt_zero k), ?_, hearly⟩
      ⟨fun k hk => absurd hk (Nat.not_lt_zero k), Or.inr ⟨fun hreach => ?_, hexpected⟩⟩
    · show Expected words [] slot.sentText
      rw [hsent]
      exact hexpected
    · obtain ⟨-, q, w, hw, -, hat, -⟩ := hreach
      exact not_occurs_nil hne q ⟨w, hw, hat⟩
  obtain ⟨s, hs, hgo, hfeed⟩ := stream_concat_some hrun
  have hvalid' : Utf8.Valid (textOf before ++ (c.result.textToSend ++ rest)) := by
    rw [← append_assoc, ← textOf_concat]
    exact hvalid
  have halive := stream_alive hne hfresh hvalid' hs hgo
  have hprefix : textOf before <+: textOf (before ++ [c]) := textOf_concat before c ▸ prefix_append _ _
  obtain ⟨hhit, hmiss⟩ := feed_spec hne halive hvalid hfeed
  have hlast : (before ++ [c]).dropLast = before := dropLast_concat
  constructor
  · intro h
    refine ⟨fun k hk hwhole hcontains => absurd hcontains (h.stops k hk hwhole), ?_⟩
    rw [hlast]
    by_cases hreach : Utf8.Valid (textOf (before ++ [c])) ∧ ∃ q, InReach words (flushed words srv.isEog before).length
        (textOf before).length (textOf (before ++ [c])) q
    · -- The first stop word is the one that was found.
      obtain ⟨q, hleast⟩ := exists_isLeast hreach.2
      obtain ⟨w, hw, hle, hat, hend⟩ := hleast.1
      obtain ⟨p, hp⟩ := @exists_isLeast (Search.Occurs words (textOf (before ++ [c]))) ⟨q, w, hw, hat⟩
      have hout := (h.expected.stopped p hp).symm.trans (hhit hreach.1 q hleast).1
      have hpq : p ≤ q := hp.2 ⟨w, hw, hat⟩
      have hq := hat.le (hne w hw)
      have hlen := congrArg length hout
      rw [length_take, length_take, Nat.min_eq_left (by omega), Nat.min_eq_left (by omega)] at hlen
      obtain rfl := hlen
      exact Or.inl ⟨hreach.1, p, hp, w, hw, hat, hend⟩
    · refine Or.inr ⟨hreach, ?_⟩
      rw [← (hmiss hreach).1]
      exact h.expected
  · intro h
    refine ⟨fun k hk hwhole hcontains => hmisses k hk hwhole (h.inWindow k hk hwhole hcontains), ?_, hearly⟩
    have hending := h.ending
    rw [hlast] at hending
    obtain ⟨hwhole, hfirst⟩ | ⟨hreach, hexpected⟩ := hending
    · obtain ⟨p, hp, hleast⟩ := hfirst.inReach halive.settled halive.isPrefix hprefix
      rw [(hhit hwhole p hleast).1]
      exact ⟨fun p' hp' => by rw [hp'.unique hp], fun hnot => absurd ⟨p, hp.1⟩ hnot⟩
    · rw [(hmiss hreach).1]
      exact hexpected

end

/-! ### Texts -/

/-- A slot with the given stop words, for at most `nPredict` tokens. -/
def freshSlot (antiprompt : List (List UInt8)) (nPredict : ℤ) : ServerSlot where
  params := ⟨antiprompt, true, false, nPredict, 0, 0⟩
  processing := true
  nCtx := 100
  nTokens := 0
  nDecoded := 0
  nRemaining := -1
  lastNlPos := 0
  generatedText := []
  generatedTokens := []
  generatedTokenProbs := []
  responses := []
  hasNextToken := true
  hasNewLine := false
  truncated := false
  stop := .none
  stoppingWord := []
  sampled := 0
  nSentText := 0

def callsOf (texts : List (List UInt8)) : List Call :=
  texts.zipIdx.map fun t => ⟨⟨Int32.ofNat t.2, t.1⟩, t.2 + 1, t.2 + 1, false⟩

/-- A server without context shifting where no token ends the generation. -/
def plainServer : StreamServer := ⟨false, -1, fun _ => false⟩

theorem freshSlot_fresh (antiprompt : List (List UInt8)) (nPredict : ℤ) : Fresh antiprompt (freshSlot antiprompt nPredict) :=
  ⟨rfl, rfl, Int.le_refl 0, rfl, rfl, rfl, rfl, rfl⟩

theorem not_contains {w text : List UInt8} (hne : w ≠ []) (h : find text w 0 = none) : ¬ Contains [w] text := by
  intro hcontains
  obtain ⟨p, v, hv, hat⟩ := hcontains
  obtain rfl := mem_singleton.mp hv
  exact (find_eq_none hne).mp h p (Nat.zero_le p) hat

/-- The tokens `a` and `bc` with the stop word `b`. -/
theorem stream_delivers_ab : ∃ slot', stream plainServer (freshSlot [[98]] (-1)) (callsOf [[97], [98, 99]]) = some slot' ∧
    slot'.hasNextToken = false ∧
      Delivers plainServer [[98]] (freshSlot [[98]] (-1)) (callsOf [[97], [98, 99]]) slot' := by
  have hne : ∀ w ∈ [[(98 : UInt8)]], w ≠ [] := by decide
  have hvalid : Utf8.Valid (textOf (callsOf [[97], [98, 99]]) ++ []) := ⟨['a', 'b', 'c'], by decide⟩
  have hfirst : IsLeast {q | Search.Occurs [[98]] (textOf (callsOf [[97], [98, 99]])) q} 1 := by
    refine ⟨⟨[98], mem_singleton_self _, by unfold Search.At; decide⟩, fun q hq => Nat.pos_of_ne_zero ?_⟩
    obtain ⟨w, hw, hat⟩ := hq
    obtain rfl := mem_singleton.mp hw
    rintro rfl
    exact absurd hat (by unfold Search.At; decide)
  have hgood : Good [[98]] plainServer.isEog (callsOf [[97], [98, 99]]) := by
    refine ⟨fun k hk _ hcontains => absurd hcontains (not_contains (by decide) ?_),
      Or.inl ⟨⟨['a', 'b', 'c'], by decide⟩, 1, hfirst, [98], mem_singleton_self _, by unfold Search.At; decide,
        by decide⟩⟩
    have hfind : ∀ k < 2, find (textOf ((callsOf [[97], [98, 99]]).take k)) [98] 0 = none := by decide
    exact hfind k hk
  exact ⟨_, rfl, by decide, (stream_delivers_iff hne (freshSlot_fresh _ _) hvalid rfl).mpr hgood⟩

/-- With the stop word `ab`, the token `a` that is the last one of the budget is held back and never sent; and the tokens `ab`
with the first byte of a character and its last byte are all sent. -/
theorem stream_delivers_held :
    (stream plainServer (freshSlot [[97, 98]] 1) (callsOf [[97]])).map (fun s => (s.hasNextToken, s.stop, s.sentText)) =
        some (false, .limit, []) ∧ ¬ Contains [[97, 98]] (textOf (callsOf [[97]])) ∧ Utf8.WholeChars [97] [97] ∧
      (stream plainServer (freshSlot [[97, 98]] (-1)) (callsOf [[97, 98, 0xC3], [0xA9]])).map
          (fun s => (s.hasNextToken, s.responses)) = some (true, [[97, 98, 0xC3, 0xA9]]) ∧
        Search.Occurs [[97, 98]] (textOf (callsOf [[97, 98, 0xC3], [0xA9]])) 0 ∧
          Utf8.Valid (textOf (callsOf [[97, 98, 0xC3], [0xA9]])) := by
  refine ⟨by decide, not_contains (by decide) (by decide), Utf8.wholeChars_self ⟨['a'], by decide⟩, by decide,
    ⟨[97, 98], mem_singleton_self _, by unfold Search.At; decide⟩, ⟨['a', 'b', 'é'], by decide⟩⟩

end Server
