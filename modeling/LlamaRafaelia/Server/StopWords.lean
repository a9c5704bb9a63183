import LlamaRafaelia.Lib.Search
import LlamaRafaelia.Lib.Utf8
import LlamaRafaelia.Server.Tokens
import Mathlib.Data.List.GetD

/-!
# Stop words

The text that a slot generates is searched for the stop words of its task, for complete ones in a window at its end and for
one that may have begun.  Nothing is searched while the text ends inside a character.

* `validateUtf8_eq` - **the text in front of a character that is cut**.
-/

namespace Server

open List

/-! ### Slots -/

/-- `stop_type`. -/
inductive StopType where
  | none
  | eos
  | word
  | limit
  deriving DecidableEq, Repr

/-- `completion_token_output`: the token and its text. -/
structure CompletionTokenOutput where
  tok : Token
  textToSend : List UInt8
  deriving DecidableEq

/-- What a task asks of its generation. -/
structure SlotParams where
  antiprompt : List (List UInt8)
  stream : Bool
  returnTokens : Bool
  nPredict : ℤ
  nIndent : ℤ
  tMaxPredictMs : ℤ
  deriving DecidableEq

/-- `server_slot`, with its generation; `responses` are the contents of the partial responses that were sent for it. -/
structure ServerSlot where
  params : SlotParams
  processing : Bool
  nCtx : ℤ
  /-- `prompt.n_tokens()` -/
  nTokens : ℤ
  nDecoded : ℤ
  nRemaining : ℤ
  lastNlPos : ℕ
  generatedText : List UInt8
  generatedTokens : List Token
  generatedTokenProbs : List CompletionTokenOutput
  responses : List (List UInt8)
  hasNextToken : Bool
  hasNewLine : Bool
  truncated : Bool
  stop : StopType
  stoppingWord : List UInt8
  sampled : Token
  nSentText : ℕ
  deriving DecidableEq

/-! ### Characters that are cut -/

/-- The byte is the first one of a character with more than `i` bytes. -/
def cutsOff (c : UInt8) (i : ℕ) : Bool :=
  if c.toNat &&& 0xE0 = 0xC0 then i < 2
  else if c.toNat &&& 0xF0 = 0xE0 then i < 3
  else if c.toNat &&& 0xF8 = 0xF0 then i < 4
  else false

/-- `validate_utf8`: where a character begins that is cut at the end. -/
def validateUtf8 (text : List UInt8) : ℕ :=
  match (List.range' 1 4).find? fun i => i ≤ text.length ∧ cutsOff (text.getD (text.length - i) 0) i with
  | some i => text.length - i
  | none => text.length

theorem cutsOff_iff (c : UInt8) {i : ℕ} (hi : 1 ≤ i) : cutsOff c i = true ↔ i < Utf8.width c := by
  have hbits : ∀ n < 256, (n &&& 0xE0 = 0xC0 ↔ n / 32 = 6) ∧ (n &&& 0xF0 = 0xE0 ↔ n / 16 = 14) ∧
      (n &&& 0xF8 = 0xF0 ↔ n / 8 = 30) := by decide +kernel
  obtain ⟨htwo, hthree, hfour⟩ := hbits c.toNat c.toNat_lt
  rw [cutsOff, Utf8.width]
  simp only [htwo, hthree, hfour]
  split_ifs <;> simp <;> omega

section

variable {v part : List UInt8}

theorem validateUtf8_eq (hv : Utf8.Valid v) (hpart : part = [] ∨ Utf8.Partial part) :
    validateUtf8 (v ++ part) = v.length := by
  obtain rfl | ⟨b, bs, rfl, htail, hwidth⟩ := hpart
  · rw [append_nil]
    have hnone : (List.range' 1 4).find? (fun i => i ≤ v.length ∧ cutsOff (v.getD (v.length - i) 0) i) = none := by
      rw [find?_eq_none]
      intro i hi hcut
      obtain ⟨hle, hcut⟩ := of_decide_eq_true hcut
      have hi := (mem_range'_1.mp hi).1
      have hlt : v.length - i < v.length := by omega
      rw [getD_eq_getElem _ _ hlt, cutsOff_iff _ hi] at hcut
      -- No byte asks for more bytes than there are.
      have hsplit : v.take (v.length - i) ++ v[v.length - i] :: v.drop (v.length - i + 1) = v := by
        rw [getElem_cons_drop, take_append_drop]
      have hroom := Utf8.width_le (hsplit.symm ▸ hv)
      rw [length_drop] at hroom
      omega
    rw [validateUtf8, hnone]
  · have hmax : Utf8.width b ≤ 4 := by
      rw [Utf8.width]
      split_ifs <;> omega
    have hlen : (v ++ b :: bs).length = v.length + (bs.length + 1) := by
      rw [length_append, length_cons]
    have hfirst : (List.range' 1 4).find? (fun i => i ≤ (v ++ b :: bs).length ∧
        cutsOff ((v ++ b :: bs).getD ((v ++ b :: bs).length - i) 0) i) = some (bs.length + 1) := by
      rw [find?_range'_eq_some]
      refine ⟨decide_eq_true ⟨by omega, ?_⟩, mem_range'_1.mpr ⟨by omega, by omega⟩, fun i hi hlt => ?_⟩
      · rw [hlen, Nat.add_sub_cancel, cutsOff_iff _ (by omega), getD_append_right _ _ _ _ (Nat.le_refl _),
          Nat.sub_self]
        exact hwidth
      · -- The bytes behind the first one of the character are no first bytes.
        rw [Bool.not_eq_true', decide_eq_false_iff_not]
        rintro ⟨-, hcut⟩
        have hidx : (v ++ b :: bs).length - i = v.length + (bs.length - i + 1) := by omega
        rw [hidx, getD_append_right _ _ _ _ (by omega), Nat.add_sub_cancel_left, getD_cons_succ,
          cutsOff_iff _ hi, getD_eq_getElem _ _ (by omega),
          Utf8.width_tail (htail _ (getElem_mem _))] at hcut
        omega
    rw [validateUtf8, hfirst, hlen]
    exact Nat.add_sub_cancel _ _

theorem validateUtf8_eq_length {t rest : List UInt8} (h : Utf8.Valid (t ++ rest)) :
    validateUtf8 t < t.length ↔ ¬ Utf8.Valid t := by
  obtain ⟨v, part, rfl, hv, hpart⟩ := Utf8.exists_part h (List.prefix_append _ _)
  rw [validateUtf8_eq hv hpart, length_append]
  obtain rfl | hcut := hpart
  · rw [append_nil]
    exact iff_of_false (by simp) (not_not_intro hv)
  · refine iff_of_true ?_ (hcut.not_valid v)
    obtain ⟨b, bs, rfl, -, -⟩ := hcut
    rw [length_cons]
    omega

end

/-! ### Stop words -/

/-- The loop of `string_find_partial_stop`, with `n` characters of the stop word to go. -/
def partialStopLoop (str stop : List UInt8) : ℕ → Option ℕ
  | 0 => none
  | n + 1 =>
    if stop.getD n 0 = str.getLastD 0 ∧ (stop.take (n + 1)).isSuffixOf str then some (str.length - n - 1)
    else partialStopLoop str stop n

/-- `string_find_partial_stop`. -/
def stringFindPartialStop (str stop : List UInt8) : Option ℕ :=
  if str ≠ [] ∧ stop ≠ [] then partialStopLoop str stop stop.length else none

def stopPosition (text : List UInt8) (lastTokenSize : ℕ) (isFullStop : Bool) (word : List UInt8) : Option ℕ :=
  if isFullStop then
    let tmp := word.length + lastTokenSize
    let fromPos := if tmp < text.length then text.length - tmp else 0
    Search.find text word fromPos
  else stringFindPartialStop text word

/-- What `find_stopping_strings` does with the slot when it has found a word. -/
def ServerSlot.stopAt (slot : ServerSlot) (word : List UInt8) : ServerSlot :=
  { slot with stop := .word, stoppingWord := word, hasNextToken := false }

/-- `find_stopping_strings`. -/
def ServerSlot.findStoppingStrings (slot : ServerSlot) (text : List UInt8) (lastTokenSize : ℕ) (isFullStop : Bool) :
    Option ℕ × ServerSlot :=
  slot.params.antiprompt.foldl (fun r word =>
    match stopPosition text lastTokenSize isFullStop word with
    | some pos =>
      if r.1 = none ∨ pos < r.1.getD 0 then (some pos, if isFullStop then r.2.stopAt word else r.2) else r
    | none => r) (none, slot)

theorem partialStopLoop_eq_none (str stop : List UInt8) {n : ℕ} (hn : n ≤ stop.length) :
    partialStopLoop str stop n = none ↔ ∀ m < n, ¬ stop.take (m + 1) <:+ str := by
  induction n with
  | zero => exact iff_of_true rfl fun m hm => absurd hm (Nat.not_lt_zero m)
  | succ n ih =>
    have hlast : stop.take (n + 1) <:+ str → stop.getD n 0 = str.getLastD 0 := by
      intro h
      obtain ⟨front, rfl⟩ := h
      rw [take_add_one, getElem?_eq_getElem (by omega), Option.toList_some, ← append_assoc,
        getLastD_concat, getD_eq_getElem _ _ (by omega)]
    rw [partialStopLoop]
    split
    · next hfound =>
      refine iff_of_false (by simp) fun h => h n (Nat.lt_succ_self n) ?_
      exact isSuffixOf_iff_suffix.mp hfound.2
    · next hnot =>
      rw [ih (by omega)]
      constructor
      · intro h m hm hsuffix
        obtain hlt | rfl := Nat.lt_succ_iff_lt_or_eq.mp hm
        · exact h m hlt hsuffix
        · exact hnot ⟨hlast hsuffix, isSuffixOf_iff_suffix.mpr hsuffix⟩
      · intro h m hm
        exact h m (Nat.lt_succ_of_lt hm)

theorem stringFindPartialStop_eq_none (str stop : List UInt8) :
    stringFindPartialStop str stop = none ↔ ∀ i < str.length, ¬ str.drop i <+: stop := by
  rw [stringFindPartialStop]
  by_cases hne : str ≠ [] ∧ stop ≠ []
  · rw [if_pos hne, partialStopLoop_eq_none str stop (Nat.le_refl _)]
    constructor
    · intro h i hi hpre
      have hlen := hpre.length_le
      rw [length_drop] at hlen
      have hbegin := List.prefix_iff_eq_take.mp hpre
      refine h (str.length - i - 1) (by omega) ?_
      have hcount : str.length - i - 1 + 1 = (str.drop i).length := by
        rw [length_drop]
        omega
      rw [hcount, ← hbegin]
      exact drop_suffix i str
    · intro h m hm hsuffix
      have hlen := hsuffix.length_le
      have hdrop := suffix_iff_eq_drop.mp hsuffix
      rw [length_take, Nat.min_eq_left hm] at hlen hdrop
      refine h (str.length - (m + 1)) (by omega) ?_
      rw [← hdrop]
      exact List.take_prefix _ _
  · rw [if_neg hne]
    refine iff_of_true rfl fun i hi hpre => hne ⟨ne_nil_of_length_pos (by omega), ?_⟩
    rintro rfl
    have hlen := hpre.length_le
    rw [length_drop, length_nil] at hlen
    omega

theorem stopPosition_full (text : List UInt8) (lastTokenSize : ℕ) (word : List UInt8) :
    stopPosition text lastTokenSize true word = Search.find text word (text.length - (word.length + lastTokenSize)) := by
  have hfrom : (if word.length + lastTokenSize < text.length then text.length - (word.length + lastTokenSize) else 0) =
      text.length - (word.length + lastTokenSize) := by
    split
    · rfl
    · omega
  show Search.find text word (if _ then _ else _) = _
  rw [hfrom]

/-- **The loop over the stop words** finds the least of their starts. -/
theorem ServerSlot.findStoppingStrings_spec (slot : ServerSlot) (text : List UInt8) (lastTokenSize : ℕ) (isFullStop : Bool) :
    (slot.findStoppingStrings text lastTokenSize isFullStop = (none, slot) ∧
        ∀ w ∈ slot.params.antiprompt, stopPosition text lastTokenSize isFullStop w = none) ∨
      ∃ p, IsLeast {q | ∃ w ∈ slot.params.antiprompt, stopPosition text lastTokenSize isFullStop w = some q} p ∧
        ∃ w, slot.findStoppingStrings text lastTokenSize isFullStop =
          (some p, if isFullStop then slot.stopAt w else slot) := by
  rw [findStoppingStrings]
  generalize slot.params.antiprompt = words
  induction words using List.reverseRecOn with
  | nil => exact Or.inl ⟨rfl, fun w hw => absurd hw not_mem_nil⟩
  | append_singleton words word ih =>
    rw [foldl_append, foldl_cons, foldl_nil]
    cases hpos : stopPosition text lastTokenSize isFullStop word with
    | none =>
      obtain ⟨hnone, hwords⟩ | ⟨p, ⟨⟨w, hw, hp⟩, hleast⟩, w', hsome⟩ := ih
      · refine Or.inl ⟨hnone, fun w hw => ?_⟩
        obtain hw | hw := mem_append.mp hw
        · exact hwords w hw
        · rw [mem_singleton.mp hw]
          exact hpos
      · refine Or.inr ⟨p, ⟨⟨w, mem_append_left _ hw, hp⟩, fun q hq => ?_⟩, w', hsome⟩
        obtain ⟨v, hv, hq⟩ := hq
        obtain hv | hv := mem_append.mp hv
        · exact hleast ⟨v, hv, hq⟩
        · rw [mem_singleton.mp hv, hpos] at hq
          cases hq
    | some pos =>
      refine Or.inr ?_
      obtain ⟨hnone, hwords⟩ | ⟨p, ⟨⟨w, hw, hp⟩, hleast⟩, w', hsome⟩ := ih
      · -- The first word that is found.
        rw [hnone]
        refine ⟨pos, ⟨⟨word, mem_append_right _ (mem_singleton_self word), hpos⟩, fun q hq => ?_⟩, word,
          if_pos (Or.inl rfl)⟩
        obtain ⟨v, hv, hq⟩ := hq
        obtain hv | hv := mem_append.mp hv
        · rw [hwords v hv] at hq
          cases hq
        · rw [mem_singleton.mp hv, hpos] at hq
          exact Nat.le_of_eq (Option.some.inj hq)
      · rw [hsome]
        by_cases hlt : pos < p
        · refine ⟨pos, ⟨⟨word, mem_append_right _ (mem_singleton_self word), hpos⟩, fun q hq => ?_⟩, word, ?_⟩
          · obtain ⟨v, hv, hq⟩ := hq
            obtain hv | hv := mem_append.mp hv
            · exact Nat.le_of_lt (hlt.trans_le (hleast ⟨v, hv, hq⟩))
            · rw [mem_singleton.mp hv, hpos] at hq
              exact Nat.le_of_eq (Option.some.inj hq)
          · refine (if_pos (Or.inr hlt)).trans ?_
            cases isFullStop <;> rfl
        · refine ⟨p, ⟨⟨w, mem_append_left _ hw, hp⟩, fun q hq => ?_⟩, w', if_neg (by simpa using hlt)⟩
          obtain ⟨v, hv, hq⟩ := hq
          obtain hv | hv := mem_append.mp hv
          · exact hleast ⟨v, hv, hq⟩
          · rw [mem_singleton.mp hv, hpos] at hq
            exact (Nat.le_of_not_lt hlt).trans (Nat.le_of_eq (Option.some.inj hq))

end Server
