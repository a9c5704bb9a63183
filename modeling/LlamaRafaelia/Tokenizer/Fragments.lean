import Mathlib.Data.List.GetD
import Mathlib.Data.List.TakeWhile
import LlamaRafaelia.Lib.Search
import LlamaRafaelia.Tokenizer.Spm

/-!
# The buffer of fragments, edited in place

`tokenizer_st_partition` edits a `std::forward_list` while it goes through it: for every occurrence of a special token up
to three nodes are put behind the iterator, and then the node they come from is erased.  An iterator is here the index of
its node, so it goes down by one when a node before it is erased.

* **`tokenizerStPartition_spells`** - the call comes to an end, the fragments spell the text, and no special token that is
  looked for stands in the text that is left.
-/

namespace Tokenizer

open List Search

/-- A fragment, without the place its text is read from. -/
inductive Fragment where
  | rawText (text : List UInt8)
  | token (id : ℕ)
  deriving DecidableEq, Repr

/-- `isspace`. -/
def isSpace (b : UInt8) : Bool := b.toNat = 32 ∨ 9 ≤ b.toNat ∧ b.toNat ≤ 13

/-- `std::string_view::find`: the first occurrence of `pattern`. -/
def findText (raw pattern : List UInt8) : Option ℕ :=
  (List.range (raw.length + 1)).find? fun m => pattern.isPrefixOf (raw.drop m)

/-- Cut one text at the occurrences of a special token.  Every occurrence takes a byte, so there are at most `fuel` of
them. -/
def splitRaw (id : ℕ) (data : TokenData) : ℕ → List UInt8 → List Fragment
  | 0, raw => [.rawText raw]
  | fuel + 1, raw =>
    match findText raw data.text with
    | none => [.rawText raw]
    | some m =>
      let left := if data.attr.lstrip then ((raw.take m).reverse.dropWhile isSpace).reverse else raw.take m
      let right := raw.drop (m + data.text.length)
      let right := if data.attr.rstrip then right.dropWhile isSpace else right
      (if left = [] then [] else [.rawText left]) ++ .token id :: (if right = [] then [] else splitRaw id data fuel right)

def splitFragment (id : ℕ) (data : TokenData) : Fragment → List Fragment
  | .rawText raw => splitRaw id data (raw.length + 1) raw
  | .token other => [.token other]

/-- A part of a text, with what the constructor of `fragment_buffer_variant` asserts about it. -/
structure RawSlice where
  rawText : List UInt8
  offset : ℕ
  length : ℕ
  one_le : 1 ≤ length
  end_le : offset + length ≤ rawText.length
  deriving DecidableEq

/-- `fragment_buffer_variant`. -/
inductive FragmentBufferVariant where
  | token (id : ℕ)
  | rawText (slice : RawSlice)
  deriving DecidableEq

def slice (raw : List UInt8) (offset length : ℕ) : List UInt8 := (raw.drop offset).take length

def FragmentBufferVariant.read : FragmentBufferVariant → Fragment
  | .token id => .token id
  | .rawText part => .rawText (slice part.rawText part.offset part.length)

/-- The length that is left after `while (left_reminder_length > 0 && isspace(...)) left_reminder_length--`. -/
def stripLeft (raw : List UInt8) (offset : ℕ) : ℕ → ℕ
  | 0 => 0
  | length + 1 => if isSpace (raw.getD (offset + length) 0) then stripLeft raw offset length else length + 1

/-- The offset and the length that are left after the same loop at the other side. -/
def stripRight (raw : List UInt8) : ℕ → ℕ → ℕ × ℕ
  | offset, 0 => (offset, 0)
  | offset, length + 1 =>
    if isSpace (raw.getD offset 0) then stripRight raw (offset + 1) length else (offset, length + 1)

/-- `left_reminder_length`. -/
def leftLength (data : TokenData) (raw : List UInt8) (offset length : ℕ) : ℕ :=
  if data.attr.lstrip then stripLeft raw offset length else length

/-- `right_reminder_offset` and `right_reminder_length`. -/
def rightPart (data : TokenData) (raw : List UInt8) (offset length : ℕ) : ℕ × ℕ :=
  if data.attr.rstrip then stripRight raw offset length else (offset, length)

/-- `if (length > 0) { buffer.emplace_after(it, raw_text, offset, length); it++; }`; `none` when an assertion fails. -/
def emplaceRaw (raw : List UInt8) (offset length : ℕ) (buffer : List FragmentBufferVariant) (it : ℕ) :
    Option (List FragmentBufferVariant × ℕ) :=
  if 0 < length then
    if h : 1 ≤ length ∧ offset + length ≤ raw.length then
      some (buffer.insertIdx (it + 1) (.rawText ⟨raw, offset, length, h.1, h.2⟩), it + 1)
    else none
  else some (buffer, it)

/-- `if (match > raw_text_base_offset)`: the text to the left of the occurrence. -/
def emplaceLeft (data : TokenData) (raw : List UInt8) (baseOffset m : ℕ) (buffer : List FragmentBufferVariant) (it : ℕ) :
    Option (List FragmentBufferVariant × ℕ) :=
  if baseOffset < m then emplaceRaw raw baseOffset (leftLength data raw baseOffset (m - baseOffset)) buffer it
  else some (buffer, it)

/-- The loop over one text; `none` when an assertion fails or the fuel is used up. -/
def matchLoop (id : ℕ) (data : TokenData) (raw : List UInt8) :
    ℕ → ℕ → ℕ → List FragmentBufferVariant → ℕ → Option (List FragmentBufferVariant × ℕ)
  | 0, _, _, _, _ => none
  | fuel + 1, baseOffset, baseLength, buffer, it =>
    -- the search is limited at the end by the length of the view, and at the beginning by the position
    match find (raw.take (baseOffset + baseLength)) data.text baseOffset with
    | none => some (buffer, it)
    | some m => do
      let source := it
      let (buffer, it) ← emplaceLeft data raw baseOffset m buffer it
      let buffer := buffer.insertIdx (it + 1) (.token id)
      let it := it + 1
      if m + data.text.length < baseOffset + baseLength then
        let right := rightPart data raw (m + data.text.length) (baseLength - ((m - baseOffset) + data.text.length))
        let (buffer, it) ← emplaceRaw raw right.1 right.2 buffer it
        matchLoop id data raw fuel right.1 right.2 (buffer.eraseIdx source) (it - 1)
      else some (buffer.eraseIdx source, it - 1)

/-- `while (it != buffer.end())`. -/
def bufferLoop (id : ℕ) (data : TokenData) : ℕ → List FragmentBufferVariant → ℕ → Option (List FragmentBufferVariant)
  | 0, _, _ => none
  | fuel + 1, buffer, it =>
    match buffer[it]? with
    | none => some buffer
    | some (.token _) => bufferLoop id data fuel buffer (it + 1)
    | some (.rawText part) => do
      -- every occurrence takes a byte, so the rounds are enough
      let (buffer, it) ← matchLoop id data part.rawText (part.length + 1) part.offset part.length buffer it
      bufferLoop id data fuel buffer (it + 1)

/-- A control token or the unknown token is passed over when `parse_special` is not set. -/
def looksFor (parseSpecial : Bool) (data : TokenData) : Bool := parseSpecial || !(data.attr.control || data.attr.unknown)

/-- `tokenizer_st_partition`, for the special tokens in the order of `cache_special_tokens`. -/
def tokenizerStPartition (specials : List (ℕ × TokenData)) (parseSpecial : Bool) (buffer : List FragmentBufferVariant) :
    Option (List FragmentBufferVariant) :=
  specials.foldlM (fun buffer entry =>
    if looksFor parseSpecial entry.2 then bufferLoop entry.1 entry.2 (buffer.length + 1) buffer 0 else some buffer) buffer

/-- The buffer that `tokenize` begins with. -/
def fragmentBuffer (raw : List UInt8) : List FragmentBufferVariant :=
  if h : raw = [] then []
  else [.rawText ⟨raw, 0, raw.length, length_pos_iff.mpr h, (Nat.zero_add _).le⟩]

/-! ### The parts of a text -/

variable {raw : List UInt8} {offset length : ℕ}

theorem length_slice (h : offset + length ≤ raw.length) : (slice raw offset length).length = length := by
  rw [slice, length_take, length_drop]
  omega

theorem slice_zero (raw : List UInt8) (offset : ℕ) : slice raw offset 0 = [] := take_zero

theorem slice_eq_nil_iff (h : offset + length ≤ raw.length) : slice raw offset length = [] ↔ length = 0 := by
  rw [← length_eq_zero_iff, length_slice h]

theorem slice_take {m : ℕ} (h : m ≤ length) : (slice raw offset length).take m = slice raw offset m := by
  rw [slice, slice, take_take, Nat.min_eq_left h]

theorem slice_drop (m : ℕ) : (slice raw offset length).drop m = slice raw (offset + m) (length - m) := by
  rw [slice, slice, drop_take, drop_drop]

theorem slice_cons (h : offset < raw.length) :
    slice raw offset (length + 1) = raw.getD offset 0 :: slice raw (offset + 1) length := by
  rw [slice, drop_eq_getElem_cons h, take_succ_cons, getD_eq_getElem _ _ h]
  rfl

theorem slice_concat (h : offset + length < raw.length) :
    slice raw offset (length + 1) = slice raw offset length ++ [raw.getD (offset + length) 0] := by
  have hlt : length < (raw.drop offset).length := by
    rw [length_drop]
    omega
  rw [slice, take_succ_eq_append_getElem hlt, getElem_drop, getD_eq_getElem _ _ h]
  rfl

theorem stripLeft_le (raw : List UInt8) (offset length : ℕ) : stripLeft raw offset length ≤ length := by
  induction length with
  | zero => exact Nat.le_refl 0
  | succ length ih =>
    rw [stripLeft]
    split
    · omega
    · exact Nat.le_refl _

theorem slice_stripLeft (h : offset + length ≤ raw.length) :
    slice raw offset (stripLeft raw offset length) = ((slice raw offset length).reverse.dropWhile isSpace).reverse := by
  induction length with
  | zero => rfl
  | succ length ih =>
    rw [slice_concat (by omega), reverse_append, stripLeft]
    show _ = (List.dropWhile isSpace (raw.getD (offset + length) 0 :: (slice raw offset length).reverse)).reverse
    cases hspace : isSpace (raw.getD (offset + length) 0) with
    | true =>
      rw [if_pos rfl, dropWhile_cons_of_pos hspace]
      exact ih (by omega)
    | false =>
      rw [if_neg (by decide), dropWhile_cons_of_neg (by rw [hspace]; decide), reverse_cons, reverse_reverse]
      exact slice_concat (by omega)

theorem stripRight_add (raw : List UInt8) (offset length : ℕ) :
    (stripRight raw offset length).1 + (stripRight raw offset length).2 = offset + length := by
  induction length generalizing offset with
  | zero => rfl
  | succ length ih =>
    rw [stripRight]
    split
    · rw [ih]
      omega
    · rfl

theorem le_stripRight (raw : List UInt8) (offset length : ℕ) : offset ≤ (stripRight raw offset length).1 := by
  induction length generalizing offset with
  | zero => exact Nat.le_refl offset
  | succ length ih =>
    rw [stripRight]
    split
    · exact (Nat.le_succ offset).trans (ih (offset + 1))
    · exact Nat.le_refl offset

theorem slice_stripRight (h : offset + length ≤ raw.length) :
    slice raw (stripRight raw offset length).1 (stripRight raw offset length).2
      = (slice raw offset length).dropWhile isSpace := by
  induction length generalizing offset with
  | zero =>
    rw [slice_zero]
    exact slice_zero raw offset
  | succ length ih =>
    rw [stripRight, slice_cons (by omega)]
    cases hspace : isSpace (raw.getD offset 0) with
    | true =>
      rw [if_pos rfl, dropWhile_cons_of_pos hspace]
      exact ih (by omega)
    | false =>
      rw [if_neg (by decide), dropWhile_cons_of_neg (by rw [hspace]; decide)]
      exact slice_cons (by omega)

variable {id : ℕ} {data : TokenData}

theorem slice_leftLength (h : offset + length ≤ raw.length) :
    slice raw offset (leftLength data raw offset length)
      = if data.attr.lstrip then ((slice raw offset length).reverse.dropWhile isSpace).reverse
        else slice raw offset length := by
  rw [leftLength]
  split
  · exact slice_stripLeft h
  · rfl

theorem leftLength_le (data : TokenData) (raw : List UInt8) (offset length : ℕ) :
    leftLength data raw offset length ≤ length := by
  rw [leftLength]
  split
  · exact stripLeft_le raw offset length
  · exact Nat.le_refl _

theorem slice_rightPart (h : offset + length ≤ raw.length) :
    slice raw (rightPart data raw offset length).1 (rightPart data raw offset length).2
      = if data.attr.rstrip then (slice raw offset length).dropWhile isSpace else slice raw offset length := by
  rw [rightPart]
  split
  · exact slice_stripRight h
  · rfl

theorem rightPart_add (data : TokenData) (raw : List UInt8) (offset length : ℕ) :
    (rightPart data raw offset length).1 + (rightPart data raw offset length).2 = offset + length := by
  rw [rightPart]
  split
  · exact stripRight_add raw offset length
  · rfl

theorem le_rightPart (data : TokenData) (raw : List UInt8) (offset length : ℕ) :
    offset ≤ (rightPart data raw offset length).1 := by
  rw [rightPart]
  split
  · exact le_stripRight raw offset length
  · exact Nat.le_refl _

/-! ### One special token -/

def rawPart (raw : List UInt8) (offset length : ℕ) : List FragmentBufferVariant :=
  if h : 1 ≤ length ∧ offset + length ≤ raw.length then [.rawText ⟨raw, offset, length, h.1, h.2⟩] else []

theorem rawPart_of_pos (h : 1 ≤ length ∧ offset + length ≤ raw.length) :
    rawPart raw offset length = [.rawText ⟨raw, offset, length, h.1, h.2⟩] := dif_pos h

theorem rawPart_read (h : offset + length ≤ raw.length) :
    (rawPart raw offset length).map FragmentBufferVariant.read
      = if slice raw offset length = [] then [] else [.rawText (slice raw offset length)] := by
  by_cases hpos : 1 ≤ length
  · have hne : slice raw offset length ≠ [] := fun hnil => by
      rw [slice_eq_nil_iff h] at hnil
      omega
    rw [if_neg hne, rawPart_of_pos ⟨hpos, h⟩]
    rfl
  · have hzero : length = 0 := by omega
    rw [if_pos ((slice_eq_nil_iff h).mpr hzero), rawPart, dif_neg fun hall => hpos hall.1]
    rfl

theorem insertIdx_behind {done post : List FragmentBufferVariant} {it : ℕ} (hit : done.length = it + 1)
    (node : FragmentBufferVariant) : (done ++ post).insertIdx (it + 1) node = done ++ node :: post := by
  rw [← hit]
  clear hit
  induction done with
  | nil => rfl
  | cons first done ih =>
    rw [length_cons, cons_append, insertIdx_succ_cons, ih]
    rfl

theorem emplaceRaw_spec (h : offset + length ≤ raw.length) {done : List FragmentBufferVariant} {it : ℕ}
    (hit : done.length = it + 1) (post : List FragmentBufferVariant) :
    emplaceRaw raw offset length (done ++ post) it
      = some (done ++ rawPart raw offset length ++ post, it + (rawPart raw offset length).length) := by
  rw [emplaceRaw, rawPart]
  split
  next hpos =>
    rw [dif_pos ⟨hpos, h⟩, dif_pos ⟨hpos, h⟩, insertIdx_behind hit, append_assoc]
    rfl
  next hzero =>
    rw [dif_neg fun hall => hzero hall.1, append_nil]
    rfl

theorem findText_eq (raw pattern : List UInt8) : findText raw pattern = find raw pattern 0 := by
  rw [findText, find]
  refine congrArg (fun p => List.find? p _) (funext fun m => ?_)
  simp only [Nat.zero_le, true_and, Bool.decide_eq_true]

theorem find_slice (hne : data.text ≠ []) (raw : List UInt8) (offset length : ℕ) :
    find (raw.take (offset + length)) data.text offset
      = (findText (slice raw offset length) data.text).map (offset + ·) := by
  have hslice : slice raw offset length = (raw.take (offset + length)).drop offset := by
    rw [slice, drop_take, Nat.add_sub_cancel_left]
  rw [findText_eq, hslice]
  exact find_drop hne _ offset

theorem findText_le (hne : data.text ≠ []) {part : List UInt8} {m : ℕ} (h : findText part data.text = some m) :
    m + data.text.length ≤ part.length := by
  rw [findText_eq] at h
  exact ((find_eq_some hne).mp h).1.2.le hne

theorem matchLoop_zero (hne : data.text ≠ []) (raw : List UInt8) (fuel offset : ℕ) (buffer : List FragmentBufferVariant)
    (it : ℕ) : matchLoop id data raw (fuel + 1) offset 0 buffer it = some (buffer, it) := by
  have hfind : find (raw.take (offset + 0)) data.text offset = none := by
    rw [find_slice hne, slice_zero, Option.map_eq_none_iff, findText_eq, find_eq_none hne]
    intro i _ hat
    have hle := hat.le hne
    have hpos := length_pos_iff.mpr hne
    rw [length_nil] at hle
    omega
  rw [matchLoop, hfind]

theorem emplaceLeft_spec (h : offset + length ≤ raw.length) {m : ℕ} (hm : m ≤ length)
    {done : List FragmentBufferVariant} {it : ℕ} (hit : done.length = it + 1) (post : List FragmentBufferVariant) :
    emplaceLeft data raw offset (offset + m) (done ++ post) it
      = some (done ++ rawPart raw offset (leftLength data raw offset m) ++ post,
          it + (rawPart raw offset (leftLength data raw offset m)).length) := by
  have hle := leftLength_le data raw offset m
  rw [emplaceLeft, Nat.add_sub_cancel_left]
  split
  · exact emplaceRaw_spec (by omega) hit post
  · have hzero : leftLength data raw offset m = 0 := by omega
    rw [hzero, rawPart, dif_neg (by omega), append_nil]
    rfl

/-- **One round**: the text to the left of the occurrence and the token come in place of the node, and behind them what
the rest of the loop makes of the text to the right. -/
theorem matchLoop_step (hne : data.text ≠ []) (h : offset + length ≤ raw.length) {m : ℕ}
    (hfind : findText (slice raw offset length) data.text = some m) (fuel : ℕ) (node : FragmentBufferVariant)
    (pre post : List FragmentBufferVariant) {right : ℕ × ℕ}
    (hright : right = rightPart data raw (offset + m + data.text.length) (length - (m + data.text.length)))
    {front : List FragmentBufferVariant}
    (hfront : front = pre ++ rawPart raw offset (leftLength data raw offset m) ++ [.token id]) :
    matchLoop id data raw (fuel + 2) offset length (pre ++ node :: post) pre.length
      = matchLoop id data raw (fuel + 1) right.1 right.2 (front ++ rawPart raw right.1 right.2 ++ post)
          (front.length + (rawPart raw right.1 right.2).length - 1) := by
  have hle := findText_le hne hfind
  rw [length_slice h] at hle
  have hadd := rightPart_add data raw (offset + m + data.text.length) (length - (m + data.text.length))
  rw [← hright] at hadd
  have hdone : (pre ++ [node]).length = pre.length + 1 := length_append
  rw [matchLoop, find_slice hne, hfind, append_cons pre node post]
  show Option.bind (emplaceLeft data raw offset (offset + m) (pre ++ [node] ++ post) pre.length) _ = _
  rw [emplaceLeft_spec h (by omega) hdone]
  generalize rawPart raw offset (leftLength data raw offset m) = left at hfront ⊢
  have hleft : (pre ++ [node] ++ left).length = pre.length + left.length + 1 := by
    simp only [length_append, length_singleton]
    omega
  have htoken : (pre ++ [node] ++ left ++ [FragmentBufferVariant.token id]).length = pre.length + left.length + 1 + 1 := by
    rw [length_append, hleft, length_singleton]
  have hlen : front.length = pre.length + left.length + 1 := by
    rw [hfront, length_append, length_append, length_singleton]
  -- The node is erased, and what is in front of it and behind it stays.
  have herase : ∀ more, (pre ++ [node] ++ left ++ [FragmentBufferVariant.token id] ++ more).eraseIdx pre.length
      = front ++ more := by
    intro more
    rw [hfront]
    simp only [append_assoc]
    rw [eraseIdx_append_of_length_le (Nat.le_refl _), Nat.sub_self]
    rfl
  show (if offset + m + data.text.length < offset + length then
      Option.bind (emplaceRaw raw
        (rightPart data raw (offset + m + data.text.length) (length - (offset + m - offset + data.text.length))).1
        (rightPart data raw (offset + m + data.text.length) (length - (offset + m - offset + data.text.length))).2
        ((pre ++ [node] ++ left ++ post).insertIdx (pre.length + left.length + 1) (.token id))
        (pre.length + left.length + 1)) _
    else some (((pre ++ [node] ++ left ++ post).insertIdx (pre.length + left.length + 1) (.token id)).eraseIdx pre.length,
      pre.length + left.length + 1 - 1)) = _
  rw [insertIdx_behind hleft, append_cons _ (FragmentBufferVariant.token id) post, herase,
    Nat.add_sub_cancel_left offset m, ← hright]
  split
  next hlt =>
    rw [emplaceRaw_spec (by omega) htoken]
    show matchLoop id data raw (fuel + 1) right.1 right.2 (List.eraseIdx _ pre.length)
      (pre.length + left.length + 1 + (rawPart raw right.1 right.2).length - 1) = _
    rw [append_assoc _ (rawPart raw right.1 right.2) post, herase, hlen, append_assoc front]
  next hge =>
    have hzero : right.2 = 0 := by
      have hlow := le_rightPart data raw (offset + m + data.text.length) (length - (m + data.text.length))
      rw [← hright] at hlow
      omega
    rw [hzero, matchLoop_zero hne, rawPart, dif_neg (by omega), append_nil, hlen]
    rfl

theorem splitRaw_ne_nil (id : ℕ) (data : TokenData) (fuel : ℕ) (raw : List UInt8) : splitRaw id data fuel raw ≠ [] := by
  cases fuel with
  | zero => exact cons_ne_nil _ _
  | succ fuel =>
    rw [splitRaw]
    split
    · exact cons_ne_nil _ _
    · exact append_ne_nil_of_right_ne_nil _ (cons_ne_nil _ _)

theorem matchLoop_spec (id : ℕ) (hne : data.text ≠ []) {fuel : ℕ} (h : offset + length ≤ raw.length) (hpos : 1 ≤ length)
    (hfuel : length < fuel) (pre post : List FragmentBufferVariant) :
    ∃ cut, matchLoop id data raw fuel offset length (pre ++ .rawText ⟨raw, offset, length, hpos, h⟩ :: post) pre.length
        = some (pre ++ cut ++ post, pre.length + cut.length - 1)
      ∧ cut.map FragmentBufferVariant.read = splitRaw id data fuel (slice raw offset length) := by
  induction fuel generalizing offset length pre with
  | zero => exact absurd hfuel (Nat.not_lt_zero _)
  | succ fuel ih =>
    cases hfind : findText (slice raw offset length) data.text with
    | none =>
      refine ⟨[.rawText ⟨raw, offset, length, hpos, h⟩], ?_, ?_⟩
      · rw [matchLoop, find_slice hne, hfind, ← append_cons]
        rfl
      · rw [splitRaw, hfind]
        rfl
    | some m =>
      obtain ⟨fuel, rfl⟩ : ∃ k, fuel = k + 1 := ⟨fuel - 1, by omega⟩
      have hle := findText_le hne hfind
      rw [length_slice h] at hle
      have htext := length_pos_iff.mpr hne
      have htake : (slice raw offset length).take m = slice raw offset m := slice_take (by omega)
      have hdrop : (slice raw offset length).drop (m + data.text.length)
          = slice raw (offset + m + data.text.length) (length - (m + data.text.length)) := by
        rw [slice_drop, Nat.add_assoc]
      have hleft := leftLength_le data raw offset m
      have hlefts : (rawPart raw offset (leftLength data raw offset m)).map FragmentBufferVariant.read = _ :=
        rawPart_read (by omega)
      rw [slice_leftLength (by omega), ← htake] at hlefts
      have hadd := rightPart_add data raw (offset + m + data.text.length) (length - (m + data.text.length))
      have hlow := le_rightPart data raw (offset + m + data.text.length) (length - (m + data.text.length))
      have hrights : slice raw (rightPart data raw (offset + m + data.text.length) (length - (m + data.text.length))).1
          (rightPart data raw (offset + m + data.text.length) (length - (m + data.text.length))).2 = _ :=
        slice_rightPart (by omega)
      rw [← hdrop] at hrights
      rw [matchLoop_step hne h hfind fuel _ pre post rfl rfl]
      generalize rightPart data raw (offset + m + data.text.length) (length - (m + data.text.length)) = right
        at hadd hlow hrights ⊢
      generalize rawPart raw offset (leftLength data raw offset m) = left at hlefts ⊢
      have hsplit : splitRaw id data (fuel + 1 + 1) (slice raw offset length)
          = left.map FragmentBufferVariant.read ++ .token id ::
            (if slice raw right.1 right.2 = [] then [] else splitRaw id data (fuel + 1) (slice raw right.1 right.2)) := by
        rw [splitRaw, hfind, hlefts, hrights]
      have hfront : (pre ++ left ++ [FragmentBufferVariant.token id]).length = pre.length + left.length + 1 := by
        simp only [length_append, length_singleton]
      by_cases hmore : 1 ≤ right.2
      · have hend : right.1 + right.2 ≤ raw.length := by omega
        have hnonempty : slice raw right.1 right.2 ≠ [] := fun hnil => by
          rw [slice_eq_nil_iff hend] at hnil
          omega
        obtain ⟨cut, hrun, hread⟩ := ih (by omega) hmore (by omega) (pre ++ left ++ [FragmentBufferVariant.token id])
        have hcut : cut ≠ [] := fun hnil => by
          rw [hnil] at hread
          exact splitRaw_ne_nil id data (fuel + 1) _ hread.symm
        have hcuts := length_pos_iff.mpr hcut
        refine ⟨left ++ .token id :: cut, ?_, ?_⟩
        · rw [rawPart_of_pos ⟨hmore, by omega⟩, append_assoc _ [_] post]
          show matchLoop id data raw (fuel + 1) right.1 right.2
            (pre ++ left ++ [FragmentBufferVariant.token id] ++ _ :: post)
            (pre ++ left ++ [FragmentBufferVariant.token id]).length = _
          rw [hrun, hfront]
          simp only [append_assoc, cons_append, nil_append, length_append, length_cons]
          refine congrArg (fun n => some (_, n)) ?_
          omega
        · rw [hsplit, if_neg hnonempty, map_append, map_cons, hread]
          rfl
      · have hzero : right.2 = 0 := by omega
        refine ⟨left ++ [.token id], ?_, ?_⟩
        · rw [hzero, matchLoop_zero hne, rawPart, dif_neg (by omega), hfront]
          simp only [append_assoc, append_nil, length_append, length_nil, length_singleton,
            Nat.add_assoc]
        · rw [hsplit, hzero, slice_zero, if_pos rfl, map_append]
          rfl

theorem bufferLoop_spec (id : ℕ) (hne : data.text ≠ []) {fuel : ℕ} {post : List FragmentBufferVariant} (hfuel : post.length < fuel)
    (pre : List FragmentBufferVariant) :
    ∃ buffer, bufferLoop id data fuel (pre ++ post) pre.length = some buffer
      ∧ buffer.map FragmentBufferVariant.read
        = pre.map FragmentBufferVariant.read ++ (post.map FragmentBufferVariant.read).flatMap (splitFragment id data) := by
  induction post generalizing fuel pre with
  | nil =>
    obtain ⟨fuel, rfl⟩ : ∃ k, fuel = k + 1 := ⟨fuel - 1, by omega⟩
    refine ⟨pre, ?_, (append_nil _).symm⟩
    rw [append_nil, bufferLoop, getElem?_eq_none (Nat.le_refl _)]
  | cons node post ih =>
    obtain ⟨fuel, rfl⟩ : ∃ k, fuel = k + 1 := ⟨fuel - 1, by omega⟩
    have hlen : post.length < fuel := by
      rw [length_cons] at hfuel
      omega
    have hget : (pre ++ node :: post)[pre.length]? = some node := by
      rw [getElem?_append_right (Nat.le_refl _), Nat.sub_self]
      rfl
    rw [bufferLoop, hget]
    cases node with
    | token other =>
      obtain ⟨buffer, hrun, hread⟩ := ih hlen (pre ++ [.token other])
      refine ⟨buffer, ?_, ?_⟩
      · rw [length_append, ← append_cons] at hrun
        exact hrun
      · rw [hread, map_append, append_assoc]
        rfl
    | rawText part =>
      obtain ⟨cut, hcut, hreads⟩ := matchLoop_spec id hne part.end_le part.one_le (Nat.lt_succ_self _) pre post
      have hcuts : cut ≠ [] := fun hnil => by
        rw [hnil] at hreads
        exact splitRaw_ne_nil id data _ _ hreads.symm
      have hpos := length_pos_iff.mpr hcuts
      obtain ⟨buffer, hrun, hread⟩ := ih hlen (pre ++ cut)
      refine ⟨buffer, ?_, ?_⟩
      · show Option.bind (matchLoop id data part.rawText (part.length + 1) part.offset part.length _ _) _ = _
        rw [hcut]
        show bufferLoop id data fuel (pre ++ cut ++ post) (pre.length + cut.length - 1 + 1) = _
        rw [Nat.sub_add_cancel (by omega), ← length_append]
        exact hrun
      · rw [hread, map_append, hreads, map_cons, flatMap_cons, append_assoc]
        show _ = _ ++ (splitRaw id data ((slice part.rawText part.offset part.length).length + 1) _ ++ _)
        rw [length_slice part.end_le]

/-! ### All special tokens -/

variable {specials : List (ℕ × TokenData)} {parseSpecial : Bool}

def cutAt (specials : List (ℕ × TokenData)) (parseSpecial : Bool) (fragments : List Fragment) : List Fragment :=
  specials.foldl (fun fragments entry =>
    if looksFor parseSpecial entry.2 then fragments.flatMap (splitFragment entry.1 entry.2) else fragments) fragments

/-- **The buffer reads as the texts cut at one special token after the other.** -/
theorem tokenizerStPartition_reads (hne : ∀ entry ∈ specials, entry.2.text ≠ []) (parseSpecial : Bool)
    (buffer : List FragmentBufferVariant) :
    ∃ after, tokenizerStPartition specials parseSpecial buffer = some after
      ∧ after.map FragmentBufferVariant.read = cutAt specials parseSpecial (buffer.map FragmentBufferVariant.read) := by
  induction specials generalizing buffer with
  | nil => exact ⟨buffer, rfl, rfl⟩
  | cons entry specials ih =>
    have hrest := fun entry' hentry' => hne entry' (mem_cons_of_mem _ hentry')
    rw [tokenizerStPartition, foldlM_cons, cutAt, foldl_cons]
    by_cases hlook : looksFor parseSpecial entry.2 = true
    · obtain ⟨next, hrun, hread⟩ := bufferLoop_spec entry.1 (hne entry mem_cons_self)
        (Nat.lt_succ_self buffer.length) []
      obtain ⟨after, hafter, hreads⟩ := ih hrest next
      refine ⟨after, ?_, ?_⟩
      · rw [if_pos hlook]
        show Option.bind (bufferLoop entry.1 entry.2 (buffer.length + 1) buffer 0) _ = _
        rw [show bufferLoop entry.1 entry.2 (buffer.length + 1) buffer 0 = some next from hrun]
        exact hafter
      · rw [hreads, hread, if_pos hlook]
        rfl
    · obtain ⟨after, hafter, hreads⟩ := ih hrest buffer
      refine ⟨after, ?_, ?_⟩
      · rw [if_neg hlook]
        exact hafter
      · rw [hreads, if_neg hlook]
        rfl

/-! ### What the fragments say of the text -/

/-- The fragments spell the text: a text stands for itself, and a token for its own text, with whitespace at the sides
where the token takes it away. -/
inductive Spells (specials : List (ℕ × TokenData)) : List Fragment → List UInt8 → Prop
  | nil : Spells specials [] []
  | rawText {part text : List UInt8} {fragments : List Fragment} (rest : Spells specials fragments text) :
      Spells specials (.rawText part :: fragments) (part ++ text)
  | token {id : ℕ} {data : TokenData} {left right text : List UInt8} {fragments : List Fragment}
      (mem : (id, data) ∈ specials) (left_space : ∀ b ∈ left, isSpace b = true)
      (left_strip : left ≠ [] → data.attr.lstrip = true) (right_space : ∀ b ∈ right, isSpace b = true)
      (right_strip : right ≠ [] → data.attr.rstrip = true) (rest : Spells specials fragments text) :
      Spells specials (.token id :: fragments) (left ++ data.text ++ right ++ text)

def Clean (words : List (List UInt8)) : Fragment → Prop
  | .rawText raw => raw ≠ [] ∧ ∀ w ∈ words, ¬ w <:+: raw
  | .token _ => True

theorem Spells.append {fragments more : List Fragment} {text rest : List UInt8} (h : Spells specials fragments text)
    (hmore : Spells specials more rest) : Spells specials (fragments ++ more) (text ++ rest) := by
  induction h with
  | nil => exact hmore
  | rawText _ ih =>
    rw [append_assoc]
    exact .rawText ih
  | token mem left_space left_strip right_space right_strip _ ih =>
    rw [append_assoc]
    exact .token mem left_space left_strip right_space right_strip ih

theorem spells_rawText (raw : List UInt8) : Spells specials [.rawText raw] raw := by
  have hspells : Spells specials [.rawText raw] (raw ++ []) := .rawText .nil
  rwa [append_nil] at hspells

theorem stripped_left (strip : Bool) (part : List UInt8) :
    ∃ space, (if strip then (part.reverse.dropWhile isSpace).reverse else part) ++ space = part
      ∧ (∀ b ∈ space, isSpace b = true) ∧ (space ≠ [] → strip = true) := by
  cases strip with
  | false => exact ⟨[], append_nil part, fun b hb => absurd hb not_mem_nil, fun h => absurd rfl h⟩
  | true =>
    refine ⟨(part.reverse.takeWhile isSpace).reverse, ?_, ?_, fun _ => rfl⟩
    · rw [if_pos rfl, ← reverse_append, takeWhile_append_dropWhile, reverse_reverse]
    · intro b hb
      exact mem_takeWhile_imp (mem_reverse.mp hb)

theorem stripped_right (strip : Bool) (part : List UInt8) :
    ∃ space, space ++ (if strip then part.dropWhile isSpace else part) = part
      ∧ (∀ b ∈ space, isSpace b = true) ∧ (space ≠ [] → strip = true) := by
  cases strip with
  | false => exact ⟨[], rfl, fun b hb => absurd hb not_mem_nil, fun h => absurd rfl h⟩
  | true =>
    exact ⟨part.takeWhile isSpace, takeWhile_append_dropWhile, fun b hb => mem_takeWhile_imp hb, fun _ => rfl⟩

theorem findText_append (hne : data.text ≠ []) {part : List UInt8} {m : ℕ} (h : findText part data.text = some m) :
    part.take m ++ data.text ++ part.drop (m + data.text.length) = part := by
  rw [findText_eq] at h
  obtain ⟨rest, hrest⟩ := ((find_eq_some hne).mp h).1.2
  rw [← drop_drop, ← hrest, drop_left, append_assoc, hrest, take_append_drop]

theorem findText_left (hne : data.text ≠ []) {part : List UInt8} {m : ℕ} (h : findText part data.text = some m) :
    ¬ data.text <:+: part.take m := by
  rw [findText_eq] at h
  intro hinside
  obtain ⟨i, hat⟩ := (exists_at_iff).mpr hinside
  have hend := hat.le hne
  have hpos := length_pos_iff.mpr hne
  rw [length_take] at hend
  have hwhole : Search.At part data.text i := by
    have happend := hat.append (part.drop m)
    rwa [take_append_drop] at happend
  have hleast := ((find_eq_some hne).mp h).2 ⟨Nat.zero_le i, hwhole⟩
  omega

theorem splitRaw_spells (hne : data.text ≠ []) (hmem : (id, data) ∈ specials) (fuel : ℕ) (raw : List UInt8) :
    Spells specials (splitRaw id data fuel raw) raw := by
  induction fuel generalizing raw with
  | zero => exact spells_rawText raw
  | succ fuel ih =>
    cases hfind : findText raw data.text with
    | none =>
      rw [splitRaw, hfind]
      exact spells_rawText raw
    | some m =>
      obtain ⟨leftSpace, hleft, hleftSpace, hlstrip⟩ := stripped_left data.attr.lstrip (raw.take m)
      obtain ⟨rightSpace, hright, hrightSpace, hrstrip⟩ :=
        stripped_right data.attr.rstrip (raw.drop (m + data.text.length))
      have hraw := findText_append hne hfind
      rw [← hleft, ← hright] at hraw
      rw [splitRaw, hfind]
      dsimp only
      generalize (if data.attr.lstrip then ((raw.take m).reverse.dropWhile isSpace).reverse else raw.take m) = left
        at hraw ⊢
      generalize (if data.attr.rstrip then (raw.drop (m + data.text.length)).dropWhile isSpace
        else raw.drop (m + data.text.length)) = right at hraw ⊢
      have hfront : Spells specials (if left = [] then [] else [.rawText left]) left := by
        split
        next hnil =>
          rw [hnil]
          exact .nil
        next => exact spells_rawText left
      have hbehind : Spells specials (if right = [] then [] else splitRaw id data fuel right) right := by
        split
        next hnil =>
          rw [hnil]
          exact .nil
        next => exact ih right
      have hall := hfront.append (.token hmem hleftSpace hlstrip hrightSpace hrstrip hbehind)
      rw [← hraw]
      simpa only [append_assoc] using hall

theorem Clean.part {words : List (List UInt8)} {w raw part : List UInt8} (h : Clean words (.rawText raw))
    (hpart : part ≠ []) (hinside : part <:+: raw) (hnot : ¬ w <:+: part) : Clean (w :: words) (.rawText part) := by
  refine ⟨hpart, fun w' hw' hall => ?_⟩
  rcases mem_cons.mp hw' with rfl | hw'
  · exact hnot hall
  · exact h.2 w' hw' (hall.trans hinside)

/-- **What is left of a text** has no occurrence of the word, and none of the words that it had none of. -/
theorem splitRaw_clean (hne : data.text ≠ []) {words : List (List UInt8)} {fuel : ℕ} {raw : List UInt8}
    (hfuel : raw.length < fuel) (h : Clean words (.rawText raw)) :
    ∀ fragment ∈ splitRaw id data fuel raw, Clean (data.text :: words) fragment := by
  induction fuel generalizing raw with
  | zero => exact absurd hfuel (Nat.not_lt_zero _)
  | succ fuel ih =>
    intro fragment hfragment
    cases hfind : findText raw data.text with
    | none =>
      rw [splitRaw, hfind] at hfragment
      rw [mem_singleton.mp hfragment]
      refine h.part h.1 (List.infix_refl raw) fun hinside => ?_
      rw [findText_eq, find_eq_none hne] at hfind
      obtain ⟨i, hat⟩ := (exists_at_iff).mpr hinside
      exact hfind i (Nat.zero_le i) hat
    | some m =>
      obtain ⟨leftSpace, hleft, _, _⟩ := stripped_left data.attr.lstrip (raw.take m)
      obtain ⟨rightSpace, hright, _, _⟩ := stripped_right data.attr.rstrip (raw.drop (m + data.text.length))
      rw [splitRaw, hfind] at hfragment
      dsimp only at hfragment
      generalize (if data.attr.lstrip then ((raw.take m).reverse.dropWhile isSpace).reverse else raw.take m) = left
        at hleft hfragment
      generalize (if data.attr.rstrip then (raw.drop (m + data.text.length)).dropWhile isSpace
        else raw.drop (m + data.text.length)) = right at hright hfragment
      have hlefts : left <:+: raw.take m := ⟨[], leftSpace, hleft⟩
      have hrights : right <:+ raw.drop (m + data.text.length) := ⟨rightSpace, hright⟩
      rcases mem_append.mp hfragment with hmem | hmem
      · split at hmem
        · cases hmem
        next hnonempty =>
          rw [mem_singleton.mp hmem]
          exact h.part hnonempty (hlefts.trans (List.take_prefix m raw).isInfix)
            fun hinside => findText_left hne hfind (hinside.trans hlefts)
      · rcases mem_cons.mp hmem with rfl | hmem
        · trivial
        · split at hmem
          · cases hmem
          next hnonempty =>
            have hinside : right <:+: raw := (hrights.trans (drop_suffix _ raw)).isInfix
            have hlen := hrights.length_le
            have hpos := length_pos_iff.mpr hne
            have hle := findText_le hne hfind
            rw [length_drop] at hlen
            refine ih (by omega) ⟨hnonempty, fun w hw hall => ?_⟩ fragment hmem
            exact h.2 w hw (hall.trans hinside)

def wordsFor (specials : List (ℕ × TokenData)) (parseSpecial : Bool) : List (List UInt8) :=
  (specials.filter fun entry => looksFor parseSpecial entry.2).map fun entry => entry.2.text

theorem flatMap_spells {fragments : List Fragment} {text : List UInt8} (hne : data.text ≠ [])
    (hmem : (id, data) ∈ specials) (h : Spells specials fragments text) :
    Spells specials (fragments.flatMap (splitFragment id data)) text := by
  induction h with
  | nil => exact .nil
  | @rawText part _ _ _ ih =>
    rw [flatMap_cons]
    exact (splitRaw_spells hne hmem (part.length + 1) part).append ih
  | token mem left_space left_strip right_space right_strip _ ih =>
    exact .token mem left_space left_strip right_space right_strip ih

theorem cutAt_spells {fragments : List Fragment} {text : List UInt8} {words : List (List UInt8)}
    {all : List (ℕ × TokenData)} (hall : ∀ entry ∈ specials, looksFor parseSpecial entry.2 = true → entry ∈ all)
    (hne : ∀ entry ∈ specials, entry.2.text ≠ [])
    (hspells : Spells all fragments text) (hclean : ∀ fragment ∈ fragments, Clean words fragment) :
    Spells all (cutAt specials parseSpecial fragments) text
      ∧ ∀ fragment ∈ cutAt specials parseSpecial fragments,
          Clean ((wordsFor specials parseSpecial).reverse ++ words) fragment := by
  induction specials generalizing fragments words with
  | nil => exact ⟨hspells, hclean⟩
  | cons entry specials ih =>
    have halls := fun entry' hentry' => hall entry' (mem_cons_of_mem _ hentry')
    have hnes := fun entry' hentry' => hne entry' (mem_cons_of_mem _ hentry')
    have htext := hne entry mem_cons_self
    by_cases hlook : looksFor parseSpecial entry.2 = true
    · have hwords : (wordsFor (entry :: specials) parseSpecial).reverse ++ words
          = (wordsFor specials parseSpecial).reverse ++ (entry.2.text :: words) := by
        rw [wordsFor, filter_cons, if_pos hlook, map_cons, reverse_cons, append_assoc]
        rfl
      rw [hwords, cutAt, foldl_cons, if_pos hlook]
      refine ih halls hnes (flatMap_spells htext (hall entry mem_cons_self hlook) hspells) fun fragment hfragment => ?_
      obtain ⟨whole, hfrom, hmem⟩ := mem_flatMap.mp hfragment
      cases whole with
      | rawText raw => exact splitRaw_clean htext (Nat.lt_succ_self _) (hclean _ hfrom) fragment hmem
      | token other =>
        rw [mem_singleton.mp hmem]
        trivial
    · have hwords : wordsFor (entry :: specials) parseSpecial = wordsFor specials parseSpecial := by
        rw [wordsFor, filter_cons, if_neg hlook]
        rfl
      rw [hwords, cutAt, foldl_cons, if_neg hlook]
      exact ih halls hnes hspells hclean

theorem fragmentBuffer_reads (raw : List UInt8) :
    (fragmentBuffer raw).map FragmentBufferVariant.read = if raw = [] then [] else [.rawText raw] := by
  rw [fragmentBuffer]
  split
  · rfl
  · show [Fragment.rawText (raw.take raw.length)] = _
    rw [take_length]

/-- **The partition of a text**: the call comes to an end without a failed assertion, the fragments spell the text, and a
text that is left is not empty and has no occurrence of a special token that is looked for. -/
theorem tokenizerStPartition_spells {specials : List (ℕ × TokenData)} (hne : ∀ entry ∈ specials, entry.2.text ≠ [])
    (parseSpecial : Bool) (raw : List UInt8) :
    ∃ buffer, tokenizerStPartition specials parseSpecial (fragmentBuffer raw) = some buffer
      ∧ Spells (specials.filter fun entry => looksFor parseSpecial entry.2) (buffer.map FragmentBufferVariant.read) raw
      ∧ ∀ fragment ∈ buffer.map FragmentBufferVariant.read, Clean (wordsFor specials parseSpecial) fragment := by
  obtain ⟨buffer, hrun, hreads⟩ := tokenizerStPartition_reads hne parseSpecial (fragmentBuffer raw)
  refine ⟨buffer, hrun, ?_⟩
  have hbegin : Spells (specials.filter fun entry => looksFor parseSpecial entry.2)
      ((fragmentBuffer raw).map FragmentBufferVariant.read) raw
      ∧ ∀ fragment ∈ (fragmentBuffer raw).map FragmentBufferVariant.read, Clean [] fragment := by
    rw [fragmentBuffer_reads]
    split
    next hnil =>
      rw [hnil]
      exact ⟨.nil, fun _ hmem => absurd hmem not_mem_nil⟩
    next hraw =>
      refine ⟨spells_rawText raw, fun fragment hmem => ?_⟩
      rw [mem_singleton.mp hmem]
      exact ⟨hraw, fun _ hw => absurd hw not_mem_nil⟩
  have hmem : ∀ entry ∈ specials, looksFor parseSpecial entry.2 = true →
      entry ∈ specials.filter fun entry => looksFor parseSpecial entry.2 :=
    fun entry hmem hlook => mem_filter.mpr ⟨hmem, hlook⟩
  obtain ⟨hspells, hclean⟩ := cutAt_spells hmem hne hbegin.1 hbegin.2
  rw [hreads]
  refine ⟨hspells, fun fragment hmem => ?_⟩
  have hall := hclean fragment hmem
  rw [append_nil] at hall
  cases fragment with
  | rawText part => exact ⟨hall.1, fun w hw => hall.2 w (mem_reverse.mpr hw)⟩
  | token other => trivial

/-- The bytes of `"a <s>b"`, with `<s>` as a token that takes the whitespace before it away. -/
theorem tokenizerStPartition_spells_lstrip :
    ∃ buffer, tokenizerStPartition [(1, ⟨[0x3C, 0x73, 0x3E], 0, ⟨false, true, false, false, true, false⟩⟩)] true
        (fragmentBuffer [0x61, 0x20, 0x3C, 0x73, 0x3E, 0x62]) = some buffer
      ∧ Spells ([(1, ⟨[0x3C, 0x73, 0x3E], 0, ⟨false, true, false, false, true, false⟩⟩)].filter
          fun entry : ℕ × TokenData => looksFor true entry.2)
        (buffer.map FragmentBufferVariant.read) [0x61, 0x20, 0x3C, 0x73, 0x3E, 0x62]
      ∧ ∀ fragment ∈ buffer.map FragmentBufferVariant.read,
        Clean (wordsFor [(1, ⟨[0x3C, 0x73, 0x3E], 0, ⟨false, true, false, false, true, false⟩⟩)] true) fragment :=
  tokenizerStPartition_spells (by decide) true [0x61, 0x20, 0x3C, 0x73, 0x3E, 0x62]

example : (tokenizerStPartition [(1, ⟨[0x3C, 0x73, 0x3E], 0, ⟨false, true, false, false, true, false⟩⟩)] true
      (fragmentBuffer [0x61, 0x20, 0x3C, 0x73, 0x3E, 0x62])).map (·.map FragmentBufferVariant.read)
    = some [.rawText [0x61], .token 1, .rawText [0x62]] := by decide

end Tokenizer
