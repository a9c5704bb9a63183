import LlamaRafaelia.Grammar.Candidates
import LlamaRafaelia.Lib.Utf8
import Mathlib.Data.List.TakeWhile
import Mathlib.Tactic.IntervalCases

/-!
# Decoding a text in pieces

A token ends where it ends, also inside a character.  `decode_utf8` keeps what it has of the character and goes on with
the next token.

* `decodeUtf8_eq` - **`decode_utf8` is this machine** as long as the bytes are those of valid text.
-/

namespace Grammar

open List Nat

/-! ### One byte after the other -/

def feed (st : PartialUtf8) (b : ℕ) : PartialUtf8 :=
  if 0 < st.nRemain then ⟨shiftIn st.value b, st.nRemain - 1⟩
  else ⟨b % 2 ^ (7 - (lookup (b / 16) - 1).toNat), lookup (b / 16) - 1⟩

def feedAll (st : PartialUtf8) (bs : List ℕ) : PartialUtf8 := bs.foldl feed st

def emitted : PartialUtf8 → List ℕ → List ℕ
  | _, [] => []
  | st, b :: bs => (if (feed st b).nRemain = 0 then [(feed st b).value] else []) ++ emitted (feed st b) bs

def Legal : PartialUtf8 → List ℕ → Prop
  | _, [] => True
  | st, b :: bs => (if 0 < st.nRemain then b / 64 = 2 else 1 ≤ lookup (b / 16)) ∧ Legal (feed st b) bs

theorem feedAll_append (st : PartialUtf8) (bs bs' : List ℕ) :
    feedAll st (bs ++ bs') = feedAll (feedAll st bs) bs' := foldl_append

theorem emitted_append (st : PartialUtf8) (bs bs' : List ℕ) :
    emitted st (bs ++ bs') = emitted st bs ++ emitted (feedAll st bs) bs' := by
  induction bs generalizing st with
  | nil => rfl
  | cons b bs ih =>
    rw [cons_append, emitted, emitted, ih, append_assoc]
    rfl

theorem legal_append (st : PartialUtf8) (bs bs' : List ℕ) :
    Legal st (bs ++ bs') ↔ Legal st bs ∧ Legal (feedAll st bs) bs' := by
  induction bs generalizing st with
  | nil => exact (and_iff_right trivial).symm
  | cons b bs ih =>
    rw [cons_append, Legal, Legal, ih, and_assoc]
    rfl

theorem feed_continue {st : PartialUtf8} (h : 0 < st.nRemain) (b : ℕ) :
    feed st b = ⟨shiftIn st.value b, st.nRemain - 1⟩ := if_pos h

/-! ### `decode_utf8` is the machine -/

theorem decodeTail_spec (bs : List ℕ) (value : ℕ) (n : ℤ) (hn : 0 < n) (h : Legal ⟨value, n⟩ bs) :
    let r := decodeTail bs value n
    0 ≤ r.2.2 ∧ (r.2.2 = 0 ∨ r.1 = []) ∧ r.1.length ≤ bs.length ∧ Legal ⟨r.2.1, r.2.2⟩ r.1 ∧
      feedAll ⟨value, n⟩ bs = feedAll ⟨r.2.1, r.2.2⟩ r.1 ∧
      emitted ⟨value, n⟩ bs = (if r.2.2 = 0 then [r.2.1] else []) ++ emitted ⟨r.2.1, r.2.2⟩ r.1 := by
  induction bs generalizing value n with
  | nil =>
    refine ⟨Int.le_of_lt hn, Or.inr rfl, le_refl _, trivial, rfl, ?_⟩
    show [] = (if n = 0 then [value] else []) ++ []
    rw [if_neg (Int.ne_of_gt hn)]
    rfl
  | cons b bs ih =>
    have hfeed : feed ⟨value, n⟩ b = ⟨shiftIn value b, n - 1⟩ := feed_continue hn b
    have hrest := h.2
    rw [hfeed] at hrest
    have hall : feedAll ⟨value, n⟩ (b :: bs) = feedAll ⟨shiftIn value b, n - 1⟩ bs := congrArg (feedAll · bs) hfeed
    have hstep : decodeTail (b :: bs) value n = decodeTail bs (shiftIn value b) (n - 1) := if_pos hn
    intro r
    rw [hall, emitted, hfeed]
    by_cases hlast : n - 1 = 0
    · -- The sequence is complete.
      have hr : r = (bs, shiftIn value b, n - 1) := by
        show decodeTail (b :: bs) value n = _
        rw [hstep]
        cases bs with
        | nil => rfl
        | cons b' bs => exact if_neg (by omega)
      rw [hr]
      exact ⟨Int.le_of_eq hlast.symm, Or.inl hlast, le_succ _, hrest, rfl, rfl⟩
    · have hr : r = decodeTail bs (shiftIn value b) (n - 1) := hstep
      obtain ⟨hnn, hend, hlen, hlegal, hfeed', hemit⟩ := ih (shiftIn value b) (n - 1) (by omega) hrest
      rw [hr]
      refine ⟨hnn, hend, le_succ_of_le hlen, hlegal, hfeed', ?_⟩
      rw [if_neg hlast, hemit]
      rfl

theorem continueDecode_eq (bs : List ℕ) (value : ℕ) (n : ℤ) (h : Legal ⟨value, n⟩ bs) :
    continueDecode bs value n = some (decodeTail bs value n) := by
  induction bs generalizing value n with
  | nil => rfl
  | cons b bs ih =>
    rw [continueDecode, decodeTail]
    by_cases hn : 0 < n
    · have hb := h.1
      have hrest := h.2
      rw [if_pos hn] at hb
      rw [feed_continue hn] at hrest
      rw [if_pos hn, if_pos hn, if_neg (not_not.mpr hb), ih _ _ hrest]
    · rw [if_neg hn, if_neg hn]

theorem decodeLoop_eq (fuel : ℕ) (bs cps : List ℕ) (st : PartialUtf8) (hfuel : bs.length ≤ fuel)
    (hst : st.nRemain = 0 ∨ bs = []) (h : Legal st bs) :
    decodeLoop fuel bs cps st = (cps ++ emitted st bs ++ [0], feedAll st bs) := by
  induction fuel generalizing bs cps st with
  | zero =>
    obtain rfl := length_eq_zero_iff.mp (le_zero.mp hfuel)
    rw [emitted, append_nil]
    rfl
  | succ fuel ih =>
    cases bs with
    | nil =>
      rw [emitted, append_nil]
      rfl
    | cons b bs =>
      have hzero : st.nRemain = 0 := hst.resolve_right (cons_ne_nil b bs)
      have hfirst := h.1
      have hrest := h.2
      rw [if_neg (by omega)] at hfirst
      have hfeed : feed st b = ⟨b % 2 ^ (7 - (lookup (b / 16) - 1).toNat), lookup (b / 16) - 1⟩ := if_neg (by omega)
      have hlen : bs.length ≤ fuel := le_of_succ_le_succ hfuel
      rw [decodeLoop]
      dsimp only
      rw [if_neg (by omega), emitted]
      show _ = (_, feedAll (feed st b) bs)
      rw [hfeed] at hrest ⊢
      generalize b % 2 ^ (7 - (lookup (b / 16) - 1).toNat) = value at hrest ⊢
      generalize hn : lookup (b / 16) - 1 = n at hrest ⊢
      by_cases hpos : 0 < n
      · obtain ⟨hnn, hend, hlen', hlegal, hfeed', hemit⟩ := decodeTail_spec bs value n hpos hrest
        rw [ih _ _ _ (le_trans hlen' hlen) hend hlegal, hfeed', if_neg (Int.ne_of_gt hpos), nil_append, hemit]
        split_ifs
        · rw [append_assoc, append_assoc, append_assoc, append_assoc]
        · rfl
      · -- A sequence of one byte.
        obtain rfl : n = 0 := by omega
        have htail : decodeTail bs value 0 = (bs, value, 0) := by
          cases bs with
          | nil => rfl
          | cons b' bs => rfl
        rw [htail, if_pos rfl, if_pos rfl, ih _ _ _ hlen (Or.inl rfl) hrest]
        rw [append_assoc cps [value]]

theorem cString_eq {src : List UInt8} (h : 0 ∉ src) : cString src = src.map UInt8.toNat := by
  refine takeWhile_eq_self_iff.mpr fun n hn => ?_
  obtain ⟨b, hb, rfl⟩ := mem_map.mp hn
  refine decide_eq_true fun hzero => h ?_
  obtain rfl : b = 0 := UInt8.toNat_inj.mp hzero
  exact hb

/-- **`decode_utf8` is the machine**, on bytes of valid text without zeros. -/
theorem decodeUtf8_eq {src : List UInt8} (hnul : 0 ∉ src) {st : PartialUtf8} (hst : 0 ≤ st.nRemain)
    (h : Legal st (src.map UInt8.toNat)) :
    decodeUtf8 src st = (emitted st (src.map UInt8.toNat) ++ [0], feedAll st (src.map UInt8.toNat)) := by
  rw [decodeUtf8, cString_eq hnul, continueDecode_eq _ _ _ h]
  dsimp only
  by_cases hpos : 0 < st.nRemain
  · obtain ⟨hnn, hend, -, hlegal, hfeed, hemit⟩ := decodeTail_spec _ st.value st.nRemain hpos h
    rw [decodeLoop_eq _ _ _ _ (le_refl _) hend hlegal]
    refine Prod.ext ?_ hfeed.symm
    show _ = emitted ⟨st.value, st.nRemain⟩ _ ++ [0]
    rw [hemit]
    simp only [hpos, true_and]
  · have hzero : st.nRemain = 0 := by omega
    have htail : decodeTail (src.map UInt8.toNat) st.value st.nRemain = (src.map UInt8.toNat, st.value, st.nRemain) := by
      cases src with
      | nil => rfl
      | cons b bs => exact if_neg hpos
    rw [htail, if_neg fun hand => hpos hand.1]
    exact decodeLoop_eq _ _ _ st (le_refl _) (Or.inl hzero) h

/-! ### Characters -/

/-- The tail bytes of a character: the last `m` groups of six bits. -/
def tails (v : ℕ) : ℕ → List ℕ
  | 0 => []
  | m + 1 => (v / 64 ^ m % 64 + 0x80) :: tails v m

theorem length_tails (v m : ℕ) : (tails v m).length = m := by
  induction m with
  | zero => rfl
  | succ m ih => rw [tails, length_cons, ih]

theorem feed_tail {v : ℕ} (hv : v < 2 ^ 32) (m : ℕ) :
    feed ⟨v / 64 ^ (m + 1), (m + 1 : ℕ)⟩ (v / 64 ^ m % 64 + 0x80) = ⟨v / 64 ^ m, m⟩ := by
  have hlt : v / 64 ^ m < 2 ^ 32 := lt_of_le_of_lt (div_le_self _ _) hv
  have hdiv : v / 64 ^ (m + 1) = v / 64 ^ m / 64 := by rw [Nat.pow_succ, Nat.div_div_eq_div_mul]
  have hvalue : shiftIn (v / 64 ^ (m + 1)) (v / 64 ^ m % 64 + 0x80) = v / 64 ^ m := by
    rw [hdiv, shiftIn]
    omega
  have hn : ((m + 1 : ℕ) : ℤ) - 1 = m := by omega
  rw [feed_continue (Int.natCast_pos.mpr (succ_pos m)), hvalue, hn]

theorem feedAll_tails {v : ℕ} (hv : v < 2 ^ 32) (j k : ℕ) :
    feedAll ⟨v / 64 ^ (j + k), (j + k : ℕ)⟩ ((tails v (j + k)).take j) = ⟨v / 64 ^ k, k⟩ := by
  induction j with
  | zero =>
    rw [zero_add]
    rfl
  | succ j ih =>
    rw [succ_add, tails, take_succ_cons, ← ih]
    exact congrArg (feedAll · _) (feed_tail hv (j + k))

theorem legal_tails {v : ℕ} (hv : v < 2 ^ 32) (m : ℕ) : Legal ⟨v / 64 ^ m, m⟩ (tails v m) := by
  induction m with
  | zero => trivial
  | succ m ih =>
    refine ⟨?_, ?_⟩
    · rw [if_pos (Int.natCast_pos.mpr (succ_pos m))]
      omega
    · rw [feed_tail hv]
      exact ih

theorem emitted_tails {v : ℕ} (hv : v < 2 ^ 32) (m : ℕ) :
    emitted ⟨v / 64 ^ m, m⟩ (tails v m) = if m = 0 then [] else [v] := by
  induction m with
  | zero => rfl
  | succ m ih =>
    rw [tails, emitted, feed_tail hv, ih, if_neg (succ_ne_zero m)]
    cases m with
    | zero =>
      rw [Nat.pow_zero, Nat.div_one]
      rfl
    | succ m => rfl

def leastOf (len : ℕ) : ℕ := [0, 0, 0x80, 0x800, 0x10000].getD len 0

/-- The first byte `b` of the sequence for `v`, with `m` tail bytes. -/
structure Starts (v m b : ℕ) : Prop where
  first : lookup (b / 16) - 1 = m
  value : b % 2 ^ (7 - m) = v / 64 ^ m
  lt : v < 2 ^ 32

namespace Starts

variable {v m b : ℕ}

theorem feed_first (h : Starts v m b) {st : PartialUtf8} (hst : st.nRemain = 0) : feed st b = ⟨v / 64 ^ m, m⟩ := by
  rw [feed, if_neg (by omega), h.first, Int.toNat_natCast, h.value]

theorem feedAll_take (h : Starts v m b) {st : PartialUtf8} (hst : st.nRemain = 0) {j : ℕ} (hj : j ≤ m) :
    feedAll st (b :: (tails v m).take j) = ⟨v / 64 ^ (m - j), (m - j : ℕ)⟩ := by
  show feedAll (feed st b) _ = _
  have hm : j + (m - j) = m := Nat.add_sub_cancel' hj
  rw [h.feed_first hst, ← feedAll_tails h.lt j (m - j), hm]

theorem feedAll_bytes (h : Starts v m b) {st : PartialUtf8} (hst : st.nRemain = 0) :
    feedAll st (b :: tails v m) = ⟨v, 0⟩ := by
  have htake := h.feedAll_take hst (le_refl m)
  rw [take_of_length_le (Nat.le_of_eq (length_tails _ _)), Nat.sub_self, Nat.pow_zero, Nat.div_one] at htake
  exact htake

theorem legal (h : Starts v m b) {st : PartialUtf8} (hst : st.nRemain = 0) : Legal st (b :: tails v m) := by
  refine ⟨?_, ?_⟩
  · rw [if_neg (by omega)]
    have := h.first
    omega
  · rw [h.feed_first hst]
    exact legal_tails h.lt m

theorem emitted (h : Starts v m b) {st : PartialUtf8} (hst : st.nRemain = 0) :
    Grammar.emitted st (b :: tails v m) = [v] := by
  rw [Grammar.emitted, h.feed_first hst, emitted_tails h.lt]
  cases m with
  | zero =>
    rw [Nat.pow_zero, Nat.div_one]
    rfl
  | succ m => rfl

end Starts

/-- The bytes of a character, `m` of them tail bytes. -/
structure Encodes (c : Char) (m b : ℕ) : Prop extends Starts c.toNat m b where
  bytes : (String.utf8EncodeChar c).map UInt8.toNat = b :: tails c.toNat m
  le : m ≤ 3
  least : leastOf (m + 1) ≤ c.toNat

theorem toNat_lt (c : Char) : c.toNat < 0x110000 := by
  obtain h | h := c.valid
  · exact lt_trans h (by decide)
  · exact h.2

theorem lookup_first {b n : ℕ} (h : b / 16 = 12 ∧ n = 1 ∨ b / 16 = 13 ∧ n = 1 ∨ b / 16 = 14 ∧ n = 2 ∨ b / 16 = 15 ∧ n = 3) :
    lookup (b / 16) - 1 = n := by
  obtain ⟨hb, rfl⟩ | ⟨hb, rfl⟩ | ⟨hb, rfl⟩ | ⟨hb, rfl⟩ := h
  all_goals
    rw [hb]
    rfl

theorem exists_encodes (c : Char) : ∃ m b, Encodes c m b := by
  have hmax := toNat_lt c
  have hv : c.val.toNat = c.toNat := rfl
  by_cases h1 : c.toNat ≤ 0x7f
  · refine ⟨0, c.toNat, ⟨⟨?_, ?_, by omega⟩, ?_, by decide, zero_le _⟩⟩
    · have hhigh : c.toNat / 16 < 8 := by omega
      generalize c.toNat / 16 = x at hhigh
      interval_cases x <;> rfl
    · rw [Nat.pow_zero, Nat.div_one, Nat.mod_eq_of_lt (by omega)]
    · simp only [String.utf8EncodeChar, hv, if_pos h1, map_cons, map_nil, tails, UInt8.toNat_ofNat',
        List.cons.injEq, and_true]
      omega
  by_cases h2 : c.toNat ≤ 0x7ff
  · refine ⟨1, c.toNat / 64 % 0x20 + 0xc0, ⟨⟨lookup_first (by omega), by omega, by omega⟩, ?_, by decide, ?_⟩⟩
    · simp only [String.utf8EncodeChar, hv, if_neg h1, if_pos h2, map_cons, map_nil, tails,
        UInt8.toNat_ofNat', List.cons.injEq, and_true, pow_zero]
      omega
    · show 0x80 ≤ c.toNat
      omega
  by_cases h3 : c.toNat ≤ 0xffff
  · refine ⟨2, c.toNat / 4096 % 0x10 + 0xe0, ⟨⟨lookup_first (by omega), by omega, by omega⟩, ?_, by decide, ?_⟩⟩
    · simp only [String.utf8EncodeChar, hv, if_neg h1, if_neg h2, if_pos h3, map_cons, map_nil, tails,
        UInt8.toNat_ofNat', List.cons.injEq, and_true, pow_zero, pow_one]
      omega
    · show 0x800 ≤ c.toNat
      omega
  · refine ⟨3, c.toNat / 262144 % 0x08 + 0xf0, ⟨⟨lookup_first (by omega), by omega, by omega⟩, ?_, by decide, ?_⟩⟩
    · simp only [String.utf8EncodeChar, hv, if_neg h1, if_neg h2, if_neg h3, map_cons, map_nil, tails,
        UInt8.toNat_ofNat', List.cons.injEq, and_true, pow_zero, pow_one]
      omega
    · show 0x10000 ≤ c.toNat
      omega

/-! ### A whole text -/

theorem feed_text (s : List Char) (st : PartialUtf8) (hst : st.nRemain = 0) :
    Legal st ((s.flatMap String.utf8EncodeChar).map UInt8.toNat) ∧
      emitted st ((s.flatMap String.utf8EncodeChar).map UInt8.toNat) = s.map Char.toNat ∧
        (feedAll st ((s.flatMap String.utf8EncodeChar).map UInt8.toNat)).nRemain = 0 := by
  induction s generalizing st with
  | nil => exact ⟨trivial, rfl, hst⟩
  | cons c s ih =>
    obtain ⟨m, b, henc⟩ := exists_encodes c
    rw [flatMap_cons, map_append, henc.bytes, legal_append, emitted_append, feedAll_append,
      henc.feedAll_bytes hst, henc.emitted hst]
    obtain ⟨hlegal, hemit, hend⟩ := ih ⟨c.toNat, 0⟩ rfl
    exact ⟨⟨henc.legal hst, hlegal⟩, by rw [hemit]; rfl, hend⟩

/-- The pieces one after the other, as `accept_str` takes them: without the zero behind each piece, and with the state
for the next one. -/
def decodePieces : List (List UInt8) → PartialUtf8 → List ℕ × PartialUtf8
  | [], st => ([], st)
  | piece :: pieces, st =>
    let decoded := decodeUtf8 piece st
    let rest := decodePieces pieces decoded.2
    (decoded.1.dropLast ++ rest.1, rest.2)

theorem feedAll_nonneg {st : PartialUtf8} {bs : List ℕ} (hst : 0 ≤ st.nRemain) (h : Legal st bs) :
    0 ≤ (feedAll st bs).nRemain := by
  induction bs generalizing st with
  | nil => exact hst
  | cons b bs ih =>
    refine ih ?_ h.2
    have hb := h.1
    rw [feed]
    split
    · show 0 ≤ st.nRemain - 1
      omega
    · next hn =>
      rw [if_neg hn] at hb
      show 0 ≤ lookup (b / 16) - 1
      omega

theorem decodePieces_eq (pieces : List (List UInt8)) {st : PartialUtf8} (hst : 0 ≤ st.nRemain)
    (hnul : 0 ∉ pieces.flatten) (h : Legal st (pieces.flatten.map UInt8.toNat)) :
    decodePieces pieces st = (emitted st (pieces.flatten.map UInt8.toNat), feedAll st (pieces.flatten.map UInt8.toNat)) := by
  induction pieces generalizing st with
  | nil => rfl
  | cons piece pieces ih =>
    rw [flatten_cons, mem_append, not_or] at hnul
    rw [flatten_cons, map_append, legal_append] at h
    rw [decodePieces, decodeUtf8_eq hnul.1 hst h.1]
    dsimp only
    rw [ih (feedAll_nonneg hst h.1) hnul.2 h.2, dropLast_concat, flatten_cons, map_append,
      emitted_append, feedAll_append]

/-- **Decoding in pieces.**  Whatever the pieces of a valid text are, they decode to its code points, and nothing is left
at the end. -/
theorem decodePieces_valid (s : List Char) (pieces : List (List UInt8))
    (htext : pieces.flatten = s.flatMap String.utf8EncodeChar) (hnul : 0 ∉ pieces.flatten) :
    (decodePieces pieces ⟨0, 0⟩).1 = s.map Char.toNat ∧ (decodePieces pieces ⟨0, 0⟩).2.nRemain = 0 := by
  obtain ⟨hlegal, hemit, hend⟩ := feed_text s ⟨0, 0⟩ rfl
  rw [← htext] at hlegal hemit hend
  rw [decodePieces_eq pieces (Int.le_refl 0) hnul hlegal]
  exact ⟨hemit, hend⟩

/-- An `é` that is cut between two tokens. -/
theorem decodePieces_cut :
    (decodePieces [[0x61, 0xC3], [0xA9]] ⟨0, 0⟩).1 = [0x61, 0xE9] ∧
      (decodePieces [[0x61, 0xC3], [0xA9]] ⟨0, 0⟩).2.nRemain = 0 :=
  decodePieces_valid ['a', 'é'] [[0x61, 0xC3], [0xA9]] (by decide) (by decide)

end Grammar
