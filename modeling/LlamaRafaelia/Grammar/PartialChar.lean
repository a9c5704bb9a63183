import LlamaRafaelia.Grammar.Decode
import Mathlib.Order.Bounds.Basic

/-!
# Classes against a cut character

A token may end inside a character.  `llama_grammar_match_partial_char` then says whether the class at the top of a
stack can still be satisfied: it has the interval of the code points that the sequence may complete to, and looks at the
ranges of the class one by one.

* `completes_iff` - **the completions are an interval**, the overlong encodings left out.
-/

/-! ### Intervals and classes -/

namespace CharClass

/-- Some range meets the interval from `lo` to `hi`. -/
def touches (lo hi : ℕ) (ranges : List (ℕ × ℕ)) : Bool := ranges.any fun x => x.1 ≤ hi ∧ lo ≤ x.2

def answer (lo hi : ℕ) : CharClass → Bool
  | any => true
  | oneOf ranges => touches lo hi ranges
  | noneOf ranges => !touches lo hi ranges

/-- If a range touches the interval: for a positive class, it is also one with its ends in order; for a negated class,
the ranges leave nothing of the interval. -/
def Decided (lo hi : ℕ) : CharClass → Prop
  | any => True
  | oneOf ranges => (∃ r ∈ ranges, r.1 ≤ hi ∧ lo ≤ r.2) → ∃ r ∈ ranges, r.1 ≤ hi ∧ lo ≤ r.2 ∧ r.1 ≤ r.2
  | noneOf ranges => (∃ r ∈ ranges, r.1 ≤ hi ∧ lo ≤ r.2) → ∀ x, lo ≤ x → x ≤ hi → ∃ r ∈ ranges, r.1 ≤ x ∧ x ≤ r.2

variable {lo hi : ℕ} {ranges : List (ℕ × ℕ)}

theorem touches_eq_true : touches lo hi ranges = true ↔ ∃ r ∈ ranges, r.1 ≤ hi ∧ lo ≤ r.2 := by
  simp only [touches, List.any_eq_true, decide_eq_true_eq]

theorem inRanges_eq_true {x : ℕ} : inRanges x ranges = true ↔ ∃ r ∈ ranges, r.1 ≤ x ∧ x ≤ r.2 := by
  simp only [inRanges, List.any_eq_true, decide_eq_true_eq]

theorem exists_inRanges_iff (hle : lo ≤ hi) :
    (∃ x, (lo ≤ x ∧ x ≤ hi) ∧ inRanges x ranges = true) ↔ ∃ r ∈ ranges, r.1 ≤ hi ∧ lo ≤ r.2 ∧ r.1 ≤ r.2 := by
  constructor
  · intro ⟨x, ⟨hlo, hhi⟩, hx⟩
    obtain ⟨r, hr, hfst, hsnd⟩ := (inRanges_eq_true).mp hx
    exact ⟨r, hr, by omega, by omega, by omega⟩
  · intro ⟨r, hr, hfst, hsnd, hends⟩
    refine ⟨max lo r.1, ⟨by omega, by omega⟩, (inRanges_eq_true).mpr ⟨r, hr, by omega, by omega⟩⟩

/-- **The answer is right exactly if the class is decided** by what its ranges touch. -/
theorem answer_iff (hle : lo ≤ hi) (cls : CharClass) :
    (cls.answer lo hi = true ↔ ∃ x, (lo ≤ x ∧ x ≤ hi) ∧ cls.mem x = true) ↔ cls.Decided lo hi := by
  cases cls with
  | any => exact iff_of_true (iff_of_true rfl ⟨lo, ⟨Nat.le_refl _, hle⟩, rfl⟩) trivial
  | oneOf ranges =>
    show (touches lo hi ranges = true ↔ ∃ x, (lo ≤ x ∧ x ≤ hi) ∧ inRanges x ranges = true) ↔ _
    rw [exists_inRanges_iff hle, touches_eq_true]
    refine ⟨fun h => h.mp, fun h => ⟨h, fun ⟨r, hr, hfst, hsnd, _⟩ => ⟨r, hr, hfst, hsnd⟩⟩⟩
  | noneOf ranges =>
    show ((!touches lo hi ranges) = true ↔ ∃ x, (lo ≤ x ∧ x ≤ hi) ∧ (!inRanges x ranges) = true) ↔ _
    simp only [Bool.not_eq_true', ← Bool.not_eq_true, touches_eq_true, inRanges_eq_true]
    constructor
    · intro h htouch x hlo hhi
      by_contra hx
      exact h.mpr ⟨x, ⟨hlo, hhi⟩, hx⟩ htouch
    · intro h
      constructor
      · intro hnone
        refine ⟨lo, ⟨Nat.le_refl _, hle⟩, fun ⟨r, hr, hfst, hsnd⟩ => hnone ⟨r, hr, by omega, hsnd⟩⟩
      · intro ⟨x, ⟨hlo, hhi⟩, hx⟩ htouch
        exact hx (h htouch x hlo hhi)

end CharClass

namespace Grammar

open List CharClass

/-! ### The loop -/

section

variable {nRules : ℕ} {e : Element} {es : List Element}

/-- **The loop of `match_partial_char`** looks for a range that touches the interval. -/
theorem matchPartialLoop_spec (lo hi : ℕ) (isPositive : Bool) (h : wellFormedFrom nRules e.type es = true)
    (htype : e.type = .char ∨ e.type = .charNot ∨ e.type = .charAlt) :
    matchPartialLoop lo hi isPositive (e :: es)
      = if touches lo hi (ranges (some e.value) es) then isPositive else !isPositive := by
  have hcons (x : ℕ × ℕ) (l : List (ℕ × ℕ)) : touches lo hi (x :: l)
      = (decide (x.1 ≤ hi ∧ lo ≤ x.2) || touches lo hi l) := rfl
  have hnil : touches lo hi [] = false := rfl
  have hif (c : Prop) [Decidable c] (b : Bool) (x y : Bool) :
      (if c then x else if b = true then x else y) = if (decide c || b) = true then x else y := by
    by_cases hc : c
    · simp [hc]
    · simp [hc]
  refine classInduction (motive := fun e es => matchPartialLoop lo hi isPositive (e :: es)
      = if touches lo hi (ranges (some e.value) es) then isPositive else !isPositive) ?_ ?_ ?_ ?_ h htype
  · intro e u a es hupper halt _
    rw [matchPartialLoop, if_pos hupper, headD_cons, if_neg halt, ranges, if_pos hupper, ranges, if_neg halt, hcons,
      ← hif, hnil]
    rfl
  · intro e u a es hupper halt ih
    rw [matchPartialLoop, if_pos hupper, headD_cons, if_pos halt, ih, ranges, if_pos hupper, ranges, if_pos halt,
      hcons, ← hif]
  · intro e u es hany hupper halt
    rw [matchPartialLoop, if_neg hupper, if_neg hany, if_neg halt, ranges, if_neg hupper, if_neg halt, hcons, ← hif, hnil]
    simp only [and_comm, Bool.false_eq_true, if_false]
  · intro e u es hany hupper halt ih
    rw [matchPartialLoop, if_neg hupper, if_neg hany, if_pos halt, ih, ranges, if_neg hupper, if_pos halt, hcons, ← hif]
    simp only [and_comm]

theorem matchPartialLoop_any (lo hi : ℕ) (isPositive : Bool) (h : wellFormedFrom nRules e.type es = true)
    (htype : e.type = .charAny) : matchPartialLoop lo hi isPositive (e :: es) = true := by
  cases es with
  | nil => simp [wellFormedFrom] at h
  | cons u es =>
    rw [htype] at h
    have hmod := not_modifier_of_follow h (by decide)
    have hupper : u.type ≠ .charRngUpper := by
      intro hupper
      simp [isModifier, hupper] at hmod
    rw [matchPartialLoop, if_neg hupper, if_pos htype]

end

/-! ### The completions -/

/-- The code point `x` is what the sequence that `part` begins decodes to with some more tail bytes; not an overlong
encoding. -/
def Completes (part : List UInt8) (x : ℕ) : Prop :=
  ∃ conts : List UInt8, (∀ b ∈ conts, Utf8.Tail b) ∧ (conts.length : ℤ) = (decodeUtf8 part ⟨0, 0⟩).2.nRemain ∧
    decodeUtf8 (part ++ conts) ⟨0, 0⟩ = ([x, 0], ⟨x, 0⟩) ∧ leastOf (part.length + conts.length) ≤ x

theorem exists_tails (bs : List ℕ) (h : ∀ b ∈ bs, b / 64 = 2) (u : ℕ) :
    ∃ w, w / 64 ^ bs.length = u ∧ bs = tails w bs.length := by
  induction bs generalizing u with
  | nil => exact ⟨u, by rw [length_nil, Nat.pow_zero, Nat.div_one], rfl⟩
  | cons b bs ih =>
    have hb := h b mem_cons_self
    obtain ⟨w, hw, hbs⟩ := ih (fun x hx => h x (mem_cons_of_mem b hx)) (u * 64 + b % 64)
    refine ⟨w, ?_, ?_⟩
    · rw [length_cons, Nat.pow_succ, ← Nat.div_div_eq_div_mul, hw]
      omega
    · rw [length_cons, tails, ← hbs, hw]
      have : (u * 64 + b % 64) % 64 + 0x80 = b := by omega
      rw [this]

theorem tails_of_div {v w k : ℕ} (h : w / 64 ^ k = v / 64 ^ k) (j : ℕ) :
    tails w (j + k) = (tails v (j + k)).take j ++ tails w k := by
  induction j with
  | zero => rw [Nat.zero_add, take_zero, nil_append]
  | succ j ih =>
    have hdiv : w / 64 ^ (j + k) = v / 64 ^ (j + k) := by
      rw [Nat.pow_add, Nat.mul_comm, ← Nat.div_div_eq_div_mul, h, Nat.div_div_eq_div_mul]
    rw [Nat.succ_add, tails, tails, take_succ_cons, cons_append, ← ih, hdiv]

theorem tails_lt (v m : ℕ) : ∀ b ∈ tails v m, b / 64 = 2 ∧ b < 256 := by
  induction m with
  | zero => exact fun b hb => absurd hb not_mem_nil
  | succ m ih =>
    intro b hb
    obtain rfl | hb := mem_cons.mp hb
    · omega
    · exact ih b hb

theorem decodeUtf8_take {w m b j : ℕ} {src : List UInt8} (h : Starts w m b) (hm : 1 ≤ m) (hj : j ≤ m)
    (hsrc : src.map UInt8.toNat = b :: (tails w m).take j) :
    decodeUtf8 src ⟨0, 0⟩ = (emitted ⟨0, 0⟩ (b :: (tails w m).take j) ++ [0], ⟨w / 64 ^ (m - j), (m - j : ℕ)⟩) := by
  have hnul : 0 ∉ src := by
    intro hzero
    have hmem : 0 ∈ b :: (tails w m).take j := by
      rw [← hsrc]
      exact mem_map.mpr ⟨0, hzero, rfl⟩
    obtain hb | htail := mem_cons.mp hmem
    · have hfirst := h.first
      rw [← hb] at hfirst
      have : (1 : ℤ) - 1 = m := hfirst
      omega
    · have := (tails_lt w m 0 (mem_of_mem_take htail)).1
      omega
  have hlegal : Legal ⟨0, 0⟩ (src.map UInt8.toNat) := by
    have hall : Legal ⟨0, 0⟩ (b :: tails w m) := h.legal rfl
    rw [← take_append_drop j (tails w m), ← cons_append, legal_append] at hall
    rw [hsrc]
    exact hall.1
  rw [decodeUtf8_eq hnul (Int.le_refl 0) hlegal, hsrc, h.feedAll_take rfl hj]

theorem take_tails (w m : ℕ) : (tails w m).take m = tails w m :=
  take_of_length_le (Nat.le_of_eq (length_tails w m))

theorem starts_of_div {c : Char} {m b k w : ℕ} (h : Encodes c m b) (hk : k ≤ m)
    (hw : w / 64 ^ k = c.toNat / 64 ^ k) : Starts w m b := by
  have hm : w / 64 ^ m = c.toNat / 64 ^ m := by
    rw [← Nat.add_sub_cancel' hk, Nat.pow_add, ← Nat.div_div_eq_div_mul, hw, Nat.div_div_eq_div_mul]
  refine ⟨h.first, hm.symm ▸ h.value, ?_⟩
  have hmax := toNat_lt c
  have hle := h.le
  interval_cases m <;> omega

/-- The beginning of a sequence of more than one byte, and how many bytes are missing. -/
structure Cut (c : Char) (m k : ℕ) (part : List UInt8) : Prop where
  bytes : ∃ b, Encodes c m b ∧ part.map UInt8.toNat = b :: (tails c.toNat m).take (m - k)
  pos : 1 ≤ m
  le : k ≤ m

namespace Cut

variable {c : Char} {m k : ℕ} {part : List UInt8}

theorem length (h : Cut c m k part) : part.length + k = m + 1 := by
  obtain ⟨b, -, hpart⟩ := h.bytes
  have hlen := congrArg List.length hpart
  rw [length_map, length_cons, length_take, length_tails] at hlen
  have := h.le
  omega

/-- **The state of a cut character**: its value so far, and how many bytes are missing. -/
theorem decodeUtf8_snd (h : Cut c m k part) : (decodeUtf8 part ⟨0, 0⟩).2 = ⟨c.toNat / 64 ^ k, k⟩ := by
  obtain ⟨b, henc, hpart⟩ := h.bytes
  have hle := h.le
  rw [decodeUtf8_take henc.toStarts h.pos (Nat.sub_le m k) hpart, Nat.sub_sub_self hle]

/-- **The completions**: the values that agree with the character above, without the overlong encodings. -/
theorem completes_iff (h : Cut c m k part) (x : ℕ) :
    Completes part x ↔ x / 64 ^ k = c.toNat / 64 ^ k ∧ leastOf (m + 1) ≤ x := by
  obtain ⟨b, henc, hpart⟩ := h.bytes
  have hlen := h.length
  have hsplit : m - k + k = m := Nat.sub_add_cancel h.le
  -- The whole sequence for a value that agrees with the character.
  have hwhole {w : ℕ} (hw : w / 64 ^ k = c.toNat / 64 ^ k) {conts : List UInt8}
      (hconts : conts.map UInt8.toNat = tails w k) : decodeUtf8 (part ++ conts) ⟨0, 0⟩ = ([w, 0], ⟨w, 0⟩) := by
    have hstarts := starts_of_div henc h.le hw
    have hsrc : (part ++ conts).map UInt8.toNat = b :: (tails w m).take m := by
      rw [map_append, hpart, hconts, take_tails, cons_append, ← hsplit, tails_of_div hw, hsplit]
    rw [decodeUtf8_take hstarts h.pos (Nat.le_refl m) hsrc, take_tails, hstarts.emitted rfl, Nat.sub_self, Nat.pow_zero,
      Nat.div_one]
    rfl
  constructor
  · intro ⟨conts, htail, hn, hdecode, hleast⟩
    rw [h.decodeUtf8_snd] at hn
    have hn : conts.length = k := Int.ofNat_inj.mp hn
    obtain ⟨w, hw, hconts⟩ := exists_tails (conts.map UInt8.toNat) (by
      intro y hy
      obtain ⟨b', hb', rfl⟩ := mem_map.mp hy
      exact htail b' hb') (c.toNat / 64 ^ k)
    rw [length_map, hn] at hw hconts
    rw [hwhole hw hconts] at hdecode
    obtain rfl : w = x := (List.cons.inj (congrArg Prod.fst hdecode)).1
    rw [hn, hlen] at hleast
    exact ⟨hw, hleast⟩
  · intro ⟨hx, hleast⟩
    have hconts : ((tails x k).map UInt8.ofNat).map UInt8.toNat = tails x k := by
      rw [map_map]
      conv_rhs => rw [← map_id (tails x k)]
      refine map_congr_left fun y hy => ?_
      exact Utf8.toNat_byte (tails_lt x k y hy).2
    refine ⟨(tails x k).map UInt8.ofNat, ?_, ?_, hwhole hx hconts, ?_⟩
    · intro y hy
      rw [Utf8.Tail]
      have hmem := mem_map_of_mem (f := UInt8.toNat) hy
      rw [hconts] at hmem
      exact (tails_lt x k _ hmem).1
    · rw [h.decodeUtf8_snd, length_map, length_tails]
    · rw [length_map, length_tails, hlen]
      exact hleast

end Cut

theorem exists_cut {c : Char} {part : List UInt8} (hc : 2 ≤ (String.utf8EncodeChar c).length)
    (hpart : part <+: String.utf8EncodeChar c) (hne : part ≠ []) : ∃ m k, Cut c m k part := by
  obtain ⟨m, b, henc⟩ := exists_encodes c
  have hlen := congrArg List.length henc.bytes
  rw [length_map, length_cons, length_tails] at hlen
  have hle := hpart.length_le
  have hpos : 1 ≤ part.length := length_pos_of_ne_nil hne
  refine ⟨m, m + 1 - part.length, ⟨⟨b, henc, ?_⟩, by omega, by omega⟩⟩
  obtain ⟨j, hj⟩ : ∃ j, part.length = j + 1 := ⟨part.length - 1, by omega⟩
  have hsub : m - (m + 1 - part.length) = j := by omega
  have htake : part.map UInt8.toNat = ((String.utf8EncodeChar c).map UInt8.toNat).take part.length := by
    rw [← map_take, ← List.prefix_iff_eq_take.mp hpart]
  rw [htake, henc.bytes, hsub, hj, take_succ_cons]

/-! ### The answer -/

theorem Cut.interval {c : Char} {m k : ℕ} {part : List UInt8} (h : Cut c m k part) :
    let low := c.toNat / 64 ^ k * 64 ^ k
    let lo := if low = 0 then if k = 2 then 2 ^ 11 else if k = 3 then 2 ^ 16 else low else low
    lo ≤ low + (64 ^ k - 1) ∧ ∀ x, Completes part x ↔ lo ≤ x ∧ x ≤ low + (64 ^ k - 1) := by
  obtain ⟨b, henc, -⟩ := h.bytes
  have hpos := h.pos
  have hk := h.le
  have hm := henc.le
  have hleast := henc.least
  have hmax := toNat_lt c
  simp only [h.completes_iff]
  interval_cases m
  all_goals
    simp only [leastOf, getD_cons_succ, getD_cons_zero] at hleast ⊢
    interval_cases k
    all_goals
      refine ⟨?_, fun x => ?_⟩
      all_goals
        split_ifs
        all_goals omega

variable {rules : Rules} {p : Pos} {e : Element} {es : List Element}

/-- **`match_partial_char`** answers whether the class touches the interval of the completions. -/
theorem matchPartialChar_spec {c : Char} {m k : ℕ} {part : List UInt8} (h : Cut c m k part)
    (hes : rules.elemsAt p = e :: es) (hwf : wellFormedFrom rules.length e.type es = true)
    (htype : e.type = .char ∨ e.type = .charNot ∨ e.type = .charAny) :
    ∃ lo hi, lo ≤ hi ∧ (∀ x, Completes part x ↔ lo ≤ x ∧ x ≤ hi) ∧
      matchPartialChar rules p (decodeUtf8 part ⟨0, 0⟩).2 = .ok ((classOf e es).answer lo hi) := by
  obtain ⟨hle, hcompletes⟩ := h.interval
  refine ⟨_, _, hle, hcompletes, ?_⟩
  obtain ⟨b, henc, -⟩ := h.bytes
  have hpow : 2 ^ (k * 6) = 64 ^ k := by
    rw [Nat.mul_comm, Nat.pow_mul]
  have hvalid : ¬((k : ℤ) < 0 ∨ (k : ℤ) = 1 ∧ c.toNat / 64 ^ k < 2) := by
    have hpos := h.pos
    have hm := henc.le
    have hleast := henc.least
    intro hneg
    obtain ⟨hk, hlt⟩ := hneg.resolve_left (by omega)
    obtain rfl : k = 1 := by omega
    interval_cases m
    all_goals
      simp only [leastOf, getD_cons_succ, getD_cons_zero] at hleast
      omega
  have hlow : c.toNat / 64 ^ k * 64 ^ k % 2 ^ 32 = c.toNat / 64 ^ k * 64 ^ k := by
    have hmax := toNat_lt c
    have := Nat.div_mul_le_self c.toNat (64 ^ k)
    exact Nat.mod_eq_of_lt (by omega)
  have hhigh : c.toNat / 64 ^ k * 64 ^ k ||| (64 ^ k - 1) = c.toNat / 64 ^ k * 64 ^ k + (64 ^ k - 1) := by
    rw [← hpow, Nat.mul_comm]
    exact (Nat.two_pow_add_eq_or_of_lt (Nat.sub_one_lt (Nat.pos_iff_ne_zero.mp (Nat.two_pow_pos _))) _).symm
  rw [h.decodeUtf8_snd, matchPartialChar, elemAt_of_elemsAt hes]
  dsimp only
  rw [if_pos (by rcases htype with htype | htype | htype <;> simp [htype]), if_neg hvalid, Int.toNat_natCast, hpow, hlow,
    hhigh, hes]
  obtain htype | htype | htype := htype
  · rw [matchPartialLoop_spec _ _ _ hwf (Or.inl htype)]
    simp [classOf, htype, answer]
  · rw [matchPartialLoop_spec _ _ _ hwf (Or.inr (Or.inl htype))]
    simp [classOf, htype, answer]
  · rw [matchPartialLoop_any _ _ _ hwf htype]
    simp [classOf, htype, answer]

/-- **A class and a cut character.**  The answer is right exactly if the class is decided by what its ranges touch of the
interval of the completions. -/
theorem matchPartialChar_completes_iff {c : Char} {part : List UInt8} (hc : 2 ≤ (String.utf8EncodeChar c).length)
    (hpart : part <+: String.utf8EncodeChar c) (hne : part ≠ [])
    (hes : rules.elemsAt p = e :: es) (hwf : wellFormedFrom rules.length e.type es = true)
    (htype : e.type = .char ∨ e.type = .charNot ∨ e.type = .charAny) :
    (matchPartialChar rules p (decodeUtf8 part ⟨0, 0⟩).2 = .ok true ↔
        ∃ x, Completes part x ∧ ∃ q, matchChar rules p x = .ok (true, q)) ↔
      ∃ lo hi, IsLeast {x | Completes part x} lo ∧ IsGreatest {x | Completes part x} hi ∧
        (classOf e es).Decided lo hi := by
  obtain ⟨m, k, hcut⟩ := exists_cut hc hpart hne
  obtain ⟨lo, hi, hle, hcompletes, hanswer⟩ := matchPartialChar_spec hcut hes hwf htype
  obtain ⟨q, hmatch, -, -⟩ := matchChar_spec hes hwf htype
  have hmem (x : ℕ) : (∃ q', matchChar rules p x = .ok (true, q')) ↔ (classOf e es).mem x = true := by
    rw [hmatch x]
    exact ⟨fun ⟨q', hq⟩ => congrArg Prod.fst (Except.ok.inj hq), fun hx => ⟨q, by rw [hx]⟩⟩
  have hleast : IsLeast {x | Completes part x} lo :=
    ⟨(hcompletes lo).mpr ⟨Nat.le_refl _, hle⟩, fun x hx => ((hcompletes x).mp hx).1⟩
  have hgreatest : IsGreatest {x | Completes part x} hi :=
    ⟨(hcompletes hi).mpr ⟨hle, Nat.le_refl _⟩, fun x hx => ((hcompletes x).mp hx).2⟩
  have hdecided : (∃ lo hi, IsLeast {x | Completes part x} lo ∧ IsGreatest {x | Completes part x} hi ∧
      (classOf e es).Decided lo hi) ↔ (classOf e es).Decided lo hi := by
    constructor
    · intro ⟨lo', hi', hleast', hgreatest', h⟩
      rw [hleast'.unique hleast, hgreatest'.unique hgreatest] at h
      exact h
    · intro h
      exact ⟨lo, hi, hleast, hgreatest, h⟩
  rw [hdecided, hanswer, Except.ok.injEq]
  simp only [hmem, hcompletes]
  exact answer_iff hle (classOf e es)

/-- `[^é]` against the first byte of an `é`: it is refused, although an `è` begins with that byte as well. -/
theorem matchPartialChar_coverage :
    ([0xC3] : List UInt8) <+: String.utf8EncodeChar 'é' ∧ WellFormed [[⟨.charNot, 0xE9⟩, ⟨.endOfRule, 0⟩]] ∧
      matchPartialChar [[⟨.charNot, 0xE9⟩, ⟨.endOfRule, 0⟩]] ⟨0, 0⟩ (decodeUtf8 [0xC3] ⟨0, 0⟩).2 = .ok false ∧
        Completes [0xC3] 0xE8 ∧
          matchChar [[⟨.charNot, 0xE9⟩, ⟨.endOfRule, 0⟩]] ⟨0, 0⟩ 0xE8 = .ok (true, ⟨0, 1⟩) := by
  refine ⟨by decide, by decide, by decide, ⟨[0xA8], ?_, by decide, by decide, by decide⟩, by decide⟩
  intro b hb
  obtain rfl := mem_singleton.mp hb
  show 0xA8 / 64 = 2
  rfl

/-- `[é]` against the first byte of an `é`. -/
theorem matchPartialChar_positive :
    (matchPartialChar [[⟨.char, 0xE9⟩, ⟨.endOfRule, 0⟩]] ⟨0, 0⟩ (decodeUtf8 [0xC3] ⟨0, 0⟩).2 = .ok true ↔
        ∃ x, Completes [0xC3] x ∧ ∃ q, matchChar [[⟨.char, 0xE9⟩, ⟨.endOfRule, 0⟩]] ⟨0, 0⟩ x = .ok (true, q)) ↔
      ∃ lo hi, IsLeast {x | Completes [0xC3] x} lo ∧ IsGreatest {x | Completes [0xC3] x} hi ∧
        (oneOf [(0xE9, 0xE9)]).Decided lo hi :=
  @matchPartialChar_completes_iff [[⟨.char, 0xE9⟩, ⟨.endOfRule, 0⟩]] ⟨0, 0⟩ ⟨.char, 0xE9⟩ [⟨.endOfRule, 0⟩] 'é' [0xC3]
    (by decide) (by decide) (by decide) rfl (by decide) (Or.inl rfl)

end Grammar
