import Mathlib.Data.List.GetD
import Mathlib.Data.List.Basic
import Mathlib.Logic.Function.Iterate
import Mathlib.Tactic.Common
import Mathlib.Algebra.Group.Nat.Defs

/-!
# Cyclic redundancy checks as a linear register

The register of a reflected CRC of width `w` is shifted to the right, and the polynomial `P` is added when a one falls
out (`shift`).  The bits of the message are added at the low end, one before each shift (`feed`); those of a byte
string come byte by byte, the least significant bit first (`lsbBits`).

* `feed_eq_shifts` - **a short message is a word**: at most `w` bits may be added all at once;
* `feed_burst` - **bursts are detected**: messages that differ, but only within `w` consecutive bits, leave
  different registers.
-/

namespace Crc

open List

variable {w : ℕ} (P : BitVec w)

/-! ### The register -/

def shift (x : BitVec w) : BitVec w := (x >>> 1) ^^^ (if x.getLsbD 0 then P else 0#w)

/-- `n` shifts of the register. -/
def shifts (n : ℕ) (x : BitVec w) : BitVec w := (shift P)^[n] x

def bitWord (w : ℕ) (b : Bool) : BitVec w := if b then 1#w else 0#w

def feedBit (s : BitVec w) (b : Bool) : BitVec w := shift P (s ^^^ bitWord w b)

def feed (s : BitVec w) (bits : List Bool) : BitVec w := bits.foldl (feedBit P) s

@[simp] theorem shift_zero : shift P 0#w = 0#w := by
  simp [shift]

theorem shift_xor (x y : BitVec w) : shift P (x ^^^ y) = shift P x ^^^ shift P y := by
  unfold shift
  rw [BitVec.getLsbD_xor, BitVec.ushiftRight_xor_distrib]
  cases x.getLsbD 0 <;> cases y.getLsbD 0
  · simp
  · simp [BitVec.xor_assoc]
  · simp only [Bool.xor_false, if_true, Bool.false_eq_true, if_false, BitVec.xor_zero]
    rw [BitVec.xor_assoc, BitVec.xor_comm (y >>> 1), ← BitVec.xor_assoc]
  · simp only [bne_self_eq_false, Bool.false_eq_true, if_false, if_true, BitVec.xor_zero]
    rw [BitVec.xor_assoc (x >>> 1) P, BitVec.xor_comm (y >>> 1) P, ← BitVec.xor_assoc P P, BitVec.xor_self,
      BitVec.zero_xor]

/-- **The shift loses nothing**: the added polynomial shows in the high bit. -/
theorem shift_ne_zero {P : BitVec w} (hP : P.getLsbD (w - 1) = true) {x : BitVec w} (hx : x ≠ 0#w) :
    shift P x ≠ 0#w := by
  intro hzero
  have hpos : 0 < w := by
    rcases Nat.eq_zero_or_pos w with rfl | h
    · simp at hP
    · exact h
  have hbits : ∀ i, (shift P x).getLsbD i = false := by
    intro i
    rw [hzero, BitVec.getLsbD_zero]
  cases hlow : x.getLsbD 0 with
  | true =>
    have htop := hbits (w - 1)
    simp [shift, hlow, hP, BitVec.getLsbD_of_ge x (1 + (w - 1)) (by omega)] at htop
  | false =>
    apply hx
    refine BitVec.eq_of_getLsbD_eq fun i hi => ?_
    rw [BitVec.getLsbD_zero]
    cases i with
    | zero => exact hlow
    | succ i =>
      have hi' := hbits i
      simp only [shift, hlow, Bool.false_eq_true, if_false, BitVec.xor_zero, BitVec.getLsbD_ushiftRight] at hi'
      rw [Nat.add_comm]
      exact hi'

@[simp] theorem shifts_zero_word (n : ℕ) : shifts P n 0#w = 0#w :=
  Function.iterate_fixed (shift_zero P) n

theorem shifts_succ (n : ℕ) (x : BitVec w) : shifts P (n + 1) x = shifts P n (shift P x) := rfl

theorem shifts_add (m n : ℕ) (x : BitVec w) : shifts P (m + n) x = shifts P m (shifts P n x) :=
  Function.iterate_add_apply (shift P) m n x

theorem shifts_xor (n : ℕ) (x y : BitVec w) : shifts P n (x ^^^ y) = shifts P n x ^^^ shifts P n y := by
  induction n generalizing x y with
  | zero => rfl
  | succ n ih => rw [shifts_succ, shift_xor, ih, ← shifts_succ, ← shifts_succ]

theorem shifts_ne_zero {P : BitVec w} (hP : P.getLsbD (w - 1) = true) (n : ℕ) {x : BitVec w} (hx : x ≠ 0#w) :
    shifts P n x ≠ 0#w := by
  induction n generalizing x with
  | zero => exact hx
  | succ n ih => exact ih (shift_ne_zero hP hx)

theorem shifts_of_low_clear {x : BitVec w} {k : ℕ} (hx : ∀ i < k, x.getLsbD i = false) : shifts P k x = x >>> k := by
  induction k with
  | zero => simp [shifts]
  | succ k ih =>
    have hlow : (x >>> k).getLsbD 0 = false := by
      rw [BitVec.getLsbD_ushiftRight]
      exact hx k (Nat.lt_succ_self k)
    rw [Nat.add_comm, shifts_add, ih fun i hi => hx i (by omega)]
    show shift P (x >>> k) = _
    rw [shift, hlow, Nat.add_comm, BitVec.shiftRight_add]
    simp

/-- **The table method**: the shifts of the low bits, and the rest moved down. -/
theorem shifts_split (k : ℕ) (x : BitVec w) :
    shifts P k x = shifts P k (x &&& BitVec.ofNat w (2 ^ k - 1)) ^^^ (x >>> k) := by
  have hmask : ∀ i, (BitVec.ofNat w (2 ^ k - 1)).getLsbD i = (decide (i < w) && decide (i < k)) := by
    intro i
    rw [BitVec.getLsbD_ofNat, Nat.testBit_two_pow_sub_one]
  have hsplit : x = (x &&& BitVec.ofNat w (2 ^ k - 1)) ^^^ (x &&& ~~~ BitVec.ofNat w (2 ^ k - 1)) := by
    refine BitVec.eq_of_getLsbD_eq fun i hi => ?_
    rw [BitVec.getLsbD_xor, BitVec.getLsbD_and, BitVec.getLsbD_and, BitVec.getLsbD_not]
    cases x.getLsbD i <;> cases (BitVec.ofNat w (2 ^ k - 1)).getLsbD i <;> simp [hi]
  have hhigh : shifts P k (x &&& ~~~ BitVec.ofNat w (2 ^ k - 1)) = x >>> k := by
    rw [shifts_of_low_clear]
    · refine BitVec.eq_of_getLsbD_eq fun i hi => ?_
      rw [BitVec.getLsbD_ushiftRight, BitVec.getLsbD_ushiftRight, BitVec.getLsbD_and, BitVec.getLsbD_not, hmask]
      by_cases hw : k + i < w
      · simp [hw]
      · simp [BitVec.getLsbD_of_ge x (k + i) (by omega)]
    · intro i hi
      rw [BitVec.getLsbD_and, BitVec.getLsbD_not, hmask]
      by_cases hw : i < w
      · simp [hw, hi]
      · simp [hw]
  calc shifts P k x
      = shifts P k ((x &&& BitVec.ofNat w (2 ^ k - 1)) ^^^ (x &&& ~~~ BitVec.ofNat w (2 ^ k - 1))) := by
        rw [← hsplit]
    _ = _ := by rw [shifts_xor, hhigh]

/-! ### Messages -/

def word (w : ℕ) : List Bool → BitVec w
  | [] => 0#w
  | b :: l => (word w l <<< 1) ^^^ bitWord w b

theorem bitWord_getLsbD (b : Bool) (i : ℕ) : (bitWord w b).getLsbD i = (decide (i < w) && decide (i = 0) && b) := by
  cases b with
  | false => simp [bitWord]
  | true =>
    rw [bitWord, if_pos rfl, BitVec.getLsbD_one, Bool.and_true]
    by_cases hi : i = 0
    · subst hi
      rfl
    · simp [hi]

theorem word_getLsbD (l : List Bool) (i : ℕ) : (word w l).getLsbD i = (decide (i < w) && l.getD i false) := by
  induction l generalizing i with
  | nil => simp [word]
  | cons b l ih =>
    rw [word, BitVec.getLsbD_xor, BitVec.getLsbD_shiftLeft, bitWord_getLsbD, ih]
    cases i with
    | zero => simp
    | succ i =>
      by_cases hi : i + 1 < w
      · simp [hi, show i < w by omega]
      · simp [hi]

theorem word_ne_zero {l : List Bool} (hlen : l.length ≤ w) (h : true ∈ l) : word w l ≠ 0#w := by
  intro hzero
  obtain ⟨i, hi, htrue⟩ := getElem_of_mem h
  have hbit := word_getLsbD (w := w) l i
  rw [hzero, BitVec.getLsbD_zero, getD_eq_getElem _ _ hi, htrue] at hbit
  simp [show i < w by omega] at hbit

theorem shift_xor_shiftLeft (x y : BitVec w) (hy : y.getLsbD (w - 1) = false) :
    shift P (x ^^^ (y <<< 1)) = shift P x ^^^ y := by
  have hback : shift P (y <<< 1) = y := by
    refine BitVec.eq_of_getLsbD_eq fun i hi => ?_
    have hlow : (y <<< 1).getLsbD 0 = false := by simp
    simp only [shift, hlow, Bool.false_eq_true, if_false, BitVec.xor_zero, BitVec.getLsbD_ushiftRight,
      BitVec.getLsbD_shiftLeft]
    by_cases htop : 1 + i < w
    · simp [htop]
    · rw [show i = w - 1 by omega, hy]
      simp [hy]
  rw [shift_xor, hback]

theorem feed_eq_shifts {l : List Bool} (hlen : l.length ≤ w) (s : BitVec w) :
    feed P s l = shifts P l.length (s ^^^ word w l) := by
  induction l generalizing s with
  | nil => simp [feed, shifts, word]
  | cons b l ih =>
    rw [length_cons] at hlen
    have htop : (word w l).getLsbD (w - 1) = false := by
      rw [word_getLsbD, getD_eq_default _ _ (by omega), Bool.and_false]
    have hword : s ^^^ word w (b :: l) = (s ^^^ bitWord w b) ^^^ (word w l <<< 1) := by
      rw [word, BitVec.xor_comm (word w l <<< 1), BitVec.xor_assoc]
    calc feed P s (b :: l) = feed P (feedBit P s b) l := rfl
      _ = shifts P l.length (feedBit P s b ^^^ word w l) := ih (by omega) _
      _ = shifts P l.length (shift P (s ^^^ word w (b :: l))) := by
        rw [hword, shift_xor_shiftLeft P _ _ htop, feedBit]
      _ = shifts P (b :: l).length (s ^^^ word w (b :: l)) := rfl

theorem feed_append (s : BitVec w) (l l' : List Bool) : feed P s (l ++ l') = feed P (feed P s l) l' :=
  foldl_append

theorem feed_replicate_false (s : BitVec w) (n : ℕ) : feed P s (List.replicate n false) = shifts P n s := by
  induction n generalizing s with
  | zero => rfl
  | succ n ih =>
    rw [replicate_succ, shifts_succ]
    show feed P (feedBit P s false) _ = _
    rw [ih, feedBit, bitWord, if_neg (by decide), BitVec.xor_zero]

theorem feed_xor {l l' : List Bool} (hlen : l.length = l'.length) (s t : BitVec w) :
    feed P (s ^^^ t) (List.zipWith xor l l') = feed P s l ^^^ feed P t l' := by
  induction l generalizing l' s t with
  | nil =>
    obtain rfl := length_eq_zero_iff.mp hlen.symm
    rfl
  | cons b l ih =>
    obtain ⟨b', l', rfl⟩ := exists_cons_of_length_pos (by rw [← hlen]; simp : 0 < l'.length)
    have hbit : bitWord w (b ^^ b') = bitWord w b ^^^ bitWord w b' := by
      cases b <;> cases b' <;> simp [bitWord]
    have hstep : feedBit P (s ^^^ t) (b ^^ b') = feedBit P s b ^^^ feedBit P t b' := by
      rw [feedBit, feedBit, feedBit, ← shift_xor, hbit]
      congr 1
      rw [BitVec.xor_assoc, ← BitVec.xor_assoc t, BitVec.xor_comm t, BitVec.xor_assoc, ← BitVec.xor_assoc s]
    rw [zipWith_cons_cons]
    show feed P (feedBit P (s ^^^ t) (b ^^ b')) _ = feed P (feedBit P s b) l ^^^ feed P (feedBit P t b') l'
    rw [hstep]
    exact ih (by simpa using hlen) _ _

/-! ### Bursts -/

/-- The two messages differ only within the `n` bits from bit `a` on. -/
def DiffersWithin (l l' : List Bool) (a n : ℕ) : Prop :=
  ∀ i, l.getD i false ≠ l'.getD i false → a ≤ i ∧ i < a + n

theorem eq_replicate_false {l : List Bool} (h : ∀ i, l.getD i false = false) : l = List.replicate l.length false := by
  refine eq_replicate_iff.mpr ⟨rfl, fun b hb => ?_⟩
  obtain ⟨i, hi, rfl⟩ := getElem_of_mem hb
  rw [← getD_eq_getElem l false hi]
  exact h i

theorem feed_error_ne_zero {P : BitVec w} (hP : P.getLsbD (w - 1) = true) {e : List Bool} {a : ℕ}
    (hwithin : ∀ i, e.getD i false = true → a ≤ i ∧ i < a + w) (hne : true ∈ e) : feed P 0#w e ≠ 0#w := by
  have hsplit : e = e.take a ++ ((e.drop a).take w ++ (e.drop a).drop w) := by
    rw [take_append_drop, take_append_drop]
  have hfalse : ∀ i, ¬ (a ≤ i ∧ i < a + w) → e.getD i false = false := fun i hi =>
    Bool.eq_false_iff.mpr fun h => hi (hwithin i h)
  have hhead : e.take a = List.replicate (e.take a).length false := by
    refine eq_replicate_false fun i => ?_
    rw [getD_eq_getElem?_getD, getElem?_take]
    split
    · rw [← getD_eq_getElem?_getD]
      exact hfalse i (by omega)
    · rfl
  have htail : (e.drop a).drop w = List.replicate ((e.drop a).drop w).length false := by
    refine eq_replicate_false fun i => ?_
    rw [getD_eq_getElem?_getD, getElem?_drop, getElem?_drop, ← getD_eq_getElem?_getD]
    exact hfalse _ (by omega)
  have hmid : true ∈ (e.drop a).take w := by
    rw [hsplit, hhead, htail] at hne
    simpa using hne
  have hlen : ((e.drop a).take w).length ≤ w := by
    rw [length_take]
    exact Nat.min_le_left _ _
  rw [hsplit, feed_append, feed_append, hhead, feed_replicate_false, shifts_zero_word, feed_eq_shifts P hlen,
    BitVec.zero_xor, htail, feed_replicate_false]
  exact shifts_ne_zero hP _ (shifts_ne_zero hP _ (word_ne_zero hlen hmid))

theorem feed_burst {P : BitVec w} (hP : P.getLsbD (w - 1) = true) {l l' : List Bool} (hlen : l.length = l'.length)
    (hne : l ≠ l') {a : ℕ} (hwithin : DiffersWithin l l' a w) (s : BitVec w) : feed P s l ≠ feed P s l' := by
  have hbits : ∀ i, (List.zipWith xor l l').getD i false = (l.getD i false ^^ l'.getD i false) := by
    intro i
    by_cases hi : i < l.length
    · have hi' : i < l'.length := by omega
      rw [getD_eq_getElem _ _ (by rw [length_zipWith]; omega), getElem_zipWith,
        getD_eq_getElem _ _ hi, getD_eq_getElem _ _ hi']
    · rw [getD_eq_default _ _ (by rw [length_zipWith]; omega), getD_eq_default _ _ (by omega),
        getD_eq_default _ _ (by omega)]
      rfl
  have herror : feed P 0#w (List.zipWith xor l l') ≠ 0#w := by
    refine feed_error_ne_zero (a := a) hP (fun i hi => hwithin i ?_) ?_
    · rw [hbits] at hi
      exact bne_iff_ne.mp hi
    · by_contra hnone
      refine hne (ext_getElem hlen fun i h1 h2 => ?_)
      by_contra hdiff
      refine hnone (mem_iff_getElem.mpr ⟨i, by rw [length_zipWith]; omega, ?_⟩)
      rw [getElem_zipWith]
      exact bne_iff_ne.mpr hdiff
  intro heq
  have hlinear := feed_xor P hlen s s
  rw [BitVec.xor_self, heq, BitVec.xor_self] at hlinear
  exact herror hlinear

/-! ### The bits of a byte string -/

def byteBits (b : UInt8) : List Bool := (List.range 8).map b.toBitVec.getLsbD

/-- The bits of a byte string, in the order in which the register takes them. -/
def lsbBits (data : List UInt8) : List Bool := data.flatMap byteBits

@[simp] theorem byteBits_length (b : UInt8) : (byteBits b).length = 8 := by
  simp [byteBits]

theorem byteBits_injective {b b' : UInt8} (h : byteBits b = byteBits b') : b = b' := by
  apply UInt8.toBitVec_inj.mp
  refine BitVec.eq_of_getLsbD_eq fun i hi => ?_
  exact map_inj_left.mp h i (List.mem_range.mpr hi)

theorem lsbBits_length (data : List UInt8) : (lsbBits data).length = 8 * data.length := by
  induction data with
  | nil => rfl
  | cons b data ih =>
    rw [lsbBits, flatMap_cons, length_append, byteBits_length, ← lsbBits, ih, length_cons]
    omega

theorem lsbBits_injective {data data' : List UInt8} (h : lsbBits data = lsbBits data') : data = data' := by
  induction data generalizing data' with
  | nil =>
    have hlen := congrArg List.length h
    rw [lsbBits_length, lsbBits_length, length_nil] at hlen
    exact (length_eq_zero_iff.mp (by omega : data'.length = 0)).symm
  | cons b data ih =>
    have hlen := congrArg List.length h
    rw [lsbBits_length, lsbBits_length, length_cons] at hlen
    obtain ⟨b', data', rfl⟩ := exists_cons_of_length_pos (by omega : 0 < data'.length)
    rw [lsbBits, flatMap_cons, lsbBits, flatMap_cons] at h
    obtain ⟨hfirst, hrest⟩ := append_inj h (by simp)
    rw [byteBits_injective hfirst, ih hrest]

theorem word_byteBits (b : UInt8) : word w (byteBits b) = b.toBitVec.setWidth w := by
  refine BitVec.eq_of_getLsbD_eq fun i hi => ?_
  rw [word_getLsbD, BitVec.getLsbD_setWidth]
  congr 1
  by_cases h8 : i < 8
  · rw [getD_eq_getElem _ _ (by simpa using h8)]
    simp [byteBits]
  · rw [getD_eq_default _ _ (by rw [byteBits_length]; omega), BitVec.getLsbD_of_ge _ _ (by omega)]

/-- **Byte by byte**: a byte is added to the low end of the register and shifted through. -/
theorem feed_lsbBits (h8 : 8 ≤ w) (s : BitVec w) (data : List UInt8) :
    feed P s (lsbBits data) = data.foldl (fun crc b => shifts P 8 (crc ^^^ b.toBitVec.setWidth w)) s := by
  induction data generalizing s with
  | nil => rfl
  | cons b data ih =>
    rw [lsbBits, flatMap_cons, feed_append, ← lsbBits, ih, foldl_cons,
      feed_eq_shifts P (by rw [byteBits_length]; exact h8), byteBits_length, word_byteBits]

end Crc
