import Mathlib.Data.Nat.Bitwise
import Mathlib.Data.List.GetD
import Mathlib.Tactic.Common
import Mathlib.Tactic.Ring

/-!
# Bits of numbers and of byte strings, the most significant bit first

`msb n v` are the `n` low bits of `v` in the order in which they are written by hand, and `ofMsb` reads such
bits back.  A byte string is a string of bits as well: `bitAt buf k` is bit `k` of it, where every byte has
its most significant bit first.

* `bitAt_set_or` - what or-ing one bit into a byte does to the bits of the string.
-/

namespace Bits

/-- The `n` low bits of `v`, the highest of them first. -/
def msb : ℕ → ℕ → List Bool
  | 0, _ => []
  | n + 1, v => v.testBit n :: msb n v

def ofMsb : List Bool → ℕ
  | [] => 0
  | b :: l => b.toNat * 2 ^ l.length + ofMsb l

@[simp] theorem msb_length (n v : ℕ) : (msb n v).length = n := by
  induction n with
  | zero => rfl
  | succ n ih => rw [msb, List.length_cons, ih]

theorem ofMsb_lt (l : List Bool) : ofMsb l < 2 ^ l.length := by
  induction l with
  | nil => simp [ofMsb]
  | cons b l ih =>
    have hb : b.toNat ≤ 1 := Bool.toNat_le b
    have hmul : b.toNat * 2 ^ l.length ≤ 1 * 2 ^ l.length := Nat.mul_le_mul_right _ hb
    rw [ofMsb, List.length_cons, Nat.pow_succ]
    omega

theorem ofMsb_msb (n v : ℕ) : ofMsb (msb n v) = v % 2 ^ n := by
  induction n with
  | zero => simp [msb, ofMsb, Nat.mod_one]
  | succ n ih =>
    rw [msb, ofMsb, ih, msb_length, Nat.mod_pow_succ, Nat.toNat_testBit, Nat.mul_comm]
    exact Nat.add_comm _ _

theorem ofMsb_inj {l l' : List Bool} (hlen : l.length = l'.length) (h : ofMsb l = ofMsb l') : l = l' := by
  induction l generalizing l' with
  | nil => exact (List.length_eq_zero_iff.mp hlen.symm).symm
  | cons b l ih =>
    obtain ⟨b', l', rfl⟩ := List.exists_cons_of_length_pos (by rw [← hlen]; simp : 0 < l'.length)
    have hlen' : l.length = l'.length := by simpa using hlen
    have h1 := ofMsb_lt l
    have h2 := ofMsb_lt l'
    rw [ofMsb, ofMsb, ← hlen'] at h
    rw [← hlen'] at h2
    have hb : b = b' := by
      cases b <;> cases b' <;> simp at h ⊢ <;> omega
    subst hb
    rw [ih hlen' (by omega)]

/-! ### The bits of a byte string -/

/-- Bit `k` of a byte string. -/
def bitAt (buf : List UInt8) (k : ℕ) : Bool := (buf.getD (k / 8) 0).toNat.testBit (7 - k % 8)

theorem shift_and_one (b : UInt8) {j : ℕ} (hj : j < 8) :
    (b >>> UInt8.ofNat j) &&& 1 = if b.toNat.testBit j then 1 else 0 := by
  have hmod : j % 256 % 8 = j := by omega
  apply UInt8.toNat_inj.mp
  have hbit : (b.toNat >>> j) % 2 = if b.toNat.testBit j then 1 else 0 := by
    rw [Nat.testBit_eq_decide_div_mod_eq, Nat.shiftRight_eq_div_pow]
    by_cases h : b.toNat / 2 ^ j % 2 = 1
    · simp [h]
    · simp [h]; omega
  simp only [UInt8.toNat_and, UInt8.toNat_shiftRight, UInt8.toNat_ofNat', UInt8.toNat_ofNat, Nat.reducePow,
    hmod]
  rw [show (1 : ℕ) % 256 = 1 from rfl, Nat.and_one_is_mod, hbit]
  split <;> rfl

theorem testBit_or_shift (b : UInt8) {j : ℕ} (hj : j < 8) (i : ℕ) :
    (b ||| (1 <<< UInt8.ofNat j)).toNat.testBit i = (b.toNat.testBit i || decide (i = j)) := by
  have hmod : j % 256 % 8 = j := by omega
  have hpow : 2 ^ j < 256 := by
    calc 2 ^ j < 2 ^ 8 := Nat.pow_lt_pow_right (by decide) hj
      _ = 256 := rfl
  simp only [UInt8.toNat_or, UInt8.toNat_shiftLeft, UInt8.toNat_ofNat', UInt8.toNat_ofNat, Nat.reducePow, hmod]
  rw [show (1 : ℕ) % 256 = 1 from rfl, Nat.shiftLeft_eq, Nat.one_mul, Nat.mod_eq_of_lt hpow, Nat.testBit_or,
    Nat.testBit_two_pow]
  congr 1
  exact decide_eq_decide.mpr eq_comm

/-- **Or-ing one bit into a byte string** sets that bit and leaves the others. -/
theorem bitAt_set_or {buf : List UInt8} {p : ℕ} (hp : p / 8 < buf.length) (k : ℕ) :
    bitAt (buf.set (p / 8) (buf.getD (p / 8) 0 ||| (1 <<< UInt8.ofNat (7 - p % 8)))) k =
      (bitAt buf k || decide (k = p)) := by
  unfold bitAt
  by_cases hbyte : k / 8 = p / 8
  · have hsame : decide (7 - k % 8 = 7 - p % 8) = decide (k = p) := by
      apply decide_eq_decide.mpr
      omega
    rw [hbyte, List.getD_eq_getElem _ _ (by simpa using hp), List.getElem_set_self,
      testBit_or_shift _ (by omega), hsame]
  · have hne : k ≠ p := fun h => hbyte (by rw [h])
    rw [List.getD_eq_getElem?_getD, List.getElem?_set_ne (Ne.symm hbyte), ← List.getD_eq_getElem?_getD]
    simp [hne]

end Bits
