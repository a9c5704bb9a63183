import LlamaRafaelia.Gguf.Types
import Mathlib.Tactic.Linarith
import Mathlib.Data.Nat.ModEq

/-!
# GGUF: byte sizes in words and in unbounded integers

`byteSize` is the number of bytes of a tensor, computed without a bound: the product of the dimensions, over the
block size, times the type size.  `ggml_nbytes` computes it from the strides, in 64-bit words.

* `byteSize_eq_nbytes_iff` - **when the words are right**: the byte size fits into a word, and for a type with blocks
  that product does too.
-/

namespace Gguf

open Nat

def byteSize (type : GgmlType) (ne : Dims) : ℕ :=
  ne.d0 * ne.d1 * ne.d2 * ne.d3 / ggmlBlckSize type * ggmlTypeSize type

section

variable {type : GgmlType} {ne : Dims}

theorem byteSize_eq {r : ℕ} (hr : ne.d0 = ggmlBlckSize type * r) :
    byteSize type ne = ggmlTypeSize type * r * ne.d1 * ne.d2 * ne.d3 := by
  have hprod : ne.d0 * ne.d1 * ne.d2 * ne.d3 = ggmlBlckSize type * (r * ne.d1 * ne.d2 * ne.d3) := by rw [hr]; ring
  rw [byteSize, hprod, Nat.mul_div_cancel_left _ (ggmlBlckSize_pos type)]
  ring

theorem telescope {d1 d2 d3 : ℕ} (h1 : 0 < d1) (h2 : 0 < d2) (h3 : 0 < d3) (row : ℕ) :
    row + ((d1 - 1) * row + (d2 - 1) * (row * d1) + (d3 - 1) * (row * d1 * d2)) = row * d1 * d2 * d3 := by
  obtain ⟨a, rfl⟩ := Nat.exists_eq_succ_of_ne_zero h1.ne'
  obtain ⟨b, rfl⟩ := Nat.exists_eq_succ_of_ne_zero h2.ne'
  obtain ⟨c, rfl⟩ := Nat.exists_eq_succ_of_ne_zero h3.ne'
  simp only [Nat.succ_eq_add_one, Nat.add_sub_cancel]
  ring

theorem strides_sum {r : ℕ} (hr : ne.d0 / ggmlBlckSize type = r) :
    (ne.d1 - 1) * (strides type ne).d1 + (ne.d2 - 1) * (strides type ne).d2 + (ne.d3 - 1) * (strides type ne).d3
      ≡ (ne.d1 - 1) * (ggmlTypeSize type * r) + (ne.d2 - 1) * (ggmlTypeSize type * r * ne.d1)
        + (ne.d3 - 1) * (ggmlTypeSize type * r * ne.d1 * ne.d2) [MOD 2 ^ 64] := by
  have h1 : (strides type ne).d1 ≡ ggmlTypeSize type * r [MOD 2 ^ 64] := by
    rw [← hr]
    exact mod_modEq _ _
  have h2 : (strides type ne).d2 ≡ ggmlTypeSize type * r * ne.d1 [MOD 2 ^ 64] :=
    (mod_modEq _ _).trans (h1.mul_right _)
  have h3 : (strides type ne).d3 ≡ ggmlTypeSize type * r * ne.d1 * ne.d2 [MOD 2 ^ 64] :=
    (mod_modEq _ _).trans (h2.mul_right _)
  exact ((h1.mul_left _).add (h2.mul_left _)).add (h3.mul_left _)

/-- **`ggml_nbytes` of a contiguous tensor in words**, when the bytes of the first row do not wrap. -/
theorem nbytes_eq_mod {t : GgmlTensor} (hnb : t.nb = strides t.type t.ne) (hdvd : t.ne.d0 % ggmlBlckSize t.type = 0)
    (hrow : 1 < ggmlBlckSize t.type → t.ne.d0 * ggmlTypeSize t.type < 2 ^ 64) :
    ggmlNbytes t = byteSize t.type t.ne % 2 ^ 64 := by
  obtain ⟨r, hr⟩ := Nat.dvd_of_mod_eq_zero hdvd
  have hdiv : t.ne.d0 / ggmlBlckSize t.type = r := by rw [hr, Nat.mul_div_cancel_left _ (ggmlBlckSize_pos _)]
  rw [byteSize_eq hr, ggmlNbytes, hnb]
  by_cases hzero : t.ne.d0 = 0 ∨ t.ne.d1 = 0 ∨ t.ne.d2 = 0 ∨ t.ne.d3 = 0
  · rw [if_pos hzero]
    have hprod : ggmlTypeSize t.type * r * t.ne.d1 * t.ne.d2 * t.ne.d3 = 0 := by
      rcases hzero with h0 | h1 | h2 | h3
      · have : r = 0 := by
          rw [← hdiv, h0, Nat.zero_div]
        simp [this]
      · simp [h1]
      · simp [h2]
      · simp [h3]
    rw [hprod, zero_mod]
  · rw [if_neg hzero]
    simp only [not_or] at hzero
    obtain ⟨h0, h1, h2, h3⟩ := hzero
    have hsum := strides_sum hdiv
    have htele := telescope (pos_of_ne_zero h1) (pos_of_ne_zero h2) (pos_of_ne_zero h3)
      (ggmlTypeSize t.type * r)
    dsimp only
    split
    · rename_i hone
      have hfirst : ggmlTypeSize t.type + (t.ne.d0 - 1) * (strides t.type t.ne).d0 = ggmlTypeSize t.type * r := by
        have hd0 : t.ne.d0 = r := by rw [hr, hone, one_mul]
        obtain ⟨a, ha⟩ := exists_eq_succ_of_ne_zero h0
        rw [hd0] at ha
        show ggmlTypeSize t.type + (t.ne.d0 - 1) * ggmlTypeSize t.type = _
        rw [hd0, ha, succ_sub_one, succ_eq_add_one]
        ring
      rw [hfirst, ← htele]
      exact hsum.add_left _
    · rename_i hone
      have hblck : 1 < ggmlBlckSize t.type := by
        have := ggmlBlckSize_pos t.type
        omega
      have hfirst : t.ne.d0 * (strides t.type t.ne).d0 % 2 ^ 64 / ggmlBlckSize t.type = ggmlTypeSize t.type * r := by
        show t.ne.d0 * ggmlTypeSize t.type % 2 ^ 64 / ggmlBlckSize t.type = _
        rw [Nat.mod_eq_of_lt (hrow hblck), hr, Nat.mul_assoc, Nat.mul_div_cancel_left _ (ggmlBlckSize_pos _)]
        ring
      rw [hfirst, ← htele]
      exact hsum.add_left _

theorem wrapped_row {blck c : ℕ} (hpos : 0 < blck) (hc : 2 ^ 64 = blck * c) (row : ℕ) :
    blck * row % 2 ^ 64 / blck + blck * row / 2 ^ 64 * c = row := by
  rw [hc, Nat.mul_mod_mul_left, Nat.mul_div_cancel_left _ hpos, Nat.mul_div_mul_left _ _ hpos, Nat.mul_comm (row / c)]
  exact Nat.mod_add_div row c

/-- If the product for the first row wraps, then `ggml_nbytes` is not the byte size: the product wraps less often than
there are elements in a block, and what is missing is not a multiple of the word size. -/
theorem nbytes_ne_of_wraps {t : GgmlTensor} (hnb : t.nb = strides t.type t.ne)
    (hdvd : t.ne.d0 % ggmlBlckSize t.type = 0) (hd0 : t.ne.d0 < 2 ^ 63) (h1 : t.ne.d1 ≠ 0) (h2 : t.ne.d2 ≠ 0)
    (h3 : t.ne.d3 ≠ 0) (hblck : 1 < ggmlBlckSize t.type) (hwrap : 2 ^ 64 ≤ t.ne.d0 * ggmlTypeSize t.type) :
    byteSize t.type t.ne ≠ ggmlNbytes t := by
  obtain ⟨r, hr⟩ := Nat.dvd_of_mod_eq_zero hdvd
  obtain ⟨c, hc⟩ := ggmlBlckSize_dvd t.type
  have hpos := ggmlBlckSize_pos t.type
  have hsize := ggmlTypeSize_lt t.type hblck
  have hdiv : t.ne.d0 / ggmlBlckSize t.type = r := by rw [hr, Nat.mul_div_cancel_left _ hpos]
  have h0 : t.ne.d0 ≠ 0 := by
    rintro h0
    rw [h0, Nat.zero_mul] at hwrap
    omega
  have hprod : t.ne.d0 * ggmlTypeSize t.type = ggmlBlckSize t.type * (ggmlTypeSize t.type * r) := by rw [hr]; ring
  have hsum := strides_sum hdiv
  have htele := telescope (Nat.pos_of_ne_zero h1) (Nat.pos_of_ne_zero h2) (Nat.pos_of_ne_zero h3)
    (ggmlTypeSize t.type * r)
  have hrow := wrapped_row hpos hc (ggmlTypeSize t.type * r)
  rw [← hprod] at hrow
  -- how often the product wraps
  generalize hq : t.ne.d0 * ggmlTypeSize t.type / 2 ^ 64 = q at hrow
  have hq0 : 0 < q := hq ▸ div_pos hwrap (by decide)
  have hqlt : q < ggmlBlckSize t.type := by
    rw [← hq, div_lt_iff_lt_mul (by decide)]
    calc t.ne.d0 * ggmlTypeSize t.type < 2 ^ 63 * (2 * ggmlBlckSize t.type) :=
          Nat.mul_lt_mul_of_lt_of_le hd0 hsize.le (by omega)
      _ = ggmlBlckSize t.type * 2 ^ 64 := by ring
  intro heq
  rw [byteSize_eq hr, ggmlNbytes, if_neg (by simp [h0, h1, h2, h3])] at heq
  dsimp only at heq
  rw [if_neg (by omega), hnb, show (strides t.type t.ne).d0 = ggmlTypeSize t.type from rfl, ← htele] at heq
  have hword := (hsum.add_left (t.ne.d0 * ggmlTypeSize t.type % 2 ^ 64 / ggmlBlckSize t.type)).symm.trans
    (mod_modEq _ (2 ^ 64)).symm
  rw [← heq] at hword
  -- modulo the word size, what is missing is zero
  have hmod : q * c ≡ 0 [MOD 2 ^ 64] := by
    generalize t.ne.d0 * ggmlTypeSize t.type % 2 ^ 64 / ggmlBlckSize t.type = first at hword hrow
    generalize hS : (t.ne.d1 - 1) * (ggmlTypeSize t.type * r) + (t.ne.d2 - 1) * (ggmlTypeSize t.type * r * t.ne.d1)
        + (t.ne.d3 - 1) * (ggmlTypeSize t.type * r * t.ne.d1 * t.ne.d2) = S at hword
    rw [← hrow, add_assoc, add_comm (q * c), ← add_assoc] at hword
    exact (Nat.ModEq.add_left_cancel' (first + S) hword).symm
  have hdvd' : ggmlBlckSize t.type * c ∣ q * c := hc ▸ (Nat.modEq_zero_iff_dvd).mp hmod
  have hcpos : 0 < c := by
    rcases Nat.eq_zero_or_pos c with h | h
    · rw [h] at hc
      omega
    · exact h
  have := Nat.le_of_dvd hq0 (Nat.dvd_of_mul_dvd_mul_right hcpos hdvd')
  omega

/-- **When the words are right.**  The byte size has to fit into a word, and for a type with blocks the product that is
divided by the block size has to as well. -/
theorem byteSize_eq_nbytes_iff {t : GgmlTensor} (hnb : t.nb = strides t.type t.ne)
    (hdvd : t.ne.d0 % ggmlBlckSize t.type = 0) (hd0 : t.ne.d0 < 2 ^ 63) (h1 : t.ne.d1 ≠ 0) (h2 : t.ne.d2 ≠ 0)
    (h3 : t.ne.d3 ≠ 0) :
    byteSize t.type t.ne = ggmlNbytes t ↔
      byteSize t.type t.ne < 2 ^ 64 ∧ (1 < ggmlBlckSize t.type → t.ne.d0 * ggmlTypeSize t.type < 2 ^ 64) := by
  constructor
  · intro heq
    have hrow : 1 < ggmlBlckSize t.type → t.ne.d0 * ggmlTypeSize t.type < 2 ^ 64 := by
      intro hblck
      by_contra hwrap
      exact nbytes_ne_of_wraps hnb hdvd hd0 h1 h2 h3 hblck (Nat.le_of_not_lt hwrap) heq
    rw [nbytes_eq_mod hnb hdvd hrow] at heq
    exact ⟨heq ▸ mod_lt _ (by decide), hrow⟩
  · rintro ⟨hlt, hrow⟩
    rw [nbytes_eq_mod hnb hdvd hrow, mod_eq_of_lt hlt]

end

/-! ### Padding -/

section

variable {x a : ℕ}

theorem dvd_ggmlPad (ha : a.isPowerOfTwo) (hle : a ≤ 2 ^ 64) : a ∣ ggmlPad x a := by
  rw [ggmlPad_eq ha hle]
  exact dvd_mul_left _ _

theorem ggmlPad_of_le (ha : a.isPowerOfTwo) (h : x + a ≤ 2 ^ 64) : ggmlPad x a = (x + a - 1) / a * a := by
  rw [ggmlPad_eq ha (by omega), mod_eq_of_lt (by omega)]

theorem le_ggmlPad (ha : a.isPowerOfTwo) (h : x + a ≤ 2 ^ 64) : x ≤ ggmlPad x a := by
  have hpos := pos_of_isPowerOfTwo ha
  rw [ggmlPad_of_le ha h]
  have := div_add_mod (x + a - 1) a
  have := mod_lt (x + a - 1) hpos
  rw [mul_comm]
  omega

theorem nbytes_le_pad_iff (ha : a.isPowerOfTwo) (hle : a ≤ 2 ^ 63) (hx : x < 2 ^ 64) :
    x ≤ ggmlPad x a ↔ x + a ≤ 2 ^ 64 := by
  have hpos := pos_of_isPowerOfTwo ha
  constructor
  · intro h
    by_contra hwrap
    have hmod : (x + a - 1) % 2 ^ 64 = x + a - 1 - 2 ^ 64 := by omega
    have hzero : ggmlPad x a = 0 := by
      rw [ggmlPad_eq ha (by omega), hmod, div_eq_of_lt (by omega), zero_mul]
    omega
  · exact le_ggmlPad ha

end

end Gguf
