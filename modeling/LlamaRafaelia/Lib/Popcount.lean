import Mathlib.Algebra.BigOperators.Group.Finset.Basic
import Mathlib.Data.Nat.Bitwise
import Mathlib.Tactic.Common
import Mathlib.Tactic.Ring

/-!
# Counting bits in parallel

The number of one bits of a word, by the method that adds neighbouring fields of a word at once: pairs of bits, then
groups of four, then bytes, and at last all bytes with one multiplication.  Each stage works on the bytes of the word
one by one, so that a stage on many bytes is the stage on one byte, repeated.

* `Popcount.stages_cons` - **the stages of a number are those of its lowest byte and those of the rest**;
* `Popcount.gather` - **the multiplication adds the bytes up**.
-/

namespace Popcount

open Nat

def bitSum : ℕ → ℕ → ℕ
  | 0, _ => 0
  | n + 1, x => x % 2 + bitSum n (x / 2)

def rep (m : ℕ) : ℕ → ℕ
  | 0 => 0
  | n + 1 => m + 256 * rep m n

def pairs (n x : ℕ) : ℕ := x - (x / 2 &&& rep 0x55 n)

def groups (n x : ℕ) : ℕ := (x &&& rep 0x33 n) + (x / 4 &&& rep 0x33 n)

def bytes (n x : ℕ) : ℕ := x + x / 16 &&& rep 0x0F n

def stages (n x : ℕ) : ℕ := bytes n (groups n (pairs n x))

/-! ### One byte and the others -/

variable {n y z : ℕ}

theorem and_rep {m : ℕ} (hy : y < 256) (hm : m < 256) :
    y + 256 * z &&& rep m (n + 1) = (y &&& m) + 256 * (z &&& rep m n) := by
  have hlow : (y + 256 * z &&& rep m (n + 1)) % 2 ^ 8 = y &&& m := by
    have h1 : (y + 256 * z) % 2 ^ 8 = y := by omega
    have h2 : rep m (n + 1) % 2 ^ 8 = m := by
      rw [rep]
      omega
    rw [and_mod_two_pow, h1, h2]
  have hhigh : (y + 256 * z &&& rep m (n + 1)) / 2 ^ 8 = z &&& rep m n := by
    have h1 : (y + 256 * z) / 2 ^ 8 = z := by omega
    have h2 : rep m (n + 1) / 2 ^ 8 = rep m n := by
      rw [rep]
      omega
    rw [and_div_two_pow, h1, h2]
  omega

theorem rep_one (m : ℕ) : rep m 1 = m := rfl

theorem pairs_cons (hy : y < 256) : pairs (n + 1) (y + 256 * z) = pairs 1 y + 256 * pairs n z := by
  have hmask : ∀ a < 128, ∀ b < 2, a + 128 * b &&& 0x55 = a &&& 0x55 := by decide +kernel
  have hshift : (y + 256 * z) / 2 = y / 2 + 128 * (z % 2) + 256 * (z / 2) := by omega
  have hy' : y / 2 &&& 0x55 ≤ y / 2 := and_le_left
  have hz' : z / 2 &&& rep 0x55 n ≤ z / 2 := and_le_left
  rw [pairs, hshift, and_rep (by omega) (by decide), hmask _ (by omega) _ (by omega), pairs, rep_one, pairs]
  omega

theorem groups_cons (hy : y < 256) : groups (n + 1) (y + 256 * z) = groups 1 y + 256 * groups n z := by
  have hmask : ∀ a < 64, ∀ b < 4, a + 64 * b &&& 0x33 = a &&& 0x33 := by decide +kernel
  have hshift : (y + 256 * z) / 4 = y / 4 + 64 * (z % 4) + 256 * (z / 4) := by omega
  rw [groups, hshift, and_rep hy (by decide), and_rep (by omega) (by decide), hmask _ (by omega) _ (by omega), groups,
    rep_one, groups]
  omega

theorem bytes_cons (hy : y ≤ 68) (hz : z % 16 ≤ 4) : bytes (n + 1) (y + 256 * z) = bytes 1 y + 256 * bytes n z := by
  have hmask : ∀ a < 128, ∀ b < 8, a + 16 * b &&& 0x0F = a &&& 0x0F := by decide +kernel
  have hsum : y + 256 * z + (y + 256 * z) / 16 = y + y / 16 + 16 * (z % 16) + 256 * (z + z / 16) := by omega
  rw [bytes, hsum, and_rep (by omega) (by decide), hmask _ (by omega) _ (by omega), bytes, rep_one, bytes]

theorem stages_byte : ∀ y < 256, pairs 1 y < 256 ∧ groups 1 (pairs 1 y) ≤ 68 ∧ groups 1 (pairs 1 y) % 16 ≤ 4 ∧
    stages 1 y = bitSum 8 y ∧ stages 1 y ≤ 8 := by
  decide +kernel

theorem groups_mod_16 (n x : ℕ) : groups n (pairs n x) % 16 ≤ 4 := by
  cases n with
  | zero =>
    have hzero : groups 0 (pairs 0 x) = 0 := by
      simp only [groups, rep, and_zero]
    rw [hzero]
    exact zero_le _
  | succ n =>
    have hx : x = x % 256 + 256 * (x / 256) := (mod_add_div x 256).symm
    have hbyte := stages_byte (x % 256) (mod_lt _ (by decide))
    rw [hx, pairs_cons (mod_lt _ (by decide)), groups_cons hbyte.1]
    omega

theorem stages_cons (hy : y < 256) : stages (n + 1) (y + 256 * z) = bitSum 8 y + 256 * stages n z := by
  obtain ⟨h1, h2, -, h4, -⟩ := stages_byte y hy
  rw [← h4, stages, pairs_cons hy, groups_cons h1, bytes_cons h2 (groups_mod_16 n z), stages, stages]

theorem bitSum_cons (hy : y < 256) : bitSum (n + 8) (y + 256 * z) = bitSum 8 y + bitSum n z := by
  have hz : (y + 256 * z) / 2 / 2 / 2 / 2 / 2 / 2 / 2 / 2 = z := by omega
  simp only [bitSum]
  rw [hz]
  omega

theorem bitSum_byte_le (hy : y < 256) : bitSum 8 y ≤ 8 := by
  obtain ⟨-, -, -, h4, h5⟩ := stages_byte y hy
  rwa [h4] at h5

/-! ### All bytes -/

theorem exists_bytes {x : ℕ} (hx : x < 2 ^ 64) :
    ∃ a b c d e f g h : ℕ, a < 256 ∧ b < 256 ∧ c < 256 ∧ d < 256 ∧ e < 256 ∧ f < 256 ∧ g < 256 ∧ h < 256 ∧
    x = a + 256 * (b + 256 * (c + 256 * (d + 256 * (e + 256 * (f + 256 * (g + 256 * (h + 256 * 0))))))) := by
  refine ⟨x % 256, x / 2 ^ 8 % 256, x / 2 ^ 16 % 256, x / 2 ^ 24 % 256, x / 2 ^ 32 % 256, x / 2 ^ 40 % 256,
    x / 2 ^ 48 % 256, x / 2 ^ 56 % 256, ?_⟩
  omega

theorem gather_counts {a b c d e f g h : ℕ} (ha : a ≤ 8) (hb : b ≤ 8) (hc : c ≤ 8) (hd : d ≤ 8) (he : e ≤ 8)
    (hf : f ≤ 8) (hg : g ≤ 8) (hh : h ≤ 8) :
    (a + 256 * (b + 256 * (c + 256 * (d + 256 * (e + 256 * (f + 256 * (g + 256 * h))))))) * 0x0101010101010101 % 2 ^ 64
      / 2 ^ 56 = a + b + c + d + e + f + g + h := by
  obtain ⟨low, hlow⟩ : ∃ n, n = a + 2 ^ 8 * (a + b) + 2 ^ 16 * (a + b + c) + 2 ^ 24 * (a + b + c + d) +
    2 ^ 32 * (a + b + c + d + e) + 2 ^ 40 * (a + b + c + d + e + f) + 2 ^ 48 * (a + b + c + d + e + f + g) := ⟨_, rfl⟩
  obtain ⟨high, hhigh⟩ : ∃ n, n = (b + c + d + e + f + g + h) + 2 ^ 8 * (c + d + e + f + g + h) +
    2 ^ 16 * (d + e + f + g + h) + 2 ^ 24 * (e + f + g + h) + 2 ^ 32 * (f + g + h) + 2 ^ 40 * (g + h) + 2 ^ 48 * h :=
    ⟨_, rfl⟩
  have hproduct : (a + 256 * (b + 256 * (c + 256 * (d + 256 * (e + 256 * (f + 256 * (g + 256 * h))))))) *
      0x0101010101010101 = low + 2 ^ 56 * (a + b + c + d + e + f + g + h) + 2 ^ 64 * high := by
    rw [hlow, hhigh]
    ring
  have hlt : low < 2 ^ 56 := by omega
  rw [hproduct]
  clear hproduct hlow hhigh
  omega

theorem gather {x : ℕ} (hx : x < 2 ^ 64) :
    stages 8 x * 0x0101010101010101 % 2 ^ 64 / 2 ^ 56 = bitSum 64 x := by
  obtain ⟨a, b, c, d, e, f, g, h, ha, hb, hc, hd, he, hf, hg, hh, rfl⟩ := exists_bytes hx
  have hzero : ∀ x, stages 0 x = 0 := fun x => by simp only [stages, bytes, rep, and_zero]
  rw [stages_cons ha, stages_cons hb, stages_cons hc, stages_cons hd, stages_cons he, stages_cons hf, stages_cons hg,
    stages_cons hh, hzero, bitSum_cons ha, bitSum_cons hb, bitSum_cons hc, bitSum_cons hd, bitSum_cons he,
    bitSum_cons hf, bitSum_cons hg]
  have hlast : bitSum 8 (h + 256 * 0) = bitSum 8 h := rfl
  have hcounts := gather_counts (bitSum_byte_le ha) (bitSum_byte_le hb) (bitSum_byte_le hc) (bitSum_byte_le hd)
    (bitSum_byte_le he) (bitSum_byte_le hf) (bitSum_byte_le hg) (bitSum_byte_le hh)
  rw [hlast, mul_zero, add_zero, hcounts]
  omega

theorem bitSum_eq_sum (n x : ℕ) : bitSum n x = ∑ i ∈ Finset.range n, (x.testBit i).toNat := by
  induction n generalizing x with
  | zero => rfl
  | succ n ih =>
    rw [bitSum, ih, Finset.sum_range_succ', testBit_zero, add_comm]
    congr 1
    · refine Finset.sum_congr rfl fun i _ => ?_
      rw [testBit_succ]
    · rcases mod_two_eq_zero_or_one x with h | h <;> rw [h] <;> rfl

end Popcount
