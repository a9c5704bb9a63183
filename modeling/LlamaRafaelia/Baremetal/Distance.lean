import LlamaRafaelia.Baremetal.Bitstack
import LlamaRafaelia.Lib.Popcount
import Mathlib.Algebra.BigOperators.Fin
import Mathlib.InformationTheory.Hamming

/-!
# The distance of two bitstacks

`raf_bitstack_calc_distance` adds up the one bits of the differences of all words, in a `size_t`.

* `calcDistance_eq` - **the distance is that of Hamming, modulo 2^64**;
* `calcDistance_hamming_iff` - **the distances of a shape are those of Hamming exactly when the shape has fewer than
  2^64 bits**.
-/

namespace Baremetal

open Finset BitVec Popcount

/-- `popcount64`. -/
def popcount64 (x : BitVec 64) : ℕ :=
  let x := x - ((x >>> 1) &&& 0x5555555555555555#64)
  let x := (x &&& 0x3333333333333333#64) + ((x >>> 2) &&& 0x3333333333333333#64)
  let x := (x + (x >>> 4)) &&& 0x0F0F0F0F0F0F0F0F#64
  ((x * 0x0101010101010101#64) >>> 56).toNat

namespace BitstackState

/-- `raf_bitstack_calc_distance`; the sum is a `size_t`. -/
def calcDistance (s t : BitstackState) : ℕ :=
  if s.numLayers ≠ t.numLayers ∨ s.bitsPerLayer ≠ t.bitsPerLayer then 0
  else
    (List.range (s.numLayers * (s.bitsPerLayer / 64))).foldl
      (fun distance i => (distance + popcount64 (s.layers.getD i 0#64 ^^^ t.layers.getD i 0#64)) % 2 ^ 64) 0

def SameShape (s t : BitstackState) : Prop := s.numLayers = t.numLayers ∧ s.bitsPerLayer = t.bitsPerLayer

def hammingOn (numLayers bitsPerLayer : ℕ) (s t : BitstackState) : ℕ :=
  hammingDist (fun p : Fin numLayers × Fin bitsPerLayer => s.bit p.1 p.2) (fun p => t.bit p.1 p.2)

def hamming (s t : BitstackState) : ℕ := hammingOn s.numLayers s.bitsPerLayer s t

end BitstackState

/-! ### The parallel count -/

theorem popcount64_eq (x : BitVec 64) : popcount64 x = bitSum 64 x.toNat := by
  have h55 : rep 0x55 8 = 0x5555555555555555 := rfl
  have h33 : rep 0x33 8 = 0x3333333333333333 := rfl
  have h0F : rep 0x0F 8 = 0x0F0F0F0F0F0F0F0F := rfl
  obtain ⟨a, ha⟩ : ∃ a, a = x - ((x >>> 1) &&& 0x5555555555555555#64) := ⟨_, rfl⟩
  obtain ⟨b, hb⟩ : ∃ b, b = (a &&& 0x3333333333333333#64) + ((a >>> 2) &&& 0x3333333333333333#64) := ⟨_, rfl⟩
  obtain ⟨c, hc⟩ : ∃ c, c = (b + (b >>> 4)) &&& 0x0F0F0F0F0F0F0F0F#64 := ⟨_, rfl⟩
  have hx := x.isLt
  have ha' : a.toNat = pairs 8 x.toNat := by
    have hle : x.toNat / 2 &&& 0x5555555555555555 ≤ x.toNat / 2 := Nat.and_le_left
    rw [ha, toNat_sub, toNat_and, toNat_ushiftRight, Nat.shiftRight_eq_div_pow, pairs,
      h55]
    show (2 ^ 64 - (x.toNat / 2 &&& 0x5555555555555555) + x.toNat) % 2 ^ 64 = _
    omega
  have hb' : b.toNat = groups 8 a.toNat := by
    have h1 : a.toNat &&& 0x3333333333333333 ≤ 0x3333333333333333 := Nat.and_le_right
    have h2 : a.toNat / 4 &&& 0x3333333333333333 ≤ 0x3333333333333333 := Nat.and_le_right
    rw [hb, toNat_add, toNat_and, toNat_and, toNat_ushiftRight, Nat.shiftRight_eq_div_pow,
      groups, h33]
    show ((a.toNat &&& 0x3333333333333333) + (a.toNat / 4 &&& 0x3333333333333333)) % 2 ^ 64 = _
    omega
  have hc' : c.toNat = bytes 8 b.toNat := by
    have h1 : a.toNat &&& 0x3333333333333333 ≤ 0x3333333333333333 := Nat.and_le_right
    have h2 : a.toNat / 4 &&& 0x3333333333333333 ≤ 0x3333333333333333 := Nat.and_le_right
    have hsmall : b.toNat + b.toNat / 16 < 2 ^ 64 := by
      rw [hb', groups, h33]
      omega
    rw [hc, toNat_and, toNat_add, toNat_ushiftRight, Nat.shiftRight_eq_div_pow, bytes,
      h0F]
    show (b.toNat + b.toNat / 16) % 2 ^ 64 &&& 0x0F0F0F0F0F0F0F0F = _
    rw [Nat.mod_eq_of_lt hsmall]
  have hdef : popcount64 x = ((c * 0x0101010101010101#64) >>> 56).toNat := by
    rw [hc, hb, ha]
    rfl
  rw [hdef, toNat_ushiftRight, toNat_mul, Nat.shiftRight_eq_div_pow, hc', hb', ha', ← gather hx]
  rfl

theorem popcount64_xor (x y : BitVec 64) :
    popcount64 (x ^^^ y) = ∑ i ∈ range 64, (x.getLsbD i ^^ y.getLsbD i).toNat := by
  rw [popcount64_eq, bitSum_eq_sum]
  refine sum_congr rfl fun i _ => ?_
  rw [testBit_toNat, getLsbD_xor]

/-! ### Sums -/

theorem sum_range_mul (f : ℕ → ℕ) (m n : ℕ) :
    ∑ i ∈ range (m * n), f i = ∑ l ∈ range m, ∑ q ∈ range n, f (l * n + q) := by
  induction m with
  | zero => rw [Nat.zero_mul, sum_range_zero, sum_range_zero]
  | succ m ih => rw [Nat.succ_mul, sum_range_add, ih, sum_range_succ]

theorem foldl_add_mod (f : ℕ → ℕ) (m n : ℕ) :
    (List.range n).foldl (fun sum i => (sum + f i) % m) 0 = (∑ i ∈ range n, f i) % m := by
  induction n with
  | zero => exact (Nat.zero_mod m).symm
  | succ n ih =>
    rw [List.range_succ, List.foldl_append, ih, sum_range_succ]
    show ((∑ i ∈ range n, f i) % m + f n) % m = _
    rw [Nat.mod_add_mod]

namespace BitstackState

/-! ### The distance -/

theorem hammingOn_eq_sum (numLayers bitsPerLayer : ℕ) (s t : BitstackState) :
    hammingOn numLayers bitsPerLayer s t =
      ∑ layer ∈ range numLayers, ∑ pos ∈ range bitsPerLayer,
        (s.bit layer pos ^^ t.bit layer pos).toNat := by
  have hbool : ∀ a b : Bool, (if a ≠ b then 1 else 0) = (a ^^ b).toNat := by decide
  rw [hammingOn, hammingDist, card_filter, Fintype.sum_prod_type, sum_range]
  refine sum_congr rfl fun layer _ => ?_
  rw [sum_range]
  exact sum_congr rfl fun pos _ => hbool _ _

theorem calcDistance_eq {s t : BitstackState} (h : SameShape s t) : s.calcDistance t = hamming s t % 2 ^ 64 := by
  have hwhole : s.bitsPerLayer = s.bitsPerLayer / 64 * 64 := by
    have := s.bitsPerLayer_whole
    omega
  have hbits : t.bitsPerLayer / 64 = s.bitsPerLayer / 64 := by rw [h.2]
  have hcond : ¬ (s.numLayers ≠ t.numLayers ∨ s.bitsPerLayer ≠ t.bitsPerLayer) := by
    rw [h.1, h.2]
    simp
  rw [calcDistance, if_neg hcond,
    foldl_add_mod (fun i => popcount64 (s.layers.getD i 0#64 ^^^ t.layers.getD i 0#64)), sum_range_mul, hamming,
    hammingOn_eq_sum]
  congr 1
  refine sum_congr rfl fun layer _ => ?_
  -- a layer word by word, and each word bit by bit
  have hrow := sum_range_mul (fun pos => (s.bit layer pos ^^ t.bit layer pos).toNat) (s.bitsPerLayer / 64) 64
  rw [← hwhole] at hrow
  rw [hrow]
  refine sum_congr rfl fun q _ => ?_
  rw [popcount64_xor]
  refine sum_congr rfl fun j hj => ?_
  have hj64 : j < 64 := mem_range.mp hj
  have hdiv : (q * 64 + j) / 64 = q := by omega
  have hmod : (q * 64 + j) % 64 = j := by omega
  rw [bit, bit, qwordIdx, qwordIdx, hdiv, hmod, hbits]

theorem hamming_comm {s t : BitstackState} (h : SameShape s t) : hamming s t = hamming t s := by
  rw [hamming, hamming, ← h.1, ← h.2, hammingOn, hammingOn, hammingDist_comm]

theorem hamming_triangle {s t u : BitstackState} (hst : SameShape s t) : hamming s u ≤ hamming s t + hamming t u := by
  rw [hamming, hamming, hamming, ← hst.1, ← hst.2]
  exact hammingDist_triangle _ _ _

theorem layers_ext {s t : BitstackState} (h : SameShape s t)
    (hbit : ∀ layer < s.numLayers, ∀ pos < s.bitsPerLayer, s.bit layer pos = t.bit layer pos) :
    s.layers = t.layers := by
  have hbits : t.bitsPerLayer / 64 = s.bitsPerLayer / 64 := by rw [h.2]
  have hlen : s.layers.length = t.layers.length := by
    rw [s.layers_length, t.layers_length, h.1, h.2]
  have hwhole := s.bitsPerLayer_whole
  have hpos := s.bitsPerLayer_pos
  refine List.ext_getElem hlen fun i hi hi' => ?_
  have hi2 : i < s.numLayers * (s.bitsPerLayer / 64) := by
    rw [← s.layers_length]
    exact hi
  have hlayer : i / (s.bitsPerLayer / 64) < s.numLayers := Nat.div_lt_of_lt_mul (by rwa [Nat.mul_comm])
  have hq : i % (s.bitsPerLayer / 64) < s.bitsPerLayer / 64 := Nat.mod_lt _ (by omega)
  refine eq_of_getLsbD_eq fun j hj => ?_
  have hp : i % (s.bitsPerLayer / 64) * 64 + j < s.bitsPerLayer := by omega
  have heq := hbit _ hlayer _ hp
  have hdiv : (i % (s.bitsPerLayer / 64) * 64 + j) / 64 = i % (s.bitsPerLayer / 64) := by omega
  have hmod : (i % (s.bitsPerLayer / 64) * 64 + j) % 64 = j := by omega
  have hidx : i / (s.bitsPerLayer / 64) * (s.bitsPerLayer / 64) + i % (s.bitsPerLayer / 64) = i := Nat.div_add_mod' _ _
  rw [bit, bit, qwordIdx, qwordIdx, hdiv, hmod, hbits, hidx, List.getD_eq_getElem _ _ hi,
    List.getD_eq_getElem _ _ hi'] at heq
  exact heq

/-- **The distance is zero exactly when the arrays are the same.** -/
theorem hamming_eq_zero {s t : BitstackState} (h : SameShape s t) : hamming s t = 0 ↔ s.layers = t.layers := by
  rw [hamming, hammingOn, hammingDist_eq_zero]
  constructor
  · intro heq
    exact layers_ext h fun layer hl pos hp => congrFun heq (⟨layer, hl⟩, ⟨pos, hp⟩)
  · intro heq
    funext p
    simp only [bit, qwordIdx, heq, h.2]

theorem hamming_le (s t : BitstackState) : hamming s t ≤ s.numLayers * s.bitsPerLayer := by
  have hle := hammingDist_le_card_fintype (x := fun p : Fin s.numLayers × Fin s.bitsPerLayer => s.bit p.1 p.2)
    (y := fun p => t.bit p.1 p.2)
  rwa [Fintype.card_prod, Fintype.card_fin, Fintype.card_fin] at hle

def fill (s : BitstackState) (w : BitVec 64) : BitstackState :=
  { s with
    layers := List.replicate s.layers.length w
    layers_length := List.length_replicate.trans s.layers_length
    layers_fit := (congrArg (8 * ·) List.length_replicate).trans_lt s.layers_fit }

theorem bit_fill (s : BitstackState) (w : BitVec 64) {layer pos : ℕ} (hlayer : layer < s.numLayers)
    (hpos : pos < s.bitsPerLayer) : (s.fill w).bit layer pos = w.getLsbD (pos % 64) := by
  have hidx : s.qwordIdx layer pos < s.layers.length := s.index_lt hlayer hpos
  have hget : (List.replicate s.layers.length w).getD (s.qwordIdx layer pos) 0#64 = w := by
    rw [List.getD_replicate _ hidx]
  show ((List.replicate s.layers.length w).getD (s.qwordIdx layer pos) 0#64).getLsbD (pos % 64) = _
  rw [hget]

theorem hamming_fill (s : BitstackState) :
    hamming (s.fill 0#64) (s.fill (allOnes 64)) = s.numLayers * s.bitsPerLayer := by
  have hbit : ∀ layer ∈ range s.numLayers, ∀ pos ∈ range s.bitsPerLayer,
      ((s.fill 0#64).bit layer pos ^^ (s.fill (allOnes 64)).bit layer pos).toNat = 1 := by
    intro layer hl pos hp
    rw [bit_fill s _ (mem_range.mp hl) (mem_range.mp hp),
      bit_fill s _ (mem_range.mp hl) (mem_range.mp hp), getLsbD_zero, getLsbD_allOnes,
      decide_eq_true (Nat.mod_lt _ (by decide))]
    rfl
  show hammingOn s.numLayers s.bitsPerLayer _ _ = _
  rw [hammingOn_eq_sum, sum_congr rfl fun layer hl => sum_congr rfl (hbit layer hl)]
  simp

/-- **The distances of a shape are those of Hamming exactly when the shape has fewer than 2^64 bits.** -/
theorem calcDistance_hamming_iff (s : BitstackState) :
    (∀ t u, SameShape s t → SameShape s u → t.calcDistance u = hamming t u) ↔
      s.numLayers * s.bitsPerLayer < 2 ^ 64 := by
  constructor
  · intro h
    have hfill := h (s.fill 0#64) (s.fill (allOnes 64)) ⟨rfl, rfl⟩ ⟨rfl, rfl⟩
    have hmod : (s.fill 0#64).calcDistance (s.fill (allOnes 64)) = _ % 2 ^ 64 := calcDistance_eq ⟨rfl, rfl⟩
    rw [hmod, hamming_fill] at hfill
    rw [← hfill]
    exact Nat.mod_lt _ (by decide)
  · intro h t u ht hu
    have hle := hamming_le t u
    rw [← ht.1, ← ht.2] at hle
    rw [calcDistance_eq ⟨ht.1.symm.trans hu.1, ht.2.symm.trans hu.2⟩, Nat.mod_eq_of_lt (hle.trans_lt h)]

end BitstackState

end Baremetal
