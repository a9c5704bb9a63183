import LlamaRafaelia.Lib.Bytes

/-!
# The bitstack

A bitstack is an array of 64-bit words: `num_layers` layers of `bits_per_layer` bits each.  The one operation on it is
the flip of one bit, after which the hash of the whole array is taken again.

* `BitstackState.bit_flip` - **a flip changes the bit that it is asked for and no other**.
-/

namespace Baremetal

open List

/-- `fnv1a_hash`. -/
def fnv1aHash (data : List UInt8) : BitVec 64 :=
  data.foldl (fun hash b => (hash ^^^ b.toBitVec.setWidth 64) * 0x100000001B3#64) 0xCBF29CE484222325#64

def wordBytes (layers : List (BitVec 64)) : List UInt8 := layers.flatMap fun w => leBytes 8 w.toNat

/-- `raf_bitstack_state`.  The array has the words that the two sizes ask for, and lies in memory. -/
structure BitstackState where
  numLayers : ℕ
  bitsPerLayer : ℕ
  layers : List (BitVec 64)
  flipCount : BitVec 32
  stateHash : BitVec 64
  numLayers_pos : 0 < numLayers
  bitsPerLayer_pos : 0 < bitsPerLayer
  bitsPerLayer_lt : bitsPerLayer < 2 ^ 64
  bitsPerLayer_whole : bitsPerLayer % 64 = 0
  layers_length : layers.length = numLayers * (bitsPerLayer / 64)
  layers_fit : 8 * layers.length < 2 ^ 64

namespace BitstackState

def qwordIdx (s : BitstackState) (layer bitPos : ℕ) : ℕ := layer * (s.bitsPerLayer / 64) + bitPos / 64

def bit (s : BitstackState) (layer bitPos : ℕ) : Bool :=
  (s.layers.getD (s.qwordIdx layer bitPos) 0#64).getLsbD (bitPos % 64)

def flip (s : BitstackState) (layer bitPos : ℕ) : BitstackState :=
  let layers := s.layers.modify (s.qwordIdx layer bitPos) (· ^^^ 1#64 <<< (bitPos % 64))
  { s with
    layers := layers
    flipCount := s.flipCount + 1#32
    stateHash := fnv1aHash (wordBytes layers)
    layers_length := (length_modify ..).trans s.layers_length
    layers_fit := (congrArg (8 * ·) (length_modify ..)).trans_lt s.layers_fit }

/-- `raf_bitstack_flip_single`: what it returns, and the state that it leaves. -/
def flipSingle (s : BitstackState) (layer bitPos : ℕ) : ℤ × BitstackState :=
  if layer ≥ s.numLayers ∨ bitPos ≥ s.bitsPerLayer then (-1, s) else (0, s.flip layer bitPos)

/-! ### Where the bits lie -/

theorem index_lt (s : BitstackState) {layer bitPos : ℕ} (hlayer : layer < s.numLayers)
    (hpos : bitPos < s.bitsPerLayer) : s.qwordIdx layer bitPos < s.layers.length := by
  have hword : bitPos / 64 < s.bitsPerLayer / 64 := by
    have := s.bitsPerLayer_whole
    omega
  have hrow : (layer + 1) * (s.bitsPerLayer / 64) ≤ s.numLayers * (s.bitsPerLayer / 64) :=
    Nat.mul_le_mul_right _ hlayer
  rw [s.layers_length, qwordIdx]
  rw [Nat.succ_mul] at hrow
  omega

theorem index_inj (s : BitstackState) {layer bitPos layer' bitPos' : ℕ} (hpos : bitPos < s.bitsPerLayer)
    (hpos' : bitPos' < s.bitsPerLayer) (h : s.qwordIdx layer bitPos = s.qwordIdx layer' bitPos')
    (hbit : bitPos % 64 = bitPos' % 64) : layer = layer' ∧ bitPos = bitPos' := by
  have hwhole := s.bitsPerLayer_whole
  have hword : bitPos / 64 < s.bitsPerLayer / 64 := by omega
  have hword' : bitPos' / 64 < s.bitsPerLayer / 64 := by omega
  have hquot : ∀ {l b : ℕ}, b / 64 < s.bitsPerLayer / 64 →
      s.qwordIdx l b / (s.bitsPerLayer / 64) = l ∧ s.qwordIdx l b % (s.bitsPerLayer / 64) = b / 64 := by
    intro l b hb
    rw [qwordIdx, Nat.add_comm, Nat.add_mul_div_right _ _ (by omega), Nat.add_mul_mod_self_right, Nat.div_eq_of_lt hb,
      Nat.mod_eq_of_lt hb]
    exact ⟨Nat.zero_add _, rfl⟩
  have h1 := hquot hword (l := layer)
  have h2 := hquot hword' (l := layer')
  rw [h] at h1
  exact ⟨h1.1.symm.trans h2.1, by omega⟩

/-! ### Flips -/

@[simp] theorem flip_numLayers (s : BitstackState) (layer bitPos : ℕ) :
    (s.flip layer bitPos).numLayers = s.numLayers := rfl

@[simp] theorem flip_bitsPerLayer (s : BitstackState) (layer bitPos : ℕ) :
    (s.flip layer bitPos).bitsPerLayer = s.bitsPerLayer := rfl

theorem flipSingle_eq (s : BitstackState) {layer bitPos : ℕ} (hlayer : layer < s.numLayers)
    (hpos : bitPos < s.bitsPerLayer) : s.flipSingle layer bitPos = (0, s.flip layer bitPos) := by
  rw [flipSingle, if_neg (not_or.mpr ⟨Nat.not_le.mpr hlayer, Nat.not_le.mpr hpos⟩)]

theorem oneBit_getLsbD {n : ℕ} (hn : n < 64) (i : ℕ) : (1#64 <<< n).getLsbD i = decide (i = n) := by
  rw [BitVec.getLsbD_shiftLeft, BitVec.getLsbD_one]
  by_cases h : i = n
  · subst h
    simp [hn]
  · rw [decide_eq_false h]
    by_cases hlt : i < n
    · simp [hlt]
    · have : i - n ≠ 0 := by omega
      simp [this]

/-- **A flip changes the bit that it is asked for and no other.** -/
theorem bit_flip (s : BitstackState) {layer bitPos : ℕ} (hlayer : layer < s.numLayers) (hpos : bitPos < s.bitsPerLayer)
    {layer' bitPos' : ℕ} (hlayer' : layer' < s.numLayers) (hpos' : bitPos' < s.bitsPerLayer) :
    (s.flip layer bitPos).bit layer' bitPos' =
      (s.bit layer' bitPos' ^^ decide (layer' = layer ∧ bitPos' = bitPos)) := by
  have hidx := s.index_lt hlayer' hpos'
  have hget : (s.flip layer bitPos).bit layer' bitPos' =
      ((s.layers.modify (s.qwordIdx layer bitPos) (· ^^^ 1#64 <<< (bitPos % 64))).getD (s.qwordIdx layer' bitPos')
        0#64).getLsbD (bitPos' % 64) := rfl
  rw [hget, bit]
  by_cases hword : s.qwordIdx layer bitPos = s.qwordIdx layer' bitPos'
  · rw [hword, getD_eq_getElem?_getD, getElem?_modify_eq, getD_eq_getElem?_getD,
      getElem?_eq_getElem hidx]
    show (s.layers[s.qwordIdx layer' bitPos'] ^^^ 1#64 <<< (bitPos % 64)).getLsbD (bitPos' % 64) = _
    rw [BitVec.getLsbD_xor, oneBit_getLsbD (Nat.mod_lt _ (by decide))]
    congr 1
    rw [decide_eq_decide]
    constructor
    · intro hbit
      exact s.index_inj hpos' hpos hword.symm hbit
    · rintro ⟨-, rfl⟩
      rfl
  · have hne : ¬ (layer' = layer ∧ bitPos' = bitPos) := by
      rintro ⟨rfl, rfl⟩
      exact hword rfl
    rw [getD_eq_getElem?_getD, getElem?_modify_ne _ _ hword, ← getD_eq_getElem?_getD,
      decide_eq_false hne, Bool.xor_false]

end BitstackState

def zeroLayers (numLayers : ℕ) (h : 0 < numLayers ∧ 8 * numLayers < 2 ^ 64) : BitstackState where
  numLayers := numLayers
  bitsPerLayer := 64
  layers := List.replicate numLayers 0#64
  flipCount := 0#32
  stateHash := fnv1aHash (wordBytes (List.replicate numLayers 0#64))
  numLayers_pos := h.1
  bitsPerLayer_pos := by decide
  bitsPerLayer_lt := by decide
  bitsPerLayer_whole := by decide
  layers_length := by rw [length_replicate, Nat.mul_one]
  layers_fit := by rw [length_replicate]; exact h.2

end Baremetal
