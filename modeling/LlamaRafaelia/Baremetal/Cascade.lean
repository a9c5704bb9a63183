import LlamaRafaelia.Baremetal.Bitstack
import Mathlib.Tactic.Linarith
import Mathlib.Data.Int.ModEq

/-!
# The flip cascade

`raf_bitstack_flip_cascade` flips a bit, takes the next place from a hash, and so on.  The places are computed in
unsigned 64-bit arithmetic, with a sign test on the low 32 bits behind it.

* `moveIndex_eq_iff` - **a move is that of true modular arithmetic** unless it goes below zero and the size does not
  divide 2^64, or bit 31 of the new index is set;
* `flip_cascade_proper_iff` - **a cascade is proper exactly when no iteration slips**.
-/

namespace Baremetal

/-! ### The cascade -/

/-- A move by `step` forward and `back` back.  An index whose low 32 bits are a negative `int` is moved on by the
size. -/
def moveIndex (size current step back : ℕ) : ℕ :=
  let next := (current + step + (2 ^ 64 - back)) % 2 ^ 64 % size
  if 2 ^ 31 ≤ next % 2 ^ 32 then (next + size) % 2 ^ 64 else next

/-- The variables of the loop. -/
structure Cursor where
  state : BitstackState
  currentLayer : ℕ
  currentPos : ℕ
  affected : ℤ

namespace Cursor

/-- The first half of an iteration: the flip.  `affected` is an `int`. -/
def flipped (c : Cursor) : Cursor :=
  let result := c.state.flipSingle c.currentLayer c.currentPos
  { c with
    state := result.2
    affected := if result.1 = 0 then (c.affected + 1).bmod (2 ^ 32) else c.affected }

/-- `position_hash`, which is taken behind the flip. -/
def positionHash (c : Cursor) : BitVec 64 :=
  (BitVec.ofNat 64 c.currentLayer * 0x9E3779B97F4A7C15#64 + BitVec.ofNat 64 c.currentPos * 0x85EBCA6B#64) ^^^
    c.flipped.state.stateHash

/-- `position_hash & 0x3`. -/
def layerStep (c : Cursor) : ℕ := (c.positionHash &&& 0x3#64).toNat

/-- `(position_hash >> 8) % 16`. -/
def posStep (c : Cursor) : ℕ := (c.positionHash >>> 8).toNat % 16

def cascadeStep (c : Cursor) : Cursor :=
  { c.flipped with
    currentLayer := moveIndex c.state.numLayers c.currentLayer c.layerStep 1
    currentPos := moveIndex c.state.bitsPerLayer c.currentPos c.posStep 8 }

/-- The loop; `fuel` is what is left of `max_cascade`. -/
def cascadeLoop (initialLayer initialPos : ℕ) : ℕ → ℕ → Cursor → Cursor
  | 0, _, c => c
  | fuel + 1, step, c =>
    if 0 < step ∧ c.cascadeStep.currentLayer = initialLayer ∧ c.cascadeStep.currentPos = initialPos then c.cascadeStep
    else cascadeLoop initialLayer initialPos fuel (step + 1) c.cascadeStep

/-- What the variables are at the beginning of each iteration of the loop. -/
def iterations (initialLayer initialPos : ℕ) : ℕ → ℕ → Cursor → List Cursor
  | 0, _, _ => []
  | fuel + 1, step, c =>
    c :: if 0 < step ∧ c.cascadeStep.currentLayer = initialLayer ∧ c.cascadeStep.currentPos = initialPos then []
      else iterations initialLayer initialPos fuel (step + 1) c.cascadeStep

end Cursor

namespace BitstackState

def start (s : BitstackState) (initialLayer initialPos : ℕ) : Cursor := ⟨s, initialLayer, initialPos, 0⟩

/-- `raf_bitstack_flip_cascade`: what it returns, and the state that it leaves. -/
def flipCascade (s : BitstackState) (initialLayer initialPos maxCascade : ℕ) : ℤ × BitstackState :=
  if initialLayer ≥ s.numLayers ∨ initialPos ≥ s.bitsPerLayer ∨ maxCascade = 0 then (-1, s)
  else
    let c := Cursor.cascadeLoop initialLayer initialPos maxCascade 0 (s.start initialLayer initialPos)
    (c.affected, c.state)

def cascadeIterations (s : BitstackState) (initialLayer initialPos maxCascade : ℕ) : List Cursor :=
  Cursor.iterations initialLayer initialPos maxCascade 0 (s.start initialLayer initialPos)

end BitstackState

/-! ### Proper iterations -/

/-- What an iteration is meant to do. -/
structure ProperStep (c : Cursor) : Prop where
  layer_lt : c.currentLayer < c.state.numLayers
  pos_lt : c.currentPos < c.state.bitsPerLayer
  moves : ∃ d ≤ 3, ∃ e ≤ 15,
    (c.cascadeStep.currentLayer : ℤ) = (c.currentLayer + (d : ℕ) - 1 : ℤ) % c.state.numLayers ∧
    (c.cascadeStep.currentPos : ℤ) = (c.currentPos + (e : ℕ) - 8 : ℤ) % c.state.bitsPerLayer
  wraps : c.currentLayer = 0 → c.layerStep = 0 → c.cascadeStep.currentLayer = c.state.numLayers - 1
  flips : ∀ layer < c.state.numLayers, ∀ pos < c.state.bitsPerLayer, c.cascadeStep.state.bit layer pos =
    (c.state.bit layer pos ^^ decide (layer = c.currentLayer ∧ pos = c.currentPos))
  counts : c.cascadeStep.affected = c.affected + 1

/-- The moves of the iteration go not below zero, or the sizes divide 2^64, and no sign test is met. -/
structure NoSlip (c : Cursor) : Prop where
  layer_wrap : 1 ≤ c.currentLayer + c.layerStep ∨ c.state.numLayers ∣ 2 ^ 64
  layer_sign : (c.currentLayer + c.layerStep - 1 : ℤ) % c.state.numLayers % 2 ^ 32 < 2 ^ 31
  pos_wrap : 8 ≤ c.currentPos + c.posStep ∨ c.state.bitsPerLayer ∣ 2 ^ 64
  pos_sign : (c.currentPos + c.posStep - 8 : ℤ) % c.state.bitsPerLayer % 2 ^ 32 < 2 ^ 31
  count : c.affected + 1 < 2 ^ 31

/-! ### Moves -/

section

variable {size current step back : ℕ}

theorem signTest_eq_iff {r : ℕ} (hr : r < size) (hsize : size < 2 ^ 64) :
    (if 2 ^ 31 ≤ r % 2 ^ 32 then (r + size) % 2 ^ 64 else r) = r ↔ r % 2 ^ 32 < 2 ^ 31 := by
  split_ifs with h
  · constructor
    · intro heq
      omega
    · intro hlt
      omega
  · exact ⟨fun _ => Nat.not_le.mp h, fun _ => rfl⟩

theorem moveIndex_eq_of_next (hc : current < size) (hsize : size < 2 ^ 64)
    (hnext : (((current + step + (2 ^ 64 - back)) % 2 ^ 64 % size : ℕ) : ℤ) = (current + step - back : ℤ) % size) :
    (moveIndex size current step back : ℤ) = (current + step - back : ℤ) % size ↔
      (current + step - back : ℤ) % size % 2 ^ 32 < 2 ^ 31 := by
  have hlt : (current + step + (2 ^ 64 - back)) % 2 ^ 64 % size < size := Nat.mod_lt _ (by omega)
  have hiff := signTest_eq_iff hlt hsize
  rw [← hnext, Int.natCast_inj, moveIndex]
  rw [hiff]
  omega

theorem moveIndex_eq_iff (hc : current < size) (hback : size + back ≤ 2 ^ 64) (hpos : 0 < back)
    (hsum : current + step < 2 ^ 64) :
    (moveIndex size current step back : ℤ) = (current + step - back : ℤ) % size ↔
      (back ≤ current + step ∨ size ∣ 2 ^ 64) ∧ (current + step - back : ℤ) % size % 2 ^ 32 < 2 ^ 31 := by
  by_cases hle : back ≤ current + step
  · -- the unsigned arithmetic does not go below zero
    have hnat : (current + step + (2 ^ 64 - back)) % 2 ^ 64 = current + step - back := by omega
    have hnext : (((current + step + (2 ^ 64 - back)) % 2 ^ 64 % size : ℕ) : ℤ) =
        (current + step - back : ℤ) % size := by
      rw [hnat, Int.natCast_mod, Int.natCast_sub hle, Int.natCast_add]
    rw [moveIndex_eq_of_next hc (by omega) hnext]
    exact ⟨fun h => ⟨.inl hle, h⟩, fun h => h.2⟩
  have hnat : (current + step + (2 ^ 64 - back)) % 2 ^ 64 = 2 ^ 64 - (back - (current + step)) := by omega
  have hcast : ((2 ^ 64 - (back - (current + step)) : ℕ) : ℤ) = (current + step - back : ℤ) + 2 ^ 64 := by omega
  have hmod : (((current + step + (2 ^ 64 - back)) % 2 ^ 64 % size : ℕ) : ℤ) =
      ((current + step - back : ℤ) + 2 ^ 64) % size := by
    rw [hnat, Int.natCast_mod, hcast]
  by_cases hdvd : size ∣ 2 ^ 64
  · have hnext : (((current + step + (2 ^ 64 - back)) % 2 ^ 64 % size : ℕ) : ℤ) =
        (current + step - back : ℤ) % size := by
      obtain ⟨k, hk⟩ := hdvd
      have hk' : (2 : ℤ) ^ 64 = size * k := by exact_mod_cast hk
      rw [hmod, hk', Int.add_mul_emod_self_left]
    rw [moveIndex_eq_of_next hc (by omega) hnext]
    exact ⟨fun h => ⟨.inr hdvd, h⟩, fun h => h.2⟩
  · -- it does, and the size does not divide 2^64
    refine ⟨fun h => ?_, fun h => absurd h.1 (not_or.mpr ⟨hle, hdvd⟩)⟩
    obtain ⟨r, hr⟩ : ∃ r, r = (current + step + (2 ^ 64 - back)) % 2 ^ 64 % size := ⟨_, rfl⟩
    have hmove : moveIndex size current step back = if 2 ^ 31 ≤ r % 2 ^ 32 then (r + size) % 2 ^ 64 else r := by
      rw [hr, moveIndex]
    have htrue : (current + step - back : ℤ) % size < size := Int.emod_lt_of_pos _ (by omega)
    rw [hmove] at h
    rw [← hr] at hmod
    by_cases hsign : 2 ^ 31 ≤ r % 2 ^ 32
    · rw [if_pos hsign] at h
      -- one size at least has been taken off, so that another one fits
      have hfit : r + size < 2 ^ 64 := by
        have hdiv := Nat.div_add_mod (2 ^ 64 - (back - (current + step))) size
        have hone : 1 ≤ (2 ^ 64 - (back - (current + step))) / size := (Nat.one_le_div_iff (by omega)).mpr (by omega)
        have hmul : size * 1 ≤ size * ((2 ^ 64 - (back - (current + step))) / size) := Nat.mul_le_mul_left _ hone
        rw [hnat] at hr
        omega
      rw [Nat.mod_eq_of_lt hfit] at h
      omega
    · rw [if_neg hsign] at h
      rw [h] at hmod
      have hzero : ((current + step - back : ℤ) + 2 ^ 64 - (current + step - back)) % size = 0 :=
        Int.emod_eq_emod_iff_emod_sub_eq_zero.mp hmod.symm
      rw [add_sub_cancel_left] at hzero
      exact absurd (by exact_mod_cast Int.dvd_of_emod_eq_zero hzero) hdvd

theorem moveIndex_mod_64 (hsize : size % 64 = 0) (hback : back ≤ 2 ^ 64) :
    (moveIndex size current step back : ℤ) % 64 = (current + step - back : ℤ) % 64 := by
  have hdvd : 64 ∣ size := Nat.dvd_of_mod_eq_zero hsize
  have hnext : ((current + step + (2 ^ 64 - back)) % 2 ^ 64 % size) % 64 = (current + step + (2 ^ 64 - back)) % 64 := by
    rw [Nat.mod_mod_of_dvd _ hdvd, Nat.mod_mod_of_dvd _ (by decide)]
  have hmove : moveIndex size current step back % 64 = (current + step + (2 ^ 64 - back)) % 64 := by
    rw [← hnext, moveIndex]
    split_ifs with h
    · rw [Nat.mod_mod_of_dvd _ (by decide), Nat.add_mod, hsize, Nat.add_zero, Nat.mod_mod]
    · rfl
  omega

end

/-! ### Iterations -/

namespace Cursor

theorem layerStep_le (c : Cursor) : c.layerStep ≤ 3 := by
  rw [layerStep, BitVec.toNat_and]
  exact Nat.and_le_right

theorem posStep_le (c : Cursor) : c.posStep ≤ 15 := Nat.le_of_lt_succ (Nat.mod_lt _ (by decide))

theorem flipped_eq {c : Cursor} (hlayer : c.currentLayer < c.state.numLayers)
    (hpos : c.currentPos < c.state.bitsPerLayer) :
    c.flipped = { c with
      state := c.state.flip c.currentLayer c.currentPos
      affected := (c.affected + 1).bmod (2 ^ 32) } := by
  rw [flipped, c.state.flipSingle_eq hlayer hpos]
  rfl

theorem bmod_succ_eq_iff {n : ℤ} (hn : 0 ≤ n) : (n + 1).bmod (2 ^ 32) = n + 1 ↔ n + 1 < 2 ^ 31 := by
  rw [Int.bmod_def]
  omega

end Cursor

open Cursor

theorem BitstackState.numLayers_lt (s : BitstackState) : s.numLayers < 2 ^ 61 := by
  have hwords : 1 ≤ s.bitsPerLayer / 64 := by
    have := s.bitsPerLayer_whole
    have := s.bitsPerLayer_pos
    omega
  have hmul : s.numLayers * 1 ≤ s.numLayers * (s.bitsPerLayer / 64) := Nat.mul_le_mul_left _ hwords
  have hfit := s.layers_fit
  rw [s.layers_length] at hfit
  omega

section

variable {c : Cursor} (hlayer : c.currentLayer < c.state.numLayers) (hpos : c.currentPos < c.state.bitsPerLayer)

include hlayer in
theorem layer_move_iff :
    ((∃ d ≤ 3, (c.cascadeStep.currentLayer : ℤ) = (c.currentLayer + (d : ℕ) - 1 : ℤ) % c.state.numLayers) ∧
        (c.currentLayer = 0 → c.layerStep = 0 → c.cascadeStep.currentLayer = c.state.numLayers - 1)) ↔
      (1 ≤ c.currentLayer + c.layerStep ∨ c.state.numLayers ∣ 2 ^ 64) ∧
        (c.currentLayer + c.layerStep - 1 : ℤ) % c.state.numLayers % 2 ^ 32 < 2 ^ 31 := by
  have hbound := c.state.numLayers_lt
  have hstep := c.layerStep_le
  have hback : c.state.numLayers + 1 ≤ 2 ^ 64 := by omega
  have hsum : c.currentLayer + c.layerStep < 2 ^ 64 := by omega
  have hmove := moveIndex_eq_iff hlayer hback Nat.one_pos hsum
  have hdef : c.cascadeStep.currentLayer = moveIndex c.state.numLayers c.currentLayer c.layerStep 1 := by
    rw [cascadeStep]
  rw [Nat.cast_one] at hmove
  rw [hdef, ← hmove]
  have hneg : (-1 : ℤ) % c.state.numLayers = c.state.numLayers - 1 := by
    rw [← Int.add_mul_emod_self_left (-1) c.state.numLayers 1, Int.mul_one]
    exact Int.emod_eq_of_lt (by omega) (by omega)
  constructor
  · rintro ⟨⟨d, hd, hmoved⟩, hwraps⟩
    by_cases hzero : c.currentLayer + c.layerStep = 0
    · -- the hash asks for the layer below the first one
      have h0 : c.currentLayer = 0 := by omega
      have h1 : c.layerStep = 0 := by omega
      rw [hwraps h0 h1, h0, h1, Int.natCast_sub (by omega)]
      exact hneg.symm
    · have hnat : (c.currentLayer + c.layerStep + (2 ^ 64 - 1)) % 2 ^ 64 = c.currentLayer + c.layerStep - 1 := by omega
      have hlt : moveIndex c.state.numLayers c.currentLayer c.layerStep 1 < c.state.numLayers := by
        have := Int.emod_lt_of_pos (c.currentLayer + (d : ℕ) - 1 : ℤ)
          (Int.natCast_pos.mpr (Nat.zero_lt_of_lt hlayer))
        omega
      have hrest : (c.currentLayer + c.layerStep - 1) % c.state.numLayers < c.state.numLayers :=
        Nat.mod_lt _ (Nat.zero_lt_of_lt hlayer)
      rw [moveIndex, hnat] at hlt ⊢
      split_ifs at hlt ⊢ with hsign
      · omega
      · rw [Int.natCast_mod, Int.natCast_sub (by omega), Int.natCast_add, Nat.cast_one]
  · intro h
    refine ⟨⟨c.layerStep, hstep, h⟩, fun h0 h1 => ?_⟩
    rw [h0, h1] at h ⊢
    have hval : ((0 : ℕ) + (0 : ℕ) - 1 : ℤ) = -1 := rfl
    rw [hval, hneg] at h
    omega

include hpos in
theorem pos_move_iff :
    (∃ e ≤ 15, (c.cascadeStep.currentPos : ℤ) = (c.currentPos + (e : ℕ) - 8 : ℤ) % c.state.bitsPerLayer) ↔
      (8 ≤ c.currentPos + c.posStep ∨ c.state.bitsPerLayer ∣ 2 ^ 64) ∧
        (c.currentPos + c.posStep - 8 : ℤ) % c.state.bitsPerLayer % 2 ^ 32 < 2 ^ 31 := by
  have hbound := c.state.bitsPerLayer_lt
  have hwhole := c.state.bitsPerLayer_whole
  have hstep := c.posStep_le
  have hback : c.state.bitsPerLayer + 8 ≤ 2 ^ 64 := by omega
  have hsum : c.currentPos + c.posStep < 2 ^ 64 := by omega
  have hmove := moveIndex_eq_iff hpos hback (by decide) hsum
  have hdef : c.cascadeStep.currentPos = moveIndex c.state.bitsPerLayer c.currentPos c.posStep 8 := by
    rw [cascadeStep]
  have hcast : ((8 : ℕ) : ℤ) = 8 := rfl
  rw [hcast] at hmove
  rw [hdef, ← hmove]
  constructor
  · rintro ⟨e, he, hmoved⟩
    -- whatever the arithmetic does, it keeps the place within a word, and so the step is that of the hash
    have hword := @moveIndex_mod_64 c.state.bitsPerLayer c.currentPos c.posStep 8 hwhole (by decide)
    have hdvd : (64 : ℤ) ∣ c.state.bitsPerLayer := by exact_mod_cast Nat.dvd_of_mod_eq_zero hwhole
    have hsame : e = c.posStep := by
      rw [hmoved, Int.emod_emod_of_dvd _ hdvd] at hword
      omega
    rw [hmoved, hsame]
  · exact fun h => ⟨c.posStep, hstep, h⟩

include hlayer hpos in
theorem properStep_iff (hcount : 0 ≤ c.affected) : ProperStep c ↔ NoSlip c := by
  have hflip := flipped_eq hlayer hpos
  have hstate : c.cascadeStep.state = c.state.flip c.currentLayer c.currentPos := congrArg Cursor.state hflip
  have haffected : c.cascadeStep.affected = (c.affected + 1).bmod (2 ^ 32) := congrArg Cursor.affected hflip
  have hmoves : (∃ d ≤ 3, ∃ e ≤ 15,
      (c.cascadeStep.currentLayer : ℤ) = (c.currentLayer + (d : ℕ) - 1 : ℤ) % c.state.numLayers ∧
      (c.cascadeStep.currentPos : ℤ) = (c.currentPos + (e : ℕ) - 8 : ℤ) % c.state.bitsPerLayer) ↔
      (∃ d ≤ 3, (c.cascadeStep.currentLayer : ℤ) = (c.currentLayer + (d : ℕ) - 1 : ℤ) % c.state.numLayers) ∧
        ∃ e ≤ 15, (c.cascadeStep.currentPos : ℤ) = (c.currentPos + (e : ℕ) - 8 : ℤ) % c.state.bitsPerLayer :=
    ⟨fun ⟨d, hd, e, he, h, h'⟩ => ⟨⟨d, hd, h⟩, e, he, h'⟩, fun ⟨⟨d, hd, h⟩, e, he, h'⟩ => ⟨d, hd, e, he, h, h'⟩⟩
  constructor
  · intro h
    obtain ⟨hd, he⟩ := hmoves.mp h.moves
    obtain ⟨h1, h2⟩ := (layer_move_iff hlayer).mp ⟨hd, h.wraps⟩
    obtain ⟨h3, h4⟩ := (pos_move_iff hpos).mp he
    exact ⟨h1, h2, h3, h4, (bmod_succ_eq_iff hcount).mp (haffected.symm.trans h.counts)⟩
  · intro h
    obtain ⟨hd, hwraps⟩ := (layer_move_iff hlayer).mpr ⟨h.layer_wrap, h.layer_sign⟩
    have he := (pos_move_iff hpos).mpr ⟨h.pos_wrap, h.pos_sign⟩
    refine ⟨hlayer, hpos, hmoves.mpr ⟨hd, he⟩, hwraps, fun layer hl pos hp => ?_, ?_⟩
    · rw [hstate]
      exact c.state.bit_flip hlayer hpos hl hp
    · rw [haffected]
      exact (bmod_succ_eq_iff hcount).mpr h.count

end

theorem ProperStep.next {c : Cursor} (h : ProperStep c) (hcount : 0 ≤ c.affected) :
    c.cascadeStep.currentLayer < c.cascadeStep.state.numLayers ∧
      c.cascadeStep.currentPos < c.cascadeStep.state.bitsPerLayer ∧ 0 ≤ c.cascadeStep.affected := by
  have hstate : c.cascadeStep.state = c.state.flip c.currentLayer c.currentPos :=
    congrArg Cursor.state (flipped_eq h.layer_lt h.pos_lt)
  obtain ⟨d, -, e, -, hlayer, hpos⟩ := h.moves
  have hl := Int.emod_lt_of_pos (c.currentLayer + (d : ℕ) - 1 : ℤ)
    (Int.natCast_pos.mpr (Nat.zero_lt_of_lt h.layer_lt))
  have hp := Int.emod_lt_of_pos (c.currentPos + (e : ℕ) - 8 : ℤ) (Int.natCast_pos.mpr (Nat.zero_lt_of_lt h.pos_lt))
  rw [hstate, BitstackState.flip_numLayers, BitstackState.flip_bitsPerLayer, h.counts]
  omega

/-! ### Cascades -/

theorem cascadeLoop_affected (initialLayer initialPos fuel step : ℕ) (c : Cursor)
    (h : ∀ x ∈ iterations initialLayer initialPos fuel step c, ProperStep x) :
    (cascadeLoop initialLayer initialPos fuel step c).affected =
      c.affected + (iterations initialLayer initialPos fuel step c).length := by
  induction fuel generalizing step c with
  | zero => exact (Int.add_zero _).symm
  | succ fuel ih =>
    have hc := (h c (List.mem_cons_self ..)).counts
    rw [cascadeLoop, iterations]
    split_ifs with hstop
    · rw [hc]
      rfl
    · have hrest := ih (step + 1) c.cascadeStep fun x hx => h x (by
        rw [iterations, if_neg hstop]
        exact List.mem_cons_of_mem _ hx)
      rw [hrest, hc, List.length_cons]
      omega

theorem iterations_proper_iff (initialLayer initialPos fuel step : ℕ) {c : Cursor}
    (hlayer : c.currentLayer < c.state.numLayers) (hpos : c.currentPos < c.state.bitsPerLayer)
    (hcount : 0 ≤ c.affected) :
    (∀ x ∈ iterations initialLayer initialPos fuel step c, ProperStep x) ↔
      ∀ x ∈ iterations initialLayer initialPos fuel step c, NoSlip x := by
  induction fuel generalizing step c with
  | zero => simp only [iterations, List.not_mem_nil, false_implies, implies_true]
  | succ fuel ih =>
    have hiff := properStep_iff hlayer hpos hcount
    rw [iterations, List.forall_mem_cons, List.forall_mem_cons, hiff]
    refine and_congr_right fun hslip => ?_
    obtain ⟨hlayer', hpos', hcount'⟩ := (hiff.mpr hslip).next hcount
    split_ifs with hstop
    · simp only [List.not_mem_nil, false_implies, implies_true]
    · exact ih (step + 1) hlayer' hpos' hcount'

/-- **A cascade is proper exactly when no iteration slips.** -/
theorem flip_cascade_proper_iff (s : BitstackState) {initialLayer initialPos maxCascade : ℕ}
    (hlayer : initialLayer < s.numLayers) (hpos : initialPos < s.bitsPerLayer) (hmax : 0 < maxCascade) :
    ((∀ c ∈ s.cascadeIterations initialLayer initialPos maxCascade, ProperStep c) ∧
        (s.flipCascade initialLayer initialPos maxCascade).1 =
          (s.cascadeIterations initialLayer initialPos maxCascade).length) ↔
      ∀ c ∈ s.cascadeIterations initialLayer initialPos maxCascade, NoSlip c := by
  have hiff := iterations_proper_iff initialLayer initialPos maxCascade 0 (c := s.start initialLayer initialPos) hlayer
    hpos le_rfl
  rw [BitstackState.cascadeIterations, ← hiff]
  refine ⟨And.left, fun h => ⟨h, ?_⟩⟩
  have haffected := cascadeLoop_affected _ _ _ _ _ h
  rw [BitstackState.flipCascade, if_neg (by omega)]
  exact haffected.trans (Int.zero_add _)

instance (c : Cursor) : Decidable (NoSlip c) :=
  decidable_of_iff
    ((1 ≤ c.currentLayer + c.layerStep ∨ c.state.numLayers ∣ 2 ^ 64) ∧
      (c.currentLayer + c.layerStep - 1 : ℤ) % c.state.numLayers % 2 ^ 32 < 2 ^ 31 ∧
      (8 ≤ c.currentPos + c.posStep ∨ c.state.bitsPerLayer ∣ 2 ^ 64) ∧
      (c.currentPos + c.posStep - 8 : ℤ) % c.state.bitsPerLayer % 2 ^ 32 < 2 ^ 31 ∧ c.affected + 1 < 2 ^ 31)
    ⟨fun ⟨h1, h2, h3, h4, h5⟩ => ⟨h1, h2, h3, h4, h5⟩, fun ⟨h1, h2, h3, h4, h5⟩ => ⟨h1, h2, h3, h4, h5⟩⟩

/-- Four layers: two iterations from layer 1. -/
theorem flip_cascade_proper_four :
    (∀ c ∈ (zeroLayers 4 (by decide)).cascadeIterations 1 20 2, ProperStep c) ∧
      ((zeroLayers 4 (by decide)).flipCascade 1 20 2).1 =
        ((zeroLayers 4 (by decide)).cascadeIterations 1 20 2).length :=
  (flip_cascade_proper_iff (zeroLayers 4 (by decide)) (by decide) (by decide) (by decide)).mpr (by decide +kernel)

/-- Six layers: from layer 0 the hash asks for the layer below, and the cascade goes to layer 3. -/
theorem six_layers_slip :
    ¬ ((∀ c ∈ (zeroLayers 6 (by decide)).cascadeIterations 0 16 1, ProperStep c) ∧
      ((zeroLayers 6 (by decide)).flipCascade 0 16 1).1 =
        ((zeroLayers 6 (by decide)).cascadeIterations 0 16 1).length) := by
  rintro ⟨hproper, -⟩
  have hstep : ((zeroLayers 6 (by decide)).start 0 16).layerStep = 0 := by decide +kernel
  have hslip := (properStep_iff (c := (zeroLayers 6 (by decide)).start 0 16) (by decide) (by decide) le_rfl).mp
    (hproper _ (List.mem_cons_self ..))
  rcases hslip.layer_wrap with h | h
  · rw [hstep] at h
    exact absurd h (by decide)
  · exact absurd h (by decide)

end Baremetal
