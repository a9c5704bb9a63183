import Mathlib.Data.Int.ModEq
import Mathlib.Data.List.Basic
import Mathlib.Tactic.Common
import Mathlib.Tactic.Linarith

/-!
# Toroidal grids

A toroid is an array whose coordinates wrap around in each dimension.  The number of cells and the index of a cell are
products of 32-bit words, and the wrapping takes the size for an `int32_t`.

* `toroid_faithful_iff` - **a toroid is faithful exactly when each size is at most 2^31 and their product below 2^32**.
-/

namespace Baremetal

open Nat List

/-! ### The grids -/

/-- `raf_toroid_wrap`.  The remainder of the least `int32_t` by -1 is undefined. -/
def wrap (coord : Int32) (size : UInt32) : Option UInt32 :=
  if size = 0 then some 0
  else if coord = Int32.minValue ∧ size.toInt32 = -1 then none
  else
    let result := coord % size.toInt32
    let result := if result < 0 then (result.toUInt32 + size).toInt32 else result
    some result.toUInt32

def readCell (data : List (BitVec 32)) (index : Option UInt32) : Option (BitVec 32) := do
  let i ← index
  data[i.toNat]?

def writeCell (data : List (BitVec 32)) (index : Option UInt32) (value : BitVec 32) : Option (List (BitVec 32)) := do
  let i ← index
  if i.toNat < data.length then some (data.set i.toNat value) else none

/-- `raf_toroid_2d`. -/
structure Toroid2d where
  data : List (BitVec 32)
  width : UInt32
  height : UInt32

namespace Toroid2d

/-- `raf_toroid_2d_create`; `memory` says whether the allocations succeed. -/
def create (width height : UInt32) (memory : Bool) : Option Toroid2d :=
  if width = 0 ∨ height = 0 then none
  else if memory then some ⟨replicate (width * height).toNat 0#32, width, height⟩
  else none

def index (width height : UInt32) (p : Int32 × Int32) : Option UInt32 := do
  let wrappedX ← wrap p.1 width
  let wrappedY ← wrap p.2 height
  some (wrappedY * width + wrappedX)

/-- `raf_toroid_2d_get`. -/
def get (t : Toroid2d) (x y : Int32) : Option (BitVec 32) := readCell t.data (index t.width t.height (x, y))

/-- `raf_toroid_2d_set`. -/
def set (t : Toroid2d) (x y : Int32) (value : BitVec 32) : Option Toroid2d := do
  let data ← writeCell t.data (index t.width t.height (x, y)) value
  some { t with data := data }

end Toroid2d

/-- `raf_toroid_3d`. -/
structure Toroid3d where
  data : List (BitVec 32)
  width : UInt32
  height : UInt32
  depth : UInt32

namespace Toroid3d

/-- `raf_toroid_3d_create`; `memory` says whether the allocations succeed. -/
def create (width height depth : UInt32) (memory : Bool) : Option Toroid3d :=
  if width = 0 ∨ height = 0 ∨ depth = 0 then none
  else if memory then some ⟨replicate (width * height * depth).toNat 0#32, width, height, depth⟩
  else none

def index (width height depth : UInt32) (p : Int32 × Int32 × Int32) : Option UInt32 := do
  let wrappedX ← wrap p.1 width
  let wrappedY ← wrap p.2.1 height
  let wrappedZ ← wrap p.2.2 depth
  some (wrappedZ * (width * height) + wrappedY * width + wrappedX)

/-- `raf_toroid_3d_get`. -/
def get (t : Toroid3d) (x y z : Int32) : Option (BitVec 32) :=
  readCell t.data (index t.width t.height t.depth (x, y, z))

/-- `raf_toroid_3d_set`. -/
def set (t : Toroid3d) (x y z : Int32) (value : BitVec 32) : Option Toroid3d := do
  let data ← writeCell t.data (index t.width t.height t.depth (x, y, z)) value
  some { t with data := data }

end Toroid3d

/-! ### Wrapping -/

theorem toInt_cond (x : Int32) :
    x.toInt = if 2 * x.toUInt32.toNat < 2 ^ 32 then (x.toUInt32.toNat : ℤ) else x.toUInt32.toNat - 2 ^ 32 :=
  BitVec.toInt_eq_toNat_cond x.toBitVec

theorem toInt32_cond (x : UInt32) :
    x.toInt32.toInt = if 2 * x.toNat < 2 ^ 32 then (x.toNat : ℤ) else x.toNat - 2 ^ 32 :=
  BitVec.toInt_eq_toNat_cond x.toBitVec

theorem wrap_value {coord : Int32} {size : UInt32} (hsize : size ≠ 0)
    (hdefined : ¬ (coord = Int32.minValue ∧ size.toInt32 = -1)) :
    ∃ w : UInt32, wrap coord size = some w ∧
      (w.toNat : ℤ) = if coord.toInt.tmod size.toInt32.toInt < 0
        then (coord.toInt.tmod size.toInt32.toInt + size.toNat) % 2 ^ 32 else coord.toInt.tmod size.toInt32.toInt := by
  obtain ⟨r, hr⟩ : ∃ r, r = coord % size.toInt32 := ⟨_, rfl⟩
  have hmod : r.toInt = coord.toInt.tmod size.toInt32.toInt := by
    rw [hr]
    exact BitVec.toInt_srem _ _
  have hwrap : wrap coord size = some (if r < 0 then (r.toUInt32 + size).toInt32 else r).toUInt32 := by
    rw [wrap, if_neg hsize, if_neg hdefined, hr]
  have hcond := toInt_cond r
  have hlt : r < 0 ↔ r.toInt < 0 := Int32.lt_iff_toInt_lt
  have hr32 : r.toUInt32.toNat < 2 ^ 32 := UInt32.toNat_lt _
  refine ⟨_, hwrap, ?_⟩
  rw [← hmod]
  by_cases hneg : r.toInt < 0
  · rw [if_pos hneg, if_pos (hlt.mpr hneg)]
    show ((r.toUInt32 + size).toNat : ℤ) = _
    rw [UInt32.toNat_add]
    split_ifs at hcond <;> omega
  · rw [if_neg hneg, if_neg (fun h => hneg (hlt.mp h))]
    split_ifs at hcond <;> omega

theorem wrap_eq (coord : Int32) {size : UInt32} (hpos : 0 < size.toNat) (hle : size.toNat ≤ 2 ^ 31) :
    ∃ w : UInt32, wrap coord size = some w ∧ (w.toNat : ℤ) = coord.toInt % size.toNat := by
  have hsize : size ≠ 0 := by
    rintro rfl
    exact absurd hpos (by decide)
  have hcond := toInt32_cond size
  have hsigned : size.toInt32.toInt = size.toNat ∨ size.toInt32.toInt = -(size.toNat : ℤ) := by
    split_ifs at hcond <;> omega
  have hdefined : ¬ (coord = Int32.minValue ∧ size.toInt32 = -1) := by
    rintro ⟨-, h⟩
    have hone : size.toInt32.toInt = -1 := by
      rw [h]
      rfl
    split_ifs at hcond <;> omega
  obtain ⟨w, hw, hval⟩ := wrap_value hsize hdefined
  refine ⟨w, hw, ?_⟩
  have htmod : coord.toInt.tmod size.toInt32.toInt = coord.toInt.tmod size.toNat := by
    rcases hsigned with h | h
    · rw [h]
    · rw [h, Int.tmod_neg]
  have hlow := Int.emod_nonneg coord.toInt (Int.natCast_ne_zero.mpr (ne_of_gt hpos))
  have hhigh := Int.emod_lt_of_pos coord.toInt (Int.natCast_pos.mpr hpos)
  have hdvd : (size.toNat : ℤ) ∣ coord.toInt ↔ coord.toInt % size.toNat = 0 := Int.dvd_iff_emod_eq_zero
  have hrem := Int.tmod_eq_emod (a := coord.toInt) (b := size.toNat)
  simp only [hdvd, Int.natAbs_natCast] at hrem
  rw [hval, htmod]
  split_ifs at hrem ⊢ <;> omega

theorem wrap_zero (size : UInt32) : wrap 0 size = some 0 := by
  by_cases hsize : size = 0
  · rw [wrap, if_pos hsize]
  · have hdefined : ¬ ((0 : Int32) = Int32.minValue ∧ size.toInt32 = -1) := fun h => absurd h.1 (by decide)
    obtain ⟨w, hw, hval⟩ := wrap_value hsize hdefined
    have hzero : (0 : Int32).toInt = 0 := rfl
    rw [hzero, Int.zero_tmod, if_neg (by decide)] at hval
    rw [hw, UInt32.toNat_inj.mp (by exact_mod_cast hval : w.toNat = (0 : UInt32).toNat)]

/-- **A larger size is not**: a coordinate between zero and the size is taken for zero. -/
theorem wrap_large {size : UInt32} (h : 2 ^ 31 < size.toNat) :
    ∃ coord : Int32, wrap coord size = some 0 ∧ 0 < coord.toInt ∧ coord.toInt < size.toNat := by
  have hlt := UInt32.toNat_lt size
  have hcond := toInt32_cond size
  have hsize : size ≠ 0 := by
    rintro rfl
    exact absurd h (by decide)
  obtain ⟨coord, hcoord⟩ : ∃ coord : Int32, coord.toInt = 2 ^ 32 - size.toNat := by
    refine ⟨Int32.ofInt (2 ^ 32 - size.toNat), Int32.toInt_ofInt_of_le ?_ ?_⟩ <;> omega
  have hdefined : ¬ (coord = Int32.minValue ∧ size.toInt32 = -1) := by
    rintro ⟨rfl, -⟩
    rw [Int32.toInt_minValue] at hcoord
    omega
  obtain ⟨w, hw, hval⟩ := wrap_value hsize hdefined
  have hneg : size.toInt32.toInt = -coord.toInt := by
    split_ifs at hcond <;> omega
  rw [hneg, Int.tmod_neg, Int.tmod_self, if_neg (by decide)] at hval
  have hzero : w = 0 := UInt32.toNat_inj.mp (by exact_mod_cast hval)
  exact ⟨coord, by rw [hw, hzero], by omega, by omega⟩

/-! ### Faithful grids -/

/-- What a grid promises: every index is below the number of cells, and a cell that is written is read back at the
coordinates of the same place, and only there. -/
structure FaithfulGrid {P : Type} (same : P → P → Prop) (index : P → Option UInt32) (cells : ℕ)
    (get : List (BitVec 32) → P → Option (BitVec 32))
    (set : List (BitVec 32) → P → BitVec 32 → Option (List (BitVec 32))) : Prop where
  in_range : ∀ p, ∃ i, index p = some i ∧ i.toNat < cells
  set_get : ∀ data, data.length = cells → ∀ p value, ∃ data', set data p value = some data' ∧
    (∀ q, same p q → get data' q = some value) ∧ (∀ q, ¬ same p q → get data' q = get data q) ∧
    ∀ j, index p ≠ some j → data'[j.toNat]? = data[j.toNat]?

section

variable {P : Type} {same : P → P → Prop} {index : P → Option UInt32} {cells : ℕ}

/-- A grid is faithful exactly when its indices are below the number of cells and two coordinates have one index exactly
when they are those of one place. -/
theorem faithfulGrid_iff :
    FaithfulGrid same index cells (fun data p => readCell data (index p)) (fun data p => writeCell data (index p)) ↔
      (∀ p, ∃ i, index p = some i ∧ i.toNat < cells) ∧ ∀ p q, index p = index q ↔ same p q := by
  have hwrite : ∀ {data : List (BitVec 32)} {p : P} {i : UInt32} (value : BitVec 32), index p = some i →
      i.toNat < data.length → writeCell data (index p) value = some (data.set i.toNat value) := by
    intro data p i value hi hlt
    rw [hi]
    show (if i.toNat < data.length then _ else _) = _
    rw [if_pos hlt]
  have hread : ∀ {data : List (BitVec 32)} {p : P} {i : UInt32}, index p = some i →
      readCell data (index p) = data[i.toNat]? := by
    intro data p i hi
    rw [hi]
    rfl
  constructor
  · intro h
    refine ⟨h.in_range, fun p q => ?_⟩
    obtain ⟨i, hi, hlt⟩ := h.in_range p
    obtain ⟨j, hj, hlt'⟩ := h.in_range q
    -- one is written into a cell of a grid of zeros
    have hlen : (replicate cells 0#32).length = cells := length_replicate
    have hzero : readCell (replicate cells 0#32) (index q) = some 0#32 := by
      rw [hread hj, getElem?_replicate, if_pos hlt']
    obtain ⟨data', hset, hsame, hother, hrest⟩ := h.set_get (replicate cells 0#32) hlen p 1#32
    have hdata : data' = (replicate cells 0#32).set i.toNat 1#32 :=
      Option.some.inj (hset.symm.trans (hwrite 1#32 hi (by rw [hlen]; exact hlt)))
    constructor
    · intro heq
      by_contra hne
      have hone : readCell data' (index q) = some 1#32 := by
        rw [← heq, hread hi, hdata, getElem?_set_self (by rw [hlen]; exact hlt)]
      have hbad := (hother q hne).symm.trans hone
      rw [hzero] at hbad
      cases hbad
    · intro hpq
      by_contra hne
      have hbad := hrest j fun h => hne (h.trans hj.symm)
      have hone := hsame q hpq
      rw [← hread hj, ← hread hj, hzero] at hbad
      rw [hbad] at hone
      cases hone
  · intro ⟨hrange, hinj⟩
    refine ⟨hrange, fun data hlen p value => ?_⟩
    obtain ⟨i, hi, hlt⟩ := hrange p
    have hlt' : i.toNat < data.length := by
      rw [hlen]
      exact hlt
    refine ⟨data.set i.toNat value, hwrite value hi hlt', fun q hq => ?_, fun q hq => ?_, fun j hj => ?_⟩
    · rw [← (hinj p q).mpr hq, hread hi, getElem?_set_self hlt']
    · obtain ⟨j, hj, -⟩ := hrange q
      have hne : i.toNat ≠ j.toNat := by
        intro heq
        exact hq ((hinj p q).mp (hi.trans ((congrArg some (UInt32.toNat_inj.mp heq)).trans hj.symm)))
      rw [hread hj, hread hj, getElem?_set_ne hne]
    · have hne : i.toNat ≠ j.toNat := fun heq => hj (hi.trans (congrArg some (UInt32.toNat_inj.mp heq)))
      rw [getElem?_set_ne hne]

end

/-! ### Indices in three dimensions -/

theorem index_toNat (x y z w h : UInt32) :
    (z * (w * h) + y * w + x).toNat = (z.toNat * (w.toNat * h.toNat) + y.toNat * w.toNat + x.toNat) % 2 ^ 32 := by
  simp only [UInt32.toNat_add, UInt32.toNat_mul, add_mod, mul_mod, mod_mod]

theorem index_lt {x y z w h d : ℕ} (hx : x < w) (hy : y < h) (hz : z < d) : z * (w * h) + y * w + x < w * h * d := by
  have h1 : (y + 1) * w ≤ h * w := mul_le_mul_right _ hy
  have h2 : (z + 1) * (w * h) ≤ d * (w * h) := mul_le_mul_right _ hz
  rw [succ_mul] at h1 h2
  rw [mul_comm h w] at h1
  rw [mul_comm (w * h) d]
  omega

theorem index_inj {x y z x' y' z' w h : ℕ} (hx : x < w) (hy : y < h) (hx' : x' < w) (hy' : y' < h)
    (heq : z * (w * h) + y * w + x = z' * (w * h) + y' * w + x') : x = x' ∧ y = y' ∧ z = z' := by
  have hrow : y * w + x < w * h := by
    have hlt := index_lt hx hy one_pos
    rwa [zero_mul, zero_add, mul_one] at hlt
  have hrow' : y' * w + x' < w * h := by
    have hlt := index_lt hx' hy' one_pos
    rwa [zero_mul, zero_add, mul_one] at hlt
  have hsplit : ∀ {a b n : ℕ}, b < n → (a * n + b) / n = a ∧ (a * n + b) % n = b := by
    intro a b n hb
    rw [add_comm, add_mul_div_right _ _ (by omega), add_mul_mod_self_right, div_eq_of_lt hb,
      mod_eq_of_lt hb]
    exact ⟨zero_add a, rfl⟩
  rw [add_assoc, add_assoc] at heq
  have hz := hsplit (a := z) hrow
  have hz' := hsplit (a := z') hrow'
  rw [heq] at hz
  have hlow : y * w + x = y' * w + x' := hz.2.symm.trans hz'.2
  have hy1 := hsplit (a := y) hx
  have hy2 := hsplit (a := y') hx'
  rw [hlow] at hy1
  exact ⟨hy1.2.symm.trans hy2.2, hy1.1.symm.trans hy2.1, hz.1.symm.trans hz'.1⟩

theorem exists_index {w h d : ℕ} {n : ℕ} (hw : 0 < w) (hh : 0 < h) (hn : n < w * h * d) :
    ∃ x < w, ∃ y < h, ∃ z < d, z * (w * h) + y * w + x = n := by
  refine ⟨n % w, Nat.mod_lt _ hw, n / w % h, Nat.mod_lt _ hh, n / (w * h), Nat.div_lt_of_lt_mul hn, ?_⟩
  have h1 := Nat.div_add_mod n w
  have h2 := Nat.div_add_mod (n / w) h
  rw [Nat.div_div_eq_div_mul] at h2
  have h3 : n / (w * h) * (w * h) + n / w % h * w = n / w * w := by
    rw [mul_comm w h, ← mul_assoc, ← add_mul, mul_comm h w, mul_comm _ h, h2]
  rw [h3, mul_comm]
  exact h1

def SamePlace3d (w h d : UInt32) (p q : Int32 × Int32 × Int32) : Prop :=
  p.1.toInt ≡ q.1.toInt [ZMOD w.toNat] ∧ p.2.1.toInt ≡ q.2.1.toInt [ZMOD h.toNat] ∧
    p.2.2.toInt ≡ q.2.2.toInt [ZMOD d.toNat]

section

variable {w h d : UInt32}

theorem index3d_eq (hw : 0 < w.toNat) (hh : 0 < h.toNat) (hd : 0 < d.toNat) (hw' : w.toNat ≤ 2 ^ 31)
    (hh' : h.toNat ≤ 2 ^ 31) (hd' : d.toNat ≤ 2 ^ 31) (p : Int32 × Int32 × Int32) :
    ∃ i x y z : ℕ, x < w.toNat ∧ y < h.toNat ∧ z < d.toNat ∧ (x : ℤ) = p.1.toInt % w.toNat ∧
      (y : ℤ) = p.2.1.toInt % h.toNat ∧ (z : ℤ) = p.2.2.toInt % d.toNat ∧
      i = z * (w.toNat * h.toNat) + y * w.toNat + x ∧
      ∃ c : UInt32, Toroid3d.index w h d p = some c ∧ c.toNat = i % 2 ^ 32 := by
  obtain ⟨x, hx, hxval⟩ := wrap_eq p.1 hw hw'
  obtain ⟨y, hy, hyval⟩ := wrap_eq p.2.1 hh hh'
  obtain ⟨z, hz, hzval⟩ := wrap_eq p.2.2 hd hd'
  have hlt : ∀ {n : ℕ} {c : ℤ} {s : ℕ}, 0 < s → (n : ℤ) = c % s → n < s := by
    intro n c s hs hn
    have := Int.emod_lt_of_pos c (Int.natCast_pos.mpr hs)
    omega
  refine ⟨_, x.toNat, y.toNat, z.toNat, hlt hw hxval, hlt hh hyval, hlt hd hzval, hxval, hyval, hzval, rfl,
    z * (w * h) + y * w + x, ?_, index_toNat x y z w h⟩
  rw [Toroid3d.index, hx, hy, hz]
  rfl

theorem index3d_iff (hw : 0 < w.toNat) (hh : 0 < h.toNat) (hd : 0 < d.toNat) :
    ((∀ p, ∃ i, Toroid3d.index w h d p = some i ∧ i.toNat < (w * h * d).toNat) ∧
        ∀ p q, Toroid3d.index w h d p = Toroid3d.index w h d q ↔ SamePlace3d w h d p q) ↔
      w.toNat ≤ 2 ^ 31 ∧ h.toNat ≤ 2 ^ 31 ∧ d.toNat ≤ 2 ^ 31 ∧ w.toNat * h.toNat * d.toNat < 2 ^ 32 := by
  have hcells : (w * h * d).toNat = w.toNat * h.toNat * d.toNat % 2 ^ 32 := by
    simp only [UInt32.toNat_mul, mul_mod, mod_mod]
  have hzero : (0 : Int32).toInt = 0 := rfl
  constructor
  · intro ⟨hrange, hinj⟩
    -- a coordinate that is taken for zero is not at the place of zero
    have hsmall : ∀ {size : UInt32} {coord : Int32}, 0 < coord.toInt → coord.toInt < size.toNat →
        ¬ coord.toInt ≡ (0 : Int32).toInt [ZMOD size.toNat] := by
      intro size coord hpos hlt hmod
      rw [hzero, Int.ModEq, Int.zero_emod, Int.emod_eq_of_lt hpos.le hlt] at hmod
      omega
    have hw' : w.toNat ≤ 2 ^ 31 := by
      by_contra hlarge
      obtain ⟨coord, hwrap, hpos, hlt⟩ := wrap_large (not_le.mp hlarge)
      have heq : Toroid3d.index w h d (coord, 0, 0) = Toroid3d.index w h d (0, 0, 0) := by
        rw [Toroid3d.index, Toroid3d.index, hwrap, wrap_zero w]
      exact hsmall hpos hlt ((hinj _ _).mp heq).1
    have hh' : h.toNat ≤ 2 ^ 31 := by
      by_contra hlarge
      obtain ⟨coord, hwrap, hpos, hlt⟩ := wrap_large (not_le.mp hlarge)
      have heq : Toroid3d.index w h d (0, coord, 0) = Toroid3d.index w h d (0, 0, 0) := by
        rw [Toroid3d.index, Toroid3d.index, hwrap, wrap_zero h]
      exact hsmall hpos hlt ((hinj _ _).mp heq).2.1
    have hd' : d.toNat ≤ 2 ^ 31 := by
      by_contra hlarge
      obtain ⟨coord, hwrap, hpos, hlt⟩ := wrap_large (not_le.mp hlarge)
      have heq : Toroid3d.index w h d (0, 0, coord) = Toroid3d.index w h d (0, 0, 0) := by
        rw [Toroid3d.index, Toroid3d.index, hwrap, wrap_zero d]
      exact hsmall hpos hlt ((hinj _ _).mp heq).2.2
    refine ⟨hw', hh', hd', ?_⟩
    by_contra hlarge
    -- the number of cells has wrapped, and the cell of that number has coordinates
    have hless : w.toNat * h.toNat * d.toNat % 2 ^ 32 < w.toNat * h.toNat * d.toNat :=
      (mod_lt _ (by decide)).trans_le (not_lt.mp hlarge)
    obtain ⟨x, hx, y, hy, z, hz, hindex⟩ := exists_index hw hh hless
    have hcoord : ∀ {n : ℕ} {s : ℕ}, n < s → s ≤ 2 ^ 31 → ∃ c : Int32, c.toInt % s = n := by
      intro n s hn hs
      refine ⟨Int32.ofInt n, ?_⟩
      rw [Int32.toInt_ofInt_of_le (by omega) (by omega), Int.emod_eq_of_lt (by omega) (by omega)]
    obtain ⟨cx, hcx⟩ := hcoord hx hw'
    obtain ⟨cy, hcy⟩ := hcoord hy hh'
    obtain ⟨cz, hcz⟩ := hcoord hz hd'
    obtain ⟨i, x', y', z', -, -, -, hx', hy', hz', hi, c, hc, hval⟩ := index3d_eq hw hh hd hw' hh' hd' (cx, cy, cz)
    rw [hcx, Int.natCast_inj] at hx'
    rw [hcy, Int.natCast_inj] at hy'
    rw [hcz, Int.natCast_inj] at hz'
    rw [hx', hy', hz', hindex] at hi
    rw [hi, mod_mod] at hval
    obtain ⟨c', hc', hlt⟩ := hrange (cx, cy, cz)
    rw [Option.some.inj (hc'.symm.trans hc), hval, hcells] at hlt
    exact absurd hlt (lt_irrefl _)
  · intro ⟨hw', hh', hd', hfit⟩
    refine ⟨fun p => ?_, fun p q => ?_⟩
    · obtain ⟨i, x, y, z, hx, hy, hz, -, -, -, hi, c, hc, hval⟩ := index3d_eq hw hh hd hw' hh' hd' p
      have hlt := index_lt hx hy hz
      refine ⟨c, hc, ?_⟩
      rw [hval, hcells, hi, mod_eq_of_lt hfit, mod_eq_of_lt (hlt.trans hfit)]
      exact hlt
    · obtain ⟨i, x, y, z, hx, hy, hz, hxv, hyv, hzv, hi, c, hc, hval⟩ := index3d_eq hw hh hd hw' hh' hd' p
      obtain ⟨j, x', y', z', hx', hy', hz', hxv', hyv', hzv', hj, c', hc', hval'⟩ := index3d_eq hw hh hd hw' hh' hd' q
      have hi' : i % 2 ^ 32 = i := mod_eq_of_lt (by rw [hi]; exact (index_lt hx hy hz).trans hfit)
      have hj' : j % 2 ^ 32 = j := mod_eq_of_lt (by rw [hj]; exact (index_lt hx' hy' hz').trans hfit)
      rw [hc, hc', Option.some_inj, ← UInt32.toNat_inj, hval, hval', hi', hj', SamePlace3d, Int.ModEq, Int.ModEq,
        Int.ModEq, ← hxv, ← hyv, ← hzv, ← hxv', ← hyv', ← hzv', Int.natCast_inj, Int.natCast_inj, Int.natCast_inj, hi,
        hj]
      constructor
      · exact fun heq => index_inj hx hy hx' hy' heq
      · rintro ⟨rfl, rfl, rfl⟩
        rfl

end

/-! ### Two dimensions -/

def SamePlace2d (w h : UInt32) (p q : Int32 × Int32) : Prop :=
  p.1.toInt ≡ q.1.toInt [ZMOD w.toNat] ∧ p.2.toInt ≡ q.2.toInt [ZMOD h.toNat]

section

variable {w h : UInt32}

theorem index2d_eq (p : Int32 × Int32) (z : Int32) : Toroid2d.index w h p = Toroid3d.index w h 1 (p.1, p.2, z) := by
  have hone : wrap z 1 = some 0 := by
    obtain ⟨c, hc, hval⟩ := wrap_eq z (by decide : 0 < (1 : UInt32).toNat) (by decide)
    have hmod : z.toInt % ((1 : UInt32).toNat : ℤ) = 0 := Int.emod_one _
    rw [hmod] at hval
    rw [hc, UInt32.toNat_inj.mp (by exact_mod_cast hval : c.toNat = (0 : UInt32).toNat)]
  rw [Toroid2d.index, Toroid3d.index, hone]
  cases wrap p.1 w with
  | none => rfl
  | some x =>
    cases wrap p.2 h with
    | none => rfl
    | some y =>
      show some (y * w + x) = some (0 * (w * h) + y * w + x)
      rw [UInt32.zero_mul, UInt32.zero_add]

theorem index2d_iff (hw : 0 < w.toNat) (hh : 0 < h.toNat) :
    ((∀ p, ∃ i, Toroid2d.index w h p = some i ∧ i.toNat < (w * h).toNat) ∧
        ∀ p q, Toroid2d.index w h p = Toroid2d.index w h q ↔ SamePlace2d w h p q) ↔
      w.toNat ≤ 2 ^ 31 ∧ h.toNat ≤ 2 ^ 31 ∧ w.toNat * h.toNat < 2 ^ 32 := by
  have hiff := index3d_iff (d := 1) hw hh (by decide)
  have hone : (1 : UInt32).toNat = 1 := rfl
  have hplace : ∀ p q : Int32 × Int32 × Int32, SamePlace3d w h 1 p q ↔ SamePlace2d w h (p.1, p.2.1) (q.1, q.2.1) := by
    intro p q
    have hz : p.2.2.toInt ≡ q.2.2.toInt [ZMOD (1 : UInt32).toNat] := Int.modEq_one
    exact ⟨fun h => ⟨h.1, h.2.1⟩, fun h => ⟨h.1, h.2, hz⟩⟩
  rw [UInt32.mul_one, hone, mul_one, and_iff_right (by decide : 1 ≤ 2 ^ 31)] at hiff
  rw [← hiff]
  constructor
  · intro ⟨hrange, hinj⟩
    refine ⟨fun p => ?_, fun p q => ?_⟩
    · rw [← index2d_eq (p.1, p.2.1)]
      exact hrange _
    · rw [← index2d_eq (p.1, p.2.1), ← index2d_eq (q.1, q.2.1), hplace]
      exact hinj _ _
  · intro ⟨hrange, hinj⟩
    refine ⟨fun p => ?_, fun p q => ?_⟩
    · rw [index2d_eq p 0]
      exact hrange _
    · rw [index2d_eq p 0, index2d_eq q 0, hinj]
      exact hplace _ _

end

/-! ### Toroids -/

/-- A toroid that `raf_toroid_2d_create` has made promises what a grid promises, whatever its cells hold. -/
def Toroid2d.Faithful (t : Toroid2d) : Prop :=
  FaithfulGrid (SamePlace2d t.width t.height) (Toroid2d.index t.width t.height) t.data.length
    (fun data p => ({ t with data := data } : Toroid2d).get p.1 p.2)
    (fun data p value => (({ t with data := data } : Toroid2d).set p.1 p.2 value).map Toroid2d.data)

/-- A toroid that `raf_toroid_3d_create` has made promises what a grid promises, whatever its cells hold. -/
def Toroid3d.Faithful (t : Toroid3d) : Prop :=
  FaithfulGrid (SamePlace3d t.width t.height t.depth) (Toroid3d.index t.width t.height t.depth) t.data.length
    (fun data p => ({ t with data := data } : Toroid3d).get p.1 p.2.1 p.2.2)
    (fun data p value => (({ t with data := data } : Toroid3d).set p.1 p.2.1 p.2.2 value).map Toroid3d.data)

theorem toNat_pos {n : UInt32} (h : n ≠ 0) : 0 < n.toNat :=
  pos_of_ne_zero fun hzero => h (UInt32.toNat_inj.mp hzero)

theorem faithful2d_iff {width height : UInt32} {memory : Bool} {t : Toroid2d}
    (h : Toroid2d.create width height memory = some t) :
    t.Faithful ↔ width.toNat ≤ 2 ^ 31 ∧ height.toNat ≤ 2 ^ 31 ∧ width.toNat * height.toNat < 2 ^ 32 := by
  rw [Toroid2d.create] at h
  split_ifs at h with hzero
  obtain ⟨hw, hh⟩ := not_or.mp hzero
  have ht := Option.some.inj h
  subst ht
  rw [← index2d_iff (toNat_pos hw) (toNat_pos hh), ← faithfulGrid_iff, Toroid2d.Faithful, length_replicate]
  have hset : (fun data (p : Int32 × Int32) value => ((⟨data, width, height⟩ : Toroid2d).set p.1 p.2 value).map
      Toroid2d.data) = fun data p => writeCell data (Toroid2d.index width height p) := by
    funext data p value
    show (writeCell data (Toroid2d.index width height p) value >>= _).map _ = _
    cases writeCell data (Toroid2d.index width height p) value <;> rfl
  show FaithfulGrid _ _ _ _ (fun data (p : Int32 × Int32) value => ((⟨data, width, height⟩ : Toroid2d).set p.1 p.2
    value).map Toroid2d.data) ↔ _
  rw [hset]
  exact Iff.rfl

theorem faithful3d_iff {width height depth : UInt32} {memory : Bool} {t : Toroid3d}
    (h : Toroid3d.create width height depth memory = some t) :
    t.Faithful ↔ width.toNat ≤ 2 ^ 31 ∧ height.toNat ≤ 2 ^ 31 ∧ depth.toNat ≤ 2 ^ 31 ∧
      width.toNat * height.toNat * depth.toNat < 2 ^ 32 := by
  rw [Toroid3d.create] at h
  split_ifs at h with hzero
  obtain ⟨hw, hrest⟩ := not_or.mp hzero
  obtain ⟨hh, hd⟩ := not_or.mp hrest
  have ht := Option.some.inj h
  subst ht
  rw [← index3d_iff (toNat_pos hw) (toNat_pos hh) (toNat_pos hd), ← faithfulGrid_iff, Toroid3d.Faithful,
    length_replicate]
  have hset : (fun data (p : Int32 × Int32 × Int32) value => ((⟨data, width, height, depth⟩ : Toroid3d).set p.1 p.2.1
      p.2.2 value).map Toroid3d.data) = fun data p => writeCell data (Toroid3d.index width height depth p) := by
    funext data p value
    show (writeCell data (Toroid3d.index width height depth p) value >>= _).map _ = _
    cases writeCell data (Toroid3d.index width height depth p) value <;> rfl
  show FaithfulGrid _ _ _ _ (fun data (p : Int32 × Int32 × Int32) value => ((⟨data, width, height, depth⟩ :
    Toroid3d).set p.1 p.2.1 p.2.2 value).map Toroid3d.data) ↔ _
  rw [hset]
  exact Iff.rfl

/-- **A toroid is faithful exactly when each size is at most 2^31 and their product below 2^32.** -/
theorem toroid_faithful_iff (width height : UInt32) (memory : Bool) :
    (∀ t, Toroid2d.create width height memory = some t →
      (t.Faithful ↔ width.toNat ≤ 2 ^ 31 ∧ height.toNat ≤ 2 ^ 31 ∧ width.toNat * height.toNat < 2 ^ 32)) ∧
    ∀ depth t, Toroid3d.create width height depth memory = some t →
      (t.Faithful ↔ width.toNat ≤ 2 ^ 31 ∧ height.toNat ≤ 2 ^ 31 ∧ depth.toNat ≤ 2 ^ 31 ∧
        width.toNat * height.toNat * depth.toNat < 2 ^ 32) :=
  ⟨fun _ h => faithful2d_iff h, fun _ _ h => faithful3d_iff h⟩

/-- Grids of ten by ten cells, and of four by four by four. -/
theorem toroid_faithful_ten :
    (∃ t, Toroid2d.create 10 10 true = some t ∧ t.Faithful) ∧ ∃ t, Toroid3d.create 4 4 4 true = some t ∧ t.Faithful :=
  ⟨⟨_, rfl, ((toroid_faithful_iff 10 10 true).1 _ rfl).mpr (by decide)⟩,
    ⟨_, rfl, ((toroid_faithful_iff 4 4 true).2 4 _ rfl).mpr (by decide)⟩⟩

/-- A grid of 65536 by 65537 cells: it is made with 65536 cells, and the second row lies behind them. -/
theorem cells_wrap : ∃ t, Toroid2d.create 65536 65537 true = some t ∧ ¬ t.Faithful := by
  have hcreate : Toroid2d.create 65536 65537 true =
      some ⟨replicate ((65536 : UInt32) * 65537).toNat 0#32, 65536, 65537⟩ := by
    rw [Toroid2d.create, if_neg (by decide), if_pos rfl]
  refine ⟨_, hcreate, fun h => ?_⟩
  have hfit := ((faithful2d_iff hcreate).mp h).2.2
  exact absurd hfit (by decide)

end Baremetal
