import Mathlib.Data.Nat.ModEq
import Mathlib.Data.Nat.Prime.Basic
import Mathlib.Order.Bounds.Basic
import Mathlib.Tactic.Linarith
import Mathlib.Tactic.Ring
import Mathlib.Data.UInt

/-!
# Powers and roots in words

`raf_modpow` squares and multiplies in 64-bit words and reduces after each product; `raf_isqrt` is Newton's iteration in
32-bit words.

* `modpowLoop_eq` - **for such a modulus the loop multiplies by the power**;
* `modpow_iff` - **for which exponents and moduli all powers are right**;
* `isqrtLoop_eq` - **the iteration ends at the root** when it starts at or above it.
-/

namespace Baremetal

open Nat

/-! ### The functions -/

theorem toNat_half (e : UInt64) : (e >>> 1).toNat = e.toNat / 2 := by
  rw [UInt64.toNat_shiftRight]
  exact shiftRight_eq_div_pow e.toNat 1

/-- The loop of `raf_modpow`. -/
def modpowLoop (mod result base exp : UInt64) : UInt64 :=
  if 0 < exp then
    modpowLoop mod (if exp &&& 1 ≠ 0 then result * base % mod else result) (base * base % mod) (exp >>> 1)
  else result
termination_by exp.toNat
decreasing_by
  have hpos : 0 < exp.toNat := UInt64.lt_iff_toNat_lt.mp ‹0 < exp›
  rw [toNat_half]
  exact div_lt_self hpos (by decide)

/-- `raf_modpow`. -/
def modpow (base exp mod : UInt64) : Option UInt64 :=
  if mod = 0 then none else some (modpowLoop mod 1 (base % mod) exp)

/-- The loop of `raf_isqrt`. -/
def isqrtLoop (n x y : UInt32) : Option UInt32 :=
  if y < x then
    if y = 0 then none else isqrtLoop n y ((y + n / y) / 2)
  else some x
termination_by x.toNat
decreasing_by exact UInt32.lt_iff_toNat_lt.mp ‹y < x›

/-- `raf_isqrt`. -/
def isqrt (n : UInt32) : Option UInt32 := if n = 0 then some 0 else isqrtLoop n n ((n + 1) / 2)

/-! ### Powers -/

def Lossless (m : ℕ) : Prop := m ≤ 2 ^ 32 ∨ m ∣ 2 ^ 64

theorem toNat_mul_mod {m a b : UInt64} (hm : Lossless m.toNat) (ha : a.toNat ≤ m.toNat) (hb : b.toNat < m.toNat) :
    (a * b % m).toNat = a.toNat * b.toNat % m.toNat := by
  rw [UInt64.toNat_mod, UInt64.toNat_mul]
  rcases hm with hsmall | hdvd
  · have ha' : a.toNat ≤ 2 ^ 32 := ha.trans hsmall
    have hb' : b.toNat ≤ 2 ^ 32 - 1 := by omega
    have hfit : a.toNat * b.toNat ≤ 2 ^ 32 * (2 ^ 32 - 1) := Nat.mul_le_mul ha' hb'
    have hfit' : a.toNat * b.toNat < 2 ^ 64 := hfit.trans_lt (by decide)
    rw [mod_eq_of_lt hfit']
  · exact mod_mod_of_dvd _ hdvd

theorem toNat_and_one (e : UInt64) : (e &&& 1).toNat = e.toNat % 2 := by
  rw [UInt64.toNat_and]
  exact and_one_is_mod _

theorem and_one_ne_zero (e : UInt64) : e &&& 1 ≠ 0 ↔ e.toNat % 2 = 1 := by
  rw [Ne, ← UInt64.toNat_inj, toNat_and_one]
  show ¬ e.toNat % 2 = 0 ↔ _
  omega

theorem pow_half (a b m e : ℕ) :
    (if e % 2 = 1 then a * b % m else a) * (b * b % m) ^ (e / 2) % m = a * b ^ e % m := by
  have hsquare : b * b % m ≡ b * b [MOD m] := mod_modEq _ _
  have hpow : (b * b % m) ^ (e / 2) ≡ b ^ (2 * (e / 2)) [MOD m] := by
    rw [pow_mul, pow_two]
    exact hsquare.pow _
  split_ifs with hodd
  · have hab : a * b % m ≡ a * b [MOD m] := mod_modEq _ _
    have hsucc : (2 * (e / 2)).succ = e := by omega
    have hall : a * b * b ^ (2 * (e / 2)) = a * b ^ e := by
      rw [Nat.mul_assoc, Nat.mul_comm b, ← Nat.pow_succ, hsucc]
    rw [← hall]
    exact hab.mul hpow
  · have heven : 2 * (e / 2) = e := by omega
    rw [heven] at hpow
    exact hpow.mul_left a

/-- **The loop multiplies by the power**, as soon as there is something to multiply by. -/
theorem modpowLoop_eq {m : UInt64} (hm : Lossless m.toNat) (hpos : 0 < m.toNat) (result base exp : UInt64)
    (hresult : result.toNat ≤ m.toNat) (hbase : base.toNat < m.toNat) :
    (modpowLoop m result base exp).toNat =
      if exp.toNat = 0 then result.toNat else result.toNat * base.toNat ^ exp.toNat % m.toNat := by
  fun_induction modpowLoop m result base exp with
  | case1 result base exp hexp ih =>
    simp only [dite_eq_ite] at ih
    have hexp' : 0 < exp.toNat := UInt64.lt_iff_toNat_lt.mp hexp
    have hodd := and_one_ne_zero exp
    have hnext : (if exp &&& 1 ≠ 0 then result * base % m else result).toNat =
        if exp.toNat % 2 = 1 then result.toNat * base.toNat % m.toNat else result.toNat := by
      simp only [hodd]
      split_ifs with h
      · exact toNat_mul_mod hm hresult hbase
      · rfl
    have hsquare : (base * base % m).toNat = base.toNat * base.toNat % m.toNat := toNat_mul_mod hm hbase.le hbase
    have hle : (if exp.toNat % 2 = 1 then result.toNat * base.toNat % m.toNat else result.toNat) ≤ m.toNat := by
      split_ifs
      · exact (mod_lt _ hpos).le
      · exact hresult
    have hih := ih (by rw [hnext]; exact hle) (by rw [hsquare]; exact mod_lt _ hpos)
    rw [hih, hnext, hsquare, toNat_half, if_neg (ne_of_gt hexp')]
    by_cases hone : exp.toNat / 2 = 0
    · -- the last bit
      have hlast : exp.toNat = 1 := by omega
      rw [if_pos hone, hlast, if_pos rfl, pow_one]
    · rw [if_neg hone]
      exact pow_half _ _ _ _
  | case2 result base exp hexp =>
    have hzero : exp.toNat = 0 := by
      have := UInt64.lt_iff_toNat_lt.not.mp hexp
      exact Nat.eq_zero_of_not_pos this
    rw [if_pos hzero]

theorem modpowLoop_zero (m result exp : UInt64) (hexp : 0 < exp) : modpowLoop m result 0 exp = 0 := by
  have hstay : ∀ (base result exp : UInt64), base = 0 → (0 < exp ∨ result = 0) → modpowLoop m result base exp = 0 := by
    intro base result exp
    fun_induction modpowLoop m result base exp with
    | case1 result base exp hexp ih =>
      rintro rfl -
      simp only [dite_eq_ite, UInt64.mul_zero, UInt64.zero_mod] at ih ⊢
      refine ih trivial ?_
      by_cases hodd : exp &&& 1 ≠ 0
      · exact .inr (if_pos hodd)
      · refine .inl (UInt64.lt_iff_toNat_lt.mpr ?_)
        rw [and_one_ne_zero] at hodd
        have hpos : 0 < exp.toNat := UInt64.lt_iff_toNat_lt.mp hexp
        rw [toNat_half]
        show 0 < exp.toNat / 2
        omega
    | case2 result base exp hexp =>
      rintro - (hpos | hzero)
      · exact absurd hpos hexp
      · exact hzero
  exact hstay 0 result exp rfl (.inl hexp)

/-- What `raf_modpow` should return. -/
def PowersRight (exp mod : UInt64) : Prop :=
  ∀ base : UInt64, ∃ r, modpow base exp mod = some r ∧ r.toNat = base.toNat ^ exp.toNat % mod.toNat

/-- The exponent and the modulus leave room for every product, and there is something to reduce. -/
def Roomy (exp mod : UInt64) : Prop :=
  (mod.toNat ≠ 1 ∨ exp.toNat ≠ 0) ∧ (exp.toNat ≤ 1 ∨ Lossless mod.toNat)

theorem modpow_eq (base exp : UInt64) {mod : UInt64} (hmod : mod.toNat ≠ 0) :
    modpow base exp mod = some (modpowLoop mod 1 (base % mod) exp) := by
  rw [modpow, if_neg]
  intro h
  exact hmod (congrArg UInt64.toNat h)

theorem modpowLoop_exp_zero (m result base : UInt64) {exp : UInt64} (hexp : exp.toNat = 0) :
    modpowLoop m result base exp = result := by
  rw [modpowLoop, if_neg]
  rw [UInt64.lt_iff_toNat_lt, hexp]
  exact lt_irrefl 0

theorem modpowLoop_exp_one (m base : UInt64) {exp : UInt64} (hexp : exp.toNat = 1) :
    modpowLoop m 1 base exp = base % m := by
  have hpos : 0 < exp := by
    rw [UInt64.lt_iff_toNat_lt, hexp]
    decide
  have hodd : exp &&& 1 ≠ 0 := by
    rw [and_one_ne_zero, hexp]
  rw [modpowLoop, if_pos hpos, if_pos hodd, UInt64.one_mul, modpowLoop_exp_zero]
  rw [toNat_half, hexp]

theorem powersRight_of_roomy {exp mod : UInt64} (hmod : mod.toNat ≠ 0) (h : Roomy exp mod) : PowersRight exp mod := by
  intro base
  refine ⟨_, modpow_eq base exp hmod, ?_⟩
  have hpos : 0 < mod.toNat := pos_of_ne_zero hmod
  by_cases hzero : exp.toNat = 0
  · have hone : mod.toNat ≠ 1 := h.1.resolve_right (fun hne => hne hzero)
    rw [modpowLoop_exp_zero _ _ _ hzero, hzero, pow_zero, mod_eq_of_lt (by omega)]
    rfl
  · by_cases hone : exp.toNat = 1
    · rw [modpowLoop_exp_one _ _ hone, hone, pow_one, UInt64.toNat_mod, UInt64.toNat_mod, mod_mod]
    · have hm : Lossless mod.toNat := h.2.resolve_left (by omega)
      have hbase : (base % mod).toNat < mod.toNat := by
        rw [UInt64.toNat_mod]
        exact mod_lt _ hpos
      rw [modpowLoop_eq hm hpos 1 _ _ hpos hbase, if_neg hzero, UInt64.toNat_mod]
      show 1 * (base.toNat % mod.toNat) ^ exp.toNat % mod.toNat = _
      rw [one_mul, ← pow_mod]

/-- **The base 2^32 shows it**: its square wraps to zero, while no power of it is divisible by the modulus. -/
theorem lossless_of_powersRight {exp mod : UInt64} (hexp : 2 ≤ exp.toNat) (h : PowersRight exp mod) :
    Lossless mod.toNat := by
  by_contra hlossy
  rw [Lossless, not_or, not_le] at hlossy
  obtain ⟨hlarge, hdvd⟩ := hlossy
  obtain ⟨r, hr, hpow⟩ := h (2 ^ 32)
  rw [modpow_eq _ _ (by omega)] at hr
  have hr := Option.some.inj hr
  have hbase : (2 ^ 32 : UInt64) % mod = 2 ^ 32 := by
    rw [← UInt64.toNat_inj, UInt64.toNat_mod]
    exact mod_eq_of_lt hlarge
  have hpos : 0 < exp := UInt64.lt_iff_toNat_lt.mpr (show 0 < exp.toNat by omega)
  have hhalf : (0 : UInt64) < exp >>> 1 := by
    rw [UInt64.lt_iff_toNat_lt, toNat_half]
    show 0 < exp.toNat / 2
    omega
  have hwrap : (2 ^ 32 * 2 ^ 32 % mod : UInt64) = 0 := by
    rw [show (2 ^ 32 * 2 ^ 32 : UInt64) = 0 from rfl, UInt64.zero_mod]
  rw [hbase, modpowLoop, if_pos hpos, hwrap, modpowLoop_zero _ _ _ hhalf] at hr
  rw [← hr] at hpow
  have hdiv : mod.toNat ∣ (2 ^ 32) ^ exp.toNat := dvd_of_mod_eq_zero hpow.symm
  rw [← pow_mul] at hdiv
  obtain ⟨k, -, hk⟩ := (dvd_prime_pow prime_two).mp hdiv
  have hlt : 2 ^ k < 2 ^ 64 := hk ▸ mod.toNat_lt
  have hk64 : k ≤ 64 := ((Nat.pow_lt_pow_iff_right (by decide)).mp hlt).le
  exact hdvd (hk ▸ pow_dvd_pow 2 hk64)

/-- **All powers are right exactly for a roomy exponent and modulus.** -/
theorem modpow_iff {exp mod : UInt64} (hmod : mod.toNat ≠ 0) : PowersRight exp mod ↔ Roomy exp mod := by
  refine ⟨fun h => ⟨?_, ?_⟩, powersRight_of_roomy hmod⟩
  · -- the power zero of anything is 0 to the modulus one, and the code returns one
    by_contra hboth
    rw [not_or, not_not, not_not] at hboth
    obtain ⟨r, hr, hpow⟩ := h 0
    rw [modpow_eq _ _ hmod, modpowLoop_exp_zero _ _ _ hboth.2] at hr
    rw [← Option.some.inj hr, hboth.1, mod_one] at hpow
    exact absurd hpow (by decide)
  · by_cases hexp : exp.toNat ≤ 1
    · exact .inl hexp
    · exact .inr (lossless_of_powersRight (by omega) h)

/-! ### Roots -/

/-- `r` is the integer square root of `n`. -/
def IsRoot (n r : ℕ) : Prop := IsGreatest {k : ℕ | k * k ≤ n} r

theorem isRoot_of_bounds {n r : ℕ} (hle : r * r ≤ n) (hlt : n < (r + 1) * (r + 1)) : IsRoot n r := by
  refine ⟨hle, ?_⟩
  intro k hk
  by_contra hgt
  have hsucc : r + 1 ≤ k := by omega
  have hmul : (r + 1) * (r + 1) ≤ k * k := Nat.mul_le_mul hsucc hsucc
  exact absurd (hlt.trans_le hmul) (not_lt.mpr hk)

theorem newton_above {n x : ℕ} (hx : 0 < x) : n < ((x + n / x) / 2 + 1) * ((x + n / x) / 2 + 1) := by
  set q := n / x with hq
  set y := (x + q) / 2 with hy
  have hn : n < x * (q + 1) := by
    have hdiv := div_add_mod n x
    have hmod := mod_lt n hx
    rw [mul_add, hq]
    omega
  have hmean : x + q + 1 ≤ 2 * (y + 1) := by omega
  -- four times the product of two numbers is at most the square of their sum
  have hsquare : 4 * (x * (q + 1)) ≤ (x + q + 1) * (x + q + 1) := by
    zify
    nlinarith [sq_nonneg ((x : ℤ) - (q + 1))]
  have hbound : (x + q + 1) * (x + q + 1) ≤ 2 * (y + 1) * (2 * (y + 1)) := Nat.mul_le_mul hmean hmean
  have hfour : 2 * (y + 1) * (2 * (y + 1)) = 4 * ((y + 1) * (y + 1)) := by ring
  omega

theorem newton_sum {n x : ℕ} (hx : 0 < x) (hxn : x ≤ n) : x + n / x ≤ n + 1 := by
  have hq : 0 < n / x := div_pos hxn hx
  have hmul : x * (n / x) ≤ n := mul_div_le n x
  obtain ⟨a, ha⟩ := exists_eq_succ_of_ne_zero (ne_of_gt hx)
  obtain ⟨b, hb⟩ := exists_eq_succ_of_ne_zero (ne_of_gt hq)
  rw [hb, ha] at hmul ⊢
  have hexpand : a.succ * b.succ = a * b + a + b + 1 := by
    rw [succ_eq_add_one, succ_eq_add_one]
    ring
  omega

/-- **The iteration ends at the root**, when it starts at or above it and the sums fit. -/
theorem isqrtLoop_eq {n : UInt32} (hfit : n.toNat < 2 ^ 32 - 1) (x y : UInt32) (hx : 0 < x.toNat) (hxn : x.toNat ≤ n.toNat)
    (hy : y.toNat = (x.toNat + n.toNat / x.toNat) / 2) (habove : n.toNat < (x.toNat + 1) * (x.toNat + 1)) :
    ∃ r, isqrtLoop n x y = some r ∧ IsRoot n.toNat r.toNat := by
  fun_induction isqrtLoop n x y with
  | case1 x hlt =>
    have hquot : 0 < n.toNat / x.toNat := div_pos hxn hx
    change 0 = _ at hy
    omega
  | case2 x y hlt hne ih =>
    have hlt' : y.toNat < x.toNat := UInt32.lt_iff_toNat_lt.mp hlt
    have hypos : 0 < y.toNat := by
      refine pos_of_ne_zero fun h => hne ?_
      rw [← UInt32.toNat_inj]
      exact h
    have hyn : y.toNat ≤ n.toNat := by omega
    have hsum := newton_sum hypos hyn
    refine ih hypos hyn ?_ (hy ▸ newton_above hx)
    rw [UInt32.toNat_div, UInt32.toNat_add, UInt32.toNat_div, mod_eq_of_lt (by omega)]
    rfl
  | case3 x y hge =>
    have hge' : x.toNat ≤ y.toNat := not_lt.mp (fun h => hge (UInt32.lt_iff_toNat_lt.mpr h))
    refine ⟨x, rfl, isRoot_of_bounds ?_ habove⟩
    have hle : x.toNat ≤ n.toNat / x.toNat := by omega
    exact (mul_le_mul_left _ hle).trans (mul_div_le _ _)

theorem isqrt_eq {n : UInt32} (hfit : n.toNat < 2 ^ 32 - 1) : ∃ r, isqrt n = some r ∧ IsRoot n.toNat r.toNat := by
  rw [isqrt]
  split_ifs with hzero
  · subst hzero
    exact ⟨0, rfl, isRoot_of_bounds (by decide) (by decide)⟩
  · have hpos : 0 < n.toNat := by
      refine pos_of_ne_zero fun h => hzero ?_
      rw [← UInt32.toNat_inj]
      exact h
    refine isqrtLoop_eq hfit n _ hpos (le_refl _) ?_ ?_
    · rw [UInt32.toNat_div, UInt32.toNat_add, Nat.div_self hpos]
      show (n.toNat + 1) % 2 ^ 32 / 2 = _
      rw [mod_eq_of_lt (by omega)]
    · have hmul : 1 * (n.toNat + 1) ≤ (n.toNat + 1) * (n.toNat + 1) := mul_le_mul_right _ (by omega)
      omega

theorem isqrt_last : isqrt 0xFFFFFFFF = none := by
  rw [isqrt, if_neg (by decide), isqrtLoop, if_pos (by decide), if_pos (by decide)]

/-- **What the two functions are meant to do, and when they do it.** -/
theorem modpow_isqrt_iff (exp mod : UInt64) (n : UInt32) :
    (mod.toNat ≠ 0 →
      ((∀ base : UInt64, ∃ r, modpow base exp mod = some r ∧ r.toNat = base.toNat ^ exp.toNat % mod.toNat) ↔
        (mod.toNat ≠ 1 ∨ exp.toNat ≠ 0) ∧ (exp.toNat ≤ 1 ∨ mod.toNat ≤ 2 ^ 32 ∨ mod.toNat ∣ 2 ^ 64))) ∧
      ((∃ r, isqrt n = some r ∧ IsGreatest {k : ℕ | k * k ≤ n.toNat} r.toNat) ↔ n.toNat ≠ 2 ^ 32 - 1) := by
  refine ⟨fun hmod => modpow_iff hmod, ?_, ?_⟩
  · rintro ⟨r, hr, -⟩ hlast
    have hn : n = 0xFFFFFFFF := by
      rw [← UInt32.toNat_inj, hlast]
      rfl
    rw [hn, isqrt_last] at hr
    cases hr
  · intro hne
    have hlt := n.toNat_lt
    exact isqrt_eq (by omega)

/-- A modulus of 33 bits and the exponent two: the base 2^32 gives 0, and its square leaves 1. -/
theorem modpow_isqrt_large : ¬ (∀ base : UInt64, ∃ r, modpow base 2 (2 ^ 32 + 1) = some r ∧
    r.toNat = base.toNat ^ 2 % (2 ^ 32 + 1)) := by
  intro h
  have hiff := (modpow_isqrt_iff 2 (2 ^ 32 + 1) 0).1 (by decide)
  exact absurd (hiff.mp h) (by decide)

/-- The largest word gets no root; one to the modulus one is not reduced; and the square of 2^32 wraps. -/
theorem last_root_divides_by_zero :
    (¬ ∃ r, isqrt 0xFFFFFFFF = some r ∧ IsGreatest {k : ℕ | k * k ≤ 0xFFFFFFFF} r.toNat) ∧
      modpow 0 0 1 = some 1 ∧ modpow (2 ^ 32) 2 (2 ^ 32 + 1) = some 0 ∧ (2 ^ 32) ^ 2 % (2 ^ 32 + 1) = 1 := by
  refine ⟨?_, ?_, ?_, by decide⟩
  · rintro ⟨r, hr, -⟩
    rw [isqrt_last] at hr
    cases hr
  · rw [modpow_eq _ _ (by decide), modpowLoop_exp_zero _ _ _ rfl]
  · rw [modpow_eq _ _ (by decide), modpowLoop, if_pos (by decide)]
    rw [show ((2 : UInt64) ^ 32 % (2 ^ 32 + 1)) * (2 ^ 32 % (2 ^ 32 + 1)) % (2 ^ 32 + 1) = 0 from by decide]
    rw [modpowLoop_zero _ _ _ (by decide)]

end Baremetal
