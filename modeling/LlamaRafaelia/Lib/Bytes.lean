import Mathlib.Data.List.GetD
import Mathlib.Data.List.Basic
import Mathlib.Tactic.Ring
import Mathlib.Tactic.Common

/-!
# Bytes: numbers of a fixed width, and pieces of a memory

`leBytes n x` are the `n` low bytes of `x`, and `leNat` reads them back.  A memory is a function from
addresses to bytes; `slice` reads a piece of it and `blit` writes one.  A piece of `m` rows of `r` bytes is
the rows one after the other (`slice_rows`), and writing rows puts each of them in its place
(`blit_row`).
-/

/-- The `n` low bytes of `x`, the lowest first. -/
def leBytes : ℕ → ℕ → List UInt8
  | 0, _ => []
  | n + 1, x => UInt8.ofNat x :: leBytes n (x / 256)

def leNat : List UInt8 → ℕ
  | [] => 0
  | b :: l => b.toNat + 256 * leNat l

@[simp] theorem leBytes_length (n x : ℕ) : (leBytes n x).length = n := by
  induction n generalizing x with
  | zero => rfl
  | succ n ih => rw [leBytes, List.length_cons, ih]

theorem leNat_leBytes (n x : ℕ) : leNat (leBytes n x) = x % 256 ^ n := by
  induction n generalizing x with
  | zero => simp [leBytes, leNat, Nat.mod_one]
  | succ n ih =>
    have hbyte : (UInt8.ofNat x).toNat = x % 256 := by simp
    rw [leBytes, leNat, ih, hbyte, Nat.pow_succ', Nat.mod_mul]

theorem leNat_lt (l : List UInt8) : leNat l < 256 ^ l.length := by
  induction l with
  | nil => simp [leNat]
  | cons b l ih =>
    have hb := b.toNat_lt
    rw [leNat, List.length_cons, Nat.pow_succ']
    omega

theorem leNat_leBytes_of_lt {n x : ℕ} (h : x < 256 ^ n) : leNat (leBytes n x) = x := by
  rw [leNat_leBytes, Nat.mod_eq_of_lt h]

theorem leBytes_leNat (l : List UInt8) : leBytes l.length (leNat l) = l := by
  induction l with
  | nil => rfl
  | cons b l ih =>
    have hb := b.toNat_lt
    have hlow : UInt8.ofNat (b.toNat + 256 * leNat l) = b := by
      apply UInt8.toNat_inj.mp
      simp
    have hhigh : (b.toNat + 256 * leNat l) / 256 = leNat l := by omega
    rw [List.length_cons, leNat, leBytes, hlow, hhigh, ih]

/-! ### Pieces of a memory -/

/-- The `n` bytes from `off` on. -/
def slice (mem : ℕ → UInt8) (off n : ℕ) : List UInt8 := (List.range n).map fun j => mem (off + j)

/-- The memory with the bytes `l` written from `off` on. -/
def blit (mem : ℕ → UInt8) (off : ℕ) (l : List UInt8) : ℕ → UInt8 := fun k =>
  if off ≤ k ∧ k < off + l.length then l.getD (k - off) 0 else mem k

@[simp] theorem slice_length (mem : ℕ → UInt8) (off n : ℕ) : (slice mem off n).length = n := by
  simp [slice]

theorem slice_getElem {mem : ℕ → UInt8} {off n j : ℕ} (h : j < (slice mem off n).length) :
    (slice mem off n)[j] = mem (off + j) := by
  simp [slice]

theorem slice_add (mem : ℕ → UInt8) (off m n : ℕ) :
    slice mem off (m + n) = slice mem off m ++ slice mem (off + m) n := by
  rw [slice, List.range_add, List.map_append, List.map_map, slice, slice]
  congr 1
  refine List.map_congr_left fun j _ => ?_
  rw [Function.comp_apply, Nat.add_assoc]

theorem slice_rows (mem : ℕ → UInt8) (base r a m : ℕ) :
    slice mem (base + a * r) (m * r) = (List.range' a m).flatMap fun i => slice mem (base + i * r) r := by
  induction m generalizing a with
  | zero => simp [slice]
  | succ m ih =>
    have hnext : base + a * r + r = base + (a + 1) * r := by ring
    rw [Nat.succ_mul, Nat.add_comm (m * r), slice_add, hnext, ih (a + 1), List.range'_succ, List.flatMap_cons]

theorem slice_congr {mem mem' : ℕ → UInt8} {off n : ℕ} (h : ∀ k, off ≤ k → k < off + n → mem k = mem' k) :
    slice mem off n = slice mem' off n := by
  refine List.map_congr_left fun j hj => ?_
  have := List.mem_range.mp hj
  exact h (off + j) (by omega) (by omega)

theorem slice_blit_of_disjoint {mem : ℕ → UInt8} {off off' n : ℕ} {l : List UInt8}
    (h : off' + n ≤ off ∨ off + l.length ≤ off') : slice (blit mem off l) off' n = slice mem off' n := by
  refine slice_congr fun k h1 h2 => ?_
  rw [blit, if_neg]
  omega

theorem slice_blit {mem : ℕ → UInt8} {off n a : ℕ} {l : List UInt8} (h : a + n ≤ l.length) :
    slice (blit mem off l) (off + a) n = (l.drop a).take n := by
  refine List.ext_getElem (by simp; omega) fun j h1 h2 => ?_
  rw [slice_length] at h1
  have hj : a + j < l.length := by omega
  rw [slice_getElem, blit, if_pos (by omega), List.getElem_take, List.getElem_drop,
    show off + a + j - off = a + j by omega, List.getD_eq_getElem _ _ hj]

theorem flatMap_length_of_rows {α : Type} {f : α → List UInt8} {r : ℕ} (hf : ∀ x, (f x).length = r)
    (l : List α) : (l.flatMap f).length = l.length * r := by
  induction l with
  | nil => simp
  | cons x l ih => rw [List.flatMap_cons, List.length_append, hf, ih, List.length_cons]; ring

theorem drop_flatMap_of_rows {α : Type} {f : α → List UInt8} {r : ℕ} (hf : ∀ x, (f x).length = r)
    (l : List α) (k : ℕ) : (l.flatMap f).drop (k * r) = (l.drop k).flatMap f := by
  induction k generalizing l with
  | zero => simp
  | succ k ih =>
    cases l with
    | nil => simp
    | cons x l =>
      have hsplit : (k + 1) * r = (f x).length + k * r := by rw [hf]; ring
      rw [List.flatMap_cons, hsplit, List.drop_append, List.drop_eq_nil_of_le (Nat.le_add_right _ _),
        Nat.add_sub_cancel_left, List.nil_append, ih, List.drop_succ_cons]

/-- **Writing rows**: row `k` of what was written is found at its place. -/
theorem blit_row {α : Type} {f : α → List UInt8} {r : ℕ} (hf : ∀ x, (f x).length = r) {l : List α}
    (mem : ℕ → UInt8) (off : ℕ) {k : ℕ} (hk : k < l.length) :
    slice (blit mem off (l.flatMap f)) (off + k * r) r = f (l.get ⟨k, hk⟩) := by
  have hle : k * r + r ≤ (l.flatMap f).length := by
    rw [flatMap_length_of_rows hf]
    calc k * r + r = (k + 1) * r := by ring
      _ ≤ l.length * r := Nat.mul_le_mul_right r hk
  rw [slice_blit hle, drop_flatMap_of_rows hf, List.drop_eq_getElem_cons hk, List.flatMap_cons,
    List.take_left' (hf _), List.get_eq_getElem]
