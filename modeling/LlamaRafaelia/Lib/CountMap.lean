import Mathlib.Data.Finmap
import Mathlib.Data.Finset.Max
import Mathlib.Order.WithBot

/-!
# Counting maps: a `std::map<κ, int>` kept as a multiset of keys

`inc` is `m[k]++`, and `dec` is `--m[k]` with the entry erased at zero.  `Tracks m f`: the map is exactly the counting
function `f`, without entries for zero.
-/

/-- A `std::map` from keys to `int` counts. -/
abbrev CountMap (κ : Type) := Finmap (fun _ : κ => ℤ)

namespace CountMap

variable {κ : Type} [DecidableEq κ]

/-- `m[k]++`: a missing entry starts at zero. -/
def inc (m : CountMap κ) (k : κ) : CountMap κ := m.insert k ((m.lookup k).getD 0 + 1)

/-- Decrement an entry and erase it at zero.  A missing entry has nothing to decrement. -/
def dec (m : CountMap κ) (k : κ) : CountMap κ :=
  match m.lookup k with
  | none => m
  | some n => if n - 1 = 0 then m.erase k else m.insert k (n - 1)

/-- The map holds exactly the counts of `f`, and no entry with count zero. -/
def Tracks (m : CountMap κ) (f : κ → ℕ) : Prop :=
  ∀ k, m.lookup k = if f k = 0 then none else some (f k : ℤ)

theorem tracks_empty : Tracks (∅ : CountMap κ) (fun _ => 0) := by
  intro k
  simp

theorem Tracks.congr {m : CountMap κ} {f g : κ → ℕ} (h : Tracks m f) (hfg : ∀ k, f k = g k) :
    Tracks m g := by
  intro k
  rw [h k, hfg k]

theorem Tracks.unique {m m' : CountMap κ} {f : κ → ℕ} (h : Tracks m f) (h' : Tracks m' f) :
    m = m' :=
  Finmap.ext_lookup fun k => (h k).trans (h' k).symm

theorem Tracks.count_eq {m : CountMap κ} {f g : κ → ℕ} (h : Tracks m f) (h' : Tracks m g) (k : κ) :
    f k = g k := by
  have heq := (h k).symm.trans (h' k)
  split at heq <;> split at heq
  · omega
  · simp at heq
  · simp at heq
  · exact_mod_cast Option.some.inj heq

theorem Tracks.lookup_isSome {m : CountMap κ} {f : κ → ℕ} (h : Tracks m f) {k : κ} :
    (m.lookup k).isSome ↔ 0 < f k := by
  rw [h k]
  split <;> simp <;> omega

theorem Tracks.mem_keys {m : CountMap κ} {f : κ → ℕ} (h : Tracks m f) {k : κ} :
    k ∈ m.keys ↔ 0 < f k := by
  rw [Finmap.mem_keys, ← Finmap.lookup_isSome, h.lookup_isSome]

theorem Tracks.getD_lookup {m : CountMap κ} {f : κ → ℕ} (h : Tracks m f) (k : κ) :
    (m.lookup k).getD 0 = (f k : ℤ) := by
  rw [h k]
  split <;> simp_all

theorem Tracks.count_pos {m : CountMap κ} {f : κ → ℕ} (h : Tracks m f) {k : κ} (hk : k ∈ m.keys) :
    0 < (m.lookup k).getD 0 := by
  have hpos := h.mem_keys.mp hk
  rw [h k, if_neg (Nat.pos_iff_ne_zero.mp hpos), Option.getD_some]
  exact_mod_cast hpos

theorem Tracks.insert {m : CountMap κ} {f g : κ → ℕ} {k : κ} {n : ℤ} (h : Tracks m f) (hn : n = g k)
    (hpos : g k ≠ 0) (hne : ∀ j, j ≠ k → g j = f j) : Tracks (m.insert k n) g := by
  intro j
  by_cases hj : j = k
  · subst hj
    rw [Finmap.lookup_insert, if_neg hpos, hn]
  · rw [Finmap.lookup_insert_of_ne _ hj, h j, hne j hj]

theorem Tracks.inc {m : CountMap κ} {f g : κ → ℕ} {k : κ} (h : Tracks m f)
    (hk : g k = f k + 1) (hne : ∀ j, j ≠ k → g j = f j) : Tracks (inc m k) g := by
  refine h.insert ?_ (by omega) hne
  rw [h.getD_lookup, hk]
  push_cast
  rfl

theorem Tracks.dec {m : CountMap κ} {f g : κ → ℕ} {k : κ} (h : Tracks m f)
    (hk : f k = g k + 1) (hne : ∀ j, j ≠ k → g j = f j) : Tracks (dec m k) g := by
  have hlook : m.lookup k = some ((g k : ℤ) + 1) := by
    rw [h k, hk, if_neg (by omega)]
    push_cast
    rfl
  simp only [CountMap.dec, hlook, add_sub_cancel_right]
  by_cases hz : g k = 0
  · rw [if_pos (by exact_mod_cast hz)]
    intro j
    by_cases hj : j = k
    · subst hj
      rw [Finmap.lookup_erase, if_pos hz]
    · rw [Finmap.lookup_erase_ne hj, h j, hne j hj]
  · rw [if_neg (by exact_mod_cast hz)]
    exact h.insert rfl hz hne

theorem Tracks.inc_dec {m : CountMap κ} {f : κ → ℕ} (h : Tracks m f) (k : κ) :
    Tracks (CountMap.dec (CountMap.inc m k) k) f := by
  have hinc : Tracks (CountMap.inc m k) (fun j => f j + if j = k then 1 else 0) :=
    h.inc (by simp) fun j hj => by simp [hj]
  exact hinc.dec (by simp) fun j hj => by simp [hj]

/-! ### The first and the last key -/

variable {κ : Type} [LinearOrder κ]

/-- `m.begin()->first`, or `d` when the map is empty. -/
def firstKey (m : CountMap κ) (d : κ) : κ := m.keys.min.untopD d

/-- `m.rbegin()->first`, or `d` when the map is empty. -/
def lastKey (m : CountMap κ) (d : κ) : κ := m.keys.max.unbotD d

theorem firstKey_of_empty {m : CountMap κ} (d : κ) (h : m.keys = ∅) : firstKey m d = d := by
  rw [firstKey, h]
  rfl

theorem lastKey_of_empty {m : CountMap κ} (d : κ) (h : m.keys = ∅) : lastKey m d = d := by
  rw [lastKey, h]
  rfl

theorem firstKey_isLeast {m : CountMap κ} (d : κ) (h : m.keys.Nonempty) :
    IsLeast (m.keys : Set κ) (firstKey m d) := by
  rw [firstKey, ← Finset.coe_min' h]
  exact m.keys.isLeast_min' h

theorem lastKey_isGreatest {m : CountMap κ} (d : κ) (h : m.keys.Nonempty) :
    IsGreatest (m.keys : Set κ) (lastKey m d) := by
  rw [lastKey, ← Finset.coe_max' h]
  exact m.keys.isGreatest_max' h

end CountMap
