import Mathlib.Data.List.Basic
import Mathlib.Data.List.Count
import Mathlib.Data.List.Nodup
import Mathlib.Tactic.Common

/-!
# Lists of entries that are found by a key

Entries have a key, given by a function.  Looking up a key finds the first entry with it; removing a key removes that
entry and no other; an entry is put by removing its key and appending it.

Several entries may have one key.  A key is *lone* when at most one entry has it:

* `lookup_remove_self` - **a lone key that was removed is not found any more**.
-/

namespace Assoc

open List

variable {α κ : Type} [DecidableEq κ] (k : α → κ)

def lookup (key : κ) (l : List α) : Option α := l.find? fun a => decide (k a = key)

def remove (key : κ) (l : List α) : List α := l.eraseP fun a => decide (k a = key)

/-- The list with an entry put in the place of the first one with its key, at the end. -/
def put (a : α) (l : List α) : List α := remove k (k a) l ++ [a]

def Lone (key : κ) (l : List α) : Prop := (l.countP fun a => decide (k a = key)) ≤ 1

variable {k} {key key' : κ} {a b : α} {l : List α}

theorem remove_sublist : (remove k key l).Sublist l := eraseP_sublist

theorem mem_of_mem_put (h : b ∈ put k a l) : b = a ∨ b ∈ l := by
  rcases mem_append.mp h with h | h
  · exact .inr (remove_sublist.subset h)
  · exact .inl (mem_singleton.mp h)

theorem lookup_remove_of_ne (h : key' ≠ key) : lookup k key (remove k key' l) = lookup k key l := by
  induction l with
  | nil => rfl
  | cons c l ih =>
    by_cases hc : k c = key'
    · have hne : k c ≠ key := hc ▸ h
      rw [remove, eraseP_cons_of_pos (by simpa using hc)]
      simp [lookup, hne]
    · rw [remove, eraseP_cons_of_neg (by simpa using hc)]
      rw [lookup, find?_cons, lookup, find?_cons]
      rw [remove, lookup, lookup] at ih
      rw [ih]

theorem ne_of_mem_remove (h : Lone k key l) (hb : b ∈ remove k key l) : k b ≠ key := by
  induction l with
  | nil => cases hb
  | cons c l ih =>
    rw [Lone, countP_cons] at h
    by_cases hc : k c = key
    · rw [remove, eraseP_cons_of_pos (by simpa using hc)] at hb
      rw [if_pos (by simpa using hc)] at h
      have hzero : (l.countP fun a => decide (k a = key)) = 0 := by omega
      simpa using countP_eq_zero.mp hzero b hb
    · rw [remove, eraseP_cons_of_neg (by simpa using hc)] at hb
      rw [if_neg (by simpa using hc)] at h
      rcases mem_cons.mp hb with rfl | hb
      · exact hc
      · exact ih h hb

theorem lookup_remove_self (h : Lone k key l) : lookup k key (remove k key l) = none :=
  find?_eq_none.mpr fun b hb => by simpa using ne_of_mem_remove h hb

theorem lookup_put_of_ne (h : k a ≠ key) : lookup k key (put k a l) = lookup k key l := by
  have hlast : [a].find? (fun c => decide (k c = key)) = none := by simp [h]
  have hrest : lookup k key (remove k (k a) l) = lookup k key l := lookup_remove_of_ne h
  rw [lookup] at hrest
  rw [put, lookup, find?_append, hlast, Option.or_none, hrest]

theorem lookup_put_self (h : Lone k (k a) l) : lookup k (k a) (put k a l) = some a := by
  have hrest := lookup_remove_self h
  rw [lookup] at hrest
  rw [put, lookup, find?_append, hrest]
  simp

theorem countP_remove_le : ((remove k key' l).countP fun a => decide (k a = key)) ≤ l.countP fun a => decide (k a = key) :=
  remove_sublist.countP_le

theorem lone_put (h : Lone k key l) : Lone k key (put k a l) := by
  rw [Lone, put, countP_append]
  by_cases ha : k a = key
  · subst ha
    have hzero : ((remove k (k a) l).countP fun c => decide (k c = k a)) = 0 :=
      countP_eq_zero.mpr fun b hb => by simpa using ne_of_mem_remove h hb
    rw [hzero]
    simp
  · have hlast : ([a].countP fun c => decide (k c = key)) = 0 := by simp [ha]
    rw [hlast]
    exact Nat.le_trans countP_remove_le h

theorem lone_of_pairwise (h : l.Pairwise fun a b => k a ≠ k b) : Lone k key l := by
  induction l with
  | nil => exact Nat.zero_le _
  | cons c l ih =>
    obtain ⟨hc, hl⟩ := pairwise_cons.mp h
    rw [Lone, countP_cons]
    by_cases hkey : k c = key
    · have hzero : (l.countP fun a => decide (k a = key)) = 0 :=
        countP_eq_zero.mpr fun b hb => by
          have := hc b hb
          simp only [decide_eq_true_eq]
          rw [← hkey]
          exact this.symm
      rw [hzero]
      split <;> simp
    · rw [if_neg (by simpa using hkey)]
      exact ih hl

theorem mem_put_iff (h : Lone k (k a) l) : b ∈ put k a l ↔ b = a ∨ b ∈ l ∧ k b ≠ k a := by
  rw [put, mem_append, mem_singleton, or_comm]
  refine or_congr_right ⟨fun hb => ⟨remove_sublist.subset hb, ne_of_mem_remove h hb⟩, fun ⟨hb, hne⟩ => ?_⟩
  by_contra hnot
  rw [remove, mem_eraseP_of_neg (by simpa using hne)] at hnot
  exact hnot hb

theorem lookup_eq_some_iff (h : (l.map k).Nodup) : lookup k key l = some a ↔ a ∈ l ∧ k a = key := by
  constructor
  · intro hfind
    exact ⟨mem_of_find?_eq_some hfind, by simpa using find?_some hfind⟩
  · intro ⟨ha, hkey⟩
    cases hfind : lookup k key l with
    | none => exact absurd hkey (by simpa using find?_eq_none.mp hfind a ha)
    | some b =>
      have hb : b ∈ l ∧ k b = key := ⟨mem_of_find?_eq_some hfind, by simpa using find?_some hfind⟩
      rw [inj_on_of_nodup_map h hb.1 ha (hb.2.trans hkey.symm)]

theorem lookup_isSome_iff : (lookup k key l).isSome ↔ key ∈ l.map k := by
  rw [lookup, find?_isSome, mem_map]
  simp only [decide_eq_true_eq]

theorem lone_of_nodup (h : (l.map k).Nodup) : Lone k key l := lone_of_pairwise (pairwise_map.mp h)

theorem nodup_put (h : (l.map k).Nodup) : ((put k a l).map k).Nodup := by
  rw [put, map_append, map_singleton]
  refine (h.sublist (remove_sublist.map k)).append (nodup_singleton _) ?_
  intro key hkey hlast
  obtain ⟨b, hb, rfl⟩ := mem_map.mp hkey
  exact ne_of_mem_remove (lone_of_nodup h) hb (mem_singleton.mp hlast)

end Assoc
