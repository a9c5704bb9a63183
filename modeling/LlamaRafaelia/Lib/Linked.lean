import Mathlib.Data.Nat.Notation
import Mathlib.Data.List.Nodup
import Mathlib.Logic.Function.Basic

/-!
# Doubly linked lists over an address space

A program keeps a list by storing in each node the address of its successor and of its predecessor.  The nodes
live anywhere: what makes them a list is that the pointers agree.  This file says so and nothing about what else
a node holds:

* `read` - the addresses a loop `for (p = head; p; p = p->next)` visits, which on a segment are its nodes.
-/

namespace Linked

open List Function

variable {ι : Type}

/-- The forward and the backward pointer of every address. -/
@[ext] structure Links (ι : Type) where
  next : ι → Option ι
  prev : ι → Option ι

/-- The address at which a segment is entered, `after` when it is empty. -/
def entry : List ι → Option ι → Option ι
  | [], after => after
  | i :: _, _ => some i

/-- The last address of a segment, `before` when it is empty. -/
def exit : Option ι → List ι → Option ι
  | before, [] => before
  | _, i :: ids => exit (some i) ids

@[simp] theorem entry_nil (after : Option ι) : entry [] after = after := rfl

@[simp] theorem entry_cons (i : ι) (ids : List ι) (after : Option ι) : entry (i :: ids) after = some i := rfl

@[simp] theorem exit_nil (before : Option ι) : exit before ([] : List ι) = before := rfl

@[simp] theorem exit_cons (before : Option ι) (i : ι) (ids : List ι) :
    exit before (i :: ids) = exit (some i) ids := rfl

theorem exit_concat (before : Option ι) (ids : List ι) (i : ι) : exit before (ids ++ [i]) = some i := by
  induction ids generalizing before with
  | nil => rfl
  | cons j ids ih => exact ih (some j)

/-- The nodes `ids` are linked both ways in this order, between `before` and `after`. -/
def Seg (L : Links ι) : Option ι → List ι → Option ι → Prop
  | _, [], _ => True
  | before, i :: ids, after => L.prev i = before ∧ L.next i = entry ids after ∧ Seg L (some i) ids after

namespace Seg

variable {L L' : Links ι} {before after : Option ι} {xs ys ids : List ι} {i j m : ι}

theorem append_iff :
    Seg L before (xs ++ ys) after ↔ Seg L before xs (entry ys after) ∧ Seg L (exit before xs) ys after := by
  induction xs generalizing before with
  | nil => simp [Seg]
  | cons x xs ih =>
    have hentry : entry (xs ++ ys) after = entry xs (entry ys after) := by
      cases xs with
      | nil => rfl
      | cons x' xs => rfl
    simp only [cons_append, Seg, ih, hentry, exit_cons, and_assoc]

theorem congr (h : Seg L before ids after) (hnext : ∀ i ∈ ids, L'.next i = L.next i)
    (hprev : ∀ i ∈ ids, L'.prev i = L.prev i) : Seg L' before ids after := by
  induction ids generalizing before with
  | nil => trivial
  | cons i ids ih =>
    obtain ⟨hp, hn, hrest⟩ := h
    have hp' : L'.prev i = before := (hprev i mem_cons_self).trans hp
    have hn' : L'.next i = entry ids after := (hnext i mem_cons_self).trans hn
    have hrest' : Seg L' (some i) ids after := by
      apply ih hrest
      · intro k hk
        exact hnext k (mem_cons_of_mem i hk)
      · intro k hk
        exact hprev k (mem_cons_of_mem i hk)
    exact ⟨hp', hn', hrest'⟩

theorem next_eq (h : Seg L before (xs ++ i :: ys) after) : L.next i = entry ys after := by
  rw [append_iff] at h
  exact h.2.2.1

theorem tail (h : Seg L before (xs ++ i :: ys) after) : Seg L (some i) ys after := by
  rw [append_iff] at h
  exact h.2.2.2

end Seg

theorem entry_ne_of_notMem {ids : List ι} {k : ι} (h : k ∉ ids) : entry ids none ≠ some k := by
  cases ids with
  | nil => simp
  | cons l ids =>
    rintro ⟨⟩
    exact h mem_cons_self

/-! ### Taking a node out and putting one in -/

section Updates

variable [DecidableEq ι]

/-- Store `i` in the back pointer of the node that the pointer names, if it names one. -/
def setPrev (prev : ι → Option ι) : Option ι → ι → ι → Option ι
  | none, _ => prev
  | some k, i => update prev k (some i)

/-- Take `j`, the successor of `i`, out of the list. -/
def unlink (L : Links ι) (i j : ι) : Links ι where
  next := update L.next i (L.next j)
  prev := setPrev L.prev (L.next j) i

/-- Put the fresh node `m` behind `i`. -/
def insertAfter (L : Links ι) (i m : ι) : Links ι where
  next := update (update L.next m (L.next i)) i (some m)
  prev := setPrev (update L.prev m (some i)) (L.next i) m

theorem setPrev_of_ne {prev : ι → Option ι} {target : Option ι} {i k : ι} (h : target ≠ some k) :
    setPrev prev target i k = prev k := by
  cases target with
  | none => rfl
  | some l =>
    apply update_of_ne
    intro hkl
    exact h (congrArg some hkl.symm)

theorem Seg.redirect {L : Links ι} {before : Option ι} {ids : List ι} {i : ι} {next prev : ι → Option ι}
    (h : Seg L before ids none) (hnd : ids.Nodup) (hnext : ∀ k ∈ ids, next k = L.next k)
    (hprev : ∀ k ∈ ids, prev k = L.prev k) : Seg ⟨next, setPrev prev (entry ids none) i⟩ (some i) ids none := by
  cases ids with
  | nil => trivial
  | cons k ids =>
    obtain ⟨-, hn, hrest⟩ := h
    rw [nodup_cons] at hnd
    refine ⟨update_self _ _ _, (hnext k mem_cons_self).trans hn, ?_⟩
    apply hrest.congr
    · intro l hl
      exact hnext l (mem_cons_of_mem k hl)
    · intro l hl
      have hne : some k ≠ some l := by
        rintro ⟨⟩
        exact hnd.1 hl
      exact (setPrev_of_ne hne).trans (hprev l (mem_cons_of_mem k hl))

variable {L : Links ι} {before : Option ι} {xs ys : List ι} {i j m : ι}

theorem Seg.unlink (h : Seg L before (xs ++ i :: j :: ys) none) (hnd : (xs ++ i :: j :: ys).Nodup) :
    Seg (unlink L i j) before (xs ++ i :: ys) none := by
  have hj : L.next j = entry ys none := by
    have h' : Seg L before ((xs ++ [i]) ++ j :: ys) none := by simpa using h
    exact h'.next_eq
  have hys : Seg L (some j) ys none := by
    have h' : Seg L before ((xs ++ [i]) ++ j :: ys) none := by simpa using h
    exact h'.tail
  have hdisj : ∀ k ∈ xs ++ [i], k ∉ ys := by
    intro k hk hky
    have hnd' : ((xs ++ [i]) ++ j :: ys).Nodup := by simpa using hnd
    exact (nodup_append.1 hnd').2.2 k hk k (mem_cons_of_mem j hky) rfl
  rw [Seg.append_iff] at h ⊢
  rw [nodup_append] at hnd
  obtain ⟨-, hndi, hdx⟩ := hnd
  rw [nodup_cons, nodup_cons] at hndi
  refine ⟨?_, ?_, update_self _ _ _ |>.trans hj, ?_⟩
  · apply h.1.congr
    · intro k hk
      exact update_of_ne (hdx k hk i mem_cons_self) _ _
    · intro k hk
      show setPrev L.prev (L.next j) i k = L.prev k
      rw [hj]
      exact setPrev_of_ne (entry_ne_of_notMem (hdisj k (by simp [hk])))
  · show setPrev L.prev (L.next j) i i = _
    rw [hj, setPrev_of_ne (entry_ne_of_notMem (hdisj i (by simp)))]
    exact h.2.1
  · show Seg ⟨update L.next i (L.next j), setPrev L.prev (L.next j) i⟩ _ _ _
    rw [hj]
    apply hys.redirect hndi.2.2
    · intro k hk
      apply update_of_ne
      rintro rfl
      exact hdisj k (by simp) hk
    · intro k _
      rfl

theorem Seg.insertAfter (h : Seg L before (xs ++ i :: ys) none) (hnd : (xs ++ i :: ys).Nodup)
    (hm : m ∉ xs ++ i :: ys) : Seg (insertAfter L i m) before (xs ++ i :: m :: ys) none := by
  have hi : L.next i = entry ys none := h.next_eq
  have hys : Seg L (some i) ys none := h.tail
  have hmi : m ≠ i := by
    rintro rfl
    exact hm (by simp)
  have hmx : ∀ k ∈ xs, k ≠ m := by
    rintro k hk rfl
    exact hm (by simp [hk])
  have hmy : ∀ k ∈ ys, k ≠ m := by
    rintro k hk rfl
    exact hm (by simp [hk])
  rw [Seg.append_iff] at h ⊢
  rw [nodup_append] at hnd
  obtain ⟨-, hndi, hdx⟩ := hnd
  rw [nodup_cons] at hndi
  have hprev : ∀ k, k ≠ m → k ∉ ys →
      setPrev (update L.prev m (some i)) (L.next i) m k = L.prev k := by
    intro k hk hky
    rw [hi, setPrev_of_ne (entry_ne_of_notMem hky), update_of_ne hk]
  refine ⟨?_, ?_, ?_, ?_, ?_, ?_⟩
  · apply h.1.congr
    · intro k hk
      have hki : k ≠ i := hdx k hk i mem_cons_self
      show update (update L.next m (L.next i)) i (some m) k = L.next k
      rw [update_of_ne hki, update_of_ne (hmx k hk)]
    · intro k hk
      apply hprev k (hmx k hk)
      intro hky
      exact hdx k hk k (mem_cons_of_mem i hky) rfl
  · exact (hprev i hmi.symm hndi.1).trans h.2.1
  · exact update_self _ _ _
  · show setPrev (update L.prev m (some i)) (L.next i) m m = some i
    rw [hi, setPrev_of_ne (entry_ne_of_notMem fun hmem => hmy m hmem rfl), update_self]
  · show update (update L.next m (L.next i)) i (some m) m = _
    rw [update_of_ne hmi, update_self, hi]
  · show Seg ⟨update (update L.next m (L.next i)) i (some m),
      setPrev (update L.prev m (some i)) (L.next i) m⟩ _ _ _
    rw [hi]
    apply hys.redirect hndi.2
    · intro k hk
      have hki : k ≠ i := by
        rintro rfl
        exact hndi.1 hk
      rw [update_of_ne hki, update_of_ne (hmy k hk)]
    · intro k hk
      exact update_of_ne (hmy k hk) _ _

/-! ### The ends of a list -/

/-- Put the node `i` in front of the list that is entered at `head`. -/
def pushFront (L : Links ι) (head : Option ι) (i : ι) : Links ι where
  next := update L.next i head
  prev := setPrev (update L.prev i none) head i

/-- End the list at `i`. -/
def cutAfter (L : Links ι) (i : ι) : Links ι where
  next := update L.next i none
  prev := L.prev

theorem Seg.pushFront {ids : List ι} (h : Seg L none ids none) (hnd : ids.Nodup) (hi : i ∉ ids) :
    Seg (pushFront L (entry ids none) i) none (i :: ids) none := by
  have hne : ∀ k ∈ ids, k ≠ i := by
    rintro k hk rfl
    exact hi hk
  refine ⟨?_, update_self _ _ _, ?_⟩
  · show setPrev (update L.prev i none) (entry ids none) i i = none
    rw [setPrev_of_ne (entry_ne_of_notMem hi), update_self]
  · apply h.redirect hnd
    · intro k hk
      exact update_of_ne (hne k hk) _ _
    · intro k hk
      exact update_of_ne (hne k hk) _ _

theorem Seg.cutAfter (h : Seg L before (xs ++ i :: ys) none) (hnd : (xs ++ i :: ys).Nodup) :
    Seg (cutAfter L i) before (xs ++ [i]) none := by
  rw [Seg.append_iff] at h ⊢
  rw [nodup_append] at hnd
  refine ⟨?_, h.2.1, update_self _ _ _, trivial⟩
  apply h.1.congr
  · intro k hk
    exact update_of_ne (hnd.2.2 k hk i mem_cons_self) _ _
  · intro k _
    rfl

end Updates

/-! ### Walking a list -/

/-- The addresses visited from a pointer by following `next`, at most `fuel` of them. -/
def read (next : ι → Option ι) : ℕ → Option ι → List ι
  | 0, _ => []
  | _ + 1, none => []
  | fuel + 1, some i => i :: read next fuel (next i)

theorem Seg.read_eq {L : Links ι} {before : Option ι} {ids : List ι} {fuel : ℕ} (h : Seg L before ids none)
    (hfuel : ids.length ≤ fuel) : read L.next fuel (entry ids none) = ids := by
  induction ids generalizing before fuel with
  | nil => cases fuel <;> rfl
  | cons i ids ih =>
    obtain ⟨-, hn, hrest⟩ := h
    cases fuel with
    | zero => simp at hfuel
    | succ fuel =>
      rw [entry_cons, read, hn, ih hrest]
      simpa using hfuel

end Linked
