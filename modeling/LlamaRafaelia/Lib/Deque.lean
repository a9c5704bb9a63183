import LlamaRafaelia.Lib.Linked

/-!
# Doubly linked lists with two ends

A record keeps the addresses of the first and of the last node of a doubly linked list.  Several lists live in one address
space, so each operation comes with the addresses whose pointers it may change.

* `Ends.addHead` - putting a node in front (its pointers are those of `pushFront`).
-/

namespace Linked

open List Function

variable {ι : Type}

/-- The first and the last node of a list. -/
structure Ends (ι : Type) where
  head : Option ι
  tail : Option ι
  deriving DecidableEq, Repr

def Ends.empty : Ends ι := { head := none, tail := none }

/-- The list consists of the nodes `ids`, linked both ways. -/
structure Ends.Holds (L : Links ι) (e : Ends ι) (ids : List ι) : Prop where
  head : e.head = entry ids none
  tail : e.tail = exit none ids
  seg : Seg L none ids none
  nodup : ids.Nodup

theorem Ends.empty_holds (L : Links ι) : (Ends.empty : Ends ι).Holds L [] := ⟨rfl, rfl, trivial, nodup_nil⟩

section Pointers

variable [DecidableEq ι]

/-- `if (target) target->field = value`. -/
def setPointer (field : ι → Option ι) : Option ι → Option ι → ι → Option ι
  | none, _ => field
  | some k, value => update field k value

/-- The pointers without the node `i`. -/
def detach (L : Links ι) (i : ι) : Links ι where
  next := setPointer L.next (L.prev i) (L.next i)
  prev := setPointer L.prev (L.next i) (L.prev i)

/-- The ends without the node `i`. -/
def Ends.detach (L : Links ι) (e : Ends ι) (i : ι) : Ends ι where
  head := if (L.prev i).isSome then e.head else L.next i
  tail := if (L.next i).isSome then e.tail else L.prev i

/-- The ends with the node `i` in front. -/
def Ends.addHead (e : Ends ι) (i : ι) : Ends ι where
  head := some i
  tail := if e.tail.isSome then e.tail else some i

variable {L L' : Links ι} {e : Ends ι} {ids xs ys : List ι} {before after : Option ι} {i k : ι}

theorem setPointer_of_ne {field : ι → Option ι} {target value : Option ι} (h : target ≠ some k) :
    setPointer field target value k = field k := by
  cases target with
  | none => rfl
  | some l =>
    apply update_of_ne
    intro hkl
    exact h (congrArg some hkl.symm)

theorem setPointer_self (field : ι → Option ι) (value : Option ι) : setPointer field (some k) value k = value :=
  update_self _ _ _

omit [DecidableEq ι] in
theorem exit_ne_of_notMem (h : k ∉ ids) : exit none ids ≠ some k := by
  cases hids : ids.reverse with
  | nil =>
    rw [reverse_eq_nil_iff.mp hids]
    intro hcontra
    cases hcontra
  | cons l rest =>
    have hlast : ids = rest.reverse ++ [l] := by rw [← reverse_reverse ids, hids, reverse_cons]
    rw [hlast, exit_concat]
    intro hcontra
    obtain rfl : l = k := Option.some.inj hcontra
    exact h (hlast ▸ mem_append_right _ mem_cons_self)

omit [DecidableEq ι] in
theorem exit_isSome_iff : (exit none ids).isSome ↔ ids ≠ [] := by
  cases hids : ids.reverse with
  | nil =>
    rw [reverse_eq_nil_iff.mp hids]
    exact ⟨fun h => (nomatch h : False).elim, fun h => absurd rfl h⟩
  | cons l rest =>
    have hlast : ids = rest.reverse ++ [l] := by rw [← reverse_reverse ids, hids, reverse_cons]
    rw [hlast, exit_concat]
    exact ⟨fun _ => by simp, fun _ => rfl⟩

omit [DecidableEq ι] in
theorem exit_append (before : Option ι) (xs ys : List ι) : exit before (xs ++ ys) = exit (exit before xs) ys := by
  induction xs generalizing before with
  | nil => rfl
  | cons x xs ih => exact ih (some x)

omit [DecidableEq ι] in
theorem Ends.Holds.around (h : e.Holds L (xs ++ i :: ys)) :
    Seg L none xs (some i) ∧ L.prev i = exit none xs ∧ L.next i = entry ys none ∧ Seg L (some i) ys none :=
  (Seg.append_iff).mp h.seg

theorem Ends.Holds.detach_frame (h : e.Holds L (xs ++ i :: ys)) (hk : k ∉ xs ++ i :: ys) :
    (Linked.detach L i).next k = L.next k ∧ (Linked.detach L i).prev k = L.prev k := by
  obtain ⟨_, hprev, hnext, _⟩ := h.around
  have hxs : k ∉ xs := fun hmem => hk (mem_append_left _ hmem)
  have hys : k ∉ ys := fun hmem => hk (mem_append_right _ (mem_cons_of_mem i hmem))
  exact ⟨setPointer_of_ne (hprev ▸ exit_ne_of_notMem hxs), setPointer_of_ne (hnext ▸ entry_ne_of_notMem hys)⟩

theorem Seg.detach_left (h : Seg L none xs (some i)) (hnodup : xs.Nodup) (hprev : L.prev i = exit none xs)
    (hnext : L.next i = entry ys none) (hdisj : ∀ k ∈ xs, k ∉ ys) :
    Seg (Linked.detach L i) none xs (entry ys none) := by
  have hback : ∀ k ∈ xs, (Linked.detach L i).prev k = L.prev k := fun k hk =>
    setPointer_of_ne (hnext ▸ entry_ne_of_notMem (hdisj k hk))
  cases hxs : xs.reverse with
  | nil =>
    rw [reverse_eq_nil_iff.mp hxs]
    trivial
  | cons l rest =>
    have hlast : xs = rest.reverse ++ [l] := by rw [← reverse_reverse xs, hxs, reverse_cons]
    rw [hlast] at h hnodup hprev hback ⊢
    rw [exit_concat] at hprev
    rw [Seg.append_iff] at h ⊢
    have hl : l ∉ rest.reverse := fun hmem => (nodup_append.mp hnodup).2.2 l hmem l mem_cons_self rfl
    have hfront : ∀ k ∈ rest.reverse, (Linked.detach L i).next k = L.next k := fun k hk => by
      refine setPointer_of_ne (hprev ▸ fun hcontra => ?_)
      obtain rfl : l = k := Option.some.inj hcontra
      exact hl hk
    refine ⟨h.1.congr hfront fun k hk => hback k (mem_append_left _ hk), ?_, ?_, trivial⟩
    · exact (hback l (mem_append_right _ mem_cons_self)).trans h.2.1
    · show setPointer L.next (L.prev i) (L.next i) l = _
      rw [hprev, setPointer_self, hnext]
      rfl

theorem Seg.detach_right (h : Seg L (some i) ys none) (hnodup : ys.Nodup) (hprev : L.prev i = exit none xs)
    (hnext : L.next i = entry ys none) (hdisj : ∀ k ∈ ys, k ∉ xs) :
    Seg (Linked.detach L i) (exit none xs) ys none := by
  cases ys with
  | nil => trivial
  | cons l ys =>
    have hfront : ∀ k ∈ l :: ys, (Linked.detach L i).next k = L.next k := fun k hk =>
      setPointer_of_ne (hprev ▸ exit_ne_of_notMem (hdisj k hk))
    rw [entry_cons] at hnext
    refine ⟨?_, (hfront l mem_cons_self).trans h.2.1, h.2.2.congr ?_ fun k hk => ?_⟩
    · show setPointer L.prev (L.next i) (L.prev i) l = _
      rw [hnext, setPointer_self, hprev]
    · exact fun k hk => hfront k (mem_cons_of_mem l hk)
    · refine setPointer_of_ne (hnext ▸ fun hcontra => ?_)
      obtain rfl : l = k := Option.some.inj hcontra
      exact (nodup_cons.mp hnodup).1 hk

/-- **Taking a node out** leaves the other nodes in their order. -/
theorem Ends.Holds.detach (h : e.Holds L (xs ++ i :: ys)) : (e.detach L i).Holds (Linked.detach L i) (xs ++ ys) := by
  obtain ⟨hfront, hprev, hnext, hbehind⟩ := h.around
  have hnodup := nodup_append.mp h.nodup
  have hi := nodup_cons.mp hnodup.2.1
  have hdisj : ∀ k ∈ xs, k ∉ ys := fun k hk hmem => hnodup.2.2 k hk k (mem_cons_of_mem i hmem) rfl
  refine ⟨?_, ?_, ?_, ?_⟩
  · show (if (L.prev i).isSome then e.head else L.next i) = _
    rw [hprev, hnext, h.head]
    cases xs with
    | nil => rfl
    | cons x xs => rw [if_pos ((exit_isSome_iff).mpr (cons_ne_nil x xs))]; rfl
  · show (if (L.next i).isSome then e.tail else L.prev i) = _
    rw [hprev, hnext, h.tail]
    cases ys with
    | nil =>
      rw [append_nil]
      rfl
    | cons y ys =>
      rw [exit_append, exit_append]
      rfl
  · exact (Seg.append_iff).mpr ⟨hfront.detach_left hnodup.1 hprev hnext hdisj,
      hbehind.detach_right hi.2 hprev hnext fun k hk hmem => hdisj k hmem hk⟩
  · exact nodup_append.mpr ⟨hnodup.1, hi.2, fun k hk l hl hkl => hdisj k hk (hkl ▸ hl)⟩

theorem Ends.Holds.addHead_frame (h : e.Holds L ids) (hk : k ∉ ids) (hne : k ≠ i) :
    (pushFront L e.head i).next k = L.next k ∧ (pushFront L e.head i).prev k = L.prev k := by
  refine ⟨update_of_ne hne _ _, ?_⟩
  show setPrev (update L.prev i none) e.head i k = L.prev k
  rw [h.head, setPrev_of_ne (entry_ne_of_notMem hk), update_of_ne hne]

theorem Ends.Holds.addHead (h : e.Holds L ids) (hi : i ∉ ids) :
    (e.addHead i).Holds (pushFront L e.head i) (i :: ids) := by
  refine ⟨rfl, ?_, ?_, nodup_cons.mpr ⟨hi, h.nodup⟩⟩
  · show (if e.tail.isSome then e.tail else some i) = _
    rw [h.tail]
    cases ids with
    | nil => rfl
    | cons j ids => rw [if_pos ((exit_isSome_iff).mpr (cons_ne_nil j ids))]; rfl
  · rw [h.head]
    exact h.seg.pushFront h.nodup hi

omit [DecidableEq ι] in
theorem Ends.Holds.congr (h : e.Holds L ids) (hsame : ∀ k ∈ ids, L'.next k = L.next k ∧ L'.prev k = L.prev k) :
    e.Holds L' ids :=
  ⟨h.head, h.tail, h.seg.congr (fun k hk => (hsame k hk).1) fun k hk => (hsame k hk).2, h.nodup⟩

omit [DecidableEq ι] in
theorem Ends.Holds.tail_eq (h : e.Holds L ids) : e.tail = ids.getLast? := by
  rw [h.tail]
  cases hids : ids.reverse with
  | nil =>
    rw [reverse_eq_nil_iff.mp hids]
    rfl
  | cons l rest =>
    rw [← reverse_reverse ids, hids, reverse_cons, exit_concat, getLast?_concat]

end Pointers

end Linked
