import Mathlib.Data.Nat.Notation
import Mathlib.Data.List.Nodup
import Mathlib.Data.List.Forall2
import Mathlib.Data.List.Perm.Basic
import Mathlib.Logic.Function.Basic
import Mathlib.Algebra.GroupWithZero.Nat

/-!
# Linked queues over one address space

A queue is a pointer to its first node, one to its last node and a counter; each node stores the address of the
node behind it.  Several queues keep their nodes in one address space, and a program moves nodes between them.

* `Fifos.push` and `Fifos.pop` - appending a node and taking the first one, on pointers and on lists alike.
-/

namespace Linked

open List Function

variable {ι : Type}

/-- The record of a queue. -/
structure Fifo (ι : Type) where
  head : Option ι
  tail : Option ι
  count : ℕ

def Fifo.empty : Fifo ι := { head := none, tail := none, count := 0 }

def Path (next : ι → Option ι) : List ι → Prop
  | [] => True
  | i :: ids => next i = ids.head? ∧ Path next ids

/-- The queue consists of the nodes `ids`. -/
structure Fifo.Holds (next : ι → Option ι) (q : Fifo ι) (ids : List ι) : Prop where
  head : q.head = ids.head?
  tail : q.tail = ids.getLast?
  count : q.count = ids.length
  path : Path next ids

/-- The record after the node `i` was put behind the last one. -/
def Fifo.push (q : Fifo ι) (i : ι) : Fifo ι where
  head := if q.tail.isSome then q.head else some i
  tail := some i
  count := q.count + 1

/-- The record after the first node, with `next` behind it, was taken out. -/
def Fifo.pop (q : Fifo ι) (next : Option ι) : Fifo ι where
  head := next
  tail := if next.isSome then q.tail else none
  count := q.count - 1

theorem Fifo.empty_holds (next : ι → Option ι) : (Fifo.empty : Fifo ι).Holds next [] := ⟨rfl, rfl, rfl, trivial⟩

theorem Path.congr {next next' : ι → Option ι} {ids : List ι} (h : Path next ids)
    (heq : ∀ i ∈ ids, next' i = next i) : Path next' ids := by
  induction ids with
  | nil => trivial
  | cons i ids ih =>
    obtain ⟨hi, hrest⟩ := h
    have hi' : next' i = ids.head? := (heq i mem_cons_self).trans hi
    exact ⟨hi', ih hrest fun j hj => heq j (mem_cons_of_mem i hj)⟩

theorem Fifo.Holds.congr {next next' : ι → Option ι} {q : Fifo ι} {ids : List ι} (h : q.Holds next ids)
    (heq : ∀ i ∈ ids, next' i = next i) : q.Holds next' ids :=
  ⟨h.head, h.tail, h.count, h.path.congr heq⟩

theorem Fifo.Holds.count_pos {next : ι → Option ι} {q : Fifo ι} {ids : List ι} (h : q.Holds next ids)
    (hpos : 0 < q.count) : ∃ i rest, ids = i :: rest := by
  rw [h.count] at hpos
  exact exists_cons_of_length_pos hpos

theorem Fifo.Holds.pop {next : ι → Option ι} {q : Fifo ι} {i : ι} {ids : List ι} (h : q.Holds next (i :: ids)) :
    (q.pop (next i)).Holds next ids := by
  obtain ⟨hi, hrest⟩ := h.path
  refine ⟨hi, ?_, ?_, hrest⟩
  · show (if (next i).isSome then q.tail else none) = ids.getLast?
    rw [hi, h.tail]
    cases ids with
    | nil => rfl
    | cons j ids => rfl
  · show q.count - 1 = ids.length
    rw [h.count, length_cons, Nat.add_sub_cancel]

section Push

variable [DecidableEq ι]

/-- Store `i` in the node that the pointer names, if it names one. -/
def linkTail (next : ι → Option ι) : Option ι → ι → ι → Option ι
  | none, _ => next
  | some t, i => update next t (some i)

theorem linkTail_of_ne {next : ι → Option ι} {tail : Option ι} {i j : ι} (h : tail ≠ some j) :
    linkTail next tail i j = next j := by
  cases tail with
  | none => rfl
  | some t =>
    apply update_of_ne
    intro hjt
    exact h (congrArg some hjt.symm)

theorem Path.push {next : ι → Option ι} {ids : List ι} {i : ι} (h : Path next ids) (hnd : ids.Nodup) (hi : i ∉ ids) :
    Path (update (linkTail next ids.getLast? i) i none) (ids ++ [i]) := by
  induction ids with
  | nil => exact ⟨update_self _ _ _, trivial⟩
  | cons j ids ih =>
    obtain ⟨hj, hrest⟩ := h
    rw [nodup_cons] at hnd
    have hij : j ≠ i := by
      rintro rfl
      exact hi mem_cons_self
    have hi' : i ∉ ids := fun hmem => hi (mem_cons_of_mem j hmem)
    cases ids with
    | nil =>
      refine ⟨?_, update_self _ _ _, trivial⟩
      show update (linkTail next (some j) i) i none j = some i
      rw [update_of_ne hij]
      exact update_self _ _ _
    | cons k ids =>
      refine ⟨?_, ih hrest hnd.2 hi'⟩
      show update (linkTail next ((k :: ids).getLast?) i) i none j = some k
      have hlast : (k :: ids).getLast? ≠ some j := by
        intro heq
        exact hnd.1 (mem_of_getLast? heq)
      rw [update_of_ne hij, linkTail_of_ne hlast]
      exact hj

theorem Fifo.Holds.push {next : ι → Option ι} {q : Fifo ι} {ids : List ι} {i : ι} (h : q.Holds next ids)
    (hnd : ids.Nodup) (hi : i ∉ ids) :
    (q.push i).Holds (update (linkTail next q.tail i) i none) (ids ++ [i]) := by
  refine ⟨?_, ?_, ?_, ?_⟩
  · show (if q.tail.isSome then q.head else some i) = (ids ++ [i]).head?
    rw [h.tail, h.head]
    cases ids with
    | nil => rfl
    | cons j ids =>
      rw [getLast?_cons]
      rfl
  · simp [Fifo.push]
  · show q.count + 1 = (ids ++ [i]).length
    rw [h.count, length_append, length_singleton]
  · rw [h.tail]
    exact h.path.push hnd hi

end Push

/-! ### Several queues -/

/-- Every queue of the list consists of its nodes, and no node is in two places. -/
structure Fifos (next : ι → Option ι) (qs : List (Fifo ι)) (nodes : List (List ι)) : Prop where
  each : List.Forall₂ (Fifo.Holds next) qs nodes
  nodup : nodes.flatten.Nodup

theorem flatten_modify_append {nodes : List (List ι)} {i : ℕ} (n : ι) (hi : i < nodes.length) :
    (nodes.modify i (· ++ [n])).flatten.Perm (n :: nodes.flatten) := by
  induction nodes generalizing i with
  | nil => exact absurd hi (Nat.not_lt_zero i)
  | cons ids nodes ih =>
    cases i with
    | zero =>
      rw [modify_zero_cons, flatten_cons, flatten_cons, append_assoc]
      exact perm_middle
    | succ i =>
      rw [modify_succ_cons, flatten_cons, flatten_cons]
      have hih := ih (Nat.lt_of_succ_lt_succ hi)
      exact (hih.append_left ids).trans perm_middle

theorem flatten_modify_tail {nodes : List (List ι)} {i : ℕ} {n : ι} {rest : List ι}
    (hi : nodes[i]? = some (n :: rest)) : nodes.flatten.Perm (n :: (nodes.modify i List.tail).flatten) := by
  induction nodes generalizing i with
  | nil => cases hi
  | cons ids nodes ih =>
    cases i with
    | zero =>
      rw [getElem?_cons_zero, Option.some.injEq] at hi
      subst hi
      rw [modify_zero_cons, flatten_cons, flatten_cons]
      exact List.Perm.refl _
    | succ i =>
      rw [getElem?_cons_succ] at hi
      rw [modify_succ_cons, flatten_cons, flatten_cons]
      exact ((ih hi).append_left ids).trans perm_middle

namespace Fifos

variable {next : ι → Option ι} {qs : List (Fifo ι)} {nodes : List (List ι)} {i : ℕ}

theorem length_eq (h : Fifos next qs nodes) : qs.length = nodes.length := h.each.length_eq

theorem get (h : Fifos next qs nodes) {q : Fifo ι} (hq : qs[i]? = some q) :
    ∃ ids, nodes[i]? = some ids ∧ q.Holds next ids := by
  obtain ⟨hi, rfl⟩ := List.getElem?_eq_some_iff.1 hq
  have hi' : i < nodes.length := h.length_eq ▸ hi
  exact ⟨nodes[i], getElem?_eq_getElem hi', (forall₂_iff_get.1 h.each).2 i hi hi'⟩

theorem mem_flatten {ids : List ι} {n : ι} (hi : nodes[i]? = some ids) (hn : n ∈ ids) : n ∈ nodes.flatten :=
  (List.mem_flatten).2 ⟨ids, mem_of_getElem? hi, hn⟩

theorem notMem_of_ne (h : Fifos next qs nodes) {j : ℕ} {ids ids' : List ι} {n : ι} (hi : nodes[i]? = some ids)
    (hj : nodes[j]? = some ids') (hne : i ≠ j) (hn : n ∈ ids) : n ∉ ids' := by
  obtain ⟨hlti, rfl⟩ := List.getElem?_eq_some_iff.1 hi
  obtain ⟨hltj, rfl⟩ := List.getElem?_eq_some_iff.1 hj
  have hpair := pairwise_iff_getElem.1 (nodup_flatten.1 h.nodup).2
  intro hn'
  rcases Nat.lt_or_gt_of_ne hne with hlt | hgt
  · exact hpair i j hlti hltj hlt hn hn'
  · exact hpair j i hltj hlti hgt hn' hn

theorem modify {next' : ι → Option ι} {f : Fifo ι → Fifo ι} {g : List ι → List ι} (h : Fifos next qs nodes)
    (hself : ∀ q ids, qs[i]? = some q → nodes[i]? = some ids → q.Holds next ids → (f q).Holds next' (g ids))
    (hother : ∀ j ids, j ≠ i → nodes[j]? = some ids → ∀ n ∈ ids, next' n = next n)
    (hnd : (nodes.modify i g).flatten.Nodup) : Fifos next' (qs.modify i f) (nodes.modify i g) := by
  refine ⟨?_, hnd⟩
  rw [forall₂_iff_get]
  have hlen := h.length_eq
  refine ⟨by simpa using hlen, ?_⟩
  intro j hj hj'
  rw [length_modify] at hj hj'
  have hhold := (forall₂_iff_get.1 h.each).2 j hj hj'
  simp only [get_eq_getElem, getElem_modify] at hhold ⊢
  by_cases hij : i = j
  · subst hij
    rw [if_pos rfl, if_pos rfl]
    exact hself _ _ (getElem?_eq_getElem hj) (getElem?_eq_getElem hj') hhold
  · rw [if_neg hij, if_neg hij]
    exact hhold.congr (hother j _ (Ne.symm hij) (getElem?_eq_getElem hj'))

theorem pop (h : Fifos next qs nodes) {q : Fifo ι} (hq : qs[i]? = some q) (hpos : 0 < q.count) :
    ∃ n, q.head = some n ∧ Fifos next (qs.modify i fun q => q.pop (next n)) (nodes.modify i List.tail) ∧
      nodes.flatten.Perm (n :: (nodes.modify i List.tail).flatten) := by
  obtain ⟨ids, hids, hhold⟩ := h.get hq
  obtain ⟨n, rest, rfl⟩ := hhold.count_pos hpos
  have hperm := flatten_modify_tail hids
  have hnd := hperm.nodup_iff.1 h.nodup
  refine ⟨n, hhold.head, ?_, hperm⟩
  apply h.modify
  · intro q' ids' hq' hids' hhold'
    rw [hids, Option.some.injEq] at hids'
    subst hids'
    exact hhold'.pop
  · intro j ids' _ _ m _
    rfl
  · exact (nodup_cons.1 hnd).2

theorem push [DecidableEq ι] (h : Fifos next qs nodes) {q : Fifo ι} {n : ι} (hq : qs[i]? = some q)
    (hn : n ∉ nodes.flatten) :
    Fifos (update (linkTail next q.tail n) n none) (qs.modify i fun q => q.push n)
        (nodes.modify i (· ++ [n])) ∧
      (nodes.modify i (· ++ [n])).flatten.Perm (n :: nodes.flatten) := by
  obtain ⟨ids, hids, hhold⟩ := h.get hq
  have hi : i < nodes.length := (List.getElem?_eq_some_iff.1 hids).1
  have hperm := flatten_modify_append n hi
  refine ⟨?_, hperm⟩
  apply h.modify
  · intro q' ids' hq' hids' hhold'
    rw [hq, Option.some.injEq] at hq'
    subst hq'
    have hnd : ids'.Nodup := (nodup_flatten.1 h.nodup).1 ids' (mem_of_getElem? hids')
    exact hhold'.push hnd fun hmem => hn (mem_flatten hids' hmem)
  · intro j ids' hne hids' m hm
    have hmn : m ≠ n := by
      rintro rfl
      exact hn (mem_flatten hids' hm)
    have htail : q.tail ≠ some m := by
      rw [hhold.tail]
      intro hlast
      exact h.notMem_of_ne hids hids' (Ne.symm hne) (mem_of_getLast? hlast) hm
    rw [update_of_ne hmn, linkTail_of_ne htail]
  · rw [hperm.nodup_iff, nodup_cons]
    exact ⟨hn, h.nodup⟩

theorem sum_count (h : Fifos next qs nodes) : (qs.map Fifo.count).sum = nodes.flatten.length := by
  have heach := h.each
  clear h
  induction heach with
  | nil => rfl
  | cons hq _ ih => rw [map_cons, sum_cons, hq.count, ih, flatten_cons, length_append]

end Fifos

end Linked
