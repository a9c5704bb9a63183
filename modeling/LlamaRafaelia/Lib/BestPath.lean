import Mathlib.Algebra.Order.Monoid.Unbundled.WithTop
import Mathlib.Algebra.Order.Monoid.WithTop
import Mathlib.Logic.Function.Basic
import Mathlib.Order.Bounds.Basic
import Mathlib.Tactic.Common

/-!
# Best paths

The points are the natural numbers, and every edge leads to the right; a path has the sum of the weights of its edges.  A
table finds the best path to every point when the edges are relaxed in the order of their sources, or the best path from
every point when the points are solved from right to left.

* `Settled.start`, **`Settled.relaxAll`**, `Settled.skip` - the table at the beginning, after the edges of one point, and
  over points without an edge;
* **`Settled.trace`** - they are the labels of a best path;
* `Solved`, `Follow`, **`Solved.follow`** - the same from right to left.
-/

namespace BestPath

variable {ι R : Type} [AddCommMonoid R]

/-- A path, with the labels and the sum of the weights of its edges. -/
inductive Path (G : ℕ → ℕ → ι → R → Prop) : ℕ → ℕ → List ι → R → Prop
  | nil {i : ℕ} : Path G i i [] 0
  | cons {i j k : ℕ} {a : ι} {as : List ι} {w s : R} (edge : G i j a w) (more : Path G j k as s) :
      Path G i k (a :: as) (w + s)

def Best [LinearOrder R] (G : ℕ → ℕ → ι → R → Prop) (i j : ℕ) (s : R) : Prop := IsGreatest {s | ∃ as, Path G i j as s} s

section Paths

variable {G : ℕ → ℕ → ι → R → Prop}

theorem Path.snoc {i j k : ℕ} {as : List ι} {a : ι} {w s : R} (h : Path G i j as s) (edge : G j k a w) :
    Path G i k (as ++ [a]) (s + w) := by
  induction h with
  | nil =>
    rw [add_comm]
    exact .cons edge .nil
  | cons edge' more ih =>
    rw [add_assoc]
    exact .cons edge' (ih edge)

theorem Path.le (hlt : ∀ {i j : ℕ} {a : ι} {w : R}, G i j a w → i < j) {i j : ℕ} {as : List ι} {s : R} (h : Path G i j as s) :
    i ≤ j := by
  induction h with
  | nil => exact Nat.le_refl _
  | cons edge more ih => exact (Nat.le_of_lt (hlt edge)).trans ih

end Paths

/-! ### The table -/

/-- The last edge of the best path to a point so far: its label, its source, and the sum of the path. -/
structure Cell (ι R : Type) where
  label : ι
  source : ℕ
  score : WithBot R

/-- An edge from a source. -/
structure Edge (ι R : Type) where
  target : ℕ
  label : ι
  weight : R

variable [LinearOrder R]

/-- The edge improves the entry of its target when the path over it is better. -/
def relax (source : ℕ) (table : ℕ → Cell ι R) (e : Edge ι R) : ℕ → Cell ι R :=
  if (table e.target).score < (table source).score + e.weight then
    Function.update table e.target { label := e.label, source := source, score := (table source).score + e.weight }
  else table

/-- Every entry that is reached is the end of an edge from a source below the limit. -/
def Tight (G : ℕ → ℕ → ι → R → Prop) (limit : ℕ) (table : ℕ → Cell ι R) : Prop :=
  ∀ j, 0 < j → (table j).score ≠ ⊥ → (table j).source < limit
    ∧ ∃ w, G (table j).source j (table j).label w ∧ (table (table j).source).score + w = (table j).score

/-- The edges from the points below the limit are relaxed. -/
structure Settled (G : ℕ → ℕ → ι → R → Prop) (limit : ℕ) (table : ℕ → Cell ι R) : Prop where
  start : (table 0).score = 0
  relaxed : ∀ {i j : ℕ} {a : ι} {w : R}, i < limit → G i j a w → (table i).score + w ≤ (table j).score
  tight : Tight G limit table

/-- The labels that the entries lead back along to the first point. -/
inductive Trace (table : ℕ → Cell ι R) : ℕ → List ι → Prop
  | nil : Trace table 0 []
  | snoc {n : ℕ} {as : List ι} (left : (table n).source < n) (reached : (table n).score ≠ ⊥)
      (more : Trace table (table n).source as) : Trace table n (as ++ [(table n).label])

/-! ### Relaxing the edges of one point -/

section Relax

variable {G : ℕ → ℕ → ι → R → Prop} {table : ℕ → Cell ι R} {k : ℕ} {e : Edge ι R} {edges : List (Edge ι R)}

theorem relax_of_ne {j : ℕ} (hne : j ≠ e.target) : relax k table e j = table j := by
  rw [relax]
  split
  · exact Function.update_of_ne hne _ _
  · rfl

theorem le_relax : (table k).score + e.weight ≤ (relax k table e e.target).score := by
  rw [relax]
  split
  · rw [Function.update_self]
  · exact le_of_not_gt ‹_›

theorem score_le_relax (j : ℕ) : (table j).score ≤ (relax k table e j).score := by
  by_cases hj : j = e.target
  · subst hj
    rw [relax]
    split
    · rw [Function.update_self]
      exact le_of_lt ‹_›
    · exact le_refl _
  · rw [relax_of_ne hj]

theorem relax_of_le (hlt : k < e.target) {j : ℕ} (hj : j ≤ k) : relax k table e j = table j :=
  relax_of_ne (Nat.ne_of_lt (Nat.lt_of_le_of_lt hj hlt))

theorem Tight.relax (h : Tight G (k + 1) table) (edge : G k e.target e.label e.weight) (hlt : k < e.target) :
    Tight G (k + 1) (relax k table e) := by
  intro j hpos hne
  by_cases hwin : j = e.target ∧ (table e.target).score < (table k).score + e.weight
  · obtain ⟨rfl, hwin⟩ := hwin
    have hentry : BestPath.relax k table e e.target
        = { label := e.label, source := k, score := (table k).score + e.weight } := by
      rw [BestPath.relax, if_pos hwin, Function.update_self]
    rw [hentry]
    refine ⟨Nat.lt_succ_self k, e.weight, edge, ?_⟩
    show (BestPath.relax k table e k).score + _ = _
    rw [relax_of_le hlt (Nat.le_refl k)]
  · have hentry : BestPath.relax k table e j = table j := by
      by_cases hj : j = e.target
      · rw [BestPath.relax, if_neg fun hwin' => hwin ⟨hj, hwin'⟩]
      · exact relax_of_ne hj
    rw [hentry] at hne ⊢
    obtain ⟨hsource, w, hedge, hsum⟩ := h j hpos hne
    refine ⟨hsource, w, hedge, ?_⟩
    rw [relax_of_le hlt (Nat.le_of_lt_succ hsource)]
    exact hsum

theorem relaxAll_spec (table : ℕ → Cell ι R) (hedges : ∀ e ∈ edges, k < e.target) :
    (∀ j ≤ k, edges.foldl (relax k) table j = table j) ∧ (∀ j, (table j).score ≤ (edges.foldl (relax k) table j).score)
      ∧ ∀ e ∈ edges, (table k).score + e.weight ≤ (edges.foldl (relax k) table e.target).score := by
  induction edges generalizing table with
  | nil => exact ⟨fun j _ => rfl, fun j => le_refl _, fun e he => absurd he List.not_mem_nil⟩
  | cons e edges ih =>
    have hlt : k < e.target := hedges e List.mem_cons_self
    obtain ⟨hbefore, hmono, hall⟩ := ih (relax k table e) fun e' he' => hedges e' (List.mem_cons_of_mem e he')
    have hk : relax k table e k = table k := relax_of_le hlt (Nat.le_refl k)
    refine ⟨fun j hj => (hbefore j hj).trans (relax_of_le hlt hj), fun j => (score_le_relax j).trans (hmono j), ?_⟩
    intro e' he'
    rcases List.mem_cons.mp he' with rfl | he'
    · exact (le_relax).trans (hmono _)
    · rw [← hk]
      exact hall e' he'

theorem Tight.relaxAll (h : Tight G (k + 1) table) (hedges : ∀ e ∈ edges, G k e.target e.label e.weight ∧ k < e.target) :
    Tight G (k + 1) (edges.foldl (BestPath.relax k) table) := by
  induction edges generalizing table with
  | nil => exact h
  | cons e edges ih =>
    have he := hedges e List.mem_cons_self
    exact ih (h.relax he.1 he.2) fun e' he' => hedges e' (List.mem_cons_of_mem e he')

end Relax

/-! ### From one point to the next -/

section Settle

variable {G : ℕ → ℕ → ι → R → Prop} {table : ℕ → Cell ι R} {limit : ℕ}

theorem Settled.init (hzero : (table 0).score = 0) (hbot : ∀ j, 0 < j → (table j).score = ⊥) : Settled G 0 table where
  start := hzero
  relaxed hi := absurd hi (Nat.not_lt_zero _)
  tight j hpos hne := absurd (hbot j hpos) hne

theorem Settled.skip (h : Settled G limit table) {limit' : ℕ} (hle : limit ≤ limit')
    (hnone : ∀ {i j : ℕ} {a : ι} {w : R}, limit ≤ i → i < limit' → ¬ G i j a w) : Settled G limit' table where
  start := h.start
  relaxed := by
    intro i j a w hi hedge
    by_cases hlt : i < limit
    · exact h.relaxed hlt hedge
    · exact absurd hedge (hnone (Nat.le_of_not_lt hlt) hi)
  tight j hpos hne := (h.tight j hpos hne).imp_left fun hsource => Nat.lt_of_lt_of_le hsource hle

theorem Settled.relaxAll (hlt : ∀ {i j : ℕ} {a : ι} {w : R}, G i j a w → i < j) (h : Settled G limit table)
    {edges : List (Edge ι R)} (hedges : ∀ j a w, G limit j a w ↔ ⟨j, a, w⟩ ∈ edges) :
    Settled G (limit + 1) (edges.foldl (relax limit) table) := by
  have hedge : ∀ e ∈ edges, G limit e.target e.label e.weight ∧ limit < e.target := by
    intro e he
    have hG := (hedges e.target e.label e.weight).mpr he
    exact ⟨hG, hlt hG⟩
  obtain ⟨hbefore, hmono, hall⟩ := relaxAll_spec table fun e he => (hedge e he).2
  constructor
  · rw [hbefore 0 (Nat.zero_le limit)]
    exact h.start
  · intro i j a w hi hG
    rw [hbefore i (Nat.le_of_lt_succ hi)]
    rcases Nat.lt_or_eq_of_le (Nat.le_of_lt_succ hi) with hi | rfl
    · exact (h.relaxed hi hG).trans (hmono j)
    · exact hall ⟨j, a, w⟩ ((hedges j a w).mp hG)
  · have htight : Tight G (limit + 1) table := fun j hpos hne => (h.tight j hpos hne).imp_left Nat.lt_succ_of_lt
    exact htight.relaxAll hedge

end Settle

/-! ### The best path -/

section Optimal

variable [IsOrderedAddMonoid R] {G : ℕ → ℕ → ι → R → Prop} {table : ℕ → Cell ι R} {limit : ℕ}

theorem Settled.bound (hlt : ∀ {i j : ℕ} {a : ι} {w : R}, G i j a w → i < j) (h : Settled G limit table) {i k : ℕ}
    {as : List ι} {s : R} (hpath : Path G i k as s) (hk : k ≤ limit) : (table i).score + s ≤ (table k).score := by
  induction hpath with
  | nil => rw [WithBot.coe_zero, add_zero]
  | @cons i j k a as w s edge more ih =>
    have hi : i < limit := Nat.lt_of_lt_of_le (Nat.lt_of_lt_of_le (hlt edge) (more.le hlt)) hk
    calc (table i).score + ((w + s : R) : WithBot R) = (table i).score + w + s := by rw [WithBot.coe_add, add_assoc]
      _ ≤ (table j).score + s := add_le_add_left (h.relaxed hi edge) _
      _ ≤ (table k).score := ih hk

omit [IsOrderedAddMonoid R] in
theorem Settled.path (hlt : ∀ {i j : ℕ} {a : ι} {w : R}, G i j a w → i < j) (h : Settled G limit table) {n : ℕ}
    (hne : (table n).score ≠ ⊥) : ∃ as s, Trace table n as ∧ Path G 0 n as s ∧ (table n).score = (s : WithBot R) := by
  induction n using Nat.strong_induction_on with
  | _ n ih =>
    rcases Nat.eq_zero_or_pos n with rfl | hpos
    · exact ⟨[], 0, .nil, .nil, h.start⟩
    · obtain ⟨-, w, hedge, hsum⟩ := h.tight n hpos hne
      have hsource : (table (table n).source).score ≠ ⊥ := by
        intro hbot
        rw [hbot, WithBot.bot_add] at hsum
        exact hne hsum.symm
      obtain ⟨as, s, htrace, hpath, hscore⟩ := ih _ (hlt hedge) hsource
      refine ⟨as ++ [(table n).label], s + w, .snoc (hlt hedge) hne htrace, hpath.snoc hedge, ?_⟩
      rw [← hsum, hscore, WithBot.coe_add]

/-- **The entries of a settled table lead back along a best path.** -/
theorem Settled.trace (hlt : ∀ {i j : ℕ} {a : ι} {w : R}, G i j a w → i < j) (h : Settled G limit table) {n : ℕ}
    (hn : n ≤ limit) (hne : (table n).score ≠ ⊥) : ∃ as s, Trace table n as ∧ Path G 0 n as s ∧ Best G 0 n s := by
  obtain ⟨as, s, htrace, hpath, hscore⟩ := h.path hlt hne
  refine ⟨as, s, htrace, hpath, ⟨as, hpath⟩, fun s' ⟨as', hpath'⟩ => ?_⟩
  have hle := h.bound hlt hpath' hn
  rw [h.start, zero_add, hscore] at hle
  exact WithBot.coe_le_coe.mp hle

end Optimal

/-! ### From right to left -/

section Backward

variable {G : ℕ → ℕ → ι → R → Prop} {n i : ℕ} {next : ℕ → ℕ} {label : ℕ → ι} {score : ℕ → R}

/-- From `i` on, every point has an edge that attains its score, and no edge gives a better one. -/
structure Solved (G : ℕ → ℕ → ι → R → Prop) (n i : ℕ) (next : ℕ → ℕ) (label : ℕ → ι) (score : ℕ → R) : Prop where
  last : score n = 0
  tight : ∀ {j : ℕ}, i ≤ j → j < n → ∃ w, G j (next j) (label j) w ∧ next j ≤ n ∧ score j = w + score (next j)
  bound : ∀ {j k : ℕ} {a : ι} {w : R}, i ≤ j → k ≤ n → G j k a w → w + score k ≤ score j

/-- The labels that the points lead along to the last one. -/
inductive Follow (n : ℕ) (next : ℕ → ℕ) (label : ℕ → ι) : ℕ → List ι → Prop
  | stop : Follow n next label n []
  | go {j : ℕ} {as : List ι} (lt : j < n) (right : j < next j) (le : next j ≤ n) (more : Follow n next label (next j) as) :
      Follow n next label j (label j :: as)

theorem Solved.init (hlt : ∀ {i j : ℕ} {a : ι} {w : R}, G i j a w → i < j) (hlast : score n = 0) :
    Solved G n n next label score where
  last := hlast
  tight hle hlt' := absurd hlt' (Nat.not_lt_of_le hle)
  bound hj hk edge := absurd (hlt edge) (Nat.not_lt_of_le (hk.trans hj))

theorem Solved.path (hlt : ∀ {i j : ℕ} {a : ι} {w : R}, G i j a w → i < j) (h : Solved G n i next label score) {j : ℕ}
    (hj : i ≤ j) (hn : j ≤ n) : ∃ as, Follow n next label j as ∧ Path G j n as (score j) := by
  induction hd : n - j using Nat.strong_induction_on generalizing j with
  | _ d ih =>
    rcases Nat.lt_or_eq_of_le hn with hlt' | rfl
    · obtain ⟨w, hedge, hle, hscore⟩ := h.tight hj hlt'
      have hright := hlt hedge
      obtain ⟨as, hfollow, hpath⟩ := ih (n - next j) (by omega) (hj.trans (Nat.le_of_lt hright)) hle rfl
      refine ⟨label j :: as, .go hlt' hright hle hfollow, ?_⟩
      rw [hscore]
      exact .cons hedge hpath
    · refine ⟨[], .stop, ?_⟩
      rw [h.last]
      exact .nil

theorem Solved.le [IsOrderedAddMonoid R] (hlt : ∀ {i j : ℕ} {a : ι} {w : R}, G i j a w → i < j)
    (h : Solved G n i next label score) {j : ℕ} {as : List ι} {s : R} (hpath : Path G j n as s) (hj : i ≤ j) : s ≤ score j := by
  generalize hm : n = m at hpath
  induction hpath with
  | nil =>
    subst hm
    rw [h.last]
  | cons edge more ih =>
    subst hm
    have hright := hlt edge
    exact (add_le_add_right (ih (hj.trans (Nat.le_of_lt hright)) rfl) _).trans (h.bound hj (more.le hlt) edge)

theorem Solved.follow [IsOrderedAddMonoid R] (hlt : ∀ {i j : ℕ} {a : ι} {w : R}, G i j a w → i < j)
    (h : Solved G n i next label score) {j : ℕ} (hj : i ≤ j) (hn : j ≤ n) :
    ∃ as, Follow n next label j as ∧ Path G j n as (score j) ∧ Best G j n (score j) := by
  obtain ⟨as, hfollow, hpath⟩ := h.path hlt hj hn
  exact ⟨as, hfollow, hpath, ⟨as, hpath⟩, fun s ⟨as', hpath'⟩ => h.le hlt hpath' hj⟩

end Backward

end BestPath
