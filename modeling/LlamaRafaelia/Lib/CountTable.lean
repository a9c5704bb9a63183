import LlamaRafaelia.Lib.CountMap
import Mathlib.Data.List.ProdSigma

/-!
# Tables of counts: a map from keys to counting maps

A program that counts pairs keeps a map whose values are counting maps.  `CountTable.Tracks c f` says that the table is
exactly the counting function `f` on pairs: no row is empty, and no count is zero.

* `Entries m l` - the entries of a map, in one of the orders in which a program may meet them; putting them into an
  empty map gives the map again (`Entries.foldl_emplace`).
-/

abbrev CountTable (κ τ : Type) := Finmap (fun _ : κ => CountMap τ)

/-- `l` has the entries of the map, each once, in some order. -/
structure Entries {κ α : Type} [DecidableEq κ] (m : Finmap fun _ : κ => α) (l : List (κ × α)) : Prop where
  nodup : (l.map Prod.fst).Nodup
  mem : ∀ k a, m.lookup k = some a ↔ (k, a) ∈ l

/-- `m.emplace(k, a)`: an entry that is there stays. -/
def emplace {κ α : Type} [DecidableEq κ] (m : Finmap fun _ : κ => α) (p : κ × α) : Finmap fun _ : κ => α :=
  if p.1 ∈ m then m else m.insert p.1 p.2

theorem lookup_foldl_emplace {κ α : Type} [DecidableEq κ] (l : List (κ × α)) (hnodup : (l.map Prod.fst).Nodup)
    (m : Finmap fun _ : κ => α) (hnew : ∀ p ∈ l, p.1 ∉ m) (k : κ) (a : α) :
    (l.foldl emplace m).lookup k = some a ↔ (k, a) ∈ l ∨ m.lookup k = some a := by
  induction l generalizing m with
  | nil => simp
  | cons p l ih =>
    rw [List.map_cons, List.nodup_cons] at hnodup
    have hput : emplace m p = m.insert p.1 p.2 := if_neg (hnew p List.mem_cons_self)
    rw [List.foldl_cons, hput, ih hnodup.2 _ fun q hq hmem => ?_]
    · rw [List.mem_cons]
      by_cases hk : k = p.1
      · subst hk
        have hold : m.lookup p.1 = none := Finmap.lookup_eq_none.mpr (hnew p List.mem_cons_self)
        have hnot : (p.1, a) ∉ l := fun hmem => hnodup.1 (List.mem_map.mpr ⟨(p.1, a), hmem, rfl⟩)
        rw [Finmap.lookup_insert, hold]
        simp only [hnot, Option.some.injEq, false_or, reduceCtorEq, or_false]
        exact ⟨fun h => by rw [← h], fun h => (congrArg Prod.snd h).symm⟩
      · have hne : (k, a) ≠ p := fun h => hk (congrArg Prod.fst h)
        rw [Finmap.lookup_insert_of_ne _ hk]
        simp only [hne, false_or]
    · rcases Finmap.mem_insert.mp hmem with heq | hold
      · exact hnodup.1 (heq ▸ List.mem_map_of_mem (f := Prod.fst) hq)
      · exact hnew q (List.mem_cons_of_mem _ hq) hold

/-- **A map is made of its entries**, in whatever order they come. -/
theorem Entries.foldl_emplace {κ α : Type} [DecidableEq κ] {m : Finmap fun _ : κ => α} {l : List (κ × α)}
    (h : Entries m l) : l.foldl emplace ∅ = m := by
  refine Finmap.ext_lookup fun k => Option.ext fun a => ?_
  rw [lookup_foldl_emplace l h.nodup ∅ (fun _ _ => Finmap.notMem_empty) k a, h.mem, Finmap.lookup_empty]
  simp

namespace CountTable

variable {κ τ : Type} [DecidableEq κ] [DecidableEq τ]

/-- The table holds exactly the counts of `f`, and no row without a count. -/
def Tracks (c : CountTable κ τ) (f : κ → τ → ℕ) : Prop :=
  ∀ g, (c.lookup g = none ∧ ∀ t, f g t = 0) ∨ ∃ part, c.lookup g = some part ∧ part.Tracks (f g) ∧ ∃ t, 0 < f g t

theorem tracks_empty : Tracks (∅ : CountTable κ τ) fun _ _ => 0 := fun g =>
  .inl ⟨Finmap.lookup_empty g, fun _ => rfl⟩

theorem Tracks.congr {c : CountTable κ τ} {f f' : κ → τ → ℕ} (h : Tracks c f) (heq : ∀ g t, f g t = f' g t) :
    Tracks c f' := by
  have hfun : f = f' := funext fun g => funext fun t => heq g t
  rwa [← hfun]

theorem Tracks.row {c : CountTable κ τ} {f : κ → τ → ℕ} (h : Tracks c f) {g : κ} {part : CountMap τ}
    (hg : c.lookup g = some part) : part.Tracks (f g) ∧ ∃ t, 0 < f g t := by
  rcases h g with ⟨hnone, -⟩ | ⟨part', hpart, hrow⟩
  · rw [hg] at hnone
    cases hnone
  · rw [hg, Option.some.injEq] at hpart
    exact hpart ▸ hrow

theorem Tracks.no_row {c : CountTable κ τ} {f : κ → τ → ℕ} (h : Tracks c f) {g : κ} (hg : c.lookup g = none) (t : τ) :
    f g t = 0 := by
  rcases h g with ⟨-, hzero⟩ | ⟨part, hpart, -⟩
  · exact hzero t
  · rw [hg] at hpart
    cases hpart

theorem Tracks.unique {c c' : CountTable κ τ} {f : κ → τ → ℕ} (h : Tracks c f) (h' : Tracks c' f) : c = c' := by
  refine Finmap.ext_lookup fun g => ?_
  cases hg : c.lookup g with
  | none =>
    cases hg' : c'.lookup g with
    | none => rfl
    | some part' =>
      obtain ⟨-, t, ht⟩ := h'.row hg'
      rw [h.no_row hg t] at ht
      exact absurd ht (Nat.lt_irrefl 0)
  | some part =>
    obtain ⟨hpart, t, ht⟩ := h.row hg
    cases hg' : c'.lookup g with
    | none =>
      rw [h'.no_row hg' t] at ht
      exact absurd ht (Nat.lt_irrefl 0)
    | some part' => rw [hpart.unique (h'.row hg').1]

/-- **Replacing one row** by the counts of another function, which agrees with the old one elsewhere. -/
theorem Tracks.insert {c : CountTable κ τ} {f f' : κ → τ → ℕ} {g : κ} {part : CountMap τ} (h : Tracks c f)
    (hpart : part.Tracks (f' g)) (hpos : ∃ t, 0 < f' g t) (hne : ∀ g', g' ≠ g → ∀ t, f' g' t = f g' t) :
    Tracks (c.insert g part) f' := by
  intro g'
  by_cases hg : g' = g
  · subst hg
    exact .inr ⟨part, Finmap.lookup_insert _, hpart, hpos⟩
  · rw [Finmap.lookup_insert_of_ne _ hg]
    rcases h g' with ⟨hnone, hzero⟩ | ⟨row, hrow, htracks, t, ht⟩
    · exact .inl ⟨hnone, fun t => (hne g' hg t).trans (hzero t)⟩
    · exact .inr ⟨row, hrow, htracks.congr fun t => (hne g' hg t).symm, t, (hne g' hg t).symm ▸ ht⟩

/-! ### Counting pairs -/

/-- `c[g][t]++`, where a missing row starts empty. -/
def bump (c : CountTable κ τ) (p : κ × τ) : CountTable κ τ :=
  c.insert p.1 (CountMap.inc ((c.lookup p.1).getD ∅) p.2)

theorem Tracks.getD_row {c : CountTable κ τ} {f : κ → τ → ℕ} (h : Tracks c f) (g : κ) :
    CountMap.Tracks ((c.lookup g).getD ∅) (f g) := by
  cases hg : c.lookup g with
  | none => exact (CountMap.tracks_empty).congr fun t => (h.no_row hg t).symm
  | some part => exact (h.row hg).1

theorem Tracks.bump {c : CountTable κ τ} {f : κ → τ → ℕ} (h : Tracks c f) (p : κ × τ) :
    Tracks (bump c p) fun g t => f g t + [p].count (g, t) := by
  obtain ⟨g₀, t₀⟩ := p
  have hcount : ∀ g t, [(g₀, t₀)].count (g, t) = if g = g₀ ∧ t = t₀ then 1 else 0 := by
    intro g t
    rw [List.count_singleton]
    simp only [beq_iff_eq, Prod.mk.injEq, eq_comm (a := g₀), eq_comm (a := t₀)]
  apply h.insert
  · apply (h.getD_row g₀).inc
    · rw [hcount, if_pos ⟨rfl, rfl⟩]
    · intro t ht
      rw [hcount, if_neg fun hboth => ht hboth.2, Nat.add_zero]
  · refine ⟨t₀, ?_⟩
    rw [hcount, if_pos ⟨rfl, rfl⟩]
    exact Nat.succ_pos _
  · intro g hg t
    rw [hcount, if_neg fun hboth => hg hboth.1, Nat.add_zero]

/-- **Counting the pairs of a list** adds to every count the number of times that the pair is in the list. -/
theorem Tracks.foldl_bump {c : CountTable κ τ} {f : κ → τ → ℕ} (h : Tracks c f) (l : List (κ × τ)) :
    Tracks (l.foldl CountTable.bump c) fun g t => f g t + l.count (g, t) := by
  induction l generalizing c f with
  | nil => exact h
  | cons p l ih =>
    refine (ih (h.bump p)).congr fun g t => ?_
    rw [show p :: l = [p] ++ l from rfl, List.count_append, Nat.add_assoc]

end CountTable
