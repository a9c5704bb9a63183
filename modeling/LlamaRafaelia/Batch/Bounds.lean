import LlamaRafaelia.Batch.Partition
import Mathlib.Data.List.TakeWhile

/-!
# The sizes of the ubatches

The compute buffers are reserved for `n_ubatch` tokens.  `split_simple` and `split_seq` stop in time.  `split_equal` takes
one token of every selected sequence set in its first round, and it selects up to one set more than `n_ubatch`.

* `split_within_iff` - **when a ubatch is within `n_ubatch`**.
-/

namespace BatchAllocr

open List Checked

variable {a : BatchAllocr}

/-! ### The other splitters -/

theorem simpleLoop_length {nUbatch : ℕ} (hn : 1 ≤ nUbatch) (k curIdx : ℕ) :
    (simpleLoop nUbatch k curIdx []).length ≤ nUbatch := by
  rw [simpleLoop_eq nUbatch k curIdx [] (by simp), nil_append, length_range', length_nil]
  omega

theorem seqLoop_length (nUbatch : ℕ) (is : List ℕ) (cur : Finset ℕ) (idxs : List ℕ) (h : idxs.length ≤ nUbatch) :
    (a.seqLoop nUbatch is cur idxs).length ≤ nUbatch := by
  induction is generalizing cur idxs with
  | nil => exact h
  | cons i is ih =>
    rw [seqLoop]
    split
    · exact h
    · next hlt =>
      split
      · exact ih cur idxs h
      · refine ih _ _ ?_
        rw [length_append, length_singleton]
        omega

/-! ### The sets of `split_equal` -/

/-- The sequence sets of the unused tokens that overlap with no earlier one; with `sequential` the sequence ids have to
be consecutive. -/
def disjointSets (a : BatchAllocr) (sequential : Bool) : List ℕ → List (Finset ℕ) → ℤ → List (Finset ℕ)
  | [], cur, _ => cur
  | i :: is, cur, last =>
    let seqId : ℤ := (a.seqAt i).headD 0
    if ¬a.usedAt i ∧ (∀ set ∈ cur, set ∩ a.seqSet i = ∅) ∧ (sequential → cur = [] ∨ seqId = last + 1) then
      a.disjointSets sequential is (cur ++ [a.seqSet i]) seqId
    else a.disjointSets sequential is cur last

theorem disjointSets_append (sequential : Bool) (is : List ℕ) (cur : List (Finset ℕ)) (last : ℤ) :
    ∃ more, a.disjointSets sequential is cur last = cur ++ more := by
  induction is generalizing cur last with
  | nil => exact ⟨[], by simp [disjointSets]⟩
  | cons i is ih =>
    rw [disjointSets]
    split
    · obtain ⟨more, hmore⟩ := ih (cur ++ [a.seqSet i]) ((a.seqAt i).headD 0)
      exact ⟨a.seqSet i :: more, by simpa using hmore⟩
    · exact ih cur last

theorem equalSets_eq (nUbatch : ℕ) (sequential : Bool) (is : List ℕ) (cur : List (Finset ℕ)) (last : ℤ)
    (hcur : cur.length ≤ nUbatch) :
    a.equalSets nUbatch sequential is cur last = (a.disjointSets sequential is cur last).take (nUbatch + 1) := by
  induction is generalizing cur last with
  | nil =>
    rw [equalSets, disjointSets, take_of_length_le (by omega)]
  | cons i is ih =>
    rw [equalSets, disjointSets]
    dsimp only
    by_cases hused : a.usedAt i = true
    · rw [if_pos hused, if_neg (fun h => h.1 hused)]
      exact ih cur last hcur
    · rw [if_neg hused]
      by_cases hadd : (∀ set ∈ cur, set ∩ a.seqSet i = ∅) ∧
          (sequential = true → cur = [] ∨ (((a.seqAt i).headD 0 : ℕ) : ℤ) = last + 1)
      · have hboth : ¬a.usedAt i = true ∧ (∀ set ∈ cur, set ∩ a.seqSet i = ∅) ∧
            (sequential = true → cur = [] ∨ (((a.seqAt i).headD 0 : ℕ) : ℤ) = last + 1) := ⟨hused, hadd⟩
        rw [if_pos hadd, if_pos hboth]
        by_cases hfull : nUbatch < (cur ++ [a.seqSet i]).length
        · rw [if_pos hfull]
          obtain ⟨more, hmore⟩ := disjointSets_append (a := a) sequential is (cur ++ [a.seqSet i])
            ((a.seqAt i).headD 0 : ℕ)
          have hlen : (cur ++ [a.seqSet i]).length = nUbatch + 1 := by
            rw [length_append, length_singleton] at hfull ⊢
            omega
          rw [hmore, ← hlen, take_left]
        · rw [if_neg hfull]
          exact ih _ _ (by omega)
      · rw [if_neg hadd, if_neg (fun h : ¬a.usedAt i = true ∧ _ => hadd h.2)]
        exact ih cur last hcur

/-! ### The rounds of `split_equal` -/

theorem equalLoop_bound (nUbatch fuel j : ℕ) (sets : List (List ℕ × List ℕ)) (hlen : ∀ x ∈ sets, x.2.length = j)
    (hj : j * sets.length ≤ max sets.length nUbatch) (hnext : (j + 1) * sets.length ≤ max sets.length nUbatch) :
    ∀ x ∈ equalLoop nUbatch fuel sets, x.2.length * sets.length ≤ max sets.length nUbatch := by
  induction fuel generalizing sets j with
  | zero =>
    intro x hx
    rw [hlen x hx]
    exact hj
  | succ fuel ih =>
    rw [equalLoop]
    by_cases hleft : ∀ x ∈ sets, x.1 ≠ []
    · rw [if_pos hleft]
      dsimp only
      set sets' := sets.map fun x => (x.1.tail, x.2 ++ [x.1.headD 0]) with hsets'
      have hcount : sets'.length = sets.length := length_map ..
      have hlen' : ∀ x ∈ sets', x.2.length = j + 1 := by
        intro x hx
        obtain ⟨y, hy, rfl⟩ := mem_map.mp hx
        rw [length_append, length_singleton, hlen y hy]
      split
      · intro x hx
        rw [hlen' x hx]
        exact hnext
      · next hfits =>
        rw [← hcount]
        refine ih (j + 1) sets' hlen' (by rwa [hcount]) ?_
        rcases eq_nil_or_concat sets' with hnil | hcons
        · rw [hnil]
          simp
        · have hne : sets' ≠ [] := by
            rintro hnil
            obtain ⟨l, x, heq⟩ := hcons
            rw [heq] at hnil
            simp at hnil
          have hhead : (sets'.headD ([], [])).2.length = j + 1 := by
            cases hcases : sets' with
            | nil => exact absurd hcases hne
            | cons x l => exact hlen' x (hcases ▸ mem_cons_self ..)
          rw [hhead] at hfits
          omega
    · rw [if_neg hleft]
      intro x hx
      rw [hlen x hx]
      exact hj

def fromUnused (a : BatchAllocr) (set : Finset ℕ) : List ℕ := (a.seqSetMap set).dropWhile a.usedAt

theorem mem_fromUnused {set : Finset ℕ} {i : ℕ} (h : i ∈ a.fromUnused set) : a.seqSet i = set := by
  have hmem := (dropWhile_sublist _).subset h
  simpa [seqSetMap] using (mem_filter.mp hmem).2

theorem fromUnused_ne_nil {placed : List ℕ} {set : Finset ℕ} (h : a.unusedIn placed set ≠ []) :
    (a.after placed).fromUnused set ≠ [] := by
  obtain ⟨i, hi⟩ := exists_mem_of_ne_nil _ h
  obtain ⟨hlt, hset, hnew⟩ := (mem_unusedIn).mp hi
  intro hnil
  rw [fromUnused, dropWhile_eq_nil_iff] at hnil
  have hmem : i ∈ (a.after placed).seqSetMap set := by
    rw [seqSetMap, mem_filter]
    exact ⟨List.mem_range.mpr hlt, decide_eq_true hset⟩
  have := hnil i hmem
  rw [after_usedAt a hlt] at this
  exact hnew (of_decide_eq_true this)

/-- **What `split_equal` takes**: `k` tokens of every selected set, and after the first round no more than fit. -/
theorem equal_pick_bound (hn : 0 < a.nTokens) {placed : List ℕ} {nUbatch : ℕ} {sequential : Bool} {p : Pick}
    (hp : (Splitter.equal sequential).pick nUbatch (a.after placed) = some p) :
    let cur := (a.after placed).equalSets nUbatch sequential (List.range a.nTokens) [] (-1)
    p.nSeqs = cur.length ∧ 0 < cur.length ∧ ∃ k, 0 < k ∧ k * cur.length ≤ max cur.length nUbatch ∧
      p.idxs = cur.flatMap (fun set => ((a.after placed).fromUnused set).take k) ∧
      ∀ set ∈ cur, k ≤ ((a.after placed).fromUnused set).length := by
  intro cur
  simp only [Splitter.pick] at hp
  split at hp
  · exact absurd hp (by simp)
  split at hp
  · exact absurd hp (by simp)
  next hne =>
  have hsel : Selected a placed cur := equalSets_selected placed nUbatch sequential
  rw [Option.some.injEq] at hp
  set sets := cur.map fun set => ((a.after placed).fromUnused set, ([] : List ℕ)) with hsets
  have hcount : sets.length = cur.length := length_map ..
  have hidxs : p.idxs = (equalLoop nUbatch a.nTokens sets).flatMap Prod.snd := by
    rw [← hp]
    rfl
  obtain ⟨k, hloop, hle, hk⟩ := equalLoop_spec nUbatch a.nTokens sets
  have hbound := equalLoop_bound nUbatch a.nTokens 0 sets
    (fun x hx => by obtain ⟨set, -, rfl⟩ := mem_map.mp hx; rfl) (by omega)
    (by rw [Nat.zero_add, Nat.one_mul]; exact Nat.le_max_left ..)
  have hpos : 0 < cur.length := length_pos_of_ne_nil hne
  refine ⟨?_, hpos, k, hk hn ?_, ?_, ?_, fun set hset => hle _ (mem_map_of_mem hset)⟩
  · rw [← hp]
    rfl
  · intro x hx
    obtain ⟨set, hset, rfl⟩ := mem_map.mp hx
    exact fromUnused_ne_nil (hsel.left set hset)
  · obtain ⟨set, hset⟩ := exists_mem_of_length_pos hpos
    have hx : ((a.after placed).fromUnused set, ([] : List ℕ)) ∈ sets := mem_map_of_mem hset
    have hmem := hbound _ (hloop ▸ mem_map_of_mem (f := fun x : List ℕ × List ℕ => (x.1.drop k, x.2 ++ x.1.take k)) hx)
    rw [nil_append, length_take, Nat.min_eq_left (hle _ hx), hcount] at hmem
    exact hmem
  · rw [hidxs, hloop, hsets, map_map, flatMap_map]
    rfl

/-! ### The ubatches -/

/-- **Blocks of equal length with disjoint sequence sets**: the tokens of block `s` all have the set number `s`. -/
def EqualBlocks (u : Ubatch) : Prop :=
  u.nTokens = u.nSeqs * u.nSeqTokens ∧ ∃ sets : List (Finset ℕ), sets.length = u.nSeqs ∧
    (sets.Pairwise fun set set' => set ∩ set' = ∅) ∧
    ∀ s < u.nSeqs, ∀ ii < u.nSeqTokens, (u.seqAt (s * u.nSeqTokens + ii)).toFinset = sets.getD s ∅

theorem ubatchOf_seqAt (p : Pick) {i : ℕ} (hi : i < p.idxs.length) :
    (a.ubatchOf p).seqAt i = a.seqAt (p.idxs.getD i 0) := by
  rw [getD_eq_getElem _ _ hi]
  show (p.idxs.map a.seqAt).getD i [] = _
  rw [getD_eq_getElem _ _ (by rwa [length_map]), getElem_map]

theorem equal_ubatch (hn : 0 < a.nTokens) {placed : List ℕ} {nUbatch : ℕ} {sequential : Bool} {p : Pick}
    (hp : (Splitter.equal sequential).pick nUbatch (a.after placed) = some p) :
    ((a.ubatchOf p).nTokens ≤ nUbatch ↔
      ((a.after placed).disjointSets sequential (List.range a.nTokens) [] (-1)).length ≤ nUbatch) ∧
    EqualBlocks (a.ubatchOf p) := by
  obtain ⟨hseqs, hpos, k, hk, hfits, hidxs, hlong⟩ := equal_pick_bound hn hp
  have hcur := equalSets_eq (a := a.after placed) nUbatch sequential (List.range a.nTokens) [] (-1) (Nat.zero_le _)
  have hsel := equalSets_selected (a := a) placed nUbatch sequential
  set cur := (a.after placed).equalSets nUbatch sequential (List.range a.nTokens) [] (-1)
  set all := (a.after placed).disjointSets sequential (List.range a.nTokens) [] (-1)
  have hblock : ∀ set ∈ cur, (((a.after placed).fromUnused set).take k).length = k := by
    intro set hset
    rw [length_take, Nat.min_eq_left (hlong set hset)]
  have htotal : p.idxs.length = cur.length * k := by
    rw [hidxs]
    exact length_flatMap_blocks cur hblock
  have hcount : cur.length = min (nUbatch + 1) all.length := by
    rw [hcur, length_take]
  have hper : (a.ubatchOf p).nSeqTokens = k := by
    show p.idxs.length / p.nSeqs = k
    rw [htotal, hseqs, Nat.mul_div_cancel_left k hpos]
  constructor
  · show p.idxs.length ≤ nUbatch ↔ _
    rw [htotal, Nat.mul_comm]
    have hge : cur.length ≤ k * cur.length := Nat.le_mul_of_pos_left _ hk
    constructor
    · intro h
      omega
    · intro h
      have hsets : cur.length ≤ nUbatch := by omega
      rwa [Nat.max_eq_right hsets] at hfits
  · refine ⟨?_, cur, hseqs.symm, hsel.disjoint, ?_⟩
    · rw [hper]
      exact htotal.trans (by rw [show (a.ubatchOf p).nSeqs = cur.length from hseqs])
    · intro s hs ii hii
      rw [hper] at hii ⊢
      have hs' : s < cur.length := hseqs ▸ hs
      have hlt : s * k + ii < p.idxs.length := by
        rw [htotal]
        calc s * k + ii < s * k + k := by omega
          _ = (s + 1) * k := (Nat.succ_mul s k).symm
          _ ≤ cur.length * k := Nat.mul_le_mul_right k hs'
      rw [ubatchOf_seqAt p hlt, hidxs, getD_flatMap_blocks cur hblock s hs' ii hii, getD_eq_getElem _ _ hs']
      have hmem : cur.get ⟨s, hs'⟩ ∈ cur := get_mem ..
      rw [getD_eq_getElem _ _ (by rw [hblock _ hmem]; exact hii)]
      exact mem_fromUnused (a := a.after placed) (mem_of_mem_take (getElem_mem _))

/-- Calls of the splitters, one after the other, each with its own `n_ubatch`. -/
def afterCalls (a : BatchAllocr) (calls : List (Splitter × ℕ)) : BatchAllocr :=
  calls.foldl (fun a call => (call.1.split call.2 a).value.2) a

theorem afterCalls_eq (calls : List (Splitter × ℕ)) (placed : List ℕ) :
    ∃ placed', (a.after placed).afterCalls calls = a.after placed' := by
  induction calls generalizing placed with
  | nil => exact ⟨placed, rfl⟩
  | cons call calls ih =>
    obtain ⟨sp, nUbatch⟩ := call
    have hstep : ∃ next, (sp.split nUbatch (a.after placed)).value.2 = a.after next := by
      rw [sp.split_eq]
      cases sp.pick nUbatch (a.after placed) with
      | none => exact ⟨placed, rfl⟩
      | some p => exact ⟨placed ++ p.idxs, by rw [handOut_after]⟩
    obtain ⟨next, hnext⟩ := hstep
    obtain ⟨placed', hplaced'⟩ := ih next
    refine ⟨placed', ?_⟩
    rw [← hplaced', ← hnext]
    rfl

/-- **When the ubatches are within `n_ubatch`**: those of `split_simple` and `split_seq` always, those of `split_equal`
exactly when the unused tokens have no more than `n_ubatch` disjoint sequence sets.  The blocks of `split_equal` are equal
and disjoint in any case. -/
theorem split_within_iff {nPosPerEmbd nVocab : ℕ} {b : Batch} {memory : Option Memory} {nSeqMax : ℕ} {outputAll : Bool}
    {a : BatchAllocr} (hc : (init nPosPerEmbd nVocab b memory nSeqMax outputAll).checks = true)
    (hinit : (init nPosPerEmbd nVocab b memory nSeqMax outputAll).value = .ok a) (calls : List (Splitter × ℕ))
    (sp : Splitter) {nUbatch : ℕ} (hn : 1 ≤ nUbatch) :
    let a' := a.splitReset.afterCalls calls
    (∀ u, (sp.split nUbatch a').value.1 = some u →
      u.nTokens ≤ nUbatch ∧ ∀ sequential, sp = .equal sequential → EqualBlocks u) ↔
    ∀ sequential, sp = .equal sequential → ¬(sequential = true ∧ a.hasCpl = true) →
      (a'.disjointSets sequential (List.range a.nTokens) [] (-1)).length ≤ nUbatch := by
  intro a'
  obtain ⟨placed, hplaced⟩ : ∃ placed, a' = a.after placed := by
    show ∃ placed, a.splitReset.afterCalls calls = a.after placed
    rw [splitReset_eq]
    exact afterCalls_eq calls []
  have hpos := init_nTokens_pos hc hinit
  rw [hplaced, sp.split_eq]
  cases hpick : sp.pick nUbatch (a.after placed) with
  | none =>
    refine ⟨fun _ sequential heq hcpl => ?_, fun _ u hu => by cases hu⟩
    -- without coupled sequences the empty ubatch means that no token is left
    subst heq
    simp only [Splitter.pick] at hpick
    rw [if_neg (by exact hcpl)] at hpick
    split at hpick
    · next hnil =>
      have hcur := equalSets_eq (a := a.after placed) nUbatch sequential (List.range a.nTokens) [] (-1)
        (Nat.zero_le _)
      have hzero : (((a.after placed).disjointSets sequential (List.range a.nTokens) [] (-1)).take
          (nUbatch + 1)).length = 0 := by
        rw [← hcur]
        exact congrArg List.length hnil
      rw [length_take] at hzero
      omega
    · exact absurd hpick (by simp)
  | some p =>
    rw [handOut_after]
    dsimp only
    cases sp with
    | simple =>
      refine ⟨fun _ _ heq => (by cases heq), fun _ u hu => ?_⟩
      cases hu
      refine ⟨?_, fun _ heq => by cases heq⟩
      simp only [Splitter.pick] at hpick
      split at hpick
      · exact absurd hpick (by simp)
      · cases hpick
        exact simpleLoop_length hn _ _
    | seq =>
      refine ⟨fun _ _ heq => (by cases heq), fun _ u hu => ?_⟩
      cases hu
      refine ⟨?_, fun _ heq => by cases heq⟩
      simp only [Splitter.pick] at hpick
      split at hpick
      · exact absurd hpick (by simp)
      · cases hpick
        exact seqLoop_length nUbatch _ _ _ hn
    | equal sequential =>
      obtain ⟨hiff, hblocks⟩ := equal_ubatch hpos hpick
      constructor
      · intro h sequential' heq _
        cases heq
        exact hiff.mp (h _ rfl).1
      · intro h u hu
        cases hu
        refine ⟨hiff.mpr (h sequential rfl ?_), fun _ _ => hblocks⟩
        intro hcpl
        simp only [Splitter.pick] at hpick
        rw [if_pos (by exact hcpl)] at hpick
        cases hpick

theorem split_within_overlapping : (init 1 1 overlapping none 2 false).value = .ok overlappingAccepted ∧
    ∀ u, ((Splitter.equal false).split 2 (overlappingAccepted.splitReset.afterCalls [(.simple, 1)])).value.1 = some u →
      u.nTokens ≤ 2 ∧ ∀ sequential, Splitter.equal false = .equal sequential → EqualBlocks u :=
  ⟨overlapping_init, (split_within_iff (by decide +kernel) overlapping_init [(.simple, 1)] (.equal false)
    (by decide : 1 ≤ 2)).mpr (by decide +kernel)⟩

def pair : Batch := .text [0, 0] [[0], [1]] rfl

/-- `pair` as `init` accepts it. -/
def pairAccepted : BatchAllocr := (sanitize 1 pair none 2 false).splitReset

/-- **One set too many**: with `n_ubatch = 1` the ubatch has a token of each of the two sequences. -/
theorem split_equal_exceeds : (init 1 1 pair none 2 false).value = .ok pairAccepted ∧
    ((Splitter.equal false).split 1 pairAccepted.splitReset).value.1.map Ubatch.nTokens = some 2 :=
  ⟨init_eq (by decide +kernel), by decide +kernel⟩

end BatchAllocr
