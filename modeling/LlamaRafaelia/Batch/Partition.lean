import LlamaRafaelia.Batch.Split

/-!
# The splitters partition the batch

Each splitter is called until it returns the empty ubatch; a run is a list of such rounds (`Rounds`).  `Progress` is
what every splitter provides.  `split_equal` consumes several lists of tokens in lock-step and stays inside them,
because the tokens of a set are handed out from the front (`SetOrder`) and the sets of a ubatch are disjoint.

* **`split_partitions`** — from any accepted batch, each splitter ends and has handed out every token in
  exactly one ubatch.
-/

namespace BatchAllocr

open List Checked

/-! ### Picking tokens and handing them out -/

/-- The tokens that a splitter takes, and how it groups them. -/
structure Pick where
  idxs : List ℕ
  nSeqs : ℕ
  equalSeqs : Bool

/-- The tokens of a pick are handed out as one ubatch; without a pick the ubatch is empty. -/
def handOut (a : BatchAllocr) : Option Pick → Checked (Option Ubatch × BatchAllocr)
  | none => pure (none, a)
  | some p => do
    let r ← (a.use p.idxs).ubatchAdd p.idxs p.nSeqs p.equalSeqs
    return (some r.1, r.2)

def ubatchOf (a : BatchAllocr) (p : Pick) : Ubatch := (a.ubatchAdd p.idxs p.nSeqs p.equalSeqs).value.1

/-- The splitters of `llama_batch_allocr`. -/
inductive Splitter where
  | simple
  | equal (sequential : Bool)
  | seq
  deriving DecidableEq, Repr

namespace Splitter

def split (sp : Splitter) (nUbatch : ℕ) (a : BatchAllocr) : Checked (Option Ubatch × BatchAllocr) :=
  match sp with
  | simple => a.splitSimple nUbatch
  | equal sequential => a.splitEqual nUbatch sequential
  | seq => a.splitSeq nUbatch

def pick (sp : Splitter) (nUbatch : ℕ) (a : BatchAllocr) : Option Pick :=
  match sp with
  | simple =>
    if a.used.length ≤ a.firstUnused then none
    else
      let idxs := simpleLoop nUbatch (a.used.length - a.firstUnused) a.firstUnused []
      some ⟨idxs, idxs.length, false⟩
  | equal sequential =>
    if sequential ∧ a.hasCpl then none
    else
      let cur := a.equalSets nUbatch sequential (range a.nTokens) [] (-1)
      if cur = [] then none
      else
        let sets := cur.map fun set => ((a.seqSetMap set).dropWhile a.usedAt, [])
        some ⟨(equalLoop nUbatch a.nTokens sets).flatMap Prod.snd, cur.length, true⟩
  | seq =>
    if a.used.length ≤ a.firstUnused then none
    else
      let rest := range' (a.firstUnused + 1) (a.nTokens - (a.firstUnused + 1))
      some ⟨a.seqLoop nUbatch rest (a.seqSet a.firstUnused) [a.firstUnused], 1, true⟩

theorem split_eq (sp : Splitter) (nUbatch : ℕ) (a : BatchAllocr) :
    sp.split nUbatch a = a.handOut (sp.pick nUbatch a) := by
  cases sp with
  | simple =>
    show a.splitSimple nUbatch = _
    simp only [splitSimple, pick]
    split
    · rfl
    · rfl
  | equal sequential =>
    show a.splitEqual nUbatch sequential = _
    simp only [splitEqual, pick]
    split
    · rfl
    · split
      · rfl
      · rfl
  | seq =>
    show a.splitSeq nUbatch = _
    simp only [splitSeq, pick]
    split
    · rfl
    · rfl

end Splitter

variable {a : BatchAllocr}

theorem handOut_after (placed : List ℕ) (p : Pick) :
    (handOut (a.after placed) (some p)).value = (some (a.ubatchOf p), a.after (placed ++ p.idxs)) := by
  simp only [handOut, bind_value, pure_value, use_after]
  rfl

theorem handOut_asserts (placed : List ℕ) (p : Pick) :
    (handOut (a.after placed) (some p)).asserts = decide (p.idxs.length % p.nSeqs = 0) := by
  simp [handOut, ubatchAdd]

/-! ### Runs as rounds -/

/-- The tokens `placed` were handed out in some rounds of `pick`. -/
inductive Rounds (a : BatchAllocr) (pick : BatchAllocr → Option Pick) : List ℕ → Prop
  | nil : Rounds a pick []
  | round {placed : List ℕ} {p : Pick} (h : Rounds a pick placed) (hp : pick (a.after placed) = some p) :
      Rounds a pick (placed ++ p.idxs)

/-- A pick of tokens that are left, in blocks of equal length. -/
structure Fresh (a : BatchAllocr) (placed : List ℕ) (p : Pick) : Prop where
  ne : p.idxs ≠ []
  nodup : p.idxs.Nodup
  lt : ∀ i ∈ p.idxs, i < a.nTokens
  new : ∀ i ∈ p.idxs, i ∉ placed
  blocks : p.idxs.length % p.nSeqs = 0

/-- As long as a token is left, a call takes some of the tokens that are left. -/
structure Progress (a : BatchAllocr) (pick : BatchAllocr → Option Pick) : Prop where
  ended : ∀ placed, Rounds a pick placed → pick (a.after placed) = none → ∀ i < a.nTokens, i ∈ placed
  fresh : ∀ placed p, Rounds a pick placed → pick (a.after placed) = some p → Fresh a placed p

theorem Rounds.invariant {pick : BatchAllocr → Option Pick} (I : List ℕ → Prop) (h0 : I [])
    (hstep : ∀ placed p, I placed → pick (a.after placed) = some p → I (placed ++ p.idxs))
    {placed : List ℕ} (h : Rounds a pick placed) : I placed := by
  induction h with
  | nil => exact h0
  | round _ hp ih => exact hstep _ _ ih hp

theorem Progress.of_invariant {pick : BatchAllocr → Option Pick} (I : List ℕ → Prop) (h0 : I [])
    (hnone : ∀ placed, I placed → pick (a.after placed) = none → ∀ i < a.nTokens, i ∈ placed)
    (hsome : ∀ placed p, I placed → pick (a.after placed) = some p →
      Fresh a placed p ∧ I (placed ++ p.idxs)) : Progress a pick := by
  have hinv : ∀ placed, Rounds a pick placed → I placed := fun placed h =>
    h.invariant I h0 fun placed p hI hp => (hsome placed p hI hp).2
  exact ⟨fun placed h => hnone placed (hinv placed h), fun placed p h hp => (hsome placed p (hinv placed h) hp).1⟩

section Progress

variable {pick : BatchAllocr → Option Pick}

theorem Progress.nodup (h : Progress a pick) {placed : List ℕ} (hr : Rounds a pick placed) :
    placed.Nodup := by
  induction hr with
  | nil => exact nodup_nil
  | round hr hp ih =>
    have hfresh := h.fresh _ _ hr hp
    exact nodup_append.mpr ⟨ih, hfresh.nodup, fun i hi j hj heq => hfresh.new j hj (heq ▸ hi)⟩

theorem Progress.lt (h : Progress a pick) {placed : List ℕ} (hr : Rounds a pick placed) :
    ∀ i ∈ placed, i < a.nTokens := by
  induction hr with
  | nil => simp
  | round hr hp ih =>
    intro i hi
    rcases mem_append.mp hi with hi | hi
    · exact ih i hi
    · exact (h.fresh _ _ hr hp).lt i hi

theorem Progress.length_le (h : Progress a pick) {placed : List ℕ} (hr : Rounds a pick placed) :
    placed.length ≤ a.nTokens := by
  have hsub : placed ⊆ range a.nTokens := fun i hi => mem_range.mpr (h.lt hr i hi)
  calc placed.length ≤ (range a.nTokens).length := ((h.nodup hr).subperm hsub).length_le
    _ = a.nTokens := length_range

theorem Progress.perm (h : Progress a pick) {placed : List ℕ} (hr : Rounds a pick placed)
    (hlast : pick (a.after placed) = none) : placed.Perm (range a.nTokens) := by
  refine (perm_ext_iff_of_nodup (h.nodup hr) nodup_range).mpr fun i => ⟨fun hi => ?_, fun hi => ?_⟩
  · exact mem_range.mpr (h.lt hr i hi)
  · exact h.ended placed hr hlast i (mem_range.mp hi)

end Progress

/-- The picks of the calls that follow once `placed` was handed out, until one picks nothing. -/
def pickLoop (pick : BatchAllocr → Option Pick) (a : BatchAllocr) : ℕ → List ℕ → List Pick
  | 0, _ => []
  | fuel + 1, placed =>
    match pick (a.after placed) with
    | none => []
    | some p => p :: pickLoop pick a fuel (placed ++ p.idxs)

theorem splitLoop_value (sp : Splitter) (nUbatch fuel : ℕ) (placed : List ℕ) (us : List Ubatch) :
    (splitLoop (sp.split nUbatch) fuel (a.after placed) us).value
      = (us ++ (pickLoop (sp.pick nUbatch) a fuel placed).map a.ubatchOf,
        a.after (placed ++ (pickLoop (sp.pick nUbatch) a fuel placed).flatMap Pick.idxs)) := by
  induction fuel generalizing placed us with
  | zero => simp [splitLoop, pickLoop]
  | succ fuel ih =>
    simp only [splitLoop, pickLoop, sp.split_eq, bind_value]
    cases sp.pick nUbatch (a.after placed) with
    | none => simp [handOut]
    | some p =>
      rw [handOut_after]
      simp [ih]

theorem Rounds.pickLoop {pick : BatchAllocr → Option Pick} (fuel : ℕ) {placed : List ℕ}
    (h : Rounds a pick placed) :
    Rounds a pick (placed ++ (BatchAllocr.pickLoop pick a fuel placed).flatMap Pick.idxs) := by
  induction fuel generalizing placed with
  | zero => simpa [BatchAllocr.pickLoop] using h
  | succ fuel ih =>
    cases hp : pick (a.after placed) with
    | none => simpa [BatchAllocr.pickLoop, hp] using h
    | some p => simpa [BatchAllocr.pickLoop, hp] using ih (h.round hp)

section Run

variable {sp : Splitter} {nUbatch : ℕ}

theorem Progress.splitLoop_asserts (h : Progress a (sp.pick nUbatch)) (fuel : ℕ) {placed : List ℕ}
    (hr : Rounds a (sp.pick nUbatch) placed) (us : List Ubatch) :
    (splitLoop (sp.split nUbatch) fuel (a.after placed) us).asserts = true := by
  induction fuel generalizing placed us with
  | zero => rfl
  | succ fuel ih =>
    simp only [splitLoop, sp.split_eq, bind_asserts]
    cases hp : sp.pick nUbatch (a.after placed) with
    | none => rfl
    | some p =>
      rw [handOut_asserts, handOut_after, (h.fresh placed p hr hp).blocks]
      simpa using ih (hr.round hp) (us ++ [a.ubatchOf p])

theorem Progress.pickLoop_ends {pick : BatchAllocr → Option Pick} (h : Progress a pick) (fuel : ℕ)
    {placed : List ℕ} (hr : Rounds a pick placed) (hfuel : a.nTokens < placed.length + fuel) :
    (∀ p ∈ pickLoop pick a fuel placed, p.idxs ≠ []) ∧
      pick (a.after (placed ++ (pickLoop pick a fuel placed).flatMap Pick.idxs)) = none := by
  induction fuel generalizing placed with
  | zero =>
    have := h.length_le hr
    omega
  | succ fuel ih =>
    simp only [pickLoop]
    cases hp : pick (a.after placed) with
    | none => simpa using hp
    | some p =>
      have hne := (h.fresh placed p hr hp).ne
      have hlen : a.nTokens < (placed ++ p.idxs).length + fuel := by
        have := length_pos_of_ne_nil hne
        rw [length_append]
        omega
      obtain ⟨hall, hlast⟩ := ih (hr.round hp) hlen
      refine ⟨fun q hq => ?_, ?_⟩
      · rcases mem_cons.mp hq with rfl | hq
        · exact hne
        · exact hall q hq
      · simpa using hlast

end Run

/-! ### The first unused token -/

theorem after_used_length (placed : List ℕ) : (a.after placed).used.length = a.nTokens := by
  simp [after]

theorem firstUnused_le {placed : List ℕ} {i : ℕ} (hnew : i ∉ placed) :
    (a.after placed).firstUnused ≤ i := by
  by_contra hlt
  have hused := not_of_lt_findIdx (Nat.not_le.mp hlt)
  simp [after, hnew] at hused

theorem firstUnused_not_mem {placed : List ℕ} (hlt : (a.after placed).firstUnused < a.nTokens) :
    (a.after placed).firstUnused ∉ placed := by
  have hlen : (a.after placed).firstUnused < (a.after placed).used.length := by rwa [after_used_length]
  have hget := findIdx_getElem (w := hlen)
  simpa [after, firstUnused] using hget

theorem mem_of_firstUnused {placed : List ℕ} (h : (a.after placed).used.length ≤ (a.after placed).firstUnused)
    {i : ℕ} (hi : i < a.nTokens) : i ∈ placed := by
  rw [after_used_length] at h
  by_contra hnew
  have := firstUnused_le (a := a) hnew
  omega

/-! ### Progress of `split_simple` and `split_seq` -/

theorem simple_pick {nUbatch k : ℕ} (hk : k ≤ a.nTokens) {p : Pick}
    (hp : Splitter.simple.pick nUbatch (a.after (range k)) = some p) :
    Fresh a (range k) p ∧ ∃ m ≤ a.nTokens, range k ++ p.idxs = range m := by
  simp only [Splitter.pick, after_used_length, after_firstUnused hk] at hp
  split at hp
  · exact absurd hp (by simp)
  · next hlt =>
    rw [simpleLoop_eq nUbatch _ _ _ (by simp), nil_append, length_nil, Nat.sub_zero,
      Option.some.injEq] at hp
    subst hp
    have hmem : ∀ i ∈ range' k (min (a.nTokens - k) (max nUbatch 1)), k ≤ i ∧ i < a.nTokens := by
      intro i hi
      have := mem_range'_1.mp hi
      omega
    refine ⟨⟨?_, nodup_range', fun i hi => (hmem i hi).2, fun i hi => ?_, Nat.mod_self _⟩,
      k + min (a.nTokens - k) (max nUbatch 1), by omega, ?_⟩
    · rw [Ne, range'_eq_nil_iff]
      omega
    · have := (hmem i hi).1
      rw [mem_range]
      omega
    · rw [range_eq_range', range_eq_range', ← range'_append_1, Nat.zero_add]

theorem simple_progress (nUbatch : ℕ) : Progress a (Splitter.simple.pick nUbatch) := by
  refine Progress.of_invariant (fun placed => ∃ k ≤ a.nTokens, placed = range k)
    ⟨0, Nat.zero_le _, rfl⟩ ?_ ?_
  · intro placed _ hp i hi
    simp only [Splitter.pick] at hp
    split at hp
    · next hle => exact mem_of_firstUnused hle hi
    · exact absurd hp (by simp)
  · rintro placed p ⟨k, hk, rfl⟩ hp
    exact simple_pick hk hp

theorem seqLoop_sublist (placed : List ℕ) (nUbatch : ℕ) (is : List ℕ) (his : ∀ i ∈ is, i < a.nTokens)
    (cur : Finset ℕ) (idxs : List ℕ) :
    ∃ l, (a.after placed).seqLoop nUbatch is cur idxs = idxs ++ l ∧ l.Sublist is ∧ ∀ i ∈ l, i ∉ placed := by
  induction is generalizing cur idxs with
  | nil => exact ⟨[], by simp [seqLoop], List.Sublist.refl _, by simp⟩
  | cons i is ih =>
    have hi : i < a.nTokens := his i (by simp)
    have his' : ∀ j ∈ is, j < a.nTokens := fun j hj => his j (by simp [hj])
    simp only [seqLoop, after_usedAt a hi, decide_eq_true_eq]
    split
    · exact ⟨[], by simp, nil_sublist _, by simp⟩
    split
    · obtain ⟨l, hl, hsub, hnew⟩ := ih his' cur idxs
      exact ⟨l, hl, hsub.cons i, hnew⟩
    · next htake =>
      obtain ⟨l, hl, hsub, hnew⟩ := ih his' ((a.after placed).seqSet i) (idxs ++ [i])
      refine ⟨i :: l, by simpa using hl, hsub.cons_cons i, fun j hj => ?_⟩
      rcases mem_cons.mp hj with rfl | hj
      · exact fun hmem => htake (Or.inl hmem)
      · exact hnew j hj

theorem seq_progress (nUbatch : ℕ) : Progress a (Splitter.seq.pick nUbatch) := by
  refine Progress.of_invariant (fun _ => True) trivial ?_ ?_
  · intro placed _ hp i hi
    simp only [Splitter.pick] at hp
    split at hp
    · next hle => exact mem_of_firstUnused hle hi
    · exact absurd hp (by simp)
  · intro placed p _ hp
    simp only [Splitter.pick, after_used_length] at hp
    split at hp
    · exact absurd hp (by simp)
    · next hle =>
      rw [Nat.not_le] at hle
      set f := (a.after placed).firstUnused with hf
      have hrest : ∀ i ∈ range' (f + 1) (a.nTokens - (f + 1)), f < i ∧ i < a.nTokens := by
        intro i hi
        have := mem_range'_1.mp hi
        omega
      obtain ⟨l, hl, hsub, hnew⟩ := seqLoop_sublist placed nUbatch
        (range' (f + 1) (a.nTokens - (f + 1))) (fun i hi => (hrest i hi).2)
        ((a.after placed).seqSet f) [f]
      have hidxs : p.idxs = f :: l ∧ p.nSeqs = 1 := by
        rw [Option.some.injEq] at hp
        rw [← hp]
        exact ⟨hl, rfl⟩
      refine ⟨⟨by simp [hidxs], ?_, fun i hi => ?_, fun i hi => ?_, by rw [hidxs.2]; exact Nat.mod_one _⟩,
        trivial⟩
      · rw [hidxs.1, nodup_cons]
        exact ⟨fun hmem => absurd (hrest f (hsub.subset hmem)).1 (lt_irrefl f), hsub.nodup nodup_range'⟩
      · rw [hidxs.1] at hi
        rcases mem_cons.mp hi with rfl | hi
        · exact hle
        · exact (hrest i (hsub.subset hi)).2
      · rw [hidxs.1] at hi
        rcases mem_cons.mp hi with rfl | hi
        · exact firstUnused_not_mem hle
        · exact hnew i hi

/-! ### Progress of `split_equal` -/

def SetOrder (a : BatchAllocr) (placed : List ℕ) : Prop :=
  ∀ i j, i < j → a.seqSet i = a.seqSet j → j < a.nTokens → j ∈ placed → i ∈ placed

/-- The tokens with sequence set `set` that are left. -/
def unusedIn (a : BatchAllocr) (placed : List ℕ) (set : Finset ℕ) : List ℕ :=
  (a.seqSetMap set).filter fun i => i ∉ placed

theorem mem_unusedIn {placed : List ℕ} {set : Finset ℕ} {i : ℕ} :
    i ∈ a.unusedIn placed set ↔ i < a.nTokens ∧ a.seqSet i = set ∧ i ∉ placed := by
  simp only [unusedIn, seqSetMap, mem_filter, mem_range, decide_eq_true_eq, and_assoc]

theorem unusedIn_sorted (placed : List ℕ) (set : Finset ℕ) : (a.unusedIn placed set).Pairwise (· < ·) :=
  (pairwise_lt_range.filter _).filter _

theorem dropWhile_eq_filter {p : ℕ → Bool} {l : List ℕ}
    (h : l.Pairwise fun i j => p j = true → p i = true) : l.dropWhile p = l.filter fun i => !p i := by
  induction l with
  | nil => rfl
  | cons i l ih =>
    obtain ⟨hi, hl⟩ := pairwise_cons.mp h
    cases hp : p i with
    | true => rw [dropWhile_cons_of_pos hp, filter_cons_of_neg (by simp [hp]), ih hl]
    | false =>
      have hrest : ∀ j ∈ l, (!p j) = true := by
        intro j hj
        cases hpj : p j with
        | false => rfl
        | true => exact absurd (hi j hj hpj) (by simp [hp])
      rw [dropWhile_cons_of_neg (by simp [hp]), filter_cons_of_pos (by simp [hp]),
        filter_eq_self.mpr hrest]

theorem SetOrder.dropWhile {placed : List ℕ} (h : SetOrder a placed) (set : Finset ℕ) :
    (a.seqSetMap set).dropWhile (a.after placed).usedAt = a.unusedIn placed set := by
  have hmem : ∀ i ∈ a.seqSetMap set, i < a.nTokens ∧ a.seqSet i = set := by
    intro i hi
    simpa [seqSetMap] using hi
  have hsorted : (a.seqSetMap set).Pairwise (· < ·) := pairwise_lt_range.filter _
  have hused : (a.seqSetMap set).Pairwise fun i j =>
      (a.after placed).usedAt j = true → (a.after placed).usedAt i = true := by
    refine hsorted.imp_of_mem fun {i j} hi hj hlt hj' => ?_
    obtain ⟨hilt, hiset⟩ := hmem i hi
    obtain ⟨hjlt, hjset⟩ := hmem j hj
    rw [after_usedAt a hjlt, decide_eq_true_eq] at hj'
    rw [after_usedAt a hilt, decide_eq_true_eq]
    exact h i j hlt (hiset.trans hjset.symm) hjlt hj'
  rw [dropWhile_eq_filter hused]
  refine filter_congr fun i hi => ?_
  rw [after_usedAt a (hmem i hi).1]
  simp

/-- **The sets of a ubatch.**  A property of lists of sets that survives adding the set of an unused token,
disjoint from the others, holds of the sets that `split_equal` selects. -/
theorem equalSets_rule {placed : List ℕ} (I : List (Finset ℕ) → Prop)
    (hadd : ∀ cur i, I cur → i < a.nTokens → i ∉ placed → (∀ set ∈ cur, set ∩ a.seqSet i = ∅) →
      I (cur ++ [a.seqSet i]))
    (nUbatch : ℕ) (sequential : Bool) (is : List ℕ) (his : ∀ i ∈ is, i < a.nTokens)
    (cur : List (Finset ℕ)) (last : ℤ) (h : I cur) :
    I ((a.after placed).equalSets nUbatch sequential is cur last) := by
  induction is generalizing cur last with
  | nil => exact h
  | cons i is ih =>
    have hi : i < a.nTokens := his i (by simp)
    have his' : ∀ j ∈ is, j < a.nTokens := fun j hj => his j (by simp [hj])
    simp only [equalSets, after_usedAt a hi, decide_eq_true_eq]
    split
    · exact ih his' cur last h
    next hnew =>
    split
    · next hcond =>
      have hcur : I (cur ++ [a.seqSet i]) := hadd cur i h hi hnew hcond.1
      split
      · exact hcur
      · exact ih his' _ _ hcur
    · exact ih his' cur last h

theorem equalSets_append (nUbatch : ℕ) (sequential : Bool) (is : List ℕ) (cur : List (Finset ℕ)) (last : ℤ) :
    ∃ more, a.equalSets nUbatch sequential is cur last = cur ++ more := by
  induction is generalizing cur last with
  | nil => exact ⟨[], by simp [equalSets]⟩
  | cons i is ih =>
    simp only [equalSets]
    split
    · exact ih cur last
    split
    · split
      · exact ⟨[a.seqSet i], rfl⟩
      · obtain ⟨more, hmore⟩ := ih (cur ++ [a.seqSet i]) ((a.seqAt i).headD 0)
        exact ⟨a.seqSet i :: more, by simpa using hmore⟩
    · exact ih cur last

theorem equalSets_ne_nil {placed : List ℕ} (nUbatch : ℕ) (sequential : Bool) (is : List ℕ)
    (his : ∀ i ∈ is, i < a.nTokens) (last : ℤ) {i : ℕ} (hi : i ∈ is) (hnew : i ∉ placed) :
    (a.after placed).equalSets nUbatch sequential is [] last ≠ [] := by
  induction is with
  | nil => exact absurd hi (by simp)
  | cons j is ih =>
    have hj : j < a.nTokens := his j (by simp)
    simp only [equalSets, after_usedAt a hj, decide_eq_true_eq]
    split
    · next hused =>
      have hne : i ≠ j := fun heq => hnew (heq ▸ hused)
      exact ih (fun j hj => his j (by simp [hj])) ((mem_cons.mp hi).resolve_left hne)
    · -- the first unused token is always added
      split
      · split
        · simp
        · obtain ⟨more, hmore⟩ := equalSets_append (a := a.after placed) nUbatch sequential is
            ([] ++ [(a.after placed).seqSet j]) (((a.after placed).seqAt j).headD 0)
          rw [hmore]
          simp
      · next hcond => exact absurd ⟨by simp, fun _ => Or.inl trivial⟩ hcond

/-- The sets that `split_equal` selects for a ubatch. -/
structure Selected (a : BatchAllocr) (placed : List ℕ) (cur : List (Finset ℕ)) : Prop where
  left : ∀ set ∈ cur, a.unusedIn placed set ≠ []
  disjoint : cur.Pairwise fun set set' => set ∩ set' = ∅

theorem equalSets_selected (placed : List ℕ) (nUbatch : ℕ) (sequential : Bool) :
    Selected a placed ((a.after placed).equalSets nUbatch sequential (range a.nTokens) [] (-1)) := by
  refine equalSets_rule (Selected a placed) ?_ nUbatch sequential _ (fun i hi => mem_range.mp hi) _ _
    ⟨by simp, List.Pairwise.nil⟩
  intro cur i h hi hnew hdisj
  refine ⟨fun set hset => ?_, ?_⟩
  · rcases mem_append.mp hset with hset | hset
    · exact h.left set hset
    · rw [mem_singleton.mp hset]
      exact ne_nil_of_mem ((mem_unusedIn).mpr ⟨hi, rfl, hnew⟩)
  · refine pairwise_append.mpr ⟨h.disjoint, pairwise_singleton _ _, fun set hset set' hset' => ?_⟩
    rw [mem_singleton.mp hset']
    exact hdisj set hset

/-- `k` tokens of each of the sets `cur`. -/
def setIdxs (a : BatchAllocr) (placed : List ℕ) (cur : List (Finset ℕ)) (k : ℕ) : List ℕ :=
  cur.flatMap fun set => (a.unusedIn placed set).take k

theorem mem_setIdxs {placed : List ℕ} {cur : List (Finset ℕ)} {k i : ℕ} :
    i ∈ a.setIdxs placed cur k ↔ ∃ set ∈ cur, i ∈ (a.unusedIn placed set).take k := by
  simp only [setIdxs, mem_flatMap]

theorem equal_pick (hn : 0 < a.nTokens) {placed : List ℕ} (hord : SetOrder a placed) {nUbatch : ℕ}
    {sequential : Bool} {p : Pick} (hp : (Splitter.equal sequential).pick nUbatch (a.after placed) = some p) :
    let cur := (a.after placed).equalSets nUbatch sequential (range a.nTokens) [] (-1)
    cur ≠ [] ∧ p.nSeqs = cur.length ∧ ∃ k, 0 < k ∧ p.idxs = a.setIdxs placed cur k ∧
      ∀ set ∈ cur, k ≤ (a.unusedIn placed set).length := by
  intro cur
  simp only [Splitter.pick] at hp
  split at hp
  · exact absurd hp (by simp)
  split at hp
  · exact absurd hp (by simp)
  next hne =>
  have hsel : Selected a placed cur := equalSets_selected placed nUbatch sequential
  have hstart : (cur.map fun set =>
      (((a.after placed).seqSetMap set).dropWhile (a.after placed).usedAt, ([] : List ℕ)))
      = cur.map fun set => (a.unusedIn placed set, []) :=
    map_congr_left fun set _ => by rw [← hord.dropWhile set]; rfl
  obtain ⟨k, hloop, hle, hk⟩ := equalLoop_spec nUbatch a.nTokens (cur.map fun set => (a.unusedIn placed set, []))
  rw [Option.some.injEq] at hp
  refine ⟨hne, ?_, k, hk hn fun x hx => ?_, ?_, fun set hset => hle _ (mem_map_of_mem hset)⟩
  · rw [← hp]
    rfl
  · obtain ⟨set, hset, rfl⟩ := mem_map.mp hx
    exact hsel.left set hset
  · rw [← hp]
    show (equalLoop nUbatch a.nTokens (cur.map fun set =>
      (((a.after placed).seqSetMap set).dropWhile (a.after placed).usedAt, ([] : List ℕ)))).flatMap Prod.snd = _
    rw [hstart, hloop, map_map, flatMap_map]
    rfl

theorem Selected.setIdxs_nodup {placed : List ℕ} {cur : List (Finset ℕ)} (h : Selected a placed cur)
    (hne : ∀ i < a.nTokens, (a.seqSet i).Nonempty) (k : ℕ) : (a.setIdxs placed cur k).Nodup := by
  refine nodup_flatMap.mpr ⟨fun set _ => ?_, h.disjoint.imp fun {set set'} hdisj i hi hi' => ?_⟩
  · exact ((unusedIn_sorted placed set).imp fun hlt => ne_of_lt hlt).sublist (take_sublist k _)
  · obtain ⟨hlt, hset, -⟩ := (mem_unusedIn).mp (mem_of_mem_take hi)
    obtain ⟨-, hset', -⟩ := (mem_unusedIn).mp (mem_of_mem_take hi')
    rw [← hset, ← hset', Finset.inter_self] at hdisj
    exact (hne i hlt).ne_empty hdisj

theorem mem_take_of_lt {l : List ℕ} (h : l.Pairwise (· < ·)) {k i j : ℕ} (hi : i ∈ l) (hj : j ∈ l.take k)
    (hlt : i < j) : i ∈ l.take k := by
  rw [← take_append_drop k l] at h hi
  rcases mem_append.mp hi with hi | hi
  · exact hi
  · have := (pairwise_append.mp h).2.2 j hj i hi
    omega

theorem SetOrder.setIdxs {placed : List ℕ} (h : SetOrder a placed) (cur : List (Finset ℕ)) (k : ℕ) :
    SetOrder a (placed ++ a.setIdxs placed cur k) := by
  intro i j hlt hset hj hmem
  rcases mem_append.mp hmem with hmem | hmem
  · exact mem_append_left _ (h i j hlt hset hj hmem)
  · by_cases hold : i ∈ placed
    · exact mem_append_left _ hold
    · obtain ⟨set, hcur, htake⟩ := (mem_setIdxs).mp hmem
      obtain ⟨-, hjset, -⟩ := (mem_unusedIn).mp (mem_of_mem_take htake)
      have hi : i ∈ a.unusedIn placed set := (mem_unusedIn).mpr ⟨by omega, hset.trans hjset, hold⟩
      exact mem_append_right _
        ((mem_setIdxs).mpr ⟨set, hcur, mem_take_of_lt (unusedIn_sorted placed set) hi htake hlt⟩)

theorem equal_progress (hn : 0 < a.nTokens) (hne : ∀ i < a.nTokens, (a.seqSet i).Nonempty) (nUbatch : ℕ)
    (sequential : Bool) (hcpl : sequential = true → a.hasCpl = false) :
    Progress a ((Splitter.equal sequential).pick nUbatch) := by
  refine Progress.of_invariant (SetOrder a) (fun _ _ _ _ _ hmem => absurd hmem (by simp)) ?_ ?_
  · intro placed _ hp i hi
    by_contra hnew
    have hsets := equalSets_ne_nil (a := a) nUbatch sequential (range a.nTokens)
      (fun i hi => mem_range.mp hi) (-1) (mem_range.mpr hi) hnew
    simp only [Splitter.pick] at hp
    split at hp
    · next hboth =>
      have hcpl' : a.hasCpl = true := hboth.2
      rw [hcpl hboth.1] at hcpl'
      exact absurd hcpl' (by simp)
    · split at hp
      · next hnil => exact hsets hnil
      · exact absurd hp (by simp)
  · intro placed p hord hp
    obtain ⟨hcur, hseqs, k, hk, hidxs, hle⟩ := equal_pick hn hord hp
    set cur := (a.after placed).equalSets nUbatch sequential (range a.nTokens) [] (-1) with hcurdef
    have hlen : p.idxs.length = cur.length * k := by
      rw [hidxs, BatchAllocr.setIdxs, length_flatMap_blocks]
      intro set hset
      rw [length_take, Nat.min_eq_left (hle set hset)]
    have hmem : ∀ i ∈ p.idxs, i < a.nTokens ∧ i ∉ placed := by
      intro i hi
      rw [hidxs] at hi
      obtain ⟨set, -, hset⟩ := (mem_setIdxs).mp hi
      obtain ⟨hlt, -, hnew⟩ := (mem_unusedIn).mp (mem_of_mem_take hset)
      exact ⟨hlt, hnew⟩
    refine ⟨⟨?_, ?_, fun i hi => (hmem i hi).1, fun i hi => (hmem i hi).2, ?_⟩, ?_⟩
    · rw [← length_pos_iff, hlen]
      exact Nat.mul_pos (length_pos_iff.mpr hcur) hk
    · rw [hidxs]
      exact (equalSets_selected placed nUbatch sequential).setIdxs_nodup hne k
    · rw [hlen, hseqs]
      exact Nat.mul_mod_right _ _
    · rw [hidxs]
      exact hord.setIdxs cur k

/-! ### The partition -/

section Accepted

variable {nPosPerEmbd nVocab : ℕ} {b : Batch} {memory : Option Memory} {nSeqMax : ℕ} {outputAll : Bool}

theorem init_nTokens_pos (hc : (init nPosPerEmbd nVocab b memory nSeqMax outputAll).checks = true)
    (hinit : (init nPosPerEmbd nVocab b memory nSeqMax outputAll).value = .ok a) : 0 < a.nTokens := by
  obtain ⟨-, -, -, rfl⟩ := init_ok hinit
  show 0 < b.nTokens
  simpa [init] using hc

theorem init_seqSet_nonempty (hlist : b.Listed)
    (hinit : (init nPosPerEmbd nVocab b memory nSeqMax outputAll).value = .ok a) :
    ∀ i < a.nTokens, (a.seqSet i).Nonempty := by
  obtain ⟨-, -, -, rfl⟩ := init_ok hinit
  intro i hi
  exact toFinset_nonempty_iff _ |>.mpr (sanitize_seq_ne nPosPerEmbd hlist memory nSeqMax outputAll i hi)

theorem init_progress (hc : (init nPosPerEmbd nVocab b memory nSeqMax outputAll).checks = true)
    (hinit : (init nPosPerEmbd nVocab b memory nSeqMax outputAll).value = .ok a) (sp : Splitter)
    (hlist : ∀ sequential, sp = .equal sequential → b.Listed) (hcpl : sp = .equal true → a.hasCpl = false)
    (nUbatch : ℕ) : Progress a (sp.pick nUbatch) := by
  cases sp with
  | simple => exact simple_progress nUbatch
  | equal sequential =>
    have hne := init_seqSet_nonempty (hlist sequential rfl) hinit
    refine equal_progress (init_nTokens_pos hc hinit) hne nUbatch sequential fun hseq => hcpl ?_
    rw [hseq]
  | seq => exact seq_progress nUbatch

/-- **The splitters partition the batch**, `split_equal` where every token lists a sequence.  Called until it
returns the empty ubatch, each splitter ends after at most one call for each token.  The tokens of the ubatches are a
permutation of the batch, `n_used` counts all of them, and `out_ids` lists those with an output, in the order of the
ubatches. -/
theorem split_partitions (hc : (init nPosPerEmbd nVocab b memory nSeqMax outputAll).checks = true)
    (hinit : (init nPosPerEmbd nVocab b memory nSeqMax outputAll).value = .ok a) (sp : Splitter)
    (hlist : ∀ sequential, sp = .equal sequential → b.Listed) (hcpl : sp = .equal true → a.hasCpl = false)
    (nUbatch : ℕ) {fuel : ℕ} (hfuel : a.nTokens < fuel) :
    let r := splitLoop (sp.split nUbatch) fuel a.splitReset []
    r.asserts = true ∧ (sp.split nUbatch r.value.2).value.1 = none ∧ ∃ picks : List Pick,
      r.value.1 = picks.map a.ubatchOf ∧ (∀ p ∈ picks, p.idxs ≠ []) ∧
      (picks.flatMap Pick.idxs).Perm (range a.nTokens) ∧ r.value.2.nUsed = a.nTokens ∧
      r.value.2.outIds = (picks.flatMap Pick.idxs).filter fun i => a.logits.getD i false := by
  intro r
  have hprog := init_progress hc hinit sp hlist hcpl nUbatch
  have hval := splitLoop_value (a := a) sp nUbatch fuel [] []
  obtain ⟨hne, hlast⟩ := hprog.pickLoop_ends fuel Rounds.nil (by simpa using hfuel)
  have hperm := hprog.perm (Rounds.pickLoop fuel Rounds.nil) hlast
  simp only [nil_append] at hval hlast hperm
  rw [← splitReset_eq] at hval
  refine ⟨?_, ?_, pickLoop (sp.pick nUbatch) a fuel [], ?_, hne, hperm, ?_, ?_⟩
  · show (splitLoop (sp.split nUbatch) fuel a.splitReset []).asserts = true
    rw [splitReset_eq]
    exact hprog.splitLoop_asserts fuel Rounds.nil []
  · rw [hval, sp.split_eq, hlast]
    rfl
  · rw [hval]
  · rw [hval]
    exact hperm.length_eq.trans length_range
  · rw [hval]
    rfl

end Accepted

def overlapping : Batch := .text [0, 0, 1] [[0, 1], [0], [0, 1]] rfl

/-- `overlapping` as `init` accepts it. -/
def overlappingAccepted : BatchAllocr := (sanitize 1 overlapping none 2 false).splitReset

/-- The tokens of both sequences go first. -/
example : (splitLoop ((Splitter.equal false).split 2) 4 overlappingAccepted.splitReset []).value.1.map (·.pos)
    = [[0, 1], [0]] := by
  decide +kernel

theorem overlapping_init : (init 1 1 overlapping none 2 false).value = .ok overlappingAccepted :=
  init_eq (by decide +kernel)

theorem split_partitions_overlapping :
    ∃ picks : List Pick,
      ((splitLoop ((Splitter.equal false).split 2) 4 overlappingAccepted.splitReset []).value.1
        = picks.map overlappingAccepted.ubatchOf) ∧ (picks.flatMap Pick.idxs).Perm (range 3) := by
  obtain ⟨-, -, picks, hval, -, hperm, -⟩ := split_partitions (by decide +kernel) overlapping_init
    (.equal false) (fun _ _ => by decide) (by decide) 2 (by decide : 3 < 4)
  exact ⟨picks, hval, hperm⟩

/-- Two tokens that list no sequence. -/
def unlisted : Batch := .text [0, 0] [[], []] rfl

/-- `unlisted` as `init` accepts it. -/
def unlistedAccepted : BatchAllocr := (sanitize 1 unlisted none 2 false).splitReset

/-- **A token is handed out twice**: `split_equal` selects the empty set once for each of the two tokens, and both
selections take token 0. -/
theorem split_equal_twice : (init 1 1 unlisted none 2 false).value = .ok unlistedAccepted ∧
    ((splitLoop ((Splitter.equal false).split 2) 3 unlistedAccepted.splitReset []).value.2.nUsed = 3) ∧
    unlistedAccepted.nTokens = 2 :=
  ⟨init_eq (by decide +kernel), by decide +kernel, rfl⟩

end BatchAllocr
