import LlamaRafaelia.Batch.Alloc
import Mathlib.Data.List.GetD

/-!
# What the splitters hand out

After any number of splits the allocator is `a.after placed`, where `placed` lists the tokens handed out so far.  
`split_simple` takes them in batch order; `split_equal` with `sequential` takes those of each sequence in batch order
(`InOrder`).
-/

namespace Ubatch

/-- The positions of the tokens of sequence `s`, in the order of the ubatch. -/
def posOf (u : Ubatch) (s : ℕ) : List ℤ :=
  ((List.range u.nTokens).filter fun i => s ∈ u.seqAt i).map u.posAt

end Ubatch

namespace BatchAllocr

open List Checked

/-! ### What `init` guarantees -/

/-- What holds of every batch that `init` accepts. -/
structure Accepted (a : BatchAllocr) : Prop where
  nTokens_pos : 0 < a.nTokens
  nSeqMax_le : a.nSeqMax ≤ llamaMaxSeq
  seqId_length : a.seqId.length = a.nTokens
  seq_ne : ∀ i < a.nTokens, a.seqAt i ≠ []
  seq_lt : ∀ i, ∀ s ∈ a.seqAt i, s < a.nSeqMax

theorem forM_ok_iff {ε α : Type} (f : α → Except ε Unit) (l : List α) :
    l.forM f = .ok () ↔ ∀ x ∈ l, f x = .ok () := by
  induction l with
  | nil => simp [pure, Except.pure]
  | cons x l ih =>
    show (f x >>= fun _ => l.forM f) = .ok () ↔ _
    cases hx : f x with
    | error e => simp [bind, Except.bind, hx]
    | ok v => simpa [bind, Except.bind, hx] using ih

theorem init_ok {nPosPerEmbd nVocab : ℕ} {b : Batch} {memory : Option Memory} {nSeqMax : ℕ}
    {outputAll : Bool} {a : BatchAllocr}
    (h : (init nPosPerEmbd nVocab b memory nSeqMax outputAll).value = .ok a) :
    nSeqMax ≤ llamaMaxSeq ∧ seqIdsOk nSeqMax b = true ∧
      (sanitize nPosPerEmbd b memory nSeqMax outputAll).validate memory = .ok () ∧
      a = (sanitize nPosPerEmbd b memory nSeqMax outputAll).splitReset := by
  simp only [init, bind_value, pure_value] at h
  by_cases hmax : llamaMaxSeq < nSeqMax
  · simp [hmax, bind, Except.bind, throw, throwThe, MonadExceptOf.throw] at h
  by_cases htok : tokensOk nVocab b = true
  swap
  · simp [hmax, htok, bind, Except.bind, throw, throwThe, MonadExceptOf.throw] at h
  by_cases hids : seqIdsOk nSeqMax b = true
  swap
  · simp [hmax, htok, hids, bind, Except.bind, throw, throwThe, MonadExceptOf.throw] at h
  cases hval : (sanitize nPosPerEmbd b memory nSeqMax outputAll).validate memory with
  | error e => simp [hmax, htok, hids, hval, bind, Except.bind] at h
  | ok v =>
    simp only [hmax, htok, hids, hval, bind, Except.bind, pure, Except.pure, if_false, not_true_eq_false,
      Except.ok.injEq] at h
    exact ⟨Nat.not_lt.mp hmax, hids, rfl, h.symm⟩

theorem init_eq {nPosPerEmbd nVocab : ℕ} {b : Batch} {memory : Option Memory} {nSeqMax : ℕ} {outputAll : Bool}
    (h : ((init nPosPerEmbd nVocab b memory nSeqMax outputAll).value matches .ok _) = true) :
    (init nPosPerEmbd nVocab b memory nSeqMax outputAll).value
      = .ok (sanitize nPosPerEmbd b memory nSeqMax outputAll).splitReset := by
  cases hval : (init nPosPerEmbd nVocab b memory nSeqMax outputAll).value with
  | error e =>
    rw [hval] at h
    exact absurd h (by simp)
  | ok a =>
    obtain ⟨-, -, -, rfl⟩ := init_ok hval
    rfl

theorem fillSeqId_length (b : Batch) : (fillSeqId b).length = b.nTokens := by
  unfold fillSeqId
  split
  · exact length_replicate
  · next l hl => rw [length_map, b.seqId_length l hl]

theorem fillSeqId_ne {b : Batch} (h : b.Listed) : ∀ ids ∈ fillSeqId b, ids ≠ [] := by
  intro ids hmem
  unfold fillSeqId at hmem
  split at hmem
  · obtain rfl := eq_of_mem_replicate hmem
    simp
  · next l hl =>
    obtain ⟨ids', hmem', rfl⟩ := mem_map.mp hmem
    exact fun he => h l hl (map_eq_nil_iff.mp he ▸ hmem')

theorem sanitize_seq_ne (nPosPerEmbd : ℕ) {b : Batch} (h : b.Listed) (memory : Option Memory) (nSeqMax : ℕ)
    (outputAll : Bool) :
    ∀ i < b.nTokens, (sanitize nPosPerEmbd b memory nSeqMax outputAll).seqAt i ≠ [] := by
  intro i hi
  have hi' : i < (fillSeqId b).length := by rwa [fillSeqId_length]
  show (fillSeqId b).getD i [] ≠ []
  rw [getD_eq_getElem _ _ hi']
  exact fillSeqId_ne h _ (getElem_mem hi')

theorem listed_of_init {nPosPerEmbd nVocab : ℕ} {b : Batch} {memory : Option Memory} {nSeqMax : ℕ}
    {outputAll : Bool} {a : BatchAllocr}
    (h : (init nPosPerEmbd nVocab b memory nSeqMax outputAll).value = .ok a)
    (hne : ∀ i < a.nTokens, a.seqAt i ≠ []) : b.Listed := by
  obtain ⟨-, -, -, rfl⟩ := init_ok h
  intro l hl hmem
  obtain ⟨i, hi, hnil⟩ := getElem_of_mem hmem
  have hfill : fillSeqId b = l.map fun ids => ids.map Int.toNat := by
    rw [fillSeqId, Option.mem_def.mp hl]
  have hlt : i < b.nTokens := by rwa [← b.seqId_length l hl]
  refine hne i hlt ?_
  show (fillSeqId b).getD i [] = []
  rw [hfill, getD_eq_getElem _ _ (by rwa [length_map]), getElem_map, hnil, map_nil]

theorem fillSeqId_lt {b : Batch} {nSeqMax n : ℕ} (hpos : 0 < n) (hle : nSeqMax ≤ n)
    (hids : seqIdsOk nSeqMax b = true) : ∀ ids ∈ fillSeqId b, ∀ s ∈ ids, s < n := by
  -- every list of ids is `[0]` or comes from the batch
  intro ids hmem
  unfold fillSeqId at hmem
  unfold seqIdsOk at hids
  split at hmem
  · obtain rfl := eq_of_mem_replicate hmem
    simpa using hpos
  · next l hl =>
    rw [hl] at hids
    obtain ⟨ids', hmem', rfl⟩ := mem_map.mp hmem
    intro s hs
    obtain ⟨z, hz, rfl⟩ := mem_map.mp hs
    have hb := all_eq_true.mp (all_eq_true.mp hids ids' hmem') z hz
    rw [decide_eq_true_eq] at hb
    omega

theorem sanitize_accepted {nPosPerEmbd : ℕ} {b : Batch} {memory : Option Memory} {nSeqMax : ℕ}
    {outputAll : Bool} (hn : 0 < b.nTokens) (hlist : b.Listed) (hpos : 0 < nSeqMax)
    (hmax : nSeqMax ≤ llamaMaxSeq) (hids : seqIdsOk nSeqMax b = true) :
    Accepted (sanitize nPosPerEmbd b memory nSeqMax outputAll) := by
  refine ⟨hn, hmax, fillSeqId_length b, sanitize_seq_ne _ hlist _ _ _, fun i s hs => ?_⟩
  have hs' : s ∈ (fillSeqId b).getD i [] := hs
  by_cases hi : i < (fillSeqId b).length
  · rw [getD_eq_getElem _ _ hi] at hs'
    exact fillSeqId_lt hpos le_rfl hids _ (getElem_mem hi) s hs'
  · rw [getD_eq_default _ _ (Nat.not_lt.mp hi)] at hs'
    simp at hs'

/-! ### The state after some splits -/

variable (a : BatchAllocr)

/-- The allocator once the tokens `placed` were handed out. -/
def after (placed : List ℕ) : BatchAllocr :=
  { a with
    outIds := placed.filter fun i => a.logits.getD i false
    nUsed := placed.length
    used := (range a.nTokens).map fun i => decide (i ∈ placed) }

theorem splitReset_eq : a.splitReset = a.after [] := by
  simp only [splitReset, after, filter_nil, length_nil, not_mem_nil, decide_false,
    map_const', length_range]

theorem after_usedAt {placed : List ℕ} {i : ℕ} (hi : i < a.nTokens) :
    (a.after placed).usedAt i = decide (i ∈ placed) := by
  simp [after, usedAt, hi]

theorem set_map_range (n i : ℕ) (p : ℕ → Bool) :
    ((range n).map p).set i true = (range n).map fun j => p j || decide (j = i) := by
  refine ext_getElem (by simp) fun j h1 h2 => ?_
  rw [getElem_set]
  by_cases hij : i = j
  · simp [hij]
  · simp [hij, Ne.symm hij]

theorem use_after (placed idxs : List ℕ) (nSeqs : ℕ) (equalSeqs : Bool) :
    (((a.after placed).use idxs).ubatchAdd idxs nSeqs equalSeqs).value.2 = a.after (placed ++ idxs) := by
  have hused : ∀ (idxs placed : List ℕ), idxs.foldl (fun used i => used.set i true)
      ((range a.nTokens).map fun i => decide (i ∈ placed))
      = (range a.nTokens).map fun i => decide (i ∈ placed ++ idxs) := by
    intro idxs
    induction idxs with
    | nil => simp
    | cons i idxs ih =>
      intro placed
      have hset : (fun j => decide (j ∈ placed) || decide (j = i)) = fun j => decide (j ∈ placed ++ [i]) := by
        funext j
        simp
      rw [foldl_cons, set_map_range, hset, ih, append_assoc, singleton_append]
  simp only [ubatchAdd, use, after, bind_value, pure_value, hused, length_append, filter_append]

/-- The ubatch `u` consists of the tokens `idxs` of the batch. -/
structure Cut (a : BatchAllocr) (idxs : List ℕ) (u : Ubatch) : Prop where
  idxs_ne : idxs ≠ []
  idxs_lt : ∀ i ∈ idxs, i < a.nTokens
  nTokens : u.nTokens = idxs.length
  seqIdUnq : u.seqIdUnq = a.seqIdUnq idxs
  posAt : ∀ i, (hi : i < idxs.length) → u.posAt i = a.posAt (idxs.get ⟨i, hi⟩)
  seqAt : ∀ i, (hi : i < idxs.length) → u.seqAt i = a.seqAt (idxs.get ⟨i, hi⟩)

variable {a}

theorem ubatchAdd_cut (placed : List ℕ) {idxs : List ℕ} (hpos : 0 < a.nPosPerEmbd) (hne : idxs ≠ [])
    (hlt : ∀ i ∈ idxs, i < a.nTokens) (nSeqs : ℕ) (equalSeqs : Bool) :
    Cut a idxs (((a.after placed).use idxs).ubatchAdd idxs nSeqs equalSeqs).value.1 := by
  refine ⟨hne, hlt, rfl, rfl, fun i hi => ?_, fun i hi => ?_⟩
  · -- the first section of the positions
    obtain ⟨k, hk⟩ : ∃ k, a.nPosPerEmbd = k + 1 := ⟨a.nPosPerEmbd - 1, by omega⟩
    simp only [ubatchAdd, use, after, bind_value, pure_value, Ubatch.posAt, hk, range_succ_eq_map,
      flatMap_cons]
    rw [getD_append _ _ _ _ (by simpa using hi), getD_eq_getElem _ _ (by simpa using hi)]
    simp [BatchAllocr.posAt]
  · simp only [ubatchAdd, use, after, bind_value, pure_value, Ubatch.seqAt]
    rw [getD_eq_getElem _ _ (by simpa using hi)]
    simp [BatchAllocr.seqAt]

theorem Cut.posOf {idxs : List ℕ} {u : Ubatch} (h : Cut a idxs u) (s : ℕ) :
    u.posOf s = (idxs.filter fun i => s ∈ a.seqAt i).map a.posAt := by
  have hidxs : idxs = (range u.nTokens).map fun i => idxs.getD i 0 := by
    refine ext_getElem (by simp [h.nTokens]) fun i h1 h2 => ?_
    rw [getElem_map, getElem_range, getD_eq_getElem _ _ h1]
  have hget : ∀ i ∈ range u.nTokens, u.posAt i = a.posAt (idxs.getD i 0) ∧
      u.seqAt i = a.seqAt (idxs.getD i 0) := by
    intro i hi
    rw [mem_range, h.nTokens] at hi
    rw [getD_eq_getElem _ _ hi]
    exact ⟨h.posAt i hi, h.seqAt i hi⟩
  conv_rhs => rw [hidxs]
  rw [filter_map, map_map, Ubatch.posOf]
  have hfilter : (range u.nTokens).filter (fun i => decide (s ∈ u.seqAt i))
      = (range u.nTokens).filter ((fun i => decide (s ∈ a.seqAt i)) ∘ fun i => idxs.getD i 0) := by
    refine filter_congr fun i hi => ?_
    rw [(hget i hi).2]
    rfl
  rw [hfilter]
  exact map_congr_left fun i hi => (hget i (mem_of_mem_filter hi)).1

theorem Cut.token {idxs : List ℕ} {u : Ubatch} (h : Cut a idxs u) {i : ℕ} (hi : i < u.nTokens) :
    ∃ j < a.nTokens, u.posAt i = a.posAt j ∧ u.seqAt i = a.seqAt j := by
  rw [h.nTokens] at hi
  exact ⟨idxs.get ⟨i, hi⟩, h.idxs_lt _ (get_mem _ _), h.posAt i hi, h.seqAt i hi⟩

theorem mem_seqIdUnq {idxs : List ℕ} {s : ℕ} :
    s ∈ a.seqIdUnq idxs ↔ s < a.nSeqMax ∧ ∃ i ∈ idxs, s ∈ a.seqAt i := by
  simp [seqIdUnq]

theorem seqIdUnq_nodup (idxs : List ℕ) : (a.seqIdUnq idxs).Nodup := nodup_range.filter _

/-! ### The loop over the splits -/

/-- **The run of a splitter.**  `I` is kept by every split, and each split either is the last one or hands
out a ubatch with `P`. -/
theorem splitLoop_rule {split : BatchAllocr → Checked (Option Ubatch × BatchAllocr)}
    (I : List ℕ → Prop) (P : List ℕ → Ubatch → Prop)
    (hlen : ∀ placed, I placed → placed.length ≤ a.nTokens)
    (hne : ∀ idxs u, P idxs u → idxs ≠ [])
    (hstep : ∀ placed, I placed → (split (a.after placed)).asserts = true ∧
      ((split (a.after placed)).value = (none, a.after placed) ∨
        ∃ idxs u, (split (a.after placed)).value = (some u, a.after (placed ++ idxs)) ∧ P idxs u ∧
          I (placed ++ idxs)))
    (fuel : ℕ) (placed : List ℕ) (us : List Ubatch) (h : I placed) :
    let r := splitLoop split fuel (a.after placed) us
    r.asserts = true ∧ ∃ parts : List (List ℕ × Ubatch),
      r.value = (us ++ parts.map Prod.snd, a.after (placed ++ parts.flatMap Prod.fst)) ∧
      I (placed ++ parts.flatMap Prod.fst) ∧ (∀ x ∈ parts, P x.1 x.2) ∧
      (a.nTokens < placed.length + fuel → (split r.value.2).value.1 = none) := by
  induction fuel generalizing placed us with
  | zero =>
    refine ⟨rfl, [], by simp [splitLoop], by simpa using h, by simp, fun hlt => ?_⟩
    have := hlen placed h
    omega
  | succ fuel ih =>
    obtain ⟨hok, hcase⟩ := hstep placed h
    rcases hcase with hnone | ⟨idxs, u, hsome, hP, hI⟩
    · refine ⟨?_, [], ?_, by simpa using h, by simp, fun _ => ?_⟩
      · simp [splitLoop, hok, hnone]
      · simp [splitLoop, hnone]
      · simp [splitLoop, hnone]
    · obtain ⟨hok', parts, hval, hI', hP', hlast⟩ := ih (placed ++ idxs) (us ++ [u]) hI
      have hstep' : (splitLoop split (fuel + 1) (a.after placed) us).value
          = (splitLoop split fuel (a.after (placed ++ idxs)) (us ++ [u])).value := by
        simp [splitLoop, hsome]
      refine ⟨?_, (idxs, u) :: parts, ?_, ?_, ?_, fun hlt => ?_⟩
      · simp [splitLoop, hok, hsome, hok']
      · rw [hstep', hval]
        simp
      · simpa using hI'
      · intro x hx
        rcases mem_cons.mp hx with rfl | hx
        · exact hP
        · exact hP' x hx
      · have hpos : 0 < idxs.length := length_pos_of_ne_nil (hne idxs u hP)
        rw [hstep']
        exact hlast (by rw [length_append]; omega)

/-- The tokens of every sequence were handed out in batch order, and the rest follows. -/
structure InOrder (a : BatchAllocr) (placed : List ℕ) : Prop where
  nodup : placed.Nodup
  lt : ∀ i ∈ placed, i < a.nTokens
  order : ∀ s, a.tokensOf s
    = (placed.filter fun i => s ∈ a.seqAt i) ++ (a.tokensOf s).filter fun i => i ∉ placed

theorem InOrder.length_le {placed : List ℕ} (h : InOrder a placed) : placed.length ≤ a.nTokens := by
  have hsub : placed.toFinset ⊆ Finset.range a.nTokens := fun i hi =>
    Finset.mem_range.mpr (h.lt i (mem_toFinset.mp hi))
  calc placed.length = placed.toFinset.card := (toFinset_card_of_nodup h.nodup).symm
    _ ≤ (Finset.range a.nTokens).card := Finset.card_le_card hsub
    _ = a.nTokens := Finset.card_range _

theorem InOrder.all {placed : List ℕ} (h : InOrder a placed) (hall : a.nTokens ≤ placed.length) (s : ℕ) :
    (placed.filter fun i => s ∈ a.seqAt i) = a.tokensOf s := by
  have hsub : placed.toFinset ⊆ Finset.range a.nTokens := fun i hi =>
    Finset.mem_range.mpr (h.lt i (mem_toFinset.mp hi))
  have heq : placed.toFinset = Finset.range a.nTokens := by
    refine Finset.eq_of_subset_of_card_le hsub ?_
    rw [Finset.card_range, toFinset_card_of_nodup h.nodup]
    exact hall
  have hnil : ((a.tokensOf s).filter fun i => i ∉ placed) = [] := by
    rw [filter_eq_nil_iff]
    intro i hi
    have hlt : i < a.nTokens := mem_range.mp (mem_of_mem_filter hi)
    have hmem : i ∈ placed.toFinset := heq ▸ Finset.mem_range.mpr hlt
    simpa using hmem
  have horder := h.order s
  rw [hnil, append_nil] at horder
  exact horder.symm

/-! ### `split_simple` -/

theorem simpleLoop_eq (nUbatch k curIdx : ℕ) (idxs : List ℕ) (hlt : idxs.length < max nUbatch 1) :
    simpleLoop nUbatch k curIdx idxs
      = idxs ++ range' curIdx (min k (max nUbatch 1 - idxs.length)) := by
  induction k generalizing curIdx idxs with
  | zero => simp [simpleLoop]
  | succ k ih =>
    simp only [simpleLoop]
    split
    · next hle =>
      rw [length_append, length_singleton] at hle
      have hmin : min (k + 1) (max nUbatch 1 - idxs.length) = 1 := by omega
      rw [hmin]
      rfl
    · next hle =>
      rw [length_append, length_singleton] at hle
      have hmin : min (k + 1) (max nUbatch 1 - idxs.length)
          = min k (max nUbatch 1 - (idxs.length + 1)) + 1 := by omega
      rw [ih _ _ (by simp; omega), hmin, length_append, length_singleton, range'_succ,
        append_assoc, singleton_append]

theorem after_firstUnused {k : ℕ} (hk : k ≤ a.nTokens) : (a.after (range k)).firstUnused = k := by
  have hused : (a.after (range k)).used
      = replicate k true ++ replicate (a.nTokens - k) false := by
    refine ext_getElem (by simp [after]; omega) fun i h1 h2 => ?_
    simp only [after, getElem_map, getElem_range, mem_range, getElem_append,
      length_replicate, getElem_replicate]
    split <;> simp_all
  rw [firstUnused, hused, findIdx_append]
  rcases Nat.eq_or_lt_of_le hk with rfl | hlt
  · simp [findIdx_eq_length_of_false]
  · obtain ⟨m, hm⟩ : ∃ m, a.nTokens - k = m + 1 := ⟨a.nTokens - k - 1, by omega⟩
    simp [findIdx_eq_length_of_false, hm, replicate_succ, findIdx_cons]

theorem range_inOrder {k : ℕ} (hk : k ≤ a.nTokens) : InOrder a (range k) := by
  refine ⟨nodup_range, fun i hi => lt_of_lt_of_le (mem_range.mp hi) hk, fun s => ?_⟩
  obtain ⟨m, hm⟩ : ∃ m, a.nTokens = k + m := ⟨a.nTokens - k, by omega⟩
  have hsplit : a.tokensOf s = ((range k).filter fun i => decide (s ∈ a.seqAt i)) ++
      ((range m).map (k + ·)).filter fun i => decide (s ∈ a.seqAt i) := by
    rw [tokensOf, hm, range_add, filter_append]
  rw [hsplit, filter_append]
  congr 1
  have hlow : (((range k).filter fun i => decide (s ∈ a.seqAt i)).filter
      fun i => decide (i ∉ range k)) = [] := by
    rw [filter_eq_nil_iff]
    intro i hi
    have := mem_of_mem_filter hi
    simpa using this
  have hhigh : ((((range m).map (k + ·)).filter fun i => decide (s ∈ a.seqAt i)).filter
      fun i => decide (i ∉ range k)) = ((range m).map (k + ·)).filter
        fun i => decide (s ∈ a.seqAt i) := by
    rw [filter_eq_self]
    intro i hi
    obtain ⟨j, -, rfl⟩ := mem_map.mp (mem_of_mem_filter hi)
    simp
  rw [hlow, hhigh, nil_append]

theorem splitSimple_step (hpos : 0 < a.nPosPerEmbd) (nUbatch : ℕ) {k : ℕ} (hk : k ≤ a.nTokens) :
    let r := (a.after (range k)).splitSimple nUbatch
    r.asserts = true ∧ (r.value = (none, a.after (range k)) ∨
      ∃ m u, r.value = (some u, a.after (range k ++ range' k m)) ∧ Cut a (range' k m) u ∧
        k + m ≤ a.nTokens) := by
  have hlen : (a.after (range k)).used.length = a.nTokens := by simp [after]
  rcases Nat.eq_or_lt_of_le hk with heq | hlt
  · have hif : (a.after (range k)).used.length ≤ (a.after (range k)).firstUnused := by
      rw [hlen, after_firstUnused hk, heq]
    refine ⟨?_, Or.inl ?_⟩
    · simp [splitSimple, hif]
    · simp [splitSimple, hif]
  · have hif : ¬ (a.after (range k)).used.length ≤ (a.after (range k)).firstUnused := by
      rw [hlen, after_firstUnused hk]
      omega
    have hloop : simpleLoop nUbatch (a.nTokens - k) k []
        = range' k (min (a.nTokens - k) (max nUbatch 1)) := by
      rw [simpleLoop_eq nUbatch _ _ _ (by simp), nil_append, length_nil, Nat.sub_zero]
    refine ⟨?_, Or.inr ⟨min (a.nTokens - k) (max nUbatch 1), _, ?_, ubatchAdd_cut (range k) hpos ?_ ?_
      (range' k (min (a.nTokens - k) (max nUbatch 1))).length false, by omega⟩⟩
    · simp [splitSimple, hlen, after_firstUnused hk, hloop, ubatchAdd]
    · rw [hlen, after_firstUnused hk] at hif
      simp only [splitSimple, hlen, after_firstUnused hk, if_neg hif, hloop, bind_value, pure_value,
        use_after]
    · intro hnil
      have hzero := congrArg length hnil
      rw [length_range', length_nil] at hzero
      omega
    · intro i hi
      have := mem_range'_1.mp hi
      omega

/-! ### `split_equal` without coupled sequences -/

def Uncoupled (a : BatchAllocr) : Prop := ∀ i < a.nTokens, ∃ q, a.seqAt i = [q]

theorem uncoupled_of_hasCpl (h : Accepted a) (hcpl : a.hasCpl = false) : Uncoupled a := by
  intro i hi
  have hall := any_eq_false.mp hcpl i (mem_range.mpr hi)
  rw [decide_eq_true_eq] at hall
  cases hseq : a.seqAt i with
  | nil => exact absurd hseq (h.seq_ne i hi)
  | cons q rest =>
    rw [hseq, length_cons] at hall
    exact ⟨q, by rw [eq_nil_of_length_eq_zero (by omega : rest.length = 0)]⟩

theorem Uncoupled.seqSetMap (h : Uncoupled a) (q : ℕ) : a.seqSetMap {q} = a.tokensOf q := by
  refine filter_congr fun i hi => ?_
  obtain ⟨q', hq'⟩ := h i (mem_range.mp hi)
  rw [decide_eq_decide, seqSet, hq', toFinset_cons, toFinset_nil]
  simp [eq_comm]

/-- The tokens of sequence `q` that were not handed out. -/
def unusedOf (a : BatchAllocr) (placed : List ℕ) (q : ℕ) : List ℕ :=
  (a.tokensOf q).filter fun i => i ∉ placed

theorem mem_unusedOf {placed : List ℕ} {q i : ℕ} :
    i ∈ a.unusedOf placed q ↔ i < a.nTokens ∧ q ∈ a.seqAt i ∧ i ∉ placed := by
  simp only [unusedOf, tokensOf, mem_filter, mem_range, decide_eq_true_eq, and_assoc]

theorem equalSets_spec (h : Uncoupled a) (placed : List ℕ) (nUbatch : ℕ) (is : List ℕ)
    (his : ∀ i ∈ is, i < a.nTokens) (q0 m : ℕ) (last : ℤ) (hlast : m ≠ 0 → last + 1 = q0 + m)
    (hun : ∀ q ∈ range' q0 m, a.unusedOf placed q ≠ []) :
    ∃ q1 k, (a.after placed).equalSets nUbatch true is ((range' q0 m).map fun q => {q}) last
      = (range' q1 k).map (fun q => ({q} : Finset ℕ)) ∧
      ∀ q ∈ range' q1 k, a.unusedOf placed q ≠ [] := by
  induction is generalizing q0 m last with
  | nil => exact ⟨q0, m, rfl, hun⟩
  | cons i is ih =>
    have hi : i < a.nTokens := his i (by simp)
    have his' : ∀ j ∈ is, j < a.nTokens := fun j hj => his j (by simp [hj])
    obtain ⟨q, hq⟩ := h i hi
    have hset : (a.after placed).seqSet i = {q} := by
      show (a.seqAt i).toFinset = {q}
      rw [hq]
      rfl
    have hhead : (((a.after placed).seqAt i).headD 0 : ℤ) = q := by
      show (((a.seqAt i).headD 0 : ℕ) : ℤ) = q
      rw [hq]
      rfl
    simp only [equalSets, after_usedAt a hi, hset, hhead]
    split
    · exact ih his' q0 m last hlast hun
    · next hused =>
      rw [decide_eq_true_eq] at hused
      split
      · next hadd =>
        -- the new sequence is the next one, or the first
        obtain ⟨q1, hq1⟩ : ∃ q1, (range' q0 m).map (fun q => ({q} : Finset ℕ)) ++ [{q}]
            = (range' q1 (m + 1)).map (fun q => ({q} : Finset ℕ)) ∧ (q : ℤ) + 1 = q1 + (m + 1) ∧
              ∀ p ∈ range' q1 (m + 1), a.unusedOf placed p ≠ [] := by
          have hnew : a.unusedOf placed q ≠ [] := ne_nil_of_mem
            ((mem_unusedOf).mpr ⟨hi, by rw [hq]; exact mem_singleton.mpr rfl, hused⟩)
          rcases Nat.eq_zero_or_pos m with rfl | hm
          · refine ⟨q, by simp, by omega, fun p hp => ?_⟩
            obtain rfl : p = q := by simpa using hp
            exact hnew
          · have hqm : q = q0 + m := by
              have hnext := hlast (by omega)
              rcases hadd.2 trivial with hnil | heq
              · rw [map_eq_nil_iff] at hnil
                have := congrArg length hnil
                simp at this
                omega
              · omega
            refine ⟨q0, ?_, by omega, fun p hp => ?_⟩
            · rw [range'_concat, map_append, Nat.one_mul, ← hqm]
              rfl
            · rw [range'_concat, Nat.one_mul, ← hqm] at hp
              rcases mem_append.mp hp with hp | hp
              · exact hun p hp
              · obtain rfl := mem_singleton.mp hp
                exact hnew
        rw [hq1.1]
        split
        · exact ⟨q1, m + 1, rfl, hq1.2.2⟩
        · exact ih his' q1 (m + 1) q (fun _ => by exact_mod_cast hq1.2.1) hq1.2.2
      · exact ih his' q0 m last hlast hun

theorem equalLoop_spec (nUbatch fuel : ℕ) (sets : List (List ℕ × List ℕ)) :
    ∃ k, equalLoop nUbatch fuel sets = sets.map (fun x => (x.1.drop k, x.2 ++ x.1.take k)) ∧
      (∀ x ∈ sets, k ≤ x.1.length) ∧ (0 < fuel → (∀ x ∈ sets, x.1 ≠ []) → 0 < k) := by
  have hzero : sets = sets.map (fun x => (x.1.drop 0, x.2 ++ x.1.take 0)) := by simp
  induction fuel generalizing sets with
  | zero => exact ⟨0, hzero, fun _ _ => Nat.zero_le _, fun h => absurd h (by simp)⟩
  | succ fuel ih =>
    simp only [equalLoop]
    split
    · next hne =>
      have hone : sets.map (fun x => (x.1.tail, x.2 ++ [x.1.headD 0]))
          = sets.map (fun x => (x.1.drop 1, x.2 ++ x.1.take 1)) := by
        refine map_congr_left fun x hx => ?_
        cases hx1 : x.1 with
        | nil => exact absurd hx1 (hne x hx)
        | cons y l => rfl
      have hlen : ∀ x ∈ sets, 1 ≤ x.1.length := fun x hx => length_pos_of_ne_nil (hne x hx)
      split
      · exact ⟨1, hone, hlen, fun _ _ => Nat.one_pos⟩
      · obtain ⟨k, hval, hle, -⟩ := ih (sets.map fun x => (x.1.tail, x.2 ++ [x.1.headD 0])) (by simp)
        refine ⟨k + 1, ?_, fun x hx => ?_, fun _ _ => Nat.succ_pos k⟩
        · rw [hval, hone, map_map]
          refine map_congr_left fun x _ => ?_
          simp only [Function.comp, drop_drop, append_assoc]
          rw [← take_add, Nat.add_comm 1 k]
        · have := hle _ (mem_map_of_mem hx)
          rw [length_tail] at this
          have := hlen x hx
          omega
    · next hex => exact ⟨0, hzero, fun _ _ => Nat.zero_le _, fun _ hne => absurd hne hex⟩

/-- Blocks of equal length, one for each of some consecutive sequences. -/
structure Blocks (a : BatchAllocr) (idxs : List ℕ) (q0 m k : ℕ) : Prop where
  m_pos : 0 < m
  k_pos : 0 < k
  length : idxs.length = m * k
  unq : a.seqIdUnq idxs = range' q0 m
  block : ∀ s < m, ∀ ii < k, a.seqAt (idxs.getD (s * k + ii) 0) = [q0 + s]

theorem getD_flatMap_blocks {α : Type} {f : α → List ℕ} {k : ℕ} (l : List α) (hlen : ∀ q ∈ l, (f q).length = k)
    (s : ℕ) (hs : s < l.length) (ii : ℕ) (hii : ii < k) :
    (l.flatMap f).getD (s * k + ii) 0 = (f (l.get ⟨s, hs⟩)).getD ii 0 := by
  induction l generalizing s with
  | nil => exact absurd hs (by simp)
  | cons q l ih =>
    have hq : (f q).length = k := hlen q (by simp)
    rw [flatMap_cons]
    cases s with
    | zero =>
      rw [Nat.zero_mul, Nat.zero_add, getD_append _ _ _ _ (by omega)]
      rfl
    | succ s =>
      have hle : (f q).length ≤ (s + 1) * k + ii := by
        rw [hq, Nat.succ_mul]
        omega
      have hsub : (s + 1) * k + ii - (f q).length = s * k + ii := by
        rw [hq, Nat.succ_mul]
        omega
      rw [getD_append_right _ _ _ _ hle, hsub]
      exact ih (fun q' hq' => hlen q' (by simp [hq'])) s (by simpa using hs)

theorem length_flatMap_blocks {α : Type} {f : α → List ℕ} {k : ℕ} (l : List α)
    (hlen : ∀ q ∈ l, (f q).length = k) :
    (l.flatMap f).length = l.length * k := by
  induction l with
  | nil => simp
  | cons q l ih =>
    rw [flatMap_cons, length_append, hlen q (by simp), ih fun q' hq' => hlen q' (by simp [hq']),
      length_cons, Nat.succ_mul, Nat.add_comm]

theorem flatMap_single {α : Type} {x : List α} {s : ℕ} (l : List ℕ) (hnd : l.Nodup) :
    (l.flatMap fun q => if q = s then x else []) = if s ∈ l then x else [] := by
  induction l with
  | nil => simp
  | cons q l ih =>
    rw [flatMap_cons, ih (nodup_cons.mp hnd).2]
    by_cases hq : q = s
    · subst hq
      simp [(nodup_cons.mp hnd).1]
    · simp [hq, Ne.symm hq]

theorem filter_range_eq_range' {n q0 m : ℕ} (h : q0 + m ≤ n) {p : ℕ → Bool}
    (hp : ∀ s < n, p s = true ↔ s ∈ range' q0 m) : (range n).filter p = range' q0 m := by
  obtain ⟨r, rfl⟩ : ∃ r, n = q0 + m + r := ⟨n - (q0 + m), by omega⟩
  have hrange : range (q0 + m + r) = range q0 ++ range' q0 m ++ range' (q0 + m) r := by
    rw [range_eq_range', range_eq_range', ← range'_append_1, ← range'_append_1]
    simp
  have hlow : (range q0).filter p = [] := by
    rw [filter_eq_nil_iff]
    intro s hs hps
    have hlt := mem_range.mp hs
    have := mem_range'_1.mp ((hp s (by omega)).mp hps)
    omega
  have hmid : (range' q0 m).filter p = range' q0 m := by
    rw [filter_eq_self]
    intro s hs
    have := mem_range'_1.mp hs
    exact (hp s (by omega)).mpr hs
  have hhigh : (range' (q0 + m) r).filter p = [] := by
    rw [filter_eq_nil_iff]
    intro s hs hps
    have hlt := mem_range'_1.mp hs
    have := mem_range'_1.mp ((hp s (by omega)).mp hps)
    omega
  rw [hrange, filter_append, filter_append, hlow, hmid, hhigh]
  simp

section Equal

variable {placed : List ℕ} {q0 m k : ℕ}

/-- The tokens that `split_equal` takes: `k` of each of the sequences `q0, …, q0 + m - 1`. -/
def equalIdxs (a : BatchAllocr) (placed : List ℕ) (q0 m k : ℕ) : List ℕ :=
  (range' q0 m).flatMap fun q => (a.unusedOf placed q).take k

theorem mem_equalIdxs {i : ℕ} :
    i ∈ a.equalIdxs placed q0 m k ↔ ∃ q ∈ range' q0 m, i ∈ (a.unusedOf placed q).take k := by
  simp only [equalIdxs, mem_flatMap]

theorem Uncoupled.seqAt_of_mem (h : Uncoupled a) {i q : ℕ} (hi : i < a.nTokens) (hq : q ∈ a.seqAt i) :
    a.seqAt i = [q] := by
  obtain ⟨q', hq'⟩ := h i hi
  rw [hq'] at hq ⊢
  rw [mem_singleton.mp hq]

theorem Uncoupled.seqAt_of_unused (h : Uncoupled a) {i q : ℕ} (hi : i ∈ a.unusedOf placed q) :
    a.seqAt i = [q] := by
  obtain ⟨hlt, hq, -⟩ := (mem_unusedOf).mp hi
  exact h.seqAt_of_mem hlt hq

theorem unusedOf_nodup (q : ℕ) : (a.unusedOf placed q).Nodup := (nodup_range.filter _).filter _

theorem Uncoupled.equalIdxs_filter (h : Uncoupled a) (s : ℕ) :
    ((a.equalIdxs placed q0 m k).filter fun i => s ∈ a.seqAt i)
      = if s ∈ range' q0 m then (a.unusedOf placed s).take k else [] := by
  rw [equalIdxs, filter_flatMap, ← flatMap_single (range' q0 m) nodup_range']
  congr 1
  funext q
  split
  · next heq =>
    subst heq
    rw [filter_eq_self]
    intro i hi
    rw [h.seqAt_of_unused (mem_of_mem_take hi)]
    simp
  · next hne =>
    rw [filter_eq_nil_iff]
    intro i hi
    rw [h.seqAt_of_unused (mem_of_mem_take hi)]
    simpa using Ne.symm hne

theorem Uncoupled.equalIdxs_nodup (h : Uncoupled a) : (a.equalIdxs placed q0 m k).Nodup := by
  rw [equalIdxs, nodup_flatMap]
  refine ⟨fun q _ => (unusedOf_nodup q).sublist (take_sublist k _), ?_⟩
  refine List.Pairwise.imp (R := fun q q' => q ≠ q') (fun {q q'} hne i hi hi' => ?_) nodup_range'
  have h1 := h.seqAt_of_unused (mem_of_mem_take hi)
  have h2 := h.seqAt_of_unused (mem_of_mem_take hi')
  rw [h1] at h2
  exact hne (cons.inj h2).1

theorem Uncoupled.equalIdxs_inOrder (h : Uncoupled a) (hin : InOrder a placed) :
    InOrder a (placed ++ a.equalIdxs placed q0 m k) := by
  have hnew : ∀ i ∈ a.equalIdxs placed q0 m k, i < a.nTokens ∧ i ∉ placed := by
    intro i hi
    obtain ⟨q, -, hq⟩ := (mem_equalIdxs).mp hi
    obtain ⟨hlt, -, hni⟩ := (mem_unusedOf).mp (mem_of_mem_take hq)
    exact ⟨hlt, hni⟩
  refine ⟨?_, fun i hi => ?_, fun s => ?_⟩
  · refine nodup_append.mpr ⟨hin.nodup, h.equalIdxs_nodup, fun i hi j hj heq => ?_⟩
    exact (hnew j hj).2 (heq ▸ hi)
  · rcases mem_append.mp hi with hi | hi
    · exact hin.lt i hi
    · exact (hnew i hi).1
  · have hrest : ((a.tokensOf s).filter fun i => i ∉ placed ++ a.equalIdxs placed q0 m k)
        = if s ∈ range' q0 m then (a.unusedOf placed s).drop k else a.unusedOf placed s := by
      have hsplit : ((a.tokensOf s).filter fun i => i ∉ placed ++ a.equalIdxs placed q0 m k)
          = (a.unusedOf placed s).filter fun i => i ∉ a.equalIdxs placed q0 m k := by
        rw [unusedOf, filter_filter]
        refine filter_congr fun i _ => ?_
        simp [Bool.and_comm]
      -- a token of `s` is in the ubatch only as one of the first `k`
      have hmem : ∀ i ∈ a.unusedOf placed s, i ∈ a.equalIdxs placed q0 m k ↔
          s ∈ range' q0 m ∧ i ∈ (a.unusedOf placed s).take k := by
        intro i hi
        rw [mem_equalIdxs]
        constructor
        · rintro ⟨q, hq, hi'⟩
          have h1 := h.seqAt_of_unused hi
          have h2 := h.seqAt_of_unused (mem_of_mem_take hi')
          rw [h1] at h2
          obtain rfl := (cons.inj h2).1
          exact ⟨hq, hi'⟩
        · rintro ⟨hs, hi'⟩
          exact ⟨s, hs, hi'⟩
      rw [hsplit]
      split
      · next hs =>
        have hparts := take_append_drop k (a.unusedOf placed s)
        have hnd : ((a.unusedOf placed s).take k ++ (a.unusedOf placed s).drop k).Nodup := by
          rw [hparts]
          exact unusedOf_nodup s
        have htake : (((a.unusedOf placed s).take k).filter fun i => i ∉ a.equalIdxs placed q0 m k) = [] := by
          rw [filter_eq_nil_iff]
          intro i hi
          simpa using (hmem i (mem_of_mem_take hi)).mpr ⟨hs, hi⟩
        have hdrop : (((a.unusedOf placed s).drop k).filter fun i => i ∉ a.equalIdxs placed q0 m k)
            = (a.unusedOf placed s).drop k := by
          rw [filter_eq_self]
          intro i hi
          have hni : i ∉ (a.unusedOf placed s).take k := fun hi' =>
            (nodup_append.mp hnd).2.2 i hi' i hi rfl
          rw [decide_eq_true_eq, hmem i (mem_of_mem_drop hi)]
          exact fun hboth => hni hboth.2
        conv_lhs => rw [← hparts, filter_append, htake, hdrop, nil_append]
      · next hs =>
        rw [filter_eq_self]
        intro i hi
        simp [hmem i hi, hs]
    rw [hrest, filter_append, h.equalIdxs_filter, append_assoc]
    conv_lhs => rw [hin.order s]
    congr 1
    split
    · exact (take_append_drop k _).symm
    · rfl

theorem Uncoupled.equalIdxs_blocks (h : Uncoupled a) (hacc : Accepted a) (hm : 0 < m) (hk : 0 < k)
    (hle : ∀ q ∈ range' q0 m, k ≤ (a.unusedOf placed q).length) :
    Blocks a (a.equalIdxs placed q0 m k) q0 m k := by
  have hlen : ∀ q ∈ range' q0 m, ((a.unusedOf placed q).take k).length = k := fun q hq => by
    rw [length_take]
    exact Nat.min_eq_left (hle q hq)
  have hfirst : ∀ q ∈ range' q0 m, ∃ i ∈ a.equalIdxs placed q0 m k, a.seqAt i = [q] := by
    intro q hq
    obtain ⟨i, hi⟩ := exists_mem_of_length_pos (by rw [hlen q hq]; exact hk)
    exact ⟨i, (mem_equalIdxs).mpr ⟨q, hq, hi⟩, h.seqAt_of_unused (mem_of_mem_take hi)⟩
  have hlt : ∀ q ∈ range' q0 m, q < a.nSeqMax := by
    intro q hq
    obtain ⟨i, -, hseq⟩ := hfirst q hq
    exact hacc.seq_lt i q (by rw [hseq]; exact mem_singleton.mpr rfl)
  refine ⟨hm, hk, ?_, ?_, fun s hs ii hii => ?_⟩
  · rw [equalIdxs, length_flatMap_blocks _ hlen, length_range']
  · have hend : q0 + m ≤ a.nSeqMax := by
      have := hlt (q0 + (m - 1)) (mem_range'_1.mpr (by omega))
      omega
    refine filter_range_eq_range' hend fun s _ => ?_
    rw [decide_eq_true_eq]
    constructor
    · rintro ⟨i, hi, hs⟩
      obtain ⟨q, hq, hi'⟩ := (mem_equalIdxs).mp hi
      rw [h.seqAt_of_unused (mem_of_mem_take hi')] at hs
      rwa [mem_singleton.mp hs]
    · intro hs
      obtain ⟨i, hi, hseq⟩ := hfirst s hs
      exact ⟨i, hi, by rw [hseq]; exact mem_singleton.mpr rfl⟩
  · have hs' : s < (range' q0 m).length := by rwa [length_range']
    have hq : (range' q0 m).get ⟨s, hs'⟩ = q0 + s := by simp
    rw [equalIdxs, getD_flatMap_blocks _ hlen s hs' ii hii, hq]
    have hmem : q0 + s ∈ range' q0 m := mem_range'_1.mpr (by omega)
    rw [getD_eq_getElem _ _ (by rw [hlen _ hmem]; exact hii)]
    exact h.seqAt_of_unused (mem_of_mem_take (getElem_mem _))

theorem InOrder.dropWhile (hin : InOrder a placed) (q : ℕ) :
    (a.tokensOf q).dropWhile (a.after placed).usedAt = a.unusedOf placed q := by
  have hused : ∀ i ∈ placed.filter (fun i => decide (q ∈ a.seqAt i)), (a.after placed).usedAt i = true := by
    intro i hi
    have hmem := mem_of_mem_filter hi
    rw [after_usedAt a (hin.lt i hmem)]
    simpa using hmem
  have hrest : (a.unusedOf placed q).dropWhile (a.after placed).usedAt = a.unusedOf placed q := by
    cases hun : a.unusedOf placed q with
    | nil => rfl
    | cons i l =>
      obtain ⟨hi, -, hni⟩ := (mem_unusedOf).mp (hun ▸ mem_cons_self : i ∈ a.unusedOf placed q)
      rw [dropWhile_cons_of_neg]
      rw [after_usedAt a hi]
      simpa using hni
  rw [hin.order q, dropWhile_append_of_pos hused]
  exact hrest

theorem splitEqual_step (h : Uncoupled a) (hacc : Accepted a) (hpos : 0 < a.nPosPerEmbd)
    (hcpl : a.hasCpl = false) (nUbatch : ℕ) (hin : InOrder a placed) :
    let r := (a.after placed).splitEqual nUbatch true
    r.asserts = true ∧ (r.value = (none, a.after placed) ∨
      ∃ q0 m k u, r.value = (some u, a.after (placed ++ a.equalIdxs placed q0 m k)) ∧
        Cut a (a.equalIdxs placed q0 m k) u ∧ Blocks a (a.equalIdxs placed q0 m k) q0 m k) := by
  obtain ⟨q0, m, hsets, hun⟩ := equalSets_spec h placed nUbatch (range a.nTokens)
    (fun i hi => mem_range.mp hi) 0 0 (-1) (fun h => absurd rfl h) (by simp)
  have hcpl' : (a.after placed).hasCpl = false := hcpl
  have hsets' : (a.after placed).equalSets nUbatch true (range (a.after placed).nTokens) [] (-1)
      = (range' q0 m).map fun q => ({q} : Finset ℕ) := hsets
  rcases Nat.eq_zero_or_pos m with rfl | hm
  · refine ⟨?_, Or.inl ?_⟩
    · simp [splitEqual, hcpl', hsets']
    · simp [splitEqual, hcpl', hsets']
  · have hne : (range' q0 m).map (fun q => ({q} : Finset ℕ)) ≠ [] := by
      rw [Ne, map_eq_nil_iff, range'_eq_nil_iff]
      omega
    have hstart : ((range' q0 m).map fun q => ({q} : Finset ℕ)).map
        (fun set => (((a.after placed).seqSetMap set).dropWhile (a.after placed).usedAt, ([] : List ℕ)))
        = (range' q0 m).map fun q => (a.unusedOf placed q, []) := by
      rw [map_map]
      refine map_congr_left fun q _ => ?_
      have hmap : (a.after placed).seqSetMap {q} = a.tokensOf q := h.seqSetMap q
      simp only [Function.comp, hmap, hin.dropWhile]
    obtain ⟨k, hloop, hle, hk⟩ := equalLoop_spec nUbatch a.nTokens
      ((range' q0 m).map fun q => (a.unusedOf placed q, []))
    have hidxs : (equalLoop nUbatch a.nTokens
        ((range' q0 m).map fun q => (a.unusedOf placed q, []))).flatMap Prod.snd
        = a.equalIdxs placed q0 m k := by
      rw [hloop, map_map, flatMap_map]
      rfl
    have hblocks : Blocks a (a.equalIdxs placed q0 m k) q0 m k := by
      refine h.equalIdxs_blocks hacc hm (hk hacc.nTokens_pos fun x hx => ?_) fun q hq => ?_
      · obtain ⟨q, hq, rfl⟩ := mem_map.mp hx
        exact hun q hq
      · exact hle _ (mem_map_of_mem hq)
    have hlen := hblocks.length
    have hcount : ((range' q0 m).map fun q => ({q} : Finset ℕ)).length = m := by simp
    have hval : (a.after placed).splitEqual nUbatch true = (do
        let r ← ((a.after placed).use (a.equalIdxs placed q0 m k)).ubatchAdd
          (a.equalIdxs placed q0 m k) m true
        return (some r.1, r.2)) := by
      simp only [splitEqual, hcpl', hsets', hne, hstart, hcount, Bool.false_eq_true, and_false, if_false]
      rw [show (a.after placed).nTokens = a.nTokens from rfl, hidxs]
    refine ⟨?_, Or.inr ⟨q0, m, k, _, ?_, ubatchAdd_cut placed hpos ?_ ?_ m true, hblocks⟩⟩
    · rw [hval]
      simp [ubatchAdd, hlen]
    · rw [hval]
      simp only [bind_value, pure_value, use_after]
    · intro hnil
      rw [hnil, length_nil] at hlen
      have := Nat.mul_pos hm hblocks.k_pos
      omega
    · intro i hi
      obtain ⟨q, -, hq⟩ := (mem_equalIdxs).mp hi
      exact ((mem_unusedOf).mp (mem_of_mem_take hq)).1

end Equal

end BatchAllocr
