import LlamaRafaelia.Kv.Intervals

/-!
# Taking back a ubatch that could not be computed

When the computation of a ubatch fails, `llama_context::decode` removes its positions again, from the smallest
position of each sequence on.  Only the first sequence of each token is looked at, and the removal stops short of the
largest position.
-/

namespace KvCache

open List Checked KvCells BatchAllocr KvCache

variable {kp : KvParams} {st : KvCache} {G : ℕ → ℕ → ℤ → ℕ} {u : Ubatch}

/-- `ubatch.seq_id[i][0]`. -/
def firstSeq (u : Ubatch) (i : ℕ) : ℕ := (u.seqAt i).headD 0

/-- `pos_min`: the smallest position among the tokens that list the sequence first. -/
def posMin (u : Ubatch) : ℕ → ℤ :=
  (List.range u.nTokens).foldl
    (fun m i => Function.update m (firstSeq u i) (min (m (firstSeq u i)) (u.posAt i))) fun _ => llamaPosMax

def rollbackStep (kp : KvParams) (u : Ubatch) (st : KvCache) (s : ℕ) : Checked KvCache :=
  if posMin u s = llamaPosMax then pure st else st.seqRm kp s (posMin u s) (-1)

/-- What `decode` does when the ubatch `u` was applied and its computation failed. -/
def rollback (kp : KvParams) (st : KvCache) (u : Ubatch) : Checked KvCache :=
  loopRange llamaMaxSeq (rollbackStep kp u) st

/-! ### The smallest positions -/

theorem foldl_posMin (u : Ubatch) (l : List ℕ) (m : ℕ → ℤ) (s : ℕ) (p : ℤ) :
    (l.foldl (fun m i => Function.update m (firstSeq u i) (min (m (firstSeq u i)) (u.posAt i))) m) s ≤ p ↔
      m s ≤ p ∨ ∃ i ∈ l, firstSeq u i = s ∧ u.posAt i ≤ p := by
  induction l generalizing m with
  | nil => simp
  | cons i l ih =>
    rw [foldl_cons, ih]
    by_cases hs : firstSeq u i = s
    · rw [hs, Function.update_self, min_le_iff, or_assoc]
      refine or_congr_right ?_
      constructor
      · rintro (hle | ⟨j, hj, hrest⟩)
        · exact ⟨i, mem_cons_self, hs, hle⟩
        · exact ⟨j, mem_cons_of_mem i hj, hrest⟩
      · rintro ⟨j, hj, hjs, hle⟩
        rcases mem_cons.mp hj with rfl | hj
        · exact Or.inl hle
        · exact Or.inr ⟨j, hj, hjs, hle⟩
    · rw [Function.update_of_ne (Ne.symm hs)]
      refine or_congr_right ?_
      constructor
      · rintro ⟨j, hj, hrest⟩
        exact ⟨j, mem_cons_of_mem i hj, hrest⟩
      · rintro ⟨j, hj, hjs, hle⟩
        rcases mem_cons.mp hj with rfl | hj
        · exact absurd hjs hs
        · exact ⟨j, hj, hjs, hle⟩

theorem posMin_le_iff (u : Ubatch) (s : ℕ) {p : ℤ} (hp : p < llamaPosMax) :
    posMin u s ≤ p ↔ ∃ i < u.nTokens, firstSeq u i = s ∧ u.posAt i ≤ p := by
  rw [posMin, foldl_posMin, or_iff_right (not_le.mpr hp)]
  simp only [List.mem_range]

theorem posMin_ne {s : ℕ} (h : posMin u s ≠ llamaPosMax) :
    ∃ i < u.nTokens, firstSeq u i = s ∧ u.posAt i = posMin u s := by
  have hle : posMin u s ≤ llamaPosMax := (foldl_posMin u _ _ s llamaPosMax).mpr (Or.inl le_rfl)
  obtain ⟨i, hi, hs, hle'⟩ := (posMin_le_iff u s (lt_of_le_of_ne hle h)).mp le_rfl
  have hge : posMin u s ≤ u.posAt i :=
    (foldl_posMin u _ _ s (u.posAt i)).mpr (Or.inr ⟨i, List.mem_range.mpr hi, hs, le_rfl⟩)
  exact ⟨i, hi, hs, le_antisymm hle' hge⟩

/-! ### The loop over the sequences -/

/-- The sequences that the tokens list first exist, and no token has a negative position. -/
structure UbatchFits (kp : KvParams) (u : Ubatch) : Prop where
  first_lt : ∀ i < u.nTokens, firstSeq u i < kp.seqToStream.length
  pos_nonneg : ∀ i < u.nTokens, 0 ≤ u.posAt i

/-- **The rollback, at one cell**: a sequence leaves it if a token lists it first, at or below its position. -/
theorem rollback_at (h : Ok kp G st) (hu : UbatchFits kp u) :
    Ok kp G (st.rollback kp u).value ∧ ∀ t < kp.nStream, ∀ i < kp.kvSize, ∀ q < llamaMaxSeq, ∀ p,
      (q ∈ ((st.rollback kp u).value.vCells t).seq i ∧ ((st.rollback kp u).value.vCells t).pos i = p) ↔
        (q ∈ (st.vCells t).seq i ∧ (st.vCells t).pos i = p) ∧
          ¬ (p < llamaPosMax ∧ ∃ j < u.nTokens, firstSeq u j = q ∧ u.posAt j ≤ p) := by
  have key := loopRange_value_rule (f := rollbackStep kp u)
    (fun k (st' : KvCache) => Ok kp G st' ∧ ∀ t < kp.nStream, ∀ i < kp.kvSize, ∀ q p,
      (q ∈ (st'.vCells t).seq i ∧ (st'.vCells t).pos i = p) ↔
        (q ∈ (st.vCells t).seq i ∧ (st.vCells t).pos i = p) ∧
          ¬ (q < k ∧ p < llamaPosMax ∧ posMin u q ≤ p))
    llamaMaxSeq (s := st) ⟨h, fun t _ i _ q p => by simp⟩ ?_
  · refine ⟨key.1, fun t ht i hi q hq p => ?_⟩
    rw [show st.rollback kp u = loopRange llamaMaxSeq (rollbackStep kp u) st from rfl, key.2 t ht i hi q p]
    refine and_congr_right fun _ => not_congr ?_
    constructor
    · rintro ⟨-, hp, hle⟩
      exact ⟨hp, (posMin_le_iff u q hp).mp hle⟩
    · rintro ⟨hp, hex⟩
      exact ⟨hq, hp, (posMin_le_iff u q hp).mpr hex⟩
  · rintro k st' hk ⟨hok, hat⟩
    rw [rollbackStep, ite_value, pure_value]
    by_cases hmin : posMin u k = llamaPosMax
    · -- no token lists the sequence first
      rw [if_pos hmin]
      refine ⟨hok, fun t ht i hi q p => (hat t ht i hi q p).trans (and_congr_right fun _ => not_congr ?_)⟩
      constructor
      · rintro ⟨hq, hrest⟩
        exact ⟨by omega, hrest⟩
      · rintro ⟨hq, hp, hle⟩
        refine ⟨lt_of_le_of_ne (Nat.lt_succ_iff.mp hq) ?_, hp, hle⟩
        rintro rfl
        omega
    · rw [if_neg hmin]
      obtain ⟨j, hj, hjs, hjp⟩ := posMin_ne hmin
      have hlt : k < kp.seqToStream.length := hjs ▸ hu.first_lt j hj
      have hnn : 0 ≤ posMin u k := hjp ▸ hu.pos_nonneg j hj
      have hlo : rangeLo (posMin u k) = posMin u k := if_neg (not_lt.mpr hnn)
      have hhi : rangeHi (-1) = llamaPosMax := rfl
      refine ⟨(seqRm_spec hok hlt _ _).2.1, fun t ht i hi q p => ?_⟩
      rw [seqRm_at hok hlt _ _ ht hi q p, hat t ht i hi q p, hlo, hhi, and_assoc]
      refine and_congr_right fun _ => ?_
      rw [← not_or]
      refine not_congr ?_
      constructor
      · rintro (⟨hq, hrest⟩ | ⟨rfl, hle, hp⟩)
        · exact ⟨by omega, hrest⟩
        · exact ⟨Nat.lt_succ_self _, hp, hle⟩
      · rintro ⟨hq, hp, hle⟩
        rcases Nat.lt_succ_iff_lt_or_eq.mp hq with hq | rfl
        · exact Or.inl ⟨hq, hp, hle⟩
        · exact Or.inr ⟨rfl, hle, hp⟩

/-! ### When nothing is left behind -/

theorem firstSeq_mem (hu : UbatchOk kp u) {i : ℕ} (hi : i < u.nTokens) : firstSeq u i ∈ u.seqAt i := by
  have hne := hu.seq_ne i hi
  rw [firstSeq]
  cases hl : u.seqAt i with
  | nil => exact absurd hl hne
  | cons s l => exact mem_cons_self

theorem ubatchFits_of_ok (hu : UbatchOk kp u) : UbatchFits kp u := by
  refine ⟨fun i hi => ?_, hu.pos_nonneg⟩
  have hpos := UbatchOk.slotTokens_pos hu
  have hdiv : i / slotTokens kp u < slotSeqs kp u := by
    rw [Nat.div_lt_iff_lt_mul hpos, ← hu.blocks]
    exact hi
  have hsplit : i / slotTokens kp u * slotTokens kp u + i % slotTokens kp u = i := Nat.div_add_mod' i _
  have hall := hu.seq_stream _ hdiv (i % slotTokens kp u) (Nat.mod_lt _ hpos)
  rw [hsplit] at hall
  exact (hall _ (firstSeq_mem hu hi)).1

/-- No cell holds a sequence of a token of the ubatch at or above the position of the token, and the entries
below the first position of a sequence in the ubatch are untouched. -/
structure RolledBack (kp : KvParams) (u : Ubatch) (st st' : KvCache) : Prop where
  gone : ∀ t < kp.nStream, ∀ i < kp.kvSize, ∀ j < u.nTokens, ∀ s ∈ u.seqAt j,
    s ∈ (st'.vCells t).seq i → (st'.vCells t).pos i < u.posAt j
  kept : ∀ t < kp.nStream, ∀ i < kp.kvSize, ∀ s ∈ (st.vCells t).seq i,
    (∀ j < u.nTokens, s ∈ u.seqAt j → (st.vCells t).pos i < u.posAt j) →
    s ∈ (st'.vCells t).seq i ∧ (st'.vCells t).pos i = (st.vCells t).pos i

/-- Each entry of a sequence at or above one of its tokens is below the largest position, and some token that
lists the sequence first is at or below it. -/
def Covered (kp : KvParams) (u : Ubatch) (st : KvCache) : Prop :=
  ∀ t < kp.nStream, ∀ i < kp.kvSize, ∀ j < u.nTokens, ∀ s ∈ u.seqAt j,
    s ∈ (st.vCells t).seq i → u.posAt j ≤ (st.vCells t).pos i →
      (st.vCells t).pos i < llamaPosMax ∧ ∃ k < u.nTokens, firstSeq u k = s ∧ u.posAt k ≤ (st.vCells t).pos i

theorem rolledBack_iff (h : Ok kp G st) (hu : UbatchOk kp u) :
    RolledBack kp u st (st.rollback kp u).value ↔ Covered kp u st := by
  obtain ⟨-, hat⟩ := rollback_at h (ubatchFits_of_ok hu)
  have hmax : ∀ t < kp.nStream, ∀ i < kp.kvSize, ∀ s ∈ (st.vCells t).seq i, s < llamaMaxSeq :=
    fun t ht i hi s hs => ((h t ht).stream i hi s hs).1.trans_le kp.seqToStream_length_le
  constructor
  · intro hr t ht i hi j hj s hs hm hle
    by_contra hno
    obtain ⟨hm', hp'⟩ := (hat t ht i hi s (hmax t ht i hi s hm) _).mpr ⟨⟨hm, rfl⟩, hno⟩
    have hlt := hr.gone t ht i hi j hj s hs hm'
    rw [hp'] at hlt
    omega
  · intro hc
    refine ⟨fun t ht i hi j hj s hs hm => ?_, fun t ht i hi s hm hbelow => ?_⟩
    · have hlt : s < llamaMaxSeq := by
        by_contra hge
        obtain ⟨hok, -⟩ := rollback_at h (ubatchFits_of_ok hu)
        exact hge (((hok t ht).stream i hi s hm).1.trans_le kp.seqToStream_length_le)
      obtain ⟨⟨hm', hp'⟩, hno⟩ := (hat t ht i hi s hlt _).mp ⟨hm, rfl⟩
      by_contra hge
      rw [← hp'] at hno hge
      exact hno (hc t ht i hi j hj s hs hm' (not_lt.mp hge))
    · refine (hat t ht i hi s (hmax t ht i hi s hm) _).mpr ⟨⟨hm, rfl⟩, ?_⟩
      rintro ⟨-, k, hk, rfl, hle⟩
      have := hbelow k hk (firstSeq_mem hu hk)
      omega

/-- **Taking back a ubatch.**  After `decode` has applied some ubatches of a batch and the computation of the
last one fails, the rollback leaves nothing of it in exactly these cases. -/
theorem decode_rollback_iff (kp : KvParams) (st : KvCache) (h : PlacedReach kp st) (x : DecodeArgs)
    (hpl : (Op.decode x).Placed kp st) (hc : (st.decode kp x).checks = true) (a : BatchAllocr)
    (hinit : (acceptBatch kp st x).value = .ok a) (u : Ubatch) (hu : u ∈ (ubatches kp a x.nUbatch).1) :
    RolledBack kp u (st.decode kp x).value.2 ((st.decode kp x).value.2.rollback kp u).value ↔
      Covered kp u (st.decode kp x).value.2 := by
  obtain ⟨G, hok⟩ := reach_ok h
  obtain ⟨G', hok', -⟩ := decode_ok hok hpl hc
  exact rolledBack_iff hok' (ubatches_ok (decode_nTokens_pos hc) hpl hinit u hu).1

/-- A batch with one token, as `init` accepts it. -/
def acceptedAs (x : DecodeArgs) : BatchAllocr :=
  (sanitize smallCache.nPosPerEmbd x.batch (some ((init smallCache).memory smallCache).value)
    smallCache.batchSeqMax x.outputAll).splitReset

def firstUbatch (x : DecodeArgs) : Ubatch :=
  (ubatches smallCache (acceptedAs x) x.nUbatch).1.headD (.single 0 0)

def decodedAs (x : DecodeArgs) : KvCache := ((init smallCache).decode smallCache x).value.2

/-- The cell of a token of one sequence is empty again. -/
example : (((decodedAs oneToken).rollback smallCache (firstUbatch oneToken)).value.vCells 0).seq 0 = ∅ := by
  decide +kernel

theorem acceptedAs_eq {x : DecodeArgs} (h : ((init smallCache).decode smallCache x).value.1 = true) :
    (acceptBatch smallCache (init smallCache) x).value = .ok (acceptedAs x) := by
  obtain ⟨a, ha⟩ := decode_accepted h
  obtain ⟨-, -, -, rfl⟩ := BatchAllocr.init_ok ha
  exact ha

theorem decodedAs_reach {x : DecodeArgs} (hpl : (Op.decode x).Placed smallCache (init smallCache))
    (hc : ((init smallCache).step smallCache (.decode x)).checks = true) :
    PlacedReach smallCache (decodedAs x) := PlacedReach.init.step (.decode x) trivial hpl hc

theorem oneDecoded_covered : Covered smallCache (firstUbatch oneToken) (decodedAs oneToken) := by
  have htop : ∀ t < 1, ∀ i < 2, ((decodedAs oneToken).vCells t).pos i < llamaPosMax := by decide +kernel
  intro t ht i hi j hj s hs _ hle
  have hj0 : j = 0 := Nat.lt_one_iff.mp hj
  subst hj0
  exact ⟨htop t ht i hi, 0, Nat.one_pos, (mem_singleton.mp hs).symm, hle⟩

/-- One token of sequence 0 is taken back. -/
theorem decode_rollback_iff_token :
    RolledBack smallCache (firstUbatch oneToken) (decodedAs oneToken)
      ((decodedAs oneToken).rollback smallCache (firstUbatch oneToken)).value := by
  have hwhole : ((init smallCache).decode smallCache oneToken).value.1 = true := by decide +kernel
  have hmem : firstUbatch oneToken ∈ (ubatches smallCache (acceptedAs oneToken) oneToken.nUbatch).1 :=
    mem_cons_self
  have hcov := oneDecoded_covered
  unfold decodedAs at hcov ⊢
  exact (decode_rollback_iff smallCache (init smallCache) .init oneToken
    (oneToken_placed smallCache (init smallCache)) (by decide +kernel) (acceptedAs oneToken)
    (acceptedAs_eq hwhole) (firstUbatch oneToken) hmem).mpr hcov

def pairToken : DecodeArgs := tokensAt [0] [0, 1]

/-- What the rollback of `pairToken` leaves. -/
def pairLeft : KvCache := ((decodedAs pairToken).rollback smallCache (firstUbatch pairToken)).value

theorem pairToken_placed : (Op.decode pairToken).Placed smallCache (init smallCache) := by
  intro a ha i hi
  obtain ⟨hn, hpos, hseq⟩ := tokensAt_accepted ha
  rw [hseq i (hn ▸ hi), hpos]
  rw [hn] at hi
  revert i
  decide

theorem not_rolledBack {st' : KvCache} {t i j s : ℕ} (ht : t < kp.nStream) (hi : i < kp.kvSize)
    (hj : j < u.nTokens) (hs : s ∈ u.seqAt j) (hm : decide (s ∈ (st'.vCells t).seq i) = true)
    (hp : ¬ (st'.vCells t).pos i < u.posAt j) : ¬ RolledBack kp u st st' :=
  fun hr => hp (hr.gone t ht i hi j hj s hs (of_decide_eq_true hm))

theorem pairLeft_holds : (0 < (firstUbatch pairToken).nTokens ∧ 1 ∈ (firstUbatch pairToken).seqAt 0) ∧
    decide (1 ∈ (pairLeft.vCells 0).seq 0) = true ∧ ¬ (pairLeft.vCells 0).pos 0 < (firstUbatch pairToken).posAt 0 := by
  decide +kernel

/-- The token of two sequences leaves the first one only: its cell still holds sequence 1. -/
theorem rollback_keeps_second :
    PlacedReach smallCache (decodedAs pairToken) ∧
      (acceptBatch smallCache (init smallCache) pairToken).value = .ok (acceptedAs pairToken) ∧
      firstUbatch pairToken ∈ (ubatches smallCache (acceptedAs pairToken) pairToken.nUbatch).1 ∧
      ¬ RolledBack smallCache (firstUbatch pairToken) (decodedAs pairToken) pairLeft := by
  have hwhole : ((init smallCache).decode smallCache pairToken).value.1 = true := by decide +kernel
  obtain ⟨⟨hn, hlist⟩, hseq, hpos⟩ := pairLeft_holds
  refine ⟨decodedAs_reach pairToken_placed (by decide +kernel), acceptedAs_eq hwhole, mem_cons_self, ?_⟩
  exact @not_rolledBack smallCache (decodedAs pairToken) (firstUbatch pairToken) pairLeft 0 0 0 1 Nat.one_pos
    Nat.two_pos hn hlist hseq hpos

end KvCache
