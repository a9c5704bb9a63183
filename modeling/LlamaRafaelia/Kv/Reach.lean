import LlamaRafaelia.Kv.Decode
import LlamaRafaelia.Kv.PrepareAsserts

/-!
# Runs of the KV cache

`Op` lists the operations on the cache and `step` performs one.  A run is safe (`SafeRun`) when each step meets a
condition on the state before it: a copy finds no cell that already holds the destination and no shift that points
below zero, and a batch places its tokens, lists a sequence once for each of them and finds no pending shift.

`init` accepts a token at position -1, the mark of an empty cell, and a token that lists no sequence.  `PlacedReach` are
the runs without such tokens.
-/

namespace KvCache

open Checked KvCells BatchAllocr

variable {kp : KvParams} {st : KvCache} {G : ℕ → ℕ → ℤ → ℕ}

/-- The operations on a KV cache. -/
inductive Op where
  | clear (data : Bool)
  | seqRm (seqId p0 p1 : ℤ)
  | seqCp (src dst p0 p1 : ℤ)
  | seqKeep (seqId : ℤ)
  | seqAdd (seqId p0 p1 shift : ℤ)
  | seqDiv (seqId p0 p1 d : ℤ)
  | update (shifted : Option TensorData)
  | decode (x : DecodeArgs)

def step (kp : KvParams) (st : KvCache) : Op → Checked KvCache
  | .clear data => pure (st.clear kp data)
  | .seqRm seqId p0 p1 => st.seqRm kp seqId p0 p1
  | .seqCp src dst p0 p1 => st.seqCp kp src dst p0 p1
  | .seqKeep seqId => st.seqKeep kp seqId
  | .seqAdd seqId p0 p1 shift => st.seqAdd kp seqId p0 p1 shift
  | .seqDiv seqId p0 p1 d => st.seqDiv kp seqId p0 p1 d
  | .update shifted => pure (st.update kp shifted)
  | .decode x => do
    let r ← st.decode kp x
    return r.2

/-- The arguments that an operation is meant for: a divisor is at least one. -/
def Op.Admissible : Op → Prop
  | .seqDiv _ _ _ d => 1 ≤ d
  | _ => True

/-- The cells of the tokens count as used: each token lists a sequence, at a position from 0 on. -/
def Placeable (a : BatchAllocr) : Prop := ∀ i < a.nTokens, a.seqAt i ≠ [] ∧ 0 ≤ a.posAt i

def Op.Placed (kp : KvParams) (st : KvCache) : Op → Prop
  | .decode x => ∀ a, (acceptBatch kp st x).value = .ok a → Placeable a
  | _ => True

/-- The states that the operations reach from the empty cache. -/
inductive KvReach (kp : KvParams) : KvCache → Prop
  | init : KvReach kp (KvCache.init kp)
  | step {st : KvCache} (h : KvReach kp st) (op : Op) (hadm : op.Admissible)
      (hc : (st.step kp op).checks = true) : KvReach kp (st.step kp op).value

/-- The states that the operations reach when every accepted batch places its tokens. -/
inductive PlacedReach (kp : KvParams) : KvCache → Prop
  | init : PlacedReach kp (KvCache.init kp)
  | step {st : KvCache} (h : PlacedReach kp st) (op : Op) (hadm : op.Admissible) (hpl : op.Placed kp st)
      (hc : (st.step kp op).checks = true) : PlacedReach kp (st.step kp op).value

/-! ### `update` and the accepted batch -/

theorem update_cell (st : KvCache) (shifted : Option TensorData) (t : ℕ) :
    (st.update kp shifted).vCells t = st.vCells t ∨
      (st.update kp shifted).vCells t = (st.vCells t).resetShift := by
  unfold update
  split
  · simp only
    split
    · exact Or.inr rfl
    · exact Or.inl rfl
  · exact Or.inl rfl

theorem update_vHeads (st : KvCache) (shifted : Option TensorData) :
    (st.update kp shifted).vHeads = st.vHeads := by
  unfold update
  split <;> rfl

theorem update_ok (h : Ok kp G st) (shifted : Option TensorData) : Ok kp G (st.update kp shifted) := by
  intro t ht
  rw [update_vHeads]
  rcases @update_cell kp st shifted t with heq | heq
  · rw [heq]
    exact h t ht
  · rw [heq]
    exact ⟨(h t ht).size, resetShift_sound (h t ht).sound, (h t ht).owned, (h t ht).stream, (h t ht).head_le⟩

theorem batchSeqMax_pos (kp : KvParams) : 0 < kp.batchSeqMax := by
  unfold KvParams.batchSeqMax
  split
  · decide
  · exact kp.nSeqMax_pos

theorem acceptBatch_ok {x : DecodeArgs} {a : BatchAllocr} (hn : 0 < x.batch.nTokens)
    (hpl : Placeable a) (h : (acceptBatch kp st x).value = .ok a) :
    Accepted a ∧ a.nSeqMax = kp.batchSeqMax ∧ a.nPosPerEmbd = kp.nPosPerEmbd := by
  have hlist : x.batch.Listed := listed_of_init h fun i hi => (hpl i hi).1
  obtain ⟨hmax, hids, -, rfl⟩ := BatchAllocr.init_ok h
  have hacc : Accepted (sanitize kp.nPosPerEmbd x.batch (some (st.memory kp).value) kp.batchSeqMax
      x.outputAll) := sanitize_accepted hn hlist (batchSeqMax_pos kp) hmax hids
  exact ⟨⟨hacc.nTokens_pos, hacc.nSeqMax_le, hacc.seqId_length, hacc.seq_ne, hacc.seq_lt⟩, rfl, rfl⟩

theorem decode_nTokens_pos {x : DecodeArgs} (hc : (st.decode kp x).checks = true) : 0 < x.batch.nTokens := by
  simp only [decode, bind_checks, Bool.and_eq_true, BatchAllocr.init, check_checks, decide_eq_true_eq] at hc
  exact hc.2.1.1

/-! ### One step keeps the invariant -/

def Distinct (a : BatchAllocr) : Prop := ∀ i < a.nTokens, (a.seqAt i).Nodup

theorem ubatches_ok {x : DecodeArgs} {a : BatchAllocr} (hn : 0 < x.batch.nTokens)
    (hpl : (Op.decode x).Placed kp st) (hinit : (acceptBatch kp st x).value = .ok a) :
    ∀ u ∈ (ubatches kp a x.nUbatch).1, UbatchOk kp u ∧ (Distinct a → u.DistinctSeqs) := by
  obtain ⟨hacc, hmax, hemb⟩ := acceptBatch_ok hn (hpl a hinit) hinit
  obtain ⟨-, -, -, hus, -⟩ :=
    split_spec hacc hmax (hemb ▸ kp.nPosPerEmbd_pos) (fun i hi => (hpl a hinit i hi).2) x.nUbatch
  intro u hu
  obtain ⟨hubatch, htok⟩ := hus u hu
  refine ⟨hubatch, fun hd i hi => ?_⟩
  obtain ⟨j, hj, -, hseq⟩ := htok i hi
  exact hseq ▸ hd j hj

/-- **`decode` keeps the invariant**, with the same surplus when no token lists a sequence twice. -/
theorem decode_ok (h : Ok kp G st) {x : DecodeArgs} (hpl : (Op.decode x).Placed kp st)
    (hc : (st.decode kp x).checks = true) :
    ∃ G', Ok kp G' (st.decode kp x).value.2 ∧
      ((∀ a, (acceptBatch kp st x).value = .ok a → Distinct a) → G' = G) := by
  have hn := decode_nTokens_pos hc
  have hupd := update_ok h x.shifted
  have hdec := decode_decoded kp st x
  generalize (st.decode kp x).value = r at hdec ⊢
  cases hdec with
  | refused => exact ⟨G, h, fun _ => rfl⟩
  | unsplit => exact ⟨G, hupd, fun _ => rfl⟩
  | unfit a hinit =>
    have hus := ubatches_ok hn hpl hinit
    obtain ⟨G', hok, -, -, -, hsame⟩ := roundTrip_spec _ (fun u hu => (hus u hu).1) hupd
    exact ⟨G', hok, fun hd => hsame fun u hu => (hus u hu).2 (hd a hinit)⟩
  | applied a slots hinit hused hfind =>
    have hus := ubatches_ok hn hpl hinit
    obtain ⟨G', hok, -, -, -, hsame⟩ := roundTrip_spec _ (fun u hu => (hus u hu).1) hupd
    obtain ⟨⟨G2, hok2, hsame2⟩, -⟩ := replay _ (fun u hu => (hus u hu).1) x.nDone slots hfind hok hupd
      fun _ _ _ _ => Or.inr rfl
    refine ⟨G2, hok2, fun hd => ?_⟩
    have hall := fun u hu => (hus u hu).2 (hd a hinit)
    exact (hsame2 hall).1.trans (hsame hall)

theorem memory_asserts (h : Ok kp G st) : (st.memory kp).asserts = true := by
  simp only [memory, bind_asserts, assert_asserts, pure_asserts, Bool.and_true, decide_eq_true_eq]
  intro s hs
  have hsound := (h _ (kp.streamOf_lt s)).sound
  have hlt : s < llamaMaxSeq :=
    lt_of_lt_of_le hs ((batchSeqMax_le_seqToStream kp).trans kp.seqToStream_length_le)
  simp only [KvCache.seqPosMin, KvCache.seqPosMax, bind_asserts, check_asserts, Bool.true_and,
    Int.toNat_natCast]
  exact ⟨seqPosMin_asserts hsound hlt, seqPosMax_asserts hsound hlt⟩

theorem step_ok (h : Ok kp G st) (op : Op) (hadm : op.Admissible) (hpl : op.Placed kp st)
    (hc : (st.step kp op).checks = true) : ∃ G', Ok kp G' (st.step kp op).value := by
  cases op with
  | clear data => exact ⟨0, clear_ok h data⟩
  | seqRm seqId p0 p1 => exact ⟨G, (seqRm_ok h p0 p1 hc).2⟩
  | seqCp src dst p0 p1 =>
    have hc' : (st.seqCp kp src dst p0 p1).checks = true := hc
    simp only [KvCache.seqCp, bind_checks, check_checks, Bool.and_eq_true, decide_eq_true_eq] at hc'
    obtain ⟨⟨hsrc, -⟩, ⟨hdst, -⟩, -⟩ := hc'
    lift src to ℕ using hsrc
    lift dst to ℕ using hdst
    exact (seqCp_ok h p0 p1 hc).1
  | seqKeep seqId => exact ⟨G, (seqKeep_ok h hc).2⟩
  | seqAdd seqId p0 p1 d => exact ⟨G, (seqAdd_ok h p0 p1 d hc).2⟩
  | seqDiv seqId p0 p1 d => exact ⟨G, (seqDiv_ok h p0 p1 hadm hc).2⟩
  | update shifted => exact ⟨G, update_ok h shifted⟩
  | decode x =>
    have hc' : (st.decode kp x).checks = true := by
      simpa only [step, bind_checks, pure_checks, Bool.and_true] using hc
    obtain ⟨G', hok, -⟩ := decode_ok h hpl hc'
    exact ⟨G', hok⟩

/-- **Every state of a run that places its tokens satisfies the invariant** up to some surplus. -/
theorem reach_ok (h : PlacedReach kp st) : ∃ G, Ok kp G st := by
  induction h with
  | init => exact ⟨0, init_ok⟩
  | step _ op hadm hpl hc ih =>
    obtain ⟨G, hok⟩ := ih
    exact step_ok hok op hadm hpl hc

/-! ### Safe runs -/

def Op.Safe (kp : KvParams) (st : KvCache) : Op → Prop
  | .seqCp src dst p0 p1 => CopySound kp st src.toNat dst.toNat p0 p1
  | .seqDiv _ _ _ d => 1 ≤ d
  | .decode x => ∀ a, (acceptBatch kp st x).value = .ok a →
      Placeable a ∧ Distinct a ∧ ShiftFree kp (st.update kp x.shifted)
  | _ => True

/-- The states that safe operations reach from the empty cache. -/
inductive SafeRun (kp : KvParams) : KvCache → Prop
  | init : SafeRun kp (KvCache.init kp)
  | step {st : KvCache} (h : SafeRun kp st) (op : Op) (hsafe : op.Safe kp st)
      (hc : (st.step kp op).checks = true) : SafeRun kp (st.step kp op).value

theorem decode_safe (h : Ok kp 0 st) {x : DecodeArgs} (hsafe : (Op.decode x).Safe kp st)
    (hc : (st.decode kp x).checks = true) :
    (st.decode kp x).asserts = true ∧ Ok kp 0 (st.decode kp x).value.2 := by
  have hn := decode_nTokens_pos hc
  have hpl : (Op.decode x).Placed kp st := fun a ha => (hsafe a ha).1
  have hupd := update_ok h x.shifted
  obtain ⟨G', hok, hsame⟩ := decode_ok h hpl hc
  rw [hsame fun a ha => (hsafe a ha).2.1] at hok
  refine ⟨decode_asserts (memory_asserts h) fun a ha => ?_, hok⟩
  obtain ⟨hplaced, hd, hfree⟩ := hsafe a ha
  have hus := ubatches_ok hn hpl ha
  obtain ⟨hacc, hmax, hemb⟩ := acceptBatch_ok hn hplaced ha
  obtain ⟨hsplit, -, -, -, -⟩ :=
    split_spec hacc hmax (hemb ▸ kp.nPosPerEmbd_pos) (fun i hi => (hplaced i hi).2) x.nUbatch
  refine ⟨hsplit, prepare_asserts _ (fun u hu => ⟨(hus u hu).1, (hus u hu).2 hd⟩) hupd hfree,
    fun slots hfind => ?_⟩
  obtain ⟨G1, hok1, -, -, -, -⟩ := roundTrip_spec _ (fun u hu => (hus u hu).1) hupd
  obtain ⟨⟨G2, -, hasserts⟩, -⟩ := replay _ (fun u hu => (hus u hu).1) x.nDone slots hfind hok1 hupd
    fun _ _ _ _ => Or.inr rfl
  exact (hasserts fun u hu => (hus u hu).2 hd).2

/-- **One safe step** meets the assertions and keeps the invariant. -/
theorem step_safe (h : Ok kp 0 st) (op : Op) (hsafe : op.Safe kp st)
    (hc : (st.step kp op).checks = true) :
    (st.step kp op).asserts = true ∧ Ok kp 0 (st.step kp op).value := by
  cases op with
  | clear data => exact ⟨rfl, clear_ok h data⟩
  | seqRm seqId p0 p1 => exact seqRm_ok h p0 p1 hc
  | seqCp src dst p0 p1 =>
    have hc' : (st.seqCp kp src dst p0 p1).checks = true := hc
    simp only [KvCache.seqCp, bind_checks, check_checks, Bool.and_eq_true, decide_eq_true_eq] at hc'
    obtain ⟨⟨hsrc, -⟩, ⟨hdst, -⟩, -⟩ := hc'
    lift src to ℕ using hsrc
    lift dst to ℕ using hdst
    exact (seqCp_ok h p0 p1 hc).2 rfl hsafe
  | seqKeep seqId => exact seqKeep_ok h hc
  | seqAdd seqId p0 p1 d => exact seqAdd_ok h p0 p1 d hc
  | seqDiv seqId p0 p1 d => exact seqDiv_ok h p0 p1 hsafe hc
  | update shifted => exact ⟨rfl, update_ok h shifted⟩
  | decode x =>
    have hc' : (st.decode kp x).checks = true := by
      simpa only [step, bind_checks, pure_checks, Bool.and_true] using hc
    obtain ⟨hasserts, hok⟩ := decode_safe h hsafe hc'
    exact ⟨by simp only [step, bind_asserts, hasserts, pure_asserts, Bool.and_self], hok⟩

theorem safeRun_ok (h : SafeRun kp st) : Ok kp 0 st := by
  induction h with
  | init => exact init_ok
  | step _ op hsafe hc ih => exact (step_safe ih op hsafe hc).2

end KvCache
