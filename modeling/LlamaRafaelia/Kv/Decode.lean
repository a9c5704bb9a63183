import LlamaRafaelia.Batch.Split
import LlamaRafaelia.Kv.Replay

/-!
# Decoding a batch

`llama_context::decode` validates the batch, handles pending copies and shifts, splits, lets `prepare` find the slots
and applies them one after the other; it can stop at any of these points.  What the graphs leave in the tensors is an
argument.
-/

namespace KvParams

/-- The `n_seq_max` that `decode` passes to `llama_batch_allocr::init`. -/
def batchSeqMax (kp : KvParams) : ℕ := if kp.unified then llamaMaxSeq else kp.nSeqMax

end KvParams

namespace KvCache

open List Checked BatchAllocr

variable (kp : KvParams) (st : KvCache)

/-- The cache as the `llama_memory_i` that `init` asks for positions. -/
def memory : Checked Memory := do
  assert (∀ s < kp.batchSeqMax, (st.seqPosMin kp s).asserts = true ∧ (st.seqPosMax kp s).asserts = true)
  return ⟨fun s => (st.seqPosMin kp s).value, fun s => (st.seqPosMax kp s).value⟩

/-- The split that `init_batch` uses. -/
def split (nUbatch : ℕ) (a : BatchAllocr) : Checked (Option Ubatch × BatchAllocr) :=
  if kp.nStream = 1 then a.splitSimple nUbatch else a.splitEqual nUbatch true

/-- `init_batch`: the ubatches with their slots, `none` when the batch does not fit. -/
def initBatch (a : BatchAllocr) (nUbatch : ℕ) : Checked (KvCache × Option (List (SlotInfo × Ubatch))) := do
  let r ← splitLoop (split kp nUbatch) (a.nTokens + 1) a.splitReset []
  -- failed to find a suitable split
  if r.2.nUsed < r.2.nTokens then return (st, none)
  else
    let p ← st.prepare kp r.1
    if p.2 = [] then return (p.1, none)
    else return (p.1, some (p.2.zip r.1))

/-- What a call of `decode` depends on besides the cache. -/
structure DecodeArgs where
  batch : Batch
  nVocab : ℕ
  nUbatch : ℕ
  outputAll : Bool
  /-- what the K-shift leaves in the K tensors, `none` when it fails -/
  shifted : Option TensorData
  /-- the number of ubatches that are applied -/
  nDone : ℕ
  /-- what the computation leaves in the tensors -/
  kData : TensorData
  vData : TensorData

/-- `decode`: whether the whole batch was applied, and the state of the cache. -/
def decode (x : DecodeArgs) : Checked (Bool × KvCache) := do
  let m ← st.memory kp
  match ← BatchAllocr.init kp.nPosPerEmbd x.nVocab x.batch (some m) kp.batchSeqMax x.outputAll with
  | .error _ => return (false, st)
  | .ok a =>
    let r ← (st.update kp x.shifted).initBatch kp a x.nUbatch
    match r.2 with
    | none => return (false, r.1)
    | some l =>
      let st ← applyAll kp r.1 (l.take x.nDone)
      return (decide (l.length ≤ x.nDone), { st with kData := x.kData, vData := x.vData })

/-! ### What the splits hand to `prepare` -/

variable {kp st} {a : BatchAllocr} {idxs : List ℕ} {u : Ubatch}

theorem batchSeqMax_le_seqToStream (kp : KvParams) : kp.batchSeqMax ≤ kp.seqToStream.length := by
  by_cases hm : 1 < kp.nStream
  · -- several streams: the cache is not unified
    have hun : kp.unified = false := by
      by_contra h
      rw [Bool.not_eq_false] at h
      simp [KvParams.nStream, h] at hm
    rw [KvParams.seqToStream, if_pos hm, length_range, KvParams.batchSeqMax, KvParams.nStream, hun]
    exact le_rfl
  · rw [KvParams.seqToStream, if_neg hm, length_replicate, KvParams.batchSeqMax]
    split
    · exact le_rfl
    · exact kp.nSeqMax_le

theorem slotTokens_of_single (h : kp.nStream = 1) (u : Ubatch) :
    slotSeqs kp u = 1 ∧ slotTokens kp u = u.nTokens := by
  have hs : slotSeqs kp u = 1 := by simp [slotSeqs, h]
  exact ⟨hs, by rw [slotTokens, hs, Nat.div_one]⟩

theorem ubatchOk_of_cut (hn : kp.nStream = 1) (hacc : Accepted a) (hmax : a.nSeqMax = kp.batchSeqMax)
    (hpos : ∀ i < a.nTokens, 0 ≤ a.posAt i) (h : Cut a idxs u) : UbatchOk kp u := by
  obtain ⟨hseqs, htok⟩ := slotTokens_of_single hn u
  have hlen : 0 < u.nTokens := h.nTokens ▸ length_pos_of_ne_nil h.idxs_ne
  have hlt : ∀ s < a.nSeqMax, s < kp.seqToStream.length := fun s hs =>
    lt_of_lt_of_le (hmax ▸ hs) (batchSeqMax_le_seqToStream kp)
  have hone : kp.nStream ≤ 1 := le_of_eq hn
  refine ⟨hlen, h.seqIdUnq ▸ seqIdUnq_nodup idxs, fun s hs => ?_, ?_, ?_, fun i hi => ?_, fun i hi => ?_,
    fun s hs ii hii q hq => ?_⟩
  · rw [h.seqIdUnq, mem_seqIdUnq] at hs
    exact hlt s hs.1
  · -- the first token has a sequence
    rw [hseqs, h.seqIdUnq]
    obtain ⟨i, hi⟩ := exists_mem_of_ne_nil idxs h.idxs_ne
    obtain ⟨q, hq⟩ := exists_mem_of_ne_nil _ (hacc.seq_ne i (h.idxs_lt i hi))
    exact length_pos_of_mem ((mem_seqIdUnq).mpr ⟨hacc.seq_lt i q hq, i, hi, hq⟩)
  · rw [hseqs, htok, Nat.one_mul]
  · obtain ⟨j, hj, hp, -⟩ := h.token hi
    exact hp ▸ hpos j hj
  · obtain ⟨j, hj, -, hs⟩ := h.token hi
    exact hs ▸ hacc.seq_ne j hj
  · rw [hseqs] at hs
    have hs0 : s = 0 := by omega
    subst hs0
    rw [htok] at hii hq
    rw [Nat.zero_mul, Nat.zero_add] at hq
    obtain ⟨j, -, -, hseq⟩ := h.token hii
    rw [hseq] at hq
    exact ⟨hlt q (hacc.seq_lt j q hq), by rw [kp.streamOf_of_le hone, kp.streamOf_of_le hone]⟩

theorem ubatchOk_of_blocks {q0 m k : ℕ} (hn : 1 < kp.nStream) (hacc : Accepted a)
    (hmax : a.nSeqMax = kp.batchSeqMax) (hpos : ∀ i < a.nTokens, 0 ≤ a.posAt i) (h : Cut a idxs u)
    (hb : Blocks a idxs q0 m k) : UbatchOk kp u := by
  have hunq : u.seqIdUnq = List.range' q0 m := h.seqIdUnq.trans hb.unq
  have hseqs : slotSeqs kp u = m := by
    rw [slotSeqs, if_pos hn, Ubatch.nSeqsUnq, hunq, length_range']
  have hlen : u.nTokens = m * k := h.nTokens.trans hb.length
  have htok : slotTokens kp u = k := by
    rw [slotTokens, hseqs, hlen]
    exact Nat.mul_div_cancel_left k hb.m_pos
  have hlt : ∀ q ∈ u.seqIdUnq, q < kp.seqToStream.length := fun q hq => by
    rw [h.seqIdUnq, mem_seqIdUnq] at hq
    exact lt_of_lt_of_le (hmax ▸ hq.1) (batchSeqMax_le_seqToStream kp)
  refine ⟨?_, h.seqIdUnq ▸ seqIdUnq_nodup idxs, hlt, ?_, ?_, fun i hi => ?_, fun i hi => ?_,
    fun s hs ii hii q hq => ?_⟩
  · rw [hlen]
    exact Nat.mul_pos hb.m_pos hb.k_pos
  · rw [hseqs, hunq, length_range']
  · rw [hseqs, htok, hlen]
  · obtain ⟨j, hj, hp, -⟩ := h.token hi
    exact hp ▸ hpos j hj
  · obtain ⟨j, hj, -, hs⟩ := h.token hi
    exact hs ▸ hacc.seq_ne j hj
  · rw [hseqs] at hs
    rw [htok] at hii hq
    have hidx : s * k + ii < idxs.length := by
      rw [hb.length]
      calc s * k + ii < s * k + k := by omega
        _ = (s + 1) * k := by ring
        _ ≤ m * k := Nat.mul_le_mul_right k hs
    have hblock := hb.block s hs ii hii
    rw [getD_eq_getElem _ _ hidx] at hblock
    rw [h.seqAt _ hidx, get_eq_getElem, hblock, mem_singleton] at hq
    have hget : u.seqIdUnq.getD s 0 = q0 + s := by
      rw [hunq, getD_eq_getElem _ _ (by rwa [length_range'])]
      simp
    rw [hget, hq]
    refine ⟨hlt _ ?_, rfl⟩
    rw [hunq, mem_range'_1]
    omega

/-- **What the splits produce.**  Every ubatch is well formed and made of tokens of the batch, the loop ends
because nothing more can be split off, and when all tokens were used the ubatches have the tokens of each
sequence in batch order. -/
theorem split_spec (hacc : Accepted a) (hmax : a.nSeqMax = kp.batchSeqMax) (hemb : 0 < a.nPosPerEmbd)
    (hpos : ∀ i < a.nTokens, 0 ≤ a.posAt i) (nUbatch : ℕ) :
    let r := splitLoop (split kp nUbatch) (a.nTokens + 1) a.splitReset []
    r.asserts = true ∧ r.value.2.nTokens = a.nTokens ∧ (split kp nUbatch r.value.2).value.1 = none ∧
      (∀ u ∈ r.value.1, UbatchOk kp u ∧
        ∀ i < u.nTokens, ∃ j < a.nTokens, u.posAt i = a.posAt j ∧ u.seqAt i = a.seqAt j) ∧
      (a.nTokens ≤ r.value.2.nUsed → ∀ s,
        r.value.1.flatMap (fun u => u.posOf s) = (a.tokensOf s).map a.posAt) := by
  -- both splitters hand out cuts, in an order that `InOrder` describes
  have hrun : ∃ (I : List ℕ → Prop) (P : List ℕ → Ubatch → Prop), I [] ∧
      (∀ placed, I placed → InOrder a placed) ∧ (∀ idxs u, P idxs u → Cut a idxs u ∧ UbatchOk kp u) ∧
      ∀ placed, I placed → (split kp nUbatch (a.after placed)).asserts = true ∧
        ((split kp nUbatch (a.after placed)).value = (none, a.after placed) ∨
          ∃ idxs u, (split kp nUbatch (a.after placed)).value = (some u, a.after (placed ++ idxs)) ∧
            P idxs u ∧ I (placed ++ idxs)) := by
    by_cases hn : kp.nStream = 1
    · refine ⟨fun placed => ∃ k ≤ a.nTokens, placed = List.range k, Cut a, ⟨0, Nat.zero_le _, rfl⟩, ?_,
        fun idxs u h => ⟨h, ubatchOk_of_cut hn hacc hmax hpos h⟩, ?_⟩
      · rintro placed ⟨k, hk, rfl⟩
        exact range_inOrder hk
      · rintro placed ⟨k, hk, rfl⟩
        obtain ⟨hok, hcase⟩ := splitSimple_step hemb nUbatch hk
        rw [split, if_pos hn]
        refine ⟨hok, hcase.imp id ?_⟩
        rintro ⟨m, u, hval, hcut, hle⟩
        refine ⟨List.range' k m, u, hval, hcut, k + m, hle, ?_⟩
        rw [range_eq_range', range_eq_range', ← range'_append_1]
        simp
    · have hn' : 1 < kp.nStream := by
        have := kp.nStream_pos
        omega
      cases hcpl : a.hasCpl with
      | true =>
        -- coupled sequences: nothing is ever handed out
        refine ⟨fun placed => placed = [], fun _ _ => False, rfl, ?_, fun _ _ h => h.elim, ?_⟩
        · rintro placed rfl
          exact range_inOrder (Nat.zero_le _)
        · rintro placed rfl
          have hcpl' : (a.after []).hasCpl = true := hcpl
          simp [split, hn, splitEqual, hcpl']
      | false =>
        have hunc := uncoupled_of_hasCpl hacc hcpl
        refine ⟨InOrder a, fun idxs u => Cut a idxs u ∧ ∃ q0 m k, Blocks a idxs q0 m k,
          range_inOrder (Nat.zero_le _), fun _ h => h, ?_, fun placed hin => ?_⟩
        · rintro idxs u ⟨hcut, q0, m, k, hb⟩
          exact ⟨hcut, ubatchOk_of_blocks hn' hacc hmax hpos hcut hb⟩
        · obtain ⟨hok, hcase⟩ := splitEqual_step hunc hacc hemb hcpl nUbatch hin
          rw [split, if_neg hn]
          refine ⟨hok, hcase.imp id ?_⟩
          rintro ⟨q0, m, k, u, hval, hcut, hb⟩
          exact ⟨_, u, hval, ⟨hcut, q0, m, k, hb⟩, hunc.equalIdxs_inOrder hin⟩
  obtain ⟨I, P, hI, hin, hP, hstep⟩ := hrun
  obtain ⟨hok, parts, hval, hI', hP', hlast⟩ := splitLoop_rule I P (fun placed h => (hin placed h).length_le)
    (fun idxs u h => (hP idxs u h).1.idxs_ne) hstep (a.nTokens + 1) [] [] hI
  rw [← splitReset_eq] at hok hval hlast
  rw [nil_append] at hI'
  refine ⟨hok, ?_, hlast (by simp), fun u hu => ?_, fun hall s => ?_⟩
  · rw [hval]
    rfl
  · rw [hval, nil_append] at hu
    obtain ⟨x, hx, rfl⟩ := mem_map.mp hu
    obtain ⟨hcut, hubatch⟩ := hP _ _ (hP' x hx)
    exact ⟨hubatch, fun i hi => hcut.token hi⟩
  · rw [hval, nil_append, nil_append] at hall ⊢
    rw [← (hin _ hI').all hall s, filter_flatMap, map_flatMap, flatMap_map]
    refine flatMap_congr fun x hx => ?_
    exact (hP _ _ (hP' x hx)).1.posOf s

/-! ### What a call of `decode` can do -/

/-- The ubatches of the accepted batch `a`, and the allocator after the last split. -/
def ubatches (kp : KvParams) (a : BatchAllocr) (nUbatch : ℕ) : List Ubatch × BatchAllocr :=
  (splitLoop (split kp nUbatch) (a.nTokens + 1) a.splitReset []).value

/-- `init` as `decode` calls it. -/
def acceptBatch (kp : KvParams) (st : KvCache) (x : DecodeArgs) : Checked (Except BatchError BatchAllocr) :=
  BatchAllocr.init kp.nPosPerEmbd x.nVocab x.batch (some (st.memory kp).value) kp.batchSeqMax x.outputAll

theorem findAll_length {us : List Ubatch} {slots : List SlotInfo} (h : findAll kp st us = some slots) :
    slots.length = us.length := by
  induction us generalizing st slots with
  | nil =>
    obtain rfl := Option.some.inj h
    rfl
  | cons u us ih =>
    cases hslot : (st.findSlot kp u false).value with
    | none => simp [findAll, hslot] at h
    | some si =>
      simp only [findAll, hslot] at h
      obtain ⟨slots', h', rfl⟩ := Option.map_eq_some_iff.mp h
      rw [length_cons, length_cons, ih h']

/-- **The outcomes of `decode`**: the batch is refused, cannot be split, does not fit, or is applied up to
some ubatch. -/
inductive Decoded (kp : KvParams) (st : KvCache) (x : DecodeArgs) : Bool × KvCache → Prop
  | refused : Decoded kp st x (false, st)
  | unsplit : Decoded kp st x (false, st.update kp x.shifted)
  | unfit (a : BatchAllocr) (hinit : (acceptBatch kp st x).value = .ok a) :
      Decoded kp st x (false, roundTrip kp (st.update kp x.shifted) (ubatches kp a x.nUbatch).1)
  | applied (a : BatchAllocr) (slots : List SlotInfo) (hinit : (acceptBatch kp st x).value = .ok a)
      (hused : (ubatches kp a x.nUbatch).2.nTokens ≤ (ubatches kp a x.nUbatch).2.nUsed)
      (hfind : findAll kp (st.update kp x.shifted) (ubatches kp a x.nUbatch).1 = some slots) :
      Decoded kp st x (decide ((ubatches kp a x.nUbatch).1.length ≤ x.nDone),
        { (applyAll kp (roundTrip kp (st.update kp x.shifted) (ubatches kp a x.nUbatch).1)
            ((slots.zip (ubatches kp a x.nUbatch).1).take x.nDone)).value with
          kData := x.kData, vData := x.vData })

theorem decode_decoded (kp : KvParams) (st : KvCache) (x : DecodeArgs) :
    Decoded kp st x (st.decode kp x).value := by
  cases hinit : (acceptBatch kp st x).value with
  | error e =>
    have hval : (st.decode kp x).value = (false, st) := by
      simp only [acceptBatch] at hinit
      simp only [decode, bind_value, hinit, pure_value]
    exact hval ▸ Decoded.refused
  | ok a =>
    have hinit' := hinit
    simp only [acceptBatch] at hinit'
    by_cases hused : (ubatches kp a x.nUbatch).2.nUsed < (ubatches kp a x.nUbatch).2.nTokens
    · have hval : (st.decode kp x).value = (false, st.update kp x.shifted) := by
        simp only [ubatches] at hused
        simp [decode, initBatch, hinit', hused]
      exact hval ▸ Decoded.unsplit
    · have hused' := hused
      simp only [ubatches] at hused'
      cases hfind : findAll kp (st.update kp x.shifted) (ubatches kp a x.nUbatch).1 with
      | none =>
        have hslots := prepare_slots kp (st.update kp x.shifted) (ubatches kp a x.nUbatch).1
        rw [hfind] at hslots
        simp only [ubatches, Option.getD_none] at hslots
        have hval : (st.decode kp x).value
            = (false, roundTrip kp (st.update kp x.shifted) (ubatches kp a x.nUbatch).1) := by
          simp [decode, initBatch, hinit', hused', hslots, prepare_value, ubatches]
        exact hval ▸ Decoded.unfit a hinit
      | some slots =>
        have hslots := prepare_slots kp (st.update kp x.shifted) (ubatches kp a x.nUbatch).1
        rw [hfind, Option.getD_some] at hslots
        have hlen := findAll_length hfind
        by_cases hnil : slots = []
        · subst hnil
          simp only [ubatches] at hslots
          have hval : (st.decode kp x).value
              = (false, roundTrip kp (st.update kp x.shifted) (ubatches kp a x.nUbatch).1) := by
            simp [decode, initBatch, hinit', hused', hslots, prepare_value, ubatches]
          exact hval ▸ Decoded.unfit a hinit
        · simp only [ubatches] at hslots hlen
          have hval : (st.decode kp x).value = (decide ((ubatches kp a x.nUbatch).1.length ≤ x.nDone),
              { (applyAll kp (roundTrip kp (st.update kp x.shifted) (ubatches kp a x.nUbatch).1)
                  ((slots.zip (ubatches kp a x.nUbatch).1).take x.nDone)).value with
                kData := x.kData, vData := x.vData }) := by
            simp [decode, initBatch, hinit', hused', hslots, hnil, prepare_value, ubatches, hlen]
            exact decide_eq_decide.mpr Iff.rfl
          exact hval ▸ Decoded.applied a slots hinit (Nat.not_lt.mp hused) hfind

theorem decode_asserts {x : DecodeArgs} (hm : (st.memory kp).asserts = true)
    (h : ∀ a, (acceptBatch kp st x).value = .ok a →
      (splitLoop (split kp x.nUbatch) (a.nTokens + 1) a.splitReset []).asserts = true ∧
      ((st.update kp x.shifted).prepare kp (ubatches kp a x.nUbatch).1).asserts = true ∧
      ∀ slots, findAll kp (st.update kp x.shifted) (ubatches kp a x.nUbatch).1 = some slots →
        (applyAll kp (roundTrip kp (st.update kp x.shifted) (ubatches kp a x.nUbatch).1)
          ((slots.zip (ubatches kp a x.nUbatch).1).take x.nDone)).asserts = true) :
    (st.decode kp x).asserts = true := by
  have hinit : (acceptBatch kp st x).asserts = true := by
    simp [acceptBatch, BatchAllocr.init]
  cases hval : (acceptBatch kp st x).value with
  | error e =>
    simp only [acceptBatch] at hinit hval
    simp [decode, hm, hinit, hval]
  | ok a =>
    obtain ⟨hsplit, hprep, happly⟩ := h a hval
    have hslots := prepare_slots kp (st.update kp x.shifted) (ubatches kp a x.nUbatch).1
    simp only [acceptBatch] at hinit hval
    simp only [ubatches] at hprep hslots happly
    cases hfind : findAll kp (st.update kp x.shifted)
        (splitLoop (split kp x.nUbatch) (a.nTokens + 1) a.splitReset []).value.1 with
    | none =>
      rw [hfind, Option.getD_none] at hslots
      simp only [decode, initBatch, bind_asserts, bind_value, hm, hinit, hval, hsplit]
      split <;> simp [hprep, hslots]
    | some slots =>
      rw [hfind, Option.getD_some] at hslots
      have hok := happly slots hfind
      simp only [decode, initBatch, bind_asserts, bind_value, hm, hinit, hval, hsplit]
      split
      · simp
      · by_cases hnil : slots = []
        · simp [hprep, hslots, hnil]
        · simp [hprep, hslots, hnil, prepare_value, hok]

end KvCache
