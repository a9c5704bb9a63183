import LlamaRafaelia.Kv.Iswa

/-!
# What the two caches of `llama_kv_cache_iswa` have in common

`Agree` says that `kv_swa` stores some of the positions of `kv_base`, among them the newest one of every
sequence.  Then both caches report the same `seq_pos_max`.  Every operation that goes to both caches keeps
this under a condition on the state before it:

* `seq_add` must not move anything past the newest position or shift a cell that is shared (`AddSafe`).
-/

namespace IswaParams

variable (ip : IswaParams)

theorem nStream_eq : ip.base.nStream = ip.swa.nStream := by
  rw [KvParams.nStream, KvParams.nStream, ip.unified_eq, ip.nSeqMax_eq]

theorem seqToStream_eq : ip.base.seqToStream = ip.swa.seqToStream := by
  rw [KvParams.seqToStream, KvParams.seqToStream, ip.nStream_eq]

theorem streamOf_eq (s : ℕ) : ip.base.streamOf s = ip.swa.streamOf s := by
  rw [KvParams.streamOf, KvParams.streamOf, ip.seqToStream_eq]

theorem ubatchOk_base {u : Ubatch} (h : UbatchOk ip.swa u) : UbatchOk ip.base u := by
  have hseqs : KvCache.slotSeqs ip.base u = KvCache.slotSeqs ip.swa u := by
    rw [KvCache.slotSeqs, KvCache.slotSeqs, ip.nStream_eq]
  have htokens : KvCache.slotTokens ip.base u = KvCache.slotTokens ip.swa u := by
    rw [KvCache.slotTokens, KvCache.slotTokens, hseqs]
  refine ⟨h.nTokens_pos, h.unq_nodup, ?_, ?_, ?_, h.pos_nonneg, h.seq_ne, ?_⟩
  · rw [ip.seqToStream_eq]
    exact h.unq_lt
  · rw [hseqs]
    exact h.slots_le
  · rw [hseqs, htokens]
    exact h.blocks
  · intro s hs ii hii q hq
    rw [hseqs] at hs
    rw [htokens] at hii hq
    rw [ip.seqToStream_eq, ip.streamOf_eq, ip.streamOf_eq]
    exact h.seq_stream s hs ii hii q hq

end IswaParams

namespace Iswa

open Checked KvCache KvCells BatchAllocr

variable {ip : IswaParams} {x : Iswa}

/-- The SWA cache stores some positions of the base cache, and the newest one of each sequence. -/
structure Agree (ip : IswaParams) (x : Iswa) : Prop where
  okBase : Ok ip.base 0 x.base
  okSwa : Ok ip.swa 0 x.swa
  sub : ∀ s p, Holds ip.swa x.swa s p → Holds ip.base x.base s p
  top : ∀ s p, Holds ip.base x.base s p → ∃ q, Holds ip.swa x.swa s q ∧ p ≤ q

theorem Agree.seqPosMax_eq (h : Agree ip x) {s : ℕ} (hs : s < llamaMaxSeq) :
    (x.base.seqPosMax ip.base s).value = (x.swa.seqPosMax ip.swa s).value := by
  obtain ⟨hnoneB, hsomeB⟩ := reports_positions h.okBase hs
  obtain ⟨hnoneS, hsomeS⟩ := reports_positions h.okSwa hs
  rcases Set.eq_empty_or_nonempty {p | Holds ip.base x.base s p} with hempty | hne
  · have hemptyS : {p | Holds ip.swa x.swa s p} = ∅ := by
      refine Set.eq_empty_of_forall_notMem fun p hp => ?_
      have hbase : p ∈ {p | Holds ip.base x.base s p} := h.sub s p hp
      rw [hempty] at hbase
      exact hbase
    rw [(hnoneB hempty).2, (hnoneS hemptyS).2]
  · obtain ⟨p, hp⟩ := hne
    obtain ⟨q, hq, -⟩ := h.top s p hp
    obtain ⟨hinB, hleB⟩ := (hsomeB ⟨p, hp⟩).2
    obtain ⟨hinS, hleS⟩ := (hsomeS ⟨q, hq⟩).2
    obtain ⟨q', hq', hle⟩ := h.top s _ hinB
    exact le_antisymm (hle.trans (hleS hq')) (hleB (h.sub s _ hinS))

/-! ### The operations on sequences -/

theorem init_agree : Agree ip (Iswa.init ip) :=
  ⟨init_ok, init_ok, fun s p hp => absurd hp (init_holds s p), fun s p hp => absurd hp (init_holds s p)⟩

theorem clear_agree (h : Agree ip x) (data : Bool) : Agree ip (x.clear ip data) :=
  ⟨clear_ok h.okBase data, clear_ok h.okSwa data, fun s p hp => absurd hp (clear_holds data s p),
    fun s p hp => absurd hp (clear_holds data s p)⟩

/-- What is removed leaves a position of the SWA cache behind the range, or what is left before the range in
the base cache is at most a position that the SWA cache has there. -/
def RmSafe (ip : IswaParams) (x : Iswa) (seqId p0 p1 : ℤ) : Prop :=
  ∀ s : ℕ, seqId = -1 ∨ seqId = s →
    (∃ p, rangeHi p1 ≤ p ∧ rangeLo p0 ≤ p ∧ Holds ip.swa x.swa s p) ∨
      ∀ p < rangeLo p0, Holds ip.base x.base s p → ∃ q < rangeLo p0, Holds ip.swa x.swa s q ∧ p ≤ q

theorem seqRm_agree (h : Agree ip x) {seqId p0 p1 : ℤ} (hc : (x.seqRm ip seqId p0 p1).checks = true)
    (hsafe : RmSafe ip x seqId p0 p1) : Agree ip (x.seqRm ip seqId p0 p1).value := by
  simp only [seqRm, bind_checks, pure_checks, Bool.and_true, Bool.and_eq_true] at hc
  have hbase := seqRm_holds h.okBase p0 p1 hc.1
  have hswa := seqRm_holds h.okSwa p0 p1 hc.2
  refine ⟨(seqRm_ok h.okBase p0 p1 hc.1).2, (seqRm_ok h.okSwa p0 p1 hc.2).2, fun s p hp => ?_, fun s p hp => ?_⟩
  · obtain ⟨hp, hout⟩ := (hswa s p).mp hp
    exact (hbase s p).mpr ⟨h.sub s p hp, hout⟩
  · obtain ⟨hp, hout⟩ := (hbase s p).mp hp
    obtain ⟨q, hq, hle⟩ := h.top s p hp
    by_cases hs : seqId = -1 ∨ seqId = s
    · -- a position that is left is before the range or behind it
      have hkeep : ∀ r, Holds ip.swa x.swa s r → ¬ (rangeLo p0 ≤ r ∧ r < rangeHi p1) →
          Holds ip.swa (x.seqRm ip seqId p0 p1).value.swa s r :=
        fun r hr hr' => (hswa s r).mpr ⟨hr, fun hc => hr' hc.2⟩
      simp only [hs, true_and] at hout
      by_cases hq' : rangeLo p0 ≤ q ∧ q < rangeHi p1
      · rcases hsafe s hs with ⟨r, hr, hr', hold⟩ | hbefore
        · exact ⟨r, hkeep r hold (by omega), by omega⟩
        · obtain ⟨r, hr, hold, hpr⟩ := hbefore p (by omega) hp
          exact ⟨r, hkeep r hold (by omega), hpr⟩
      · exact ⟨q, hkeep q hq hq', hle⟩
    · exact ⟨q, (hswa s q).mpr ⟨hq, fun hc => hs hc.1⟩, hle⟩

theorem seqKeep_agree (h : Agree ip x) {seqId : ℤ} (hc : (x.seqKeep ip seqId).checks = true) :
    Agree ip (x.seqKeep ip seqId).value := by
  simp only [seqKeep, bind_checks, pure_checks, Bool.and_true, Bool.and_eq_true] at hc
  have hokB := (seqKeep_ok h.okBase hc.1).2
  have hokS := (seqKeep_ok h.okSwa hc.2).2
  have hc' := hc
  simp only [KvCache.seqKeep, bind_checks, check_checks, Bool.and_eq_true, decide_eq_true_eq] at hc'
  obtain ⟨⟨⟨hnn, hlt⟩, -⟩, ⟨⟨-, hlt'⟩, -⟩⟩ := hc'
  lift seqId to ℕ using hnn
  have hbase := seqKeep_holds h.okBase (s := seqId) (by exact_mod_cast hlt)
  have hswa := seqKeep_holds h.okSwa (s := seqId) (by exact_mod_cast hlt')
  simp only [ip.streamOf_eq] at hbase
  refine ⟨hokB, hokS, fun s p hp => ?_, fun s p hp => ?_⟩
  · obtain ⟨hp, hs⟩ := (hswa s p).mp hp
    exact (hbase s p).mpr ⟨h.sub s p hp, hs⟩
  · obtain ⟨hp, hs⟩ := (hbase s p).mp hp
    obtain ⟨q, hq, hle⟩ := h.top s p hp
    exact ⟨q, (hswa s q).mpr ⟨hq, hs⟩, hle⟩

/-- Inside one stream: no cell that is copied holds the destination yet, and what is copied in the base cache is
at most a position that the destination gets or has in the SWA cache. -/
def CpSafe (ip : IswaParams) (x : Iswa) (src dst : ℕ) (p0 p1 : ℤ) : Prop :=
  ip.swa.streamOf src = ip.swa.streamOf dst → src ≠ dst →
    CopyFresh src dst (rangeLo p0) (rangeHi p1) (x.base.vCells (ip.base.streamOf src)) ∧
    CopyFresh src dst (rangeLo p0) (rangeHi p1) (x.swa.vCells (ip.swa.streamOf src)) ∧
    ∀ p, rangeLo p0 ≤ p → p < rangeHi p1 → Holds ip.base x.base src p →
      ∃ q, p ≤ q ∧ (Holds ip.swa x.swa dst q ∨ Holds ip.swa x.swa src q ∧ rangeLo p0 ≤ q ∧ q < rangeHi p1)

theorem seqCp_ok_zero {kp : KvParams} {st : KvCache} (h : Ok kp 0 st) {src dst : ℕ} {p0 p1 : ℤ}
    (hc : (st.seqCp kp src dst p0 p1).checks = true)
    (hfresh : kp.streamOf src = kp.streamOf dst → src ≠ dst →
      CopyFresh src dst (rangeLo p0) (rangeHi p1) (st.vCells (kp.streamOf src))) :
    Ok kp 0 (st.seqCp kp src dst p0 p1).value := by
  by_cases hsame : kp.streamOf src = kp.streamOf dst
  · refine ((seqCp_ok h p0 p1 hc).2 rfl ?_).2
    rw [CopySound, if_pos hsame]
    exact hfresh hsame
  · simp only [KvCache.seqCp, bind_checks, check_checks, Bool.and_eq_true, decide_eq_true_eq] at hc
    obtain ⟨⟨-, hsrc⟩, ⟨-, hdst⟩, -⟩ := hc
    obtain ⟨hkeep, -⟩ := seqCpCross_spec (h _ (kp.streamOf_lt src)) (h _ (kp.streamOf_lt dst)).size
      (lt_of_lt_of_le (by exact_mod_cast hsrc) kp.seqToStream_length_le) (by exact_mod_cast hdst) rfl
    have hset := h.setStream hkeep
    rw [update_zero] at hset
    simp only [KvCache.seqCp, bind_value, Int.toNat_natCast, if_neg hsame, pure_value]
    exact hset

theorem seqCp_agree (h : Agree ip x) {src dst : ℕ} {p0 p1 : ℤ}
    (hc : (x.seqCp ip src dst p0 p1).checks = true) (hsafe : CpSafe ip x src dst p0 p1) :
    Agree ip (x.seqCp ip src dst p0 p1).value := by
  simp only [seqCp, bind_checks, pure_checks, Bool.and_true, Bool.and_eq_true] at hc
  have hokB := seqCp_ok_zero h.okBase hc.1 fun hsame hne => by
    rw [ip.streamOf_eq, ip.streamOf_eq] at hsame
    exact (hsafe hsame hne).1
  have hokS := seqCp_ok_zero h.okSwa hc.2 fun hsame hne => (hsafe hsame hne).2.1
  have hc' := hc
  simp only [KvCache.seqCp, bind_checks, check_checks, Bool.and_eq_true, decide_eq_true_eq] at hc'
  obtain ⟨⟨⟨-, hsrcB⟩, ⟨-, hdstB⟩, -⟩, ⟨⟨-, hsrcS⟩, ⟨-, hdstS⟩, -⟩⟩ := hc'
  have hsrcB' : src < ip.base.seqToStream.length := by exact_mod_cast hsrcB
  have hdstB' : dst < ip.base.seqToStream.length := by exact_mod_cast hdstB
  have hsrcS' : src < ip.swa.seqToStream.length := by exact_mod_cast hsrcS
  have hdstS' : dst < ip.swa.seqToStream.length := by exact_mod_cast hdstS
  by_cases hsame : ip.swa.streamOf src = ip.swa.streamOf dst
  · have hsameB : ip.base.streamOf src = ip.base.streamOf dst := by
      rw [ip.streamOf_eq, ip.streamOf_eq, hsame]
    by_cases heq : src = dst
    · -- nothing to do
      subst heq
      have hvalB : (x.base.seqCp ip.base src src p0 p1).value = x.base := by simp [KvCache.seqCp]
      have hvalS : (x.swa.seqCp ip.swa src src p0 p1).value = x.swa := by simp [KvCache.seqCp]
      refine ⟨hokB, hokS, fun s p hp => ?_, fun s p hp => ?_⟩
      · have hp' : Holds ip.swa (x.swa.seqCp ip.swa src src p0 p1).value s p := hp
        rw [hvalS] at hp'
        show Holds ip.base (x.base.seqCp ip.base src src p0 p1).value s p
        rw [hvalB]
        exact h.sub s p hp'
      · have hp' : Holds ip.base (x.base.seqCp ip.base src src p0 p1).value s p := hp
        rw [hvalB] at hp'
        show ∃ q, Holds ip.swa (x.swa.seqCp ip.swa src src p0 p1).value s q ∧ p ≤ q
        rw [hvalS]
        exact h.top s p hp'
    · have hbase := seqCp_holds_same h.okBase hsrcB' hdstB' hsameB heq p0 p1
      have hswa := seqCp_holds_same h.okSwa hsrcS' hdstS' hsame heq p0 p1
      refine ⟨hokB, hokS, fun s p hp => ?_, fun s p hp => ?_⟩
      · rcases (hswa s p).mp hp with hp | ⟨hs, hp, hin⟩
        · exact (hbase s p).mpr (Or.inl (h.sub s p hp))
        · exact (hbase s p).mpr (Or.inr ⟨hs, h.sub src p hp, hin⟩)
      · rcases (hbase s p).mp hp with hp | ⟨rfl, hp, hlo, hhi⟩
        · obtain ⟨q, hq, hle⟩ := h.top s p hp
          exact ⟨q, (hswa s q).mpr (Or.inl hq), hle⟩
        · obtain ⟨q, hle, hq | ⟨hq, hin⟩⟩ := (hsafe hsame heq).2.2 p hlo hhi hp
          · exact ⟨q, (hswa s q).mpr (Or.inl hq), hle⟩
          · exact ⟨q, (hswa s q).mpr (Or.inr ⟨rfl, hq, hin⟩), hle⟩
  · have hdiffB : ip.base.streamOf src ≠ ip.base.streamOf dst := by
      rw [ip.streamOf_eq, ip.streamOf_eq]
      exact hsame
    have hbase := seqCp_holds_cross h.okBase hsrcB' hdstB' hdiffB p0 p1
    have hswa := seqCp_holds_cross h.okSwa hsrcS' hdstS' hsame p0 p1
    simp only [ip.streamOf_eq] at hbase
    refine ⟨hokB, hokS, fun s p hp => ?_, fun s p hp => ?_⟩
    · have hp := (hswa s p).mp hp
      by_cases hs : ip.swa.streamOf s = ip.swa.streamOf dst
      · rw [if_pos hs] at hp
        exact (hbase s p).mpr ((if_pos hs).mpr ⟨hp.1, h.sub src p hp.2⟩)
      · rw [if_neg hs] at hp
        exact (hbase s p).mpr ((if_neg hs).mpr (h.sub s p hp))
    · have hp := (hbase s p).mp hp
      by_cases hs : ip.swa.streamOf s = ip.swa.streamOf dst
      · rw [if_pos hs] at hp
        obtain ⟨q, hq, hle⟩ := h.top src p hp.2
        exact ⟨q, (hswa s q).mpr ((if_pos hs).mpr ⟨hp.1, hq⟩), hle⟩
      · rw [if_neg hs] at hp
        obtain ⟨q, hq, hle⟩ := h.top s p hp
        exact ⟨q, (hswa s q).mpr ((if_neg hs).mpr hq), hle⟩

/-- No cell that is shifted is shared, and nothing is moved past the newest position. -/
def AddSafe (ip : IswaParams) (x : Iswa) (s : ℕ) (p0 p1 d : ℤ) : Prop :=
  Alone ip.base x.base s (rangeLo p0) (rangeHi p1) ∧ Alone ip.swa x.swa s (rangeLo p0) (rangeHi p1) ∧
    ∀ m, Holds ip.swa x.swa s m → (∀ q, Holds ip.swa x.swa s q → q ≤ m) →
      ∀ p, Holds ip.base x.base s p →
        shiftPos (rangeLo p0) (rangeHi p1) d p ≤ shiftPos (rangeLo p0) (rangeHi p1) d m

theorem exists_newest {kp : KvParams} {st : KvCache} {s : ℕ} {p : ℤ} (hp : Holds kp st s p) :
    ∃ m, Holds kp st s m ∧ ∀ q, Holds kp st s q → q ≤ m := by
  have hfinite : {q | Holds kp st s q}.Finite := by
    refine Set.Finite.subset (((Finset.range kp.kvSize).image fun i =>
      ((st.vCells (kp.streamOf s)).cell i).pos).finite_toSet) ?_
    rintro q ⟨i, hi, -, rfl⟩
    exact Finset.mem_coe.mpr (Finset.mem_image.mpr ⟨i, Finset.mem_range.mpr hi, rfl⟩)
  obtain ⟨m, hm, hmax⟩ := hfinite.exists_maximal ⟨p, hp⟩
  exact ⟨m, hm, fun q hq => (le_total q m).elim id fun hle => hmax hq hle⟩

theorem seqAdd_agree (h : Agree ip x) {s : ℕ} {p0 p1 d : ℤ} (hc : (x.seqAdd ip s p0 p1 d).checks = true)
    (hsafe : AddSafe ip x s p0 p1 d) : Agree ip (x.seqAdd ip s p0 p1 d).value := by
  simp only [seqAdd, bind_checks, pure_checks, Bool.and_true, Bool.and_eq_true] at hc
  have hokB := (seqAdd_ok h.okBase p0 p1 d hc.1).2
  have hokS := (seqAdd_ok h.okSwa p0 p1 d hc.2).2
  have hc' := hc
  simp only [KvCache.seqAdd, bind_checks, check_checks, Bool.and_eq_true, decide_eq_true_eq] at hc'
  obtain ⟨⟨⟨-, hltB⟩, -⟩, ⟨⟨-, hltS⟩, -⟩⟩ := hc'
  have hltB' : s < ip.base.seqToStream.length := by exact_mod_cast hltB
  have hltS' : s < ip.swa.seqToStream.length := by exact_mod_cast hltS
  have hbase := seqAdd_holds h.okBase hltB' p0 p1 d
  have hswa := seqAdd_holds h.okSwa hltS' p0 p1 d
  refine ⟨hokB, hokS, fun q p hp => ?_, fun q p hp => ?_⟩
  · by_cases hq : q = s
    · subst hq
      obtain ⟨hnn, p', hp', hshift⟩ := (hswa p).mp hp
      exact (hbase p).mpr ⟨hnn, p', h.sub q p' hp', hshift⟩
    · have hp := (seqAdd_holds_other h.okSwa hltS' hsafe.2.1 d hq p).mp hp
      exact (seqAdd_holds_other h.okBase hltB' hsafe.1 d hq p).mpr (h.sub q p hp)
  · by_cases hq : q = s
    · subst hq
      obtain ⟨hnn, p', hp', hshift⟩ := (hbase p).mp hp
      obtain ⟨r, hr, -⟩ := h.top q p' hp'
      obtain ⟨m, hm, hmax⟩ := exists_newest hr
      have hle := hsafe.2.2 m hm hmax p' hp'
      rw [hshift] at hle
      exact ⟨_, (hswa _).mpr ⟨hnn.trans hle, m, hm, rfl⟩, hle⟩
    · have hp := (seqAdd_holds_other h.okBase hltB' hsafe.1 d hq p).mp hp
      obtain ⟨r, hr, hle⟩ := h.top q p hp
      exact ⟨r, (seqAdd_holds_other h.okSwa hltS' hsafe.2.1 d hq r).mpr hr, hle⟩

end Iswa
