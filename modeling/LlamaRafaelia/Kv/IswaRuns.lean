import LlamaRafaelia.Kv.IswaAgree
import LlamaRafaelia.Batch.Order

/-!
# Runs of `llama_kv_cache_iswa`

`find_slot` may hand out the cell of the newest position of a sequence when the window hides it: at the end of a
chunk, or with a window of one position.  `NewestSafe` says that this does not happen.

* **`spared_newest`** — then the newest position of every sequence is in `kv_swa` after the batch.
* **`newestSafe_of_wide`** — windows of two positions or more are safe, unless they are chunked.
* **`run_agree`** — in every run whose steps meet their conditions the two caches agree.
* **`chunk_evicts_newest`** — at the end of a chunk they do not.
-/

namespace KvCache

open Checked KvCells BatchAllocr List

variable {kp : KvParams} {st : KvCache} {G : ℕ → ℕ → ℤ → ℕ} {u : Ubatch} {si : SlotInfo}

/-! ### The newest position while ubatches are placed -/

/-- The newest position of sequence `s` is `m`, it has a cell of its own, and the window hides it from the
position that follows. -/
def Exposed (kp : KvParams) (st : KvCache) (s : ℕ) (m : ℤ) : Prop :=
  (∃ i < kp.kvSize, ((st.vCells (kp.streamOf s)).cell i).seq = {s} ∧
      ((st.vCells (kp.streamOf s)).cell i).pos = m) ∧
    (∀ p, Holds kp st s p → p ≤ m) ∧ (kp.isMasked m (m + 1)).value = true

/-- Whenever a ubatch is placed, a sequence whose newest position is exposed goes on in this ubatch or in a
later one. -/
def NewestSafe (kp : KvParams) : KvCache → List Ubatch → Prop
  | _, [] => True
  | st, u :: us =>
    (∀ s m, Exposed kp st s m → ∃ p ∈ (u :: us).flatMap fun u => u.posOf s, m < p) ∧
      match (st.findSlot kp u false).value with
      | none => True
      | some si => NewestSafe kp (st.applyUbatch kp si u).value us

theorem exposed_of_evicted (h : Ok kp 0 st) (hu : UbatchOk kp u)
    (hslot : (st.findSlot kp u false).value = some si) {s : ℕ} {t : ℤ} (ht : 0 ≤ t)
    (hnew : ∀ p, Holds kp st s p → p ≤ t) (hrm : t ≤ slotRm st si.places s) : Exposed kp st s t := by
  have hok := h.findSlot hu hslot
  obtain ⟨x, hx, hused, hmem, hle⟩ := (le_slotRm_iff ht).mp hrm
  have hplace := (hok.fits h).placeOk hu hx
  obtain ⟨hlt, hstream⟩ := (h _ hplace.stream_lt).stream _ hplace.idx_lt s hmem
  obtain ⟨hmasked, -⟩ := hok.evicted_masked hu h hx hmem
  obtain ⟨b, hb, -, -, hstrm, hidx, -, -⟩ := (hok.fits h).mem_places hu hx
  obtain ⟨q, hq⟩ := (hok.fits h).single b hb _ hidx (by rw [← hstrm]; exact hused)
  rw [← hstrm] at hq
  have hqs : s = q := by
    have hmem' : s ∈ (st.vCells x.1).seq x.2.1 := hmem
    rwa [hq, Finset.mem_singleton] at hmem'
  subst hqs
  have hhold : Holds kp st s ((st.vCells x.1).cell x.2.1).pos :=
    ⟨x.2.1, hplace.idx_lt, by rw [hstream]; exact hmem, by rw [hstream]⟩
  have hpos : ((st.vCells x.1).cell x.2.1).pos = t := le_antisymm (hnew _ hhold) hle
  -- what the cache reports as the last position is `t`
  have hmax : ((st.vCells (kp.streamOf s)).seqPosMax s).value = t := by
    obtain ⟨-, hsome⟩ := reports_positions h (lt_of_lt_of_le hlt kp.seqToStream_length_le)
    obtain ⟨hin, hub⟩ := (hsome ⟨_, hhold⟩).2
    have hval : (st.seqPosMax kp s).value = ((st.vCells (kp.streamOf s)).seqPosMax s).value := by
      simp only [KvCache.seqPosMax, bind_value, Int.toNat_natCast]
    rw [← hval]
    exact le_antisymm (hnew _ hin) (hpos ▸ hub hhold)
  rw [hpos, hmax] at hmasked
  exact ⟨⟨x.2.1, hplace.idx_lt, by rw [hstream]; exact hq, by rw [hstream]; exact hpos⟩, hnew, hmasked⟩

/-- **The newest position of a sequence is spared**, be it an old one or that of a token. -/
theorem spared_newest {us : List Ubatch} (hus : ∀ u ∈ us, UbatchOk kp u ∧ u.DistinctSeqs) (h : Ok kp 0 st)
    (hsafe : NewestSafe kp st us) {s : ℕ} {t : ℤ} (ht : 0 ≤ t) (hold : ∀ p, Holds kp st s p → p ≤ t)
    (htok : ∀ p ∈ us.flatMap fun u => u.posOf s, p ≤ t) : Spared kp s t st us := by
  induction us generalizing st with
  | nil => trivial
  | cons u us ih =>
    obtain ⟨hu, hdist⟩ := hus u (by simp)
    cases hslot : (st.findSlot kp u false).value with
    | none => simp only [Spared, hslot]
    | some si =>
      simp only [NewestSafe, hslot] at hsafe
      have hsi := (h.findSlot hu hslot).fits h
      obtain ⟨⟨G1, hok1, -, hsame⟩, -, -, -, -⟩ := applyUbatch_spec h hu hsi
      rw [hsame.mp hdist] at hok1
      have htok' := htok
      simp only [flatMap_cons, mem_append] at htok'
      refine (Spared.cons hslot).mpr ⟨?_, ih (fun v hv => hus v (by simp [hv])) hok1 hsafe.2 ?_ ?_⟩
      · by_contra hrm
        obtain ⟨p, hp, hlt⟩ := hsafe.1 s t (exposed_of_evicted h hu hslot ht hold (Int.not_lt.mp hrm))
        exact absurd (htok p hp) (Int.not_le.mpr hlt)
      · intro p hp
        rcases ((applyUbatch_holds_iff h hu hsi s p).mp hp).2 with hp | hp
        · exact hold p hp
        · exact htok' p (Or.inl hp)
      · exact fun p hp => htok' p (Or.inr hp)

/-- When `prepare` undoes everything, the newest position of a sequence without tokens is back: a cell of a
slot is restored, and nothing above it was evicted. -/
theorem roundTrip_newest {us : List Ubatch} (hus : ∀ u ∈ us, UbatchOk kp u) (h : Ok kp G st) {s : ℕ} {t : ℤ}
    (hin : Holds kp st s t) (hnew : ∀ p, Holds kp st s p → p ≤ t) (hno : ∀ u ∈ us, u.posOf s = []) :
    Holds kp (roundTrip kp st us) s t := by
  induction us generalizing st G with
  | nil => exact hin
  | cons u us ih =>
    have hu := hus u (by simp)
    have hus' : ∀ v ∈ us, UbatchOk kp v := fun v hv => hus v (by simp [hv])
    cases hslot : (st.findSlot kp u false).value with
    | none =>
      simp only [roundTrip, hslot]
      exact hin
    | some si =>
      have hsi := (h.findSlot hu hslot).fits h
      have hholds := applyUbatch_holds_iff h hu hsi s
      rw [hno u (by simp)] at hholds
      simp only [not_mem_nil, or_false] at hholds
      obtain ⟨⟨G1, hok1, -, -⟩, -, hat, -, -⟩ := applyUbatch_spec h hu hsi
      obtain ⟨G2, hok2, -, hshrunk, -⟩ := roundTrip_spec us hus' hok1
      obtain ⟨-, hroff, hrat, -, -⟩ := restore_spec hok2 h hu hsi
      have ht : 0 ≤ t := by
        obtain ⟨i, hi, hmem, rfl⟩ := hin
        exact h.pos_nonneg (kp.streamOf_lt s) hi hmem
      simp only [roundTrip, hslot]
      by_cases hrm : slotRm st si.places s < t
      · -- the position survives the placement, outside of the slot
        obtain ⟨i, hi, hmem, hpos⟩ := ih hus' hok1 ((hholds t).mpr ⟨hrm, hin⟩)
          (fun p hp => hnew p ((hholds p).mp hp).2) fun v hv => hno v (by simp [hv])
        by_cases hcell : (kp.streamOf s, i) ∈ si.cells
        · -- the cells of the slot have the tokens of the ubatch only
          obtain ⟨x, hx, hxeq⟩ := mem_map.mp hcell
          obtain ⟨h1, h2⟩ := Prod.mk.inj hxeq
          have hplace := hsi.placeOk hu hx
          obtain ⟨-, -, -, -, -, -, -, hlt⟩ := hsi.mem_places hu hx
          have hmem1 := (hshrunk _ (kp.streamOf_lt s) i hi).1 hmem
          rw [← h1, ← h2, hat x hx, KvCell.restrict_seq] at hmem1
          have htok : s ∈ u.seqAt x.2.2 := by
            simpa [placeCell, evictCell_seq h hplace.stream_lt hplace.idx_lt]
              using (Finset.mem_filter.mp hmem1).1
          have hpos : u.posAt x.2.2 ∈ u.posOf s := (Ubatch.mem_posOf).mpr ⟨x.2.2, hlt, htok, rfl⟩
          rw [hno u (by simp)] at hpos
          exact absurd hpos (not_mem_nil)
        · exact ⟨i, hi, by rw [hroff _ i hcell]; exact hmem, by rw [hroff _ i hcell]; exact hpos⟩
      · -- the cell that was evicted is restored
        obtain ⟨x, hx, -, hmem, hle⟩ := (le_slotRm_iff ht).mp (Int.not_lt.mp hrm)
        have hplace := hsi.placeOk hu hx
        have hstream := ((h _ hplace.stream_lt).stream _ hplace.idx_lt s hmem).2
        have hcell : (kp.streamOf s, x.2.1) ∈ si.cells := by
          rw [hstream]
          exact mem_map_of_mem hx
        have hpos : ((st.vCells x.1).cell x.2.1).pos = t :=
          le_antisymm (hnew _ ⟨x.2.1, hplace.idx_lt, by rw [hstream]; exact hmem, by rw [hstream]⟩) hle
        refine ⟨x.2.1, hplace.idx_lt, ?_, ?_⟩
        · rw [hrat _ _ hcell, hstream]
          exact hmem
        · rw [hrat _ _ hcell, hstream]
          exact hpos

/-- **Wide windows are safe**: nothing hides a position from the one that follows. -/
theorem newestSafe_of_wide (hwide : ∀ m : ℤ, (kp.isMasked m (m + 1)).value = false) (us : List Ubatch) :
    NewestSafe kp st us := by
  induction us generalizing st with
  | nil => trivial
  | cons u us ih =>
    refine ⟨fun s m hex => ?_, ?_⟩
    · have hmasked := hex.2.2
      rw [hwide m] at hmasked
      exact absurd hmasked (by simp)
    · split
      · trivial
      · exact ih

theorem isMasked_wide (htype : kp.swaType ≠ .chunked) (hnswa : 2 ≤ int32 kp.nSwa) (m : ℤ) :
    (kp.isMasked m (m + 1)).value = false := by
  rw [KvParams.isMasked]
  cases hcase : kp.swaType with
  | none => simp [isMaskedSwa]
  | chunked => exact absurd hcase htype
  | standard =>
    simp only [isMaskedSwa, bind_value, pure_value, decide_eq_false_iff_not]
    omega
  | symmetric =>
    have hhalf : 1 ≤ (int32 kp.nSwa).tdiv 2 := by
      rw [Int.tdiv_eq_ediv_of_nonneg (by omega)]
      omega
    simp only [isMaskedSwa, bind_value, pure_value, decide_eq_false_iff_not]
    omega

end KvCache

namespace Iswa

open List Checked KvCache KvCells BatchAllocr

variable {ip : IswaParams} {x : Iswa} {a : BatchAllocr}

/-! ### The ubatches of one attempt -/

/-- The ubatches of a splitter, and the allocator after the last split. -/
def ubatchesBy (sp : Splitter) (a : BatchAllocr) (nUbatch : ℕ) : List Ubatch × BatchAllocr :=
  (splitLoop (sp.split nUbatch) (a.nTokens + 1) a.splitReset []).value

theorem ubatchesBy_cuts (hacc : Accepted a) (hemb : 0 < a.nPosPerEmbd) (sp : Splitter) (nUbatch : ℕ)
    (hused : ¬ (ubatchesBy sp a nUbatch).2.nUsed < (ubatchesBy sp a nUbatch).2.nTokens) :
    ∃ picks : List Pick, (ubatchesBy sp a nUbatch).1 = picks.map a.ubatchOf ∧
      (∀ p ∈ picks, Cut a p.idxs (a.ubatchOf p)) ∧
      (picks.flatMap Pick.idxs).Perm (range a.nTokens) := by
  have hval := splitLoop_value (a := a) sp nUbatch (a.nTokens + 1) [] []
  simp only [nil_append] at hval
  rw [← splitReset_eq] at hval
  have hne : ∀ i < a.nTokens, (a.seqSet i).Nonempty := fun i hi =>
    (toFinset_nonempty_iff _).mpr (hacc.seq_ne i hi)
  have hprog : Progress a (sp.pick nUbatch) := by
    cases sp with
    | simple => exact simple_progress nUbatch
    | seq => exact seq_progress nUbatch
    | equal sequential =>
      refine equal_progress hacc.nTokens_pos hne nUbatch sequential fun hseq => ?_
      by_contra hcpl
      -- coupled sequences: nothing was handed out
      rw [Bool.not_eq_false] at hcpl
      have hnone : pickLoop ((Splitter.equal sequential).pick nUbatch) a (a.nTokens + 1) [] = [] := by
        have hcpl' : (a.after []).hasCpl = true := hcpl
        simp [pickLoop, Splitter.pick, hseq, hcpl']
      rw [ubatchesBy, hval, hnone] at hused
      exact hused hacc.nTokens_pos
  obtain ⟨hidxs, hlast⟩ := hprog.pickLoop_ends (a.nTokens + 1) Rounds.nil (by simp)
  have hperm := hprog.perm (Rounds.pickLoop (a.nTokens + 1) Rounds.nil) hlast
  rw [nil_append] at hperm
  refine ⟨_, by rw [ubatchesBy, hval], fun p hp => ?_, hperm⟩
  have hlt : ∀ i ∈ p.idxs, i < a.nTokens := fun i hi =>
    mem_range.mp (hperm.mem_iff.mp (mem_flatMap.mpr ⟨p, hp, hi⟩))
  exact ubatchAdd_cut [] hemb (hidxs p hp) hlt p.nSeqs p.equalSeqs

/-- What is known of a batch that `init` accepted. -/
structure BatchOk (ip : IswaParams) (a : BatchAllocr) : Prop where
  acc : Accepted a
  nSeqMax : a.nSeqMax = ip.swa.batchSeqMax
  nPosPerEmbd_pos : 0 < a.nPosPerEmbd
  pos_nonneg : ∀ i < a.nTokens, 0 ≤ a.posAt i
  distinct : Distinct a

/-- The splitters that `init_batch` uses. -/
def Splits (ip : IswaParams) (sp : Splitter) : Prop := ip.swa.nStream = 1 ∨ sp = .equal true

/-- Some token of the batch has position `p` in sequence `s`. -/
def HasToken (a : BatchAllocr) (s : ℕ) (p : ℤ) : Prop := ∃ i < a.nTokens, s ∈ a.seqAt i ∧ a.posAt i = p

/-- **The ubatches of an attempt** are well formed and have the tokens of the batch. -/
theorem BatchOk.ubatches (h : BatchOk ip a) {sp : Splitter} (hsp : Splits ip sp) {nUbatch : ℕ}
    (hused : ¬ (ubatchesBy sp a nUbatch).2.nUsed < (ubatchesBy sp a nUbatch).2.nTokens) :
    (∀ u ∈ (ubatchesBy sp a nUbatch).1, UbatchOk ip.swa u ∧ u.DistinctSeqs) ∧
      ∀ s p, p ∈ (ubatchesBy sp a nUbatch).1.flatMap (fun u => u.posOf s) ↔ HasToken a s p := by
  obtain ⟨picks, hval, hcut, hperm⟩ := ubatchesBy_cuts h.acc h.nPosPerEmbd_pos sp nUbatch hused
  refine ⟨fun u hu => ?_, fun s p => ?_⟩
  · have hmem := hu
    rw [hval] at hu
    obtain ⟨p, hp, rfl⟩ := mem_map.mp hu
    refine ⟨?_, fun i hi => ?_⟩
    · by_cases hn : ip.swa.nStream = 1
      · exact ubatchOk_of_cut hn h.acc h.nSeqMax h.pos_nonneg (hcut p hp)
      · -- several streams: the equal split with sequential ids
        obtain rfl := hsp.resolve_left hn
        have hsplit : (Splitter.equal true).split nUbatch = KvCache.split ip.swa nUbatch := by
          funext b
          simp only [Splitter.split, KvCache.split, if_neg hn]
        obtain ⟨-, -, -, hall, -⟩ := split_spec h.acc h.nSeqMax h.nPosPerEmbd_pos h.pos_nonneg nUbatch
        rw [ubatchesBy, hsplit] at hmem
        exact (hall _ hmem).1
    · obtain ⟨j, hj, -, hseq⟩ := (hcut p hp).token hi
      rw [hseq]
      exact h.distinct j hj
  · rw [hval, flatMap_map]
    simp only [mem_flatMap]
    constructor
    · rintro ⟨q, hq, hp⟩
      rw [(hcut q hq).posOf] at hp
      obtain ⟨i, hi, rfl⟩ := mem_map.mp hp
      obtain ⟨hi, hs⟩ := mem_filter.mp hi
      exact ⟨i, (hcut q hq).idxs_lt i hi, of_decide_eq_true hs, rfl⟩
    · rintro ⟨i, hi, hs, rfl⟩
      obtain ⟨q, hq, hiq⟩ := mem_flatMap.mp (hperm.mem_iff.mpr (mem_range.mpr hi))
      refine ⟨q, hq, ?_⟩
      rw [(hcut q hq).posOf]
      exact mem_map_of_mem (mem_filter.mpr ⟨hiq, decide_eq_true hs⟩)

/-! ### The two attempts of `init_batch` -/

/-- What one attempt can do: the split fails, the base cache or the SWA cache has no room, or there are slots for
all ubatches in both. -/
inductive Tried (ip : IswaParams) (x : Iswa) (sp : Splitter) (a : BatchAllocr) (nUbatch : ℕ) :
    Iswa × Option (List ((SlotInfo × Ubatch) × (SlotInfo × Ubatch))) → Prop
  | unsplit : Tried ip x sp a nUbatch (x, none)
  | noBase (hused : ¬ (ubatchesBy sp a nUbatch).2.nUsed < (ubatchesBy sp a nUbatch).2.nTokens) :
      Tried ip x sp a nUbatch (⟨roundTrip ip.base x.base (ubatchesBy sp a nUbatch).1, x.swa⟩, none)
  | noSwa (hused : ¬ (ubatchesBy sp a nUbatch).2.nUsed < (ubatchesBy sp a nUbatch).2.nTokens) :
      Tried ip x sp a nUbatch (⟨roundTrip ip.base x.base (ubatchesBy sp a nUbatch).1,
        roundTrip ip.swa x.swa (ubatchesBy sp a nUbatch).1⟩, none)
  | found (hused : ¬ (ubatchesBy sp a nUbatch).2.nUsed < (ubatchesBy sp a nUbatch).2.nTokens)
      (bs ss : List SlotInfo) (hbs : findAll ip.base x.base (ubatchesBy sp a nUbatch).1 = some bs)
      (hss : findAll ip.swa x.swa (ubatchesBy sp a nUbatch).1 = some ss) :
      Tried ip x sp a nUbatch (⟨roundTrip ip.base x.base (ubatchesBy sp a nUbatch).1,
        roundTrip ip.swa x.swa (ubatchesBy sp a nUbatch).1⟩,
        some ((bs.zip (ubatchesBy sp a nUbatch).1).zip (ss.zip (ubatchesBy sp a nUbatch).1)))

theorem findAll_of_prepare {kp : KvParams} {st : KvCache} {us : List Ubatch}
    (h : (st.prepare kp us).value.2 ≠ []) : findAll kp st us = some (st.prepare kp us).value.2 := by
  rw [prepare_slots] at h ⊢
  cases hfind : findAll kp st us with
  | none =>
    rw [hfind] at h
    exact absurd rfl h
  | some slots => rfl

theorem tryBatch_tried (ip : IswaParams) (x : Iswa) (sp : Splitter) (a : BatchAllocr) (nUbatch : ℕ) :
    Tried ip x sp a nUbatch (x.tryBatch ip sp a nUbatch).value := by
  simp only [tryBatch, bind_value]
  split
  · exact .unsplit
  · next hused =>
    simp only [bind_value, prepare_value]
    split
    · exact .noBase hused
    · next hbase =>
      simp only [bind_value, prepare_value]
      split
      · exact .noSwa hused
      · next hswa => exact .found hused _ _ (findAll_of_prepare hbase) (findAll_of_prepare hswa)

/-- Before a batch is placed: the caches agree, but the newest position of a sequence matters only if the batch
does not go on with it; and the tokens of the batch follow what is stored. -/
structure Ready (ip : IswaParams) (a : BatchAllocr) (x : Iswa) : Prop where
  okBase : Ok ip.base 0 x.base
  okSwa : Ok ip.swa 0 x.swa
  sub : ∀ s p, Holds ip.swa x.swa s p → Holds ip.base x.base s p
  top : ∀ s, (∀ q, ¬ HasToken a s q) → ∀ p, Holds ip.base x.base s p → ∃ q, Holds ip.swa x.swa s q ∧ p ≤ q
  follows : ∀ s q, HasToken a s q → ∀ p, Holds ip.base x.base s p → p ≤ q

theorem base_roundTrip {us : List Ubatch} (hus : ∀ u ∈ us, UbatchOk ip.base u) {st : KvCache}
    (h : Ok ip.base 0 st) (s : ℕ) (p : ℤ) :
    Holds ip.base (roundTrip ip.base st us) s p ↔ Holds ip.base st s p := by
  refine ⟨roundTrip_holds hus h, fun hp => ?_⟩
  have hnn : 0 ≤ p := by
    obtain ⟨i, hi, hmem, rfl⟩ := hp
    exact h.pos_nonneg (ip.base.streamOf_lt s) hi hmem
  exact (spared_of_none ip.base_none hus h s hnn).roundTrip hus h hp

theorem roundTrip_ok_zero {kp : KvParams} {st : KvCache} {us : List Ubatch}
    (hus : ∀ u ∈ us, UbatchOk kp u ∧ u.DistinctSeqs) (h : Ok kp 0 st) : Ok kp 0 (roundTrip kp st us) := by
  obtain ⟨G', hok, -, -, -, hsame⟩ := roundTrip_spec us (fun u hu => (hus u hu).1) h
  rw [hsame fun u hu => (hus u hu).2] at hok
  exact hok

/-- **A failed attempt** leaves the caches ready for the next one. -/
theorem Ready.tryBatch_none (h : Ready ip a x) (hb : BatchOk ip a) {sp : Splitter} (hsp : Splits ip sp)
    {nUbatch : ℕ} (hnone : (x.tryBatch ip sp a nUbatch).value.2 = none) :
    Ready ip a (x.tryBatch ip sp a nUbatch).value.1 := by
  have htried := tryBatch_tried ip x sp a nUbatch
  generalize (x.tryBatch ip sp a nUbatch).value = r at htried hnone
  cases htried with
  | unsplit => exact h
  | noBase hused =>
    obtain ⟨hus, -⟩ := hb.ubatches hsp hused
    have husB : ∀ u ∈ _, UbatchOk ip.base u ∧ u.DistinctSeqs := fun u hu =>
      ⟨ip.ubatchOk_base (hus u hu).1, (hus u hu).2⟩
    have hbase := base_roundTrip (fun u hu => (husB u hu).1) h.okBase
    refine ⟨roundTrip_ok_zero husB h.okBase, h.okSwa, fun s p hp => ?_, fun s hno p hp => ?_,
      fun s q hq p hp => ?_⟩
    · exact (hbase s p).mpr (h.sub s p hp)
    · exact h.top s hno p ((hbase s p).mp hp)
    · exact h.follows s q hq p ((hbase s p).mp hp)
  | noSwa hused =>
    obtain ⟨hus, htok⟩ := hb.ubatches hsp hused
    have husB : ∀ u ∈ _, UbatchOk ip.base u ∧ u.DistinctSeqs := fun u hu =>
      ⟨ip.ubatchOk_base (hus u hu).1, (hus u hu).2⟩
    have husS : ∀ u ∈ _, UbatchOk ip.swa u := fun u hu => (hus u hu).1
    have hbase := base_roundTrip (fun u hu => (husB u hu).1) h.okBase
    refine ⟨roundTrip_ok_zero husB h.okBase, roundTrip_ok_zero hus h.okSwa, fun s p hp => ?_,
      fun s hno p hp => ?_, fun s q hq p hp => ?_⟩
    · exact (hbase s p).mpr (h.sub s p (roundTrip_holds husS h.okSwa hp))
    · -- the batch does not touch the sequence, so its newest position comes back
      obtain ⟨q, hq, hle⟩ := h.top s hno p ((hbase s p).mp hp)
      obtain ⟨m, hm, hmax⟩ := exists_newest hq
      refine ⟨m, roundTrip_newest husS h.okSwa hm hmax fun u hu => ?_, hle.trans (hmax q hq)⟩
      refine eq_nil_iff_forall_not_mem.mpr fun r hr => hno r ?_
      exact (htok s r).mp (mem_flatMap.mpr ⟨u, hu, hr⟩)
    · exact h.follows s q hq p ((hbase s p).mp hp)
  | found hused bs ss hbs hss => cases hnone

theorem applyAll_found {kp : KvParams} {st : KvCache} {us : List Ubatch}
    (hus : ∀ u ∈ us, UbatchOk kp u ∧ u.DistinctSeqs) (h : Ok kp 0 st) {slots : List SlotInfo}
    (hfind : findAll kp st us = some slots) :
    Ok kp 0 (applyAll kp (roundTrip kp st us) (slots.zip us)).value ∧
      ∀ s p, Holds kp (applyAll kp (roundTrip kp st us) (slots.zip us)).value s p ↔
        Holds kp (placeAll kp st us) s p := by
  have hus' : ∀ u ∈ us, UbatchOk kp u := fun u hu => (hus u hu).1
  obtain ⟨⟨G', hok, hsame⟩, hcells⟩ := replay us hus' us.length slots hfind (roundTrip_ok_zero hus h) h
    fun _ _ _ _ => Or.inr rfl
  rw [(hsame fun u hu => (hus u hu).2).1, take_of_length_le (by simp)] at hok
  rw [take_of_length_le (by simp)] at hcells
  exact ⟨hok, holds_congr (hcells le_rfl)⟩

theorem Ready.applied (h : Ready ip a x) (hb : BatchOk ip a) {sp : Splitter} (hsp : Splits ip sp)
    {nUbatch : ℕ} (hused : ¬ (ubatchesBy sp a nUbatch).2.nUsed < (ubatchesBy sp a nUbatch).2.nTokens)
    {bs ss : List SlotInfo} (hbs : findAll ip.base x.base (ubatchesBy sp a nUbatch).1 = some bs)
    (hss : findAll ip.swa x.swa (ubatchesBy sp a nUbatch).1 = some ss)
    (hsafe : NewestSafe ip.swa x.swa (ubatchesBy sp a nUbatch).1) :
    Agree ip
      ⟨(applyAll ip.base (roundTrip ip.base x.base (ubatchesBy sp a nUbatch).1)
          (bs.zip (ubatchesBy sp a nUbatch).1)).value,
        (applyAll ip.swa (roundTrip ip.swa x.swa (ubatchesBy sp a nUbatch).1)
          (ss.zip (ubatchesBy sp a nUbatch).1)).value⟩ := by
  obtain ⟨hus, htok⟩ := hb.ubatches hsp hused
  generalize (ubatchesBy sp a nUbatch).1 = us at *
  have husB : ∀ u ∈ us, UbatchOk ip.base u ∧ u.DistinctSeqs := fun u hu =>
    ⟨ip.ubatchOk_base (hus u hu).1, (hus u hu).2⟩
  have hus' : ∀ u ∈ us, UbatchOk ip.swa u := fun u hu => (hus u hu).1
  have husB' : ∀ u ∈ us, UbatchOk ip.base u := fun u hu => (husB u hu).1
  obtain ⟨hokB, hholdB⟩ := applyAll_found husB h.okBase hbs
  obtain ⟨hokS, hholdS⟩ := applyAll_found hus h.okSwa hss
  -- nothing is lost in the base cache
  have hbase : ∀ s p, Holds ip.base (placeAll ip.base x.base us) s p ↔
      Holds ip.base x.base s p ∨ HasToken a s p := by
    intro s p
    rw [← htok s p]
    refine ⟨placeAll_holds husB' h.okBase, fun hp => ?_⟩
    have hnn : 0 ≤ p := by
      rcases hp with ⟨i, hi, hmem, rfl⟩ | hp
      · exact h.okBase.pos_nonneg (ip.base.streamOf_lt s) hi hmem
      · obtain ⟨i, hi, -, rfl⟩ := (htok s p).mp hp
        exact hb.pos_nonneg i hi
    exact (spared_of_none ip.base_none husB' h.okBase s hnn).placeAll husB' h.okBase hbs hp
  refine ⟨hokB, hokS, fun s p hp => ?_, fun s p hp => ?_⟩
  · have hp := placeAll_holds hus' h.okSwa ((hholdS s p).mp hp)
    rw [htok s p] at hp
    exact (hholdB s p).mpr ((hbase s p).mpr (hp.imp_left (h.sub s p)))
  · obtain ⟨m, hm, hmax⟩ := exists_newest ((hholdB s p).mp hp)
    -- the newest position of the base cache was in the SWA cache or is that of a token
    have hin : Holds ip.swa x.swa s m ∨ HasToken a s m := by
      rcases (hbase s m).mp hm with hold | hnew
      · by_cases hno : ∀ q, ¬ HasToken a s q
        · obtain ⟨q, hq, hle⟩ := h.top s hno m hold
          have hge := hmax q ((hbase s q).mpr (Or.inl (h.sub s q hq)))
          exact Or.inl (le_antisymm hge hle ▸ hq)
        · obtain ⟨q, hq⟩ := not_forall_not.mp hno
          have hge := hmax q ((hbase s q).mpr (Or.inr hq))
          exact Or.inr (le_antisymm hge (h.follows s q hq m hold) ▸ hq)
      · exact Or.inr hnew
    have hnn : 0 ≤ m := by
      obtain ⟨i, hi, hmem, hpos⟩ := (hholdB s m).mpr hm
      have := hokB.pos_nonneg (ip.base.streamOf_lt s) hi hmem
      omega
    have hspared := spared_newest hus h.okSwa hsafe hnn
      (fun q hq => hmax q ((hbase s q).mpr (Or.inl (h.sub s q hq))))
      fun q hq => hmax q ((hbase s q).mpr (Or.inr ((htok s q).mp hq)))
    refine ⟨m, (hholdS s m).mpr (hspared.placeAll hus' h.okSwa hss ?_), hmax p ((hholdB s p).mp hp)⟩
    rw [htok s m]
    exact hin

/-! ### A whole batch -/

/-- The attempt that decides about a batch: the caches it starts from and its splitter. -/
def attempt (ip : IswaParams) (x : Iswa) (a : BatchAllocr) (nUbatch : ℕ) : Iswa × Splitter :=
  if ip.swa.unified then
    if (x.tryBatch ip .simple a nUbatch).value.2.isSome then (x, .simple)
    else ((x.tryBatch ip .simple a nUbatch).value.1, .equal false)
  else (x, .equal true)

theorem initBatch_attempt (ip : IswaParams) (x : Iswa) (a : BatchAllocr) (nUbatch : ℕ) :
    (x.initBatch ip a nUbatch).value
      = ((attempt ip x a nUbatch).1.tryBatch ip (attempt ip x a nUbatch).2 a nUbatch).value := by
  cases hun : ip.swa.unified with
  | false => simp [initBatch, attempt, hun]
  | true =>
    cases hfirst : (x.tryBatch ip .simple a nUbatch).value.2 with
    | none => simp [initBatch, attempt, hun, hfirst]
    | some l =>
      simp only [initBatch, attempt, hun, hfirst, if_true, bind_value, Option.isSome_some, pure_value]
      rw [← hfirst]

theorem nStream_of_unified (h : ip.swa.unified = true) : ip.swa.nStream = 1 := by
  rw [KvParams.nStream, if_pos h]

theorem Ready.attempt (h : Ready ip a x) (hb : BatchOk ip a) (nUbatch : ℕ) :
    Ready ip a (attempt ip x a nUbatch).1 ∧ Splits ip (attempt ip x a nUbatch).2 := by
  unfold Iswa.attempt
  by_cases hun : ip.swa.unified = true
  · have hone : ∀ sp, Splits ip sp := fun _ => Or.inl (nStream_of_unified hun)
    rw [if_pos hun]
    split
    · exact ⟨h, hone _⟩
    · next hfail =>
      rw [Option.not_isSome_iff_eq_none] at hfail
      exact ⟨h.tryBatch_none hb (hone _) hfail, hone _⟩
  · rw [if_neg hun]
    exact ⟨h, Or.inr rfl⟩

/-- `init` as `decode` calls it: the positions come from the SWA cache. -/
def accept (ip : IswaParams) (x : Iswa) (args : DecodeArgs) : Checked (Except BatchError BatchAllocr) :=
  BatchAllocr.init ip.swa.nPosPerEmbd args.nVocab args.batch (some (x.swa.memory ip.swa).value)
    ip.swa.batchSeqMax args.outputAll

theorem min_toFinset_le {l : List ℤ} {q : ℤ} (hq : q ∈ l) : l.toFinset.min.untopD (-1) ≤ q := by
  have hmem : q ∈ l.toFinset := mem_toFinset.mpr hq
  obtain ⟨m, hm⟩ := Finset.min_of_mem hmem
  have hle := Finset.min_le hmem
  rw [hm] at hle ⊢
  exact WithTop.coe_le_coe.mp hle

theorem validate_follows {memory : Option Memory} (h : a.validate memory = .ok ()) {s : ℕ}
    (hs : s < a.nSeqMax) (hlast : 0 ≤ lastPos memory s) {i : ℕ} (hi : i ∈ a.tokensOf s) :
    lastPos memory s ≤ a.posAt i := by
  have hmem : a.posAt i ∈ (a.tokensOf s).map a.posAt := mem_map_of_mem hi
  have hne : a.seqPos s ≠ ∅ := Finset.ne_empty_of_mem (mem_toFinset.mpr hmem)
  refine le_trans ?_ (min_toFinset_le hmem)
  show lastPos memory s ≤ a.seqPosMin s
  unfold validate at h
  cases hchk : (range a.nSeqMax).forM
      (if 1 < a.nPosPerEmbd then a.checkMrope memory else a.checkSeqPos memory) with
  | error e =>
    rw [hchk] at h
    cases h
  | ok v =>
    have hseq := (forM_ok_iff _ _).mp hchk s (mem_range.mpr hs)
    by_cases hemb : 1 < a.nPosPerEmbd
    · rw [if_pos hemb, checkMrope, if_neg hne] at hseq
      split at hseq
      · split at hseq
        · cases hseq
        · omega
      · split at hseq
        · cases hseq
        · omega
    · rw [if_neg hemb, checkSeqPos, if_neg hne] at hseq
      split at hseq
      · cases hseq
      · omega

/-- **Acceptance.**  What `init` finds out about a batch, when the caches agree. -/
theorem Agree.accept (h : Agree ip x) {args : DecodeArgs} (hn : 0 < args.batch.nTokens)
    (hinit : (accept ip x args).value = .ok a) (hpl : Placeable a) (hd : Distinct a) :
    BatchOk ip a ∧ Ready ip a x := by
  have hlist : args.batch.Listed := listed_of_init hinit fun i hi => (hpl i hi).1
  obtain ⟨hmax, hids, hval, rfl⟩ := BatchAllocr.init_ok hinit
  have hacc : Accepted (sanitize ip.swa.nPosPerEmbd args.batch (some (x.swa.memory ip.swa).value)
      ip.swa.batchSeqMax args.outputAll) := sanitize_accepted hn hlist (batchSeqMax_pos ip.swa) hmax hids
  refine ⟨⟨⟨hacc.nTokens_pos, hacc.nSeqMax_le, hacc.seqId_length, hacc.seq_ne, hacc.seq_lt⟩, rfl,
    ip.swa.nPosPerEmbd_pos, fun i hi => (hpl i hi).2, hd⟩, h.okBase, h.okSwa, h.sub, fun s _ => h.top s, ?_⟩
  rintro s q ⟨i, hi, hs, rfl⟩ p hp
  have hlt : s < ip.swa.batchSeqMax := hacc.seq_lt i s hs
  have hlt' : s < llamaMaxSeq :=
    lt_of_lt_of_le hlt ((batchSeqMax_le_seqToStream ip.swa).trans ip.swa.seqToStream_length_le)
  obtain ⟨m, hm, hle⟩ := h.top s p hp
  have hgreat := ((reports_positions h.okSwa hlt').2 ⟨m, hm⟩).2.2 hm
  have hnn : 0 ≤ m := by
    obtain ⟨j, hj, hmem, rfl⟩ := hm
    exact h.okSwa.pos_nonneg (ip.swa.streamOf_lt s) hj hmem
  have hfollow := validate_follows hval hlt (hnn.trans hgreat)
    (mem_filter.mpr ⟨mem_range.mpr hi, decide_eq_true hs⟩)
  exact (hle.trans hgreat).trans hfollow

theorem Agree.update (h : Agree ip x) (base swa : Option TensorData) : Agree ip (x.update ip base swa) := by
  refine ⟨update_ok h.okBase base, update_ok h.okSwa swa, fun s p hp => ?_, fun s p hp => ?_⟩
  · exact (update_holds base s p).mpr (h.sub s p ((update_holds swa s p).mp hp))
  · obtain ⟨q, hq, hle⟩ := h.top s p ((update_holds base s p).mp hp)
    exact ⟨q, (update_holds swa s q).mpr hq, hle⟩

/-- What keeps the caches together when a batch is decoded: each token lists a sequence at a position from 0 on, none
twice, and no newest position is exposed while the ubatches are placed in the SWA cache. -/
def DecodeSafe (ip : IswaParams) (x : Iswa) (args : DecodeArgs) : Prop :=
  ∀ a, (accept ip x args).value = .ok a → Placeable a ∧ Distinct a ∧
    let y := attempt ip (x.update ip args.shiftedBase args.shiftedSwa) a args.nUbatch
    NewestSafe ip.swa y.1.swa (ubatchesBy y.2 a args.nUbatch).1

theorem decode_agree (h : Agree ip x) {args : DecodeArgs} (hc : (x.decode ip args).checks = true)
    (hdone : (x.decode ip args).value.1 = true) (hsafe : DecodeSafe ip x args) :
    Agree ip (x.decode ip args).value.2 := by
  have hn : 0 < args.batch.nTokens := by
    simp only [decode, bind_checks, Bool.and_eq_true, BatchAllocr.init, check_checks, decide_eq_true_eq] at hc
    exact hc.2.1.1
  cases hinit : (accept ip x args).value with
  | error e =>
    simp only [accept] at hinit
    simp [decode, hinit] at hdone
  | ok a =>
    obtain ⟨hpl, hd, hnewest⟩ := hsafe a hinit
    obtain ⟨hb, -⟩ := h.accept hn hinit hpl hd
    have hready : Ready ip a (x.update ip args.shiftedBase args.shiftedSwa) := by
      have hupd := h.update args.shiftedBase args.shiftedSwa
      refine ⟨hupd.okBase, hupd.okSwa, hupd.sub, fun s _ => hupd.top s, fun s q hq p hp => ?_⟩
      exact (h.accept hn hinit hpl hd).2.follows s q hq p ((update_holds _ s p).mp hp)
    obtain ⟨hready', hsp⟩ := hready.attempt hb args.nUbatch
    have hbatch := initBatch_attempt ip (x.update ip args.shiftedBase args.shiftedSwa) a args.nUbatch
    generalize attempt ip (x.update ip args.shiftedBase args.shiftedSwa) a args.nUbatch = y at *
    have htried := tryBatch_tried ip y.1 y.2 a args.nUbatch
    rw [← hbatch] at htried
    simp only [accept] at hinit
    simp only [decode, bind_value, hinit] at hdone ⊢
    generalize ((x.update ip args.shiftedBase args.shiftedSwa).initBatch ip a args.nUbatch).value = r at *
    cases htried with
    | unsplit => cases hdone
    | noBase _ => cases hdone
    | noSwa _ => cases hdone
    | found hused bs ss hbs hss =>
      have hlen : (bs.zip (ubatchesBy y.2 a args.nUbatch).1).length
          = (ss.zip (ubatchesBy y.2 a args.nUbatch).1).length := by
        rw [length_zip, length_zip, findAll_length hbs, findAll_length hss]
      simp only [bind_value, pure_value, map_fst_zip (le_of_eq hlen), map_snd_zip (le_of_eq hlen.symm)]
      exact hready'.applied hb hsp hused hbs hss hnewest

/-! ### Runs -/

/-- The operations on both caches. -/
inductive Op where
  | clear (data : Bool)
  | seqRm (seqId p0 p1 : ℤ)
  | seqCp (src dst p0 p1 : ℤ)
  | seqKeep (seqId : ℤ)
  | seqAdd (seqId p0 p1 shift : ℤ)
  | decode (args : DecodeArgs)

def step (ip : IswaParams) (x : Iswa) : Op → Checked Iswa
  | .clear data => pure (x.clear ip data)
  | .seqRm seqId p0 p1 => x.seqRm ip seqId p0 p1
  | .seqCp src dst p0 p1 => x.seqCp ip src dst p0 p1
  | .seqKeep seqId => x.seqKeep ip seqId
  | .seqAdd seqId p0 p1 shift => x.seqAdd ip seqId p0 p1 shift
  | .decode args => do
    let r ← x.decode ip args
    return r.2

def Op.Applied (ip : IswaParams) (x : Iswa) : Op → Prop
  | .decode args => (x.decode ip args).value.1 = true
  | _ => True

instance (ip : IswaParams) (x : Iswa) : DecidablePred (Op.Applied ip x)
  | .decode args => inferInstanceAs (Decidable ((x.decode ip args).value.1 = true))
  | .clear _ => isTrue trivial
  | .seqRm _ _ _ => isTrue trivial
  | .seqCp _ _ _ _ => isTrue trivial
  | .seqKeep _ => isTrue trivial
  | .seqAdd _ _ _ _ => isTrue trivial

/-- The states that the operations reach from two empty caches, with a condition on each step. -/
inductive Run (ip : IswaParams) (P : Iswa → Op → Prop) : Iswa → Prop
  | init : Run ip P (Iswa.init ip)
  | step {x : Iswa} (h : Run ip P x) (op : Op) (hop : P x op) (hc : (x.step ip op).checks = true)
      (happ : op.Applied ip x) : Run ip P (x.step ip op).value

def Op.Safe (ip : IswaParams) (x : Iswa) : Op → Prop
  | .clear _ => True
  | .seqRm seqId p0 p1 => RmSafe ip x seqId p0 p1
  | .seqCp src dst p0 p1 => CpSafe ip x src.toNat dst.toNat p0 p1
  | .seqKeep _ => True
  | .seqAdd seqId p0 p1 shift => AddSafe ip x seqId.toNat p0 p1 shift
  | .decode args => DecodeSafe ip x args

theorem step_agree (h : Agree ip x) (op : Op) (hsafe : op.Safe ip x) (hc : (x.step ip op).checks = true)
    (happ : op.Applied ip x) : Agree ip (x.step ip op).value := by
  cases op with
  | clear data => exact clear_agree h data
  | seqRm seqId p0 p1 => exact seqRm_agree h hc hsafe
  | seqCp src dst p0 p1 =>
    have hc' : (x.seqCp ip src dst p0 p1).checks = true := hc
    simp only [seqCp, KvCache.seqCp, bind_checks, check_checks, Bool.and_eq_true, decide_eq_true_eq] at hc'
    obtain ⟨⟨⟨hsrc, -⟩, ⟨hdst, -⟩, -⟩, -⟩ := hc'
    lift src to ℕ using hsrc
    lift dst to ℕ using hdst
    exact seqCp_agree h hc hsafe
  | seqKeep seqId => exact seqKeep_agree h hc
  | seqAdd seqId p0 p1 d =>
    have hc' : (x.seqAdd ip seqId p0 p1 d).checks = true := hc
    simp only [seqAdd, KvCache.seqAdd, bind_checks, check_checks, Bool.and_eq_true, decide_eq_true_eq] at hc'
    obtain ⟨⟨⟨hs, -⟩, -⟩, -⟩ := hc'
    lift seqId to ℕ using hs
    exact seqAdd_agree h hc hsafe
  | decode args =>
    have hc' : (x.decode ip args).checks = true := by
      simpa only [step, bind_checks, pure_checks, Bool.and_true] using hc
    exact decode_agree h hc' happ hsafe

/-- The two caches together: the SWA cache stores positions of the base cache, and both report the same newest
position, the one that `seq_pos_max` returns. -/
def InStep (ip : IswaParams) (x : Iswa) (s : ℕ) : Prop :=
  (∀ p, Holds ip.swa x.swa s p → Holds ip.base x.base s p) ∧
    (x.base.seqPosMax ip.base s).value = (x.swa.seqPosMax ip.swa s).value ∧
    (x.seqPosMax ip s).value = (x.base.seqPosMax ip.base s).value

theorem safeRun_agree (h : Run ip (fun x op => op.Safe ip x) x) : Agree ip x := by
  induction h with
  | init => exact init_agree
  | step _ op hop hc happ ih => exact step_agree ih op hop hc happ

/-- **Safe runs keep the caches in step**, for every sequence. -/
theorem run_agree (ip : IswaParams) (x : Iswa) (h : Run ip (fun x op => op.Safe ip x) x) (s : ℕ)
    (hs : s < ip.swa.seqToStream.length) : InStep ip x s := by
  have hagree := safeRun_agree h
  have hmax := hagree.seqPosMax_eq (hs.trans_le ip.swa.seqToStream_length_le)
  exact ⟨hagree.sub s, hmax, hmax.symm⟩

/-- Tokens at the given positions, all with the same list of sequences. -/
def tokensAt (pos ids : List ℤ) (nUbatch : ℕ) : DecodeArgs where
  batch := (KvCache.tokensAt pos ids).batch
  nVocab := 1
  nUbatch := nUbatch
  outputAll := false
  shiftedBase := none
  shiftedSwa := none

theorem tokensAt_safe (hwide : ∀ m : ℤ, (ip.swa.isMasked m (m + 1)).value = false) {pos ids : List ℤ}
    (hids : ids ≠ []) (hpos : ∀ p ∈ pos, 0 ≤ p) (hd : (ids.map Int.toNat).Nodup) (nUbatch : ℕ) :
    DecodeSafe ip x (tokensAt pos ids nUbatch) := by
  intro a ha
  have hacc : (acceptBatch ip.swa x.swa (KvCache.tokensAt pos ids)).value = .ok a := ha
  obtain ⟨hn, hat, hseq⟩ := tokensAt_accepted hacc
  refine ⟨fun i hi => ⟨?_, ?_⟩, fun i hi => ?_, newestSafe_of_wide hwide _⟩
  · rw [hseq i (hn ▸ hi)]
    exact mt map_eq_nil_iff.mp hids
  · have hlt : i < pos.length := hn ▸ hi
    rw [hat]
    show 0 ≤ pos.getD i 0
    rw [getD_eq_getElem _ _ hlt]
    exact hpos _ (getElem_mem hlt)
  · rw [hseq i (hn ▸ hi)]
    exact hd

/-- A base cache of eight cells and a SWA cache for two sequences and ubatches of one token, with a window of two
positions of the given type. -/
def smallIswa (swaType : SwaType) : IswaParams where
  base := { smallCache with kvSize := 8, kvSize_lt := by decide }
  swa := { smallCache with
    kvSize := sizeSwa false true 8 2 1 1 2
    nSwa := 2
    swaType := swaType
    kvSize_lt := by decide }
  base_none := rfl
  unified_eq := rfl
  nSeqMax_eq := rfl
  nPosPerEmbd_eq := rfl

def firstTokens (ip : IswaParams) : Iswa :=
  ((Iswa.init ip).step ip (.decode (tokensAt [0, 1] [0] 1))).value

theorem run_agree_standard : InStep (smallIswa .standard) (firstTokens (smallIswa .standard)) 0 := by
  have hwide : ∀ m : ℤ, ((smallIswa .standard).swa.isMasked m (m + 1)).value = false :=
    isMasked_wide (by decide) (by decide)
  have hfirst : Run (smallIswa .standard) (fun x op => op.Safe (smallIswa .standard) x)
      (firstTokens (smallIswa .standard)) :=
    Run.init.step _ (tokensAt_safe hwide (by decide) (by decide) (by decide) 1) (by decide +kernel) (by decide +kernel)
  exact run_agree _ _ hfirst 0 (by decide +kernel)

def thenOthers (ip : IswaParams) : Iswa :=
  ((firstTokens ip).step ip (.decode (tokensAt [0, 1, 2, 3, 4] [1] 1))).value

/-- With chunks of two positions, the tokens of sequence 1 take the cell of position 1 of sequence 0: it is the
last one of its chunk, so that the next position does not see it.  The base cache still has it. -/
theorem chunk_evicts_newest :
    Run (smallIswa .chunked) (fun _ _ => True) (thenOthers (smallIswa .chunked)) ∧
      ¬ InStep (smallIswa .chunked) (thenOthers (smallIswa .chunked)) 0 := by
  have hfirst : Run (smallIswa .chunked) (fun _ _ => True) (firstTokens (smallIswa .chunked)) :=
    Run.init.step _ trivial (by decide +kernel) (by decide +kernel)
  have hbase : ((thenOthers (smallIswa .chunked)).base.seqPosMax (smallIswa .chunked).base 0).value = 1 := by
    decide +kernel
  have hswa : ((thenOthers (smallIswa .chunked)).swa.seqPosMax (smallIswa .chunked).swa 0).value = -1 := by
    decide +kernel
  refine ⟨hfirst.step _ trivial (by decide +kernel) (by decide +kernel), fun h => ?_⟩
  have heq : ((thenOthers (smallIswa .chunked)).base.seqPosMax (smallIswa .chunked).base 0).value
      = ((thenOthers (smallIswa .chunked)).swa.seqPosMax (smallIswa .chunked).swa 0).value := h.2.1
  rw [hbase, hswa] at heq
  exact absurd heq (by decide)

end Iswa
