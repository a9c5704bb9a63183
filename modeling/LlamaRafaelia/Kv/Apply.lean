import LlamaRafaelia.Kv.Place
import Mathlib.Data.List.GetD

/-!
# `apply_ubatch` on the slot that `find_slot` returned

`UbatchOk` is what the splitters of the batch guarantee about a ubatch.  With it, the slot found names
distinct cells, each in the stream of its token's sequences, and the lemmas on single tokens add up to
`applyUbatch_spec`: the invariant, the cells inside and outside the slot, and the heads.
-/

/-- A ubatch as the batch allocator hands it out: tokens with positions and at least one sequence each;
with several streams one block of tokens for each sequence. -/
structure UbatchOk (kp : KvParams) (u : Ubatch) : Prop where
  nTokens_pos : 0 < u.nTokens
  unq_nodup : u.seqIdUnq.Nodup
  unq_lt : ∀ s ∈ u.seqIdUnq, s < kp.seqToStream.length
  slots_le : KvCache.slotSeqs kp u ≤ u.seqIdUnq.length
  blocks : u.nTokens = KvCache.slotSeqs kp u * KvCache.slotTokens kp u
  pos_nonneg : ∀ i < u.nTokens, 0 ≤ u.posAt i
  seq_ne : ∀ i < u.nTokens, u.seqAt i ≠ []
  seq_stream : ∀ s < KvCache.slotSeqs kp u, ∀ ii < KvCache.slotTokens kp u,
    ∀ q ∈ u.seqAt (s * KvCache.slotTokens kp u + ii),
      q < kp.seqToStream.length ∧ kp.streamOf q = kp.streamOf (u.seqIdUnq.getD s 0)

def Ubatch.DistinctSeqs (u : Ubatch) : Prop := ∀ i < u.nTokens, (u.seqAt i).Nodup

instance (u : Ubatch) : Decidable u.DistinctSeqs :=
  inferInstanceAs (Decidable (∀ i < u.nTokens, (u.seqAt i).Nodup))

namespace SlotInfo

def cells (si : SlotInfo) : List (ℕ × ℕ) := si.places.map KvCache.placeOf

theorem mem_places {si : SlotInfo} {x : ℕ × ℕ × ℕ} :
    x ∈ si.places ↔ ∃ s < si.nStream, ∃ ii < si.size,
      x = (si.strmAt s, (si.idxsAt s).getD ii 0, s * si.size + ii) := by
  simp only [places, List.mem_flatMap, List.mem_range, List.mem_map]
  constructor
  · rintro ⟨s, hs, ii, hii, rfl⟩
    exact ⟨s, hs, ii, hii, rfl⟩
  · rintro ⟨s, hs, ii, hii, rfl⟩
    exact ⟨s, hs, ii, hii, rfl⟩

theorem mem_strm {si : SlotInfo} {t : ℕ} : t ∈ si.strm ↔ ∃ s < si.nStream, si.strmAt s = t := by
  constructor
  · intro h
    obtain ⟨s, hs, rfl⟩ := List.mem_iff_getElem.mp h
    exact ⟨s, hs, List.getD_eq_getElem _ _ hs⟩
  · rintro ⟨s, hs, rfl⟩
    rw [strmAt, List.getD_eq_getElem _ _ hs]
    exact List.getElem_mem hs

end SlotInfo

namespace KvCache

open List Checked KvCells

variable {kp : KvParams} {st : KvCache} {G : ℕ → ℕ → ℤ → ℕ} {u : Ubatch} {cont : Bool} {si : SlotInfo}

/-! ### The slot fits the ubatch -/

/-- A slot for the ubatch `u` whose cells can be taken over: distinct cells of the right streams, each
empty or of a single sequence. -/
structure SlotFits (kp : KvParams) (st : KvCache) (u : Ubatch) (si : SlotInfo) : Prop where
  strm_length : si.strm.length = slotSeqs kp u
  idxs_length : si.idxs.length = slotSeqs kp u
  strm : ∀ s < slotSeqs kp u, si.strmAt s = kp.streamOf (u.seqIdUnq.getD s 0)
  length : ∀ s < slotSeqs kp u, (si.idxsAt s).length = slotTokens kp u
  nodup : ∀ s < slotSeqs kp u, (si.idxsAt s).Nodup
  idx_lt : ∀ s < slotSeqs kp u, ∀ i ∈ si.idxsAt s, i < kp.kvSize
  single : ∀ s < slotSeqs kp u, ∀ i ∈ si.idxsAt s,
    (st.vCells (si.strmAt s)).pos i ≠ -1 → ∃ q, (st.vCells (si.strmAt s)).seq i = {q}

theorem SlotOk.fits (hsi : SlotOk kp st u cont si) (h : Ok kp G st) : SlotFits kp st u si := by
  have ht : ∀ s < slotSeqs kp u, si.strmAt s < kp.nStream := fun s hs => by
    rw [hsi.strm s hs]
    exact kp.streamOf_lt _
  refine ⟨hsi.strm_length, hsi.idxs_length, hsi.strm, hsi.length, hsi.nodup, fun s hs i hi => ?_,
    fun s hs i hi hp => ?_⟩
  · exact (h _ (ht s hs)).size ▸ (hsi.usable s hs i hi).1
  · obtain ⟨hlt, husable⟩ := hsi.usable s hs i hi
    rcases (usable_iff (h _ (ht s hs)).sound hlt).mp husable with he | ⟨-, q, hq, -⟩
    · exact absurd he hp
    · exact ⟨q, hq⟩

theorem UbatchOk.slotSeqs_pos (hu : UbatchOk kp u) : 0 < slotSeqs kp u := by
  refine Nat.pos_of_ne_zero fun h => ?_
  have hb := hu.blocks
  have hn := hu.nTokens_pos
  rw [h, Nat.zero_mul] at hb
  omega

theorem UbatchOk.slotTokens_pos (hu : UbatchOk kp u) : 0 < slotTokens kp u := by
  refine Nat.pos_of_ne_zero fun h => ?_
  have hb := hu.blocks
  have hn := hu.nTokens_pos
  rw [h, Nat.mul_zero] at hb
  omega

theorem SlotFits.size_eq (hsi : SlotFits kp st u si) (hu : UbatchOk kp u) :
    si.size = slotTokens kp u := hsi.length 0 (UbatchOk.slotSeqs_pos hu)

theorem SlotFits.strm_injective (hsi : SlotFits kp st u si) (hu : UbatchOk kp u) {s s' : ℕ}
    (hs : s < slotSeqs kp u) (hs' : s' < slotSeqs kp u) (h : si.strmAt s = si.strmAt s') : s = s' := by
  by_cases hm : 1 < kp.nStream
  · rw [hsi.strm s hs, hsi.strm s' hs'] at h
    have hlt : s < u.seqIdUnq.length := lt_of_lt_of_le hs hu.slots_le
    have hlt' : s' < u.seqIdUnq.length := lt_of_lt_of_le hs' hu.slots_le
    rw [getD_eq_getElem _ _ hlt, getD_eq_getElem _ _ hlt',
      kp.streamOf_of_lt hm (hu.unq_lt _ (getElem_mem hlt)),
      kp.streamOf_of_lt hm (hu.unq_lt _ (getElem_mem hlt'))] at h
    exact (List.Nodup.getElem_inj_iff hu.unq_nodup).mp h
  · rw [slotSeqs, if_neg hm] at hs hs'
    omega

theorem SlotFits.cells_nodup (hsi : SlotFits kp st u si) (hu : UbatchOk kp u) : si.cells.Nodup := by
  have hsize := hsi.size_eq hu
  have hcells : si.cells = (List.range si.nStream).flatMap fun s =>
      (List.range si.size).map fun ii => (si.strmAt s, (si.idxsAt s).getD ii 0) := by
    simp only [SlotInfo.cells, SlotInfo.places, map_flatMap, map_map]
    rfl
  have hns : si.nStream = slotSeqs kp u := hsi.strm_length
  rw [hcells, nodup_flatMap]
  constructor
  · intro s hs
    rw [List.mem_range, hns] at hs
    refine List.Nodup.map_on (fun ii hii jj hjj heq => ?_) nodup_range
    rw [List.mem_range, hsize, ← hsi.length s hs] at hii hjj
    have heq' : (si.idxsAt s).getD ii 0 = (si.idxsAt s).getD jj 0 := (Prod.mk.inj heq).2
    rw [getD_eq_getElem _ _ hii, getD_eq_getElem _ _ hjj] at heq'
    exact (List.Nodup.getElem_inj_iff (hsi.nodup s hs)).mp heq'
  · refine List.Pairwise.imp_of_mem (R := fun a b => a ≠ b) (fun {s s'} hs hs' hne => ?_) nodup_range
    rw [List.mem_range, hns] at hs hs'
    rintro x hx hx'
    simp only [mem_map] at hx hx'
    obtain ⟨ii, -, rfl⟩ := hx
    obtain ⟨jj, -, heq⟩ := hx'
    exact hne (hsi.strm_injective hu hs hs' (Prod.mk.inj heq).1.symm)

theorem SlotFits.mem_places (hsi : SlotFits kp st u si) (hu : UbatchOk kp u) {x : ℕ × ℕ × ℕ}
    (hx : x ∈ si.places) : ∃ s < slotSeqs kp u, ∃ ii < slotTokens kp u,
      x.1 = si.strmAt s ∧ x.2.1 ∈ si.idxsAt s ∧ x.2.2 = s * slotTokens kp u + ii ∧ x.2.2 < u.nTokens := by
  obtain ⟨s, hs, ii, hii, rfl⟩ := (SlotInfo.mem_places).mp hx
  have hsize := hsi.size_eq hu
  rw [show si.nStream = slotSeqs kp u from hsi.strm_length] at hs
  rw [hsize] at hii
  have hmem : (si.idxsAt s).getD ii 0 ∈ si.idxsAt s := by
    have hlt : ii < (si.idxsAt s).length := by rwa [hsi.length s hs]
    rw [getD_eq_getElem _ _ hlt]
    exact getElem_mem hlt
  refine ⟨s, hs, ii, hii, rfl, hmem, by rw [hsize], ?_⟩
  rw [hu.blocks, hsize]
  calc s * slotTokens kp u + ii < s * slotTokens kp u + slotTokens kp u := by omega
    _ = (s + 1) * slotTokens kp u := by ring
    _ ≤ slotSeqs kp u * slotTokens kp u := Nat.mul_le_mul_right _ hs

theorem SlotFits.placeOk (hsi : SlotFits kp st u si) (hu : UbatchOk kp u) {x : ℕ × ℕ × ℕ}
    (hx : x ∈ si.places) : PlaceOk kp u st x := by
  obtain ⟨s, hs, ii, hii, hstrm, hidx, htok, hlt⟩ := hsi.mem_places hu hx
  refine ⟨?_, hsi.idx_lt s hs _ hidx, hu.pos_nonneg _ hlt, hu.seq_ne _ hlt, fun q hq => ?_, ?_⟩
  · rw [hstrm, hsi.strm s hs]
    exact kp.streamOf_lt _
  · rw [hstrm, hsi.strm s hs]
    rw [htok] at hq
    exact hu.seq_stream s hs ii hii q hq
  · rw [hstrm]
    exact hsi.single s hs _ hidx

theorem SlotFits.token_placed (hsi : SlotFits kp st u si) (hu : UbatchOk kp u) {i : ℕ}
    (hi : i < u.nTokens) : ∃ x ∈ si.places, x.2.2 = i := by
  have hpos := UbatchOk.slotTokens_pos hu
  have hsize := hsi.size_eq hu
  have hs : i / slotTokens kp u < slotSeqs kp u :=
    Nat.div_lt_of_lt_mul (by rw [Nat.mul_comm, ← hu.blocks]; exact hi)
  refine ⟨(si.strmAt (i / slotTokens kp u), (si.idxsAt (i / slotTokens kp u)).getD (i % slotTokens kp u) 0,
    i / slotTokens kp u * si.size + i % slotTokens kp u), (SlotInfo.mem_places).mpr ?_, ?_⟩
  · refine ⟨i / slotTokens kp u, ?_, i % slotTokens kp u, ?_, rfl⟩
    · rw [show si.nStream = slotSeqs kp u from hsi.strm_length]
      exact hs
    · rw [hsize]
      exact Nat.mod_lt _ hpos
  · show i / slotTokens kp u * si.size + i % slotTokens kp u = i
    rw [hsize, Nat.mul_comm]
    exact Nat.div_add_mod i _

/-! ### The heads -/

theorem moveHeads_vCells (st : KvCache) (si : SlotInfo) : (st.moveHeads si).vCells = st.vCells := rfl

theorem moveHeads_vHeads (st : KvCache) (si : SlotInfo) (t : ℕ) :
    ((∀ s < si.nStream, si.strmAt s ≠ t) → (st.moveHeads si).vHeads t = st.vHeads t) ∧
      ((st.moveHeads si).vHeads t = st.vHeads t ∨
        ∃ s < si.nStream, si.strmAt s = t ∧ (st.moveHeads si).vHeads t = (si.idxsAt s).getLastD 0 + 1) := by
  have key : ∀ (l : List ℕ) (heads : ℕ → ℕ), (∀ s ∈ l, s < si.nStream) →
      let heads' := l.foldl
        (fun heads s => Function.update heads (si.strmAt s) ((si.idxsAt s).getLastD 0 + 1)) heads
      ((∀ s ∈ l, si.strmAt s ≠ t) → heads' t = heads t) ∧
        (heads' t = heads t ∨ ∃ s < si.nStream, si.strmAt s = t ∧ heads' t = (si.idxsAt s).getLastD 0 + 1) := by
    intro l
    induction l with
    | nil => exact fun heads _ => ⟨fun _ => rfl, Or.inl rfl⟩
    | cons s l ih =>
      intro heads hl
      obtain ⟨h1, h2⟩ := ih (Function.update heads (si.strmAt s) ((si.idxsAt s).getLastD 0 + 1))
        (fun s' hs' => hl s' (by simp [hs']))
      simp only [foldl_cons]
      refine ⟨fun hne => ?_, ?_⟩
      · rw [h1 fun s' hs' => hne s' (by simp [hs']), Function.update_of_ne (hne s (by simp)).symm]
      · rcases h2 with h2 | h2
        · rw [h2]
          by_cases ht : si.strmAt s = t
          · subst ht
            exact Or.inr ⟨s, hl s (by simp), rfl, by rw [Function.update_self]⟩
          · exact Or.inl (Function.update_of_ne (Ne.symm ht) _ _)
        · exact Or.inr h2
  obtain ⟨h1, h2⟩ := key (List.range si.nStream) st.vHeads (by simp)
  exact ⟨fun hne => h1 fun s hs => hne s (List.mem_range.mp hs), h2⟩

/-! ### The whole call -/

/-- The sequences that `apply_ubatch` leaves in the cell `x`. -/
def keptBy (st : KvCache) (si : SlotInfo) (x : KvCell) : Finset ℕ := keptSeqs (slotRm st si.places) x

theorem SlotFits.evicted_stream (hsi : SlotFits kp st u si) (hu : UbatchOk kp u) (h : Ok kp G st)
    {s : ℕ} (hs : slotRm st si.places s ≠ -1) :
    s < kp.seqToStream.length ∧ ∃ b < si.nStream, kp.streamOf s = si.strmAt b := by
  obtain ⟨x, hx, -, hm, -⟩ := slotRm_ne hs
  have hplace := hsi.placeOk hu hx
  obtain ⟨hlt, hstream⟩ := (h _ hplace.stream_lt).stream _ hplace.idx_lt s hm
  obtain ⟨b, hb, ii, -, rfl⟩ := (SlotInfo.mem_places).mp hx
  exact ⟨hlt, b, hb, hstream⟩

/-- **`apply_ubatch` on the slot that was found.**  The invariant is kept, with the same surplus exactly
when no token lists a sequence twice; cells of the slot hold their tokens and the others lose what is
purged; only the heads of the streams in the slot move. -/
theorem applyUbatch_spec (h : Ok kp G st) (hu : UbatchOk kp u) (hsi : SlotFits kp st u si) :
    let st' := (st.applyUbatch kp si u).value
    (∃ G', Ok kp G' st' ∧ GrowsIn kp G G' ∧ (u.DistinctSeqs ↔ G' = G)) ∧
      (∀ t < kp.nStream, ∀ i < kp.kvSize, (t, i) ∉ si.cells → (st'.vCells t).cell i
        = ((st.vCells t).cell i).restrict (keptBy st si ((st.vCells t).cell i))) ∧
      (∀ x ∈ si.places, (st'.vCells x.1).cell x.2.1
        = (placeCell u x.2.2 (evictCell ((st.vCells x.1).cell x.2.1))).restrict
            (keptBy st si (placeCell u x.2.2 (evictCell ((st.vCells x.1).cell x.2.1))))) ∧
      (∀ t, (∀ s < si.nStream, si.strmAt s ≠ t) → st'.vHeads t = st.vHeads t) ∧
      (u.DistinctSeqs → (st.applyUbatch kp si u).asserts = true) := by
  obtain ⟨hplaced, hasserts⟩ := placed_loop h (fun x hx => hsi.placeOk hu hx) (hsi.cells_nodup hu)
  obtain ⟨G', hok, hle, hiff⟩ := hplaced.ok
  have hrm := hplaced.rm
  have hge : ∀ s, -1 ≤ slotRm st si.places s := slotRm_ge si.places
  have hlt : ∀ s, slotRm st si.places s ≠ -1 → s < kp.seqToStream.length :=
    fun s hs => (hsi.evicted_stream hu h hs).1
  have hdistinct : u.DistinctSeqs ↔ ∀ x ∈ si.places, (u.seqAt x.2.2).Nodup := by
    constructor
    · intro hall x hx
      obtain ⟨s, -, ii, -, -, -, -, hlt⟩ := hsi.mem_places hu hx
      exact hall _ hlt
    · intro hall i hi
      obtain ⟨x, hx, rfl⟩ := hsi.token_placed hu hi
      exact hall x hx
  obtain ⟨hpok, hpcell⟩ := purge_spec hok hge hlt
  have hval : (st.applyUbatch kp si u).value
      = (loopRange llamaMaxSeq (purgeStep kp (slotRm st si.places))
          { st with vCells := (loop (applyStep u) (st.vCells, fun _ => -1) si.places).value.1 }).value.moveHeads
          si := by
    rw [← hrm]
    rfl
  refine ⟨⟨G', fun t ht => ?_, hle, hdistinct.trans hiff⟩, ?_, ?_, ?_, ?_⟩
  · rw [hval, moveHeads_vCells]
    refine { hpok t ht with head_le := ?_ }
    rcases (moveHeads_vHeads _ si t).2 with heq | ⟨s, hs, rfl, heq⟩
    · rw [heq]
      exact (hpok t ht).head_le
    · -- the last cell of the slot is inside the stream
      rw [heq]
      rw [show si.nStream = slotSeqs kp u from hsi.strm_length] at hs
      have hne : si.idxsAt s ≠ [] := by
        intro he
        have hlen := hsi.length s hs
        rw [he] at hlen
        have hpos := UbatchOk.slotTokens_pos hu
        simp only [length_nil] at hlen
        omega
      have hlast : (si.idxsAt s).getLastD 0 ∈ si.idxsAt s := by
        rw [getLastD_eq_getLast?, getLast?_eq_some_getLast hne]
        exact getLast_mem hne
      exact hsi.idx_lt s hs _ hlast
  · intro t ht i hi hni
    rw [hval, moveHeads_vCells, hpcell t ht i hi, hplaced.off t i hni]
    rfl
  · intro x hx
    have hplace := hsi.placeOk hu hx
    rw [hval, moveHeads_vCells, hpcell x.1 hplace.stream_lt x.2.1 hplace.idx_lt, hplaced.at_place x hx]
    rfl
  · intro t hne
    rw [hval, (moveHeads_vHeads _ si t).1 hne, purge_vHeads]
    intro s hs heq
    obtain ⟨-, b, hb, hstream⟩ := hsi.evicted_stream hu h hs
    exact hne b hb (hstream ▸ heq)
  · intro hall
    have hassert : u.nTokens = si.nStream * si.size := by
      rw [hsi.size_eq hu, show si.nStream = slotSeqs kp u from hsi.strm_length]
      exact hu.blocks
    have hpurge := purge_asserts hok hge hlt
    rw [← hrm] at hpurge
    simp only [applyUbatch, bind_asserts, check_asserts, assert_asserts, pure_asserts, Bool.and_true,
      Bool.true_and, Bool.and_eq_true, decide_eq_true_eq]
    exact ⟨hassert, hasserts (hdistinct.mp hall), hpurge⟩

theorem Ok.findSlot (h : Ok kp G st) (hu : UbatchOk kp u)
    (hfind : (st.findSlot kp u cont).value = some si) : SlotOk kp st u cont si :=
  findSlot_spec (fun s => by
    rw [(h _ (kp.streamOf_lt s)).size]
    exact (h _ (kp.streamOf_lt s)).head_le) (UbatchOk.slotTokens_pos hu) hfind

end KvCache
