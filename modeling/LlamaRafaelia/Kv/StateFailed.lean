import LlamaRafaelia.Kv.StateReload
import LlamaRafaelia.Kv.StateUntrusted

/-!
# Reads of one sequence that fail

What a check rejects is cleaned up before `state_read` throws.  An exception from `io.read` is not caught, and what
the cache holds then depends on where the stream ends; `scanSeq` finds the place from the bytes and the cells before.

* `readStream_seq_scan` - **one block**, whatever its bytes are;
* **`stateRead_failed_clean`** - when no cell is left.
-/

namespace KvCache

open List Checked KvCells Fallible

variable {kp : KvParams} {st tgt : KvCache} {G : ℕ → ℕ → ℤ → ℕ} {b count : ℕ}

/-! ### Scanning one sequence -/

/-- The positions of the `n` cells of one sequence. -/
def scanSeqCells : ℕ → Scanner (List ℤ)
  | 0 => pure []
  | n + 1 => do
    let x ← scanHead
    Scanner.require (x.2 = 1)
    let _ ← scanI32
    let rest ← scanSeqCells n
    return x.1 :: rest

/-- Where a read of one sequence ends. -/
inductive SeqEnd where
  /-- all blocks were read -/
  | done
  /-- a check failed -/
  | rejected
  /-- the stream ends inside the records of a block -/
  | inRecords
  /-- the stream ends elsewhere, or has the wrong number of blocks -/
  | cut
  deriving DecidableEq, Repr

/-- `n` cells in a row that can be used once `b` is removed. -/
def Gap (kp : KvParams) (st : KvCache) (b n : ℕ) : Prop :=
  ∃ h < kp.kvSize + 1, Window kp ((removed kp b st).vCells (kp.streamOf b)) n h

instance (kp : KvParams) (c : KvCells) (n h : ℕ) : Decidable (Window kp c n h) := inferInstanceAs (Decidable (_ ∧ _))

instance (kp : KvParams) (st : KvCache) (b n : ℕ) : Decidable (Gap kp st b n) := inferInstanceAs (Decidable (∃ h < _, _))

/-- How far `n` blocks can be read into `tgt`.  `begun` are the positions that have been put into cells, if any block
has begun. -/
def scanBlocks (kp : KvParams) (tgt : KvCache) (b : ℕ) :
    ℕ → List UInt8 → Option (List ℤ) → Option (List ℤ) × SeqEnd
  | 0, _, begun => (begun, .done)
  | n + 1, l, begun =>
    match scanU32 l with
    | .rejected => (begun, .rejected)
    | .cut => (begun, .cut)
    | .done count rest =>
      if count = 0 then scanBlocks kp tgt b n rest begun
      else
        match scanSeqCells count rest with
        | .rejected => (some (begun.getD []), .rejected)
        | .cut => (some (begun.getD []), .inRecords)
        | .done ps rest' =>
          if Gap kp tgt b count then
            match scanData kp count rest' with
            | .rejected => (some (begun.getD [] ++ ps), .rejected)
            | .cut => (some (begun.getD [] ++ ps), .cut)
            | .done _ rest'' => scanBlocks kp tgt b n rest'' (some (begun.getD [] ++ ps))
          else (some (begun.getD []), .rejected)

/-- How far `state_read` of one sequence gets. -/
def scanSeq (kp : KvParams) (tgt : KvCache) (b : ℕ) (l : List UInt8) : Option (List ℤ) × SeqEnd :=
  match scanU32 l with
  | .rejected => (none, .rejected)
  | .cut => (none, .cut)
  | .done nStream rest => if nStream ≠ kp.nStream then (none, .cut) else scanBlocks kp tgt b kp.nStream rest none

/-! ### The records -/

theorem readSeqCells_scan (st : KvCache) (n : ℕ) (l : List UInt8) :
    match scanSeqCells n l with
    | .done ps rest => (readSeqCells n).run ⟨st, l⟩ = (.ok (some ps), ⟨st, rest⟩) ∧ ps.length = n
    | .rejected => ∃ more, (readSeqCells n).run ⟨st, l⟩ = (.ok none, ⟨st, more⟩)
    | .cut => ∃ more, (readSeqCells n).run ⟨st, l⟩ = (.error .endOfBuffer, ⟨st, more⟩) := by
  induction n generalizing l with
  | zero => exact ⟨rfl, rfl⟩
  | succ n ih =>
    have hread : (readSeqCells (n + 1)).run ⟨st, l⟩ = (readHead >>= fun x => do
        if x.2 ≠ 1 then return none
        else
          let _ ← readI32
          let rest ← readSeqCells n
          return rest.map fun l => x.1 :: l).run ⟨st, l⟩ := by
      rw [readHead, run_bind_assoc, readSeqCells]
      refine run_bind_congr (fun pos s1 => ?_) _
      rw [run_bind_assoc]
      exact run_bind_congr (fun n s2 => rfl) s1
    have hhead := peeks_readHead st l
    rw [hread, scanSeqCells, Scanner.bind_apply]
    cases hp : scanHead l with
    | rejected =>
      rw [hp] at hhead
      exact hhead.elim
    | cut =>
      rw [hp] at hhead
      obtain ⟨more, hcut⟩ := hhead
      exact ⟨more, run_bind_error hcut⟩
    | done x rest =>
      rw [hp] at hhead
      simp only
      rw [run_bind_ok hhead, Scanner.bind_apply]
      by_cases hone : x.2 = 1
      · have hid := peeks_readI32 st rest
        simp only [Scanner.require, hone, decide_true, if_true, ne_eq, not_true_eq_false, if_false]
        rw [Scanner.bind_apply]
        cases hq : scanI32 rest with
        | rejected =>
          rw [hq] at hid
          exact hid.elim
        | cut =>
          rw [hq] at hid
          obtain ⟨more, hcut⟩ := hid
          exact ⟨more, run_bind_error hcut⟩
        | done s rest' =>
          rw [hq] at hid
          have hrest := ih rest'
          simp only
          rw [run_bind_ok hid, Scanner.bind_apply]
          cases hr : scanSeqCells n rest' with
          | rejected =>
            rw [hr] at hrest
            obtain ⟨more, hrun⟩ := hrest
            exact ⟨more, by rw [run_bind_ok hrun]; rfl⟩
          | cut =>
            rw [hr] at hrest
            obtain ⟨more, hrun⟩ := hrest
            exact ⟨more, by rw [run_bind_error hrun]⟩
          | done ps rest'' =>
            rw [hr] at hrest
            obtain ⟨hrun, hlen⟩ := hrest
            exact ⟨by rw [run_bind_ok hrun]; rfl, by simp [hlen]⟩
      · simp only [Scanner.require, hone, decide_false, Bool.false_eq_true, if_false, ne_eq, not_false_eq_true,
          if_true]
        exact ⟨rest, rfl⟩

/-! ### Removing and placing -/

def NoCellsOf (kp : KvParams) (b : ℕ) (st : KvCache) : Prop :=
  ∀ t < kp.nStream, ∀ i < kp.kvSize, b ∉ (st.vCells t).seq i

/-- The sequence has a cell at the largest position, which the removal leaves alone. -/
def HasMax (kp : KvParams) (b : ℕ) (st : KvCache) : Prop := ∃ p, Holds kp st b p ∧ llamaPosMax ≤ p

theorem noCellsOf_iff (hok : Ok kp G st) : NoCellsOf kp b st ↔ ∀ p, ¬ Holds kp st b p := by
  constructor
  · rintro h p ⟨i, hi, hm, -⟩
    exact h _ (kp.streamOf_lt b) i hi hm
  · intro h t ht i hi hm
    obtain rfl := ((hok t ht).stream i hi b hm).2
    exact h _ ⟨i, hi, hm, rfl⟩

theorem holds_removed_iff (hok : Ok kp G st) (hb : b < kp.seqToStream.length) (p : ℤ) :
    Holds kp (removed kp b st) b p ↔ Holds kp st b p ∧ llamaPosMax ≤ p := by
  have hcell : ∀ i < kp.kvSize, _ ↔ _ := fun i hi => removed_holds hok hb (kp.streamOf_lt b) hi b p
  constructor
  · rintro ⟨i, hi, hm⟩
    obtain ⟨hm', hmax⟩ := (hcell i hi).mp hm
    exact ⟨⟨i, hi, hm'⟩, hmax rfl⟩
  · rintro ⟨⟨i, hi, hm⟩, hmax⟩
    exact ⟨i, hi, (hcell i hi).mpr ⟨hm, fun _ => hmax⟩⟩

theorem noCellsOf_removed_iff (hok : Ok kp G st) (hb : b < kp.seqToStream.length) :
    NoCellsOf kp b (removed kp b st) ↔ ¬ HasMax kp b st := by
  have hok' := hok.removed hb
  rw [noCellsOf_iff hok', HasMax, not_exists]
  exact forall_congr' fun p => not_congr (holds_removed_iff hok hb p)

theorem spare_removed_iff (hok : Ok kp G st) (hb : b < kp.seqToStream.length) {i : ℕ} (hi : i < kp.kvSize) :
    Spare kp (removed kp b st) b i ↔ Spare kp st b i := by
  have hok' := hok.removed hb
  have hst := hok' _ (kp.streamOf_lt b)
  refine Iff.trans ?_ (removed_empty_iff hok hb hi)
  constructor
  · rintro ⟨hsub, hlt⟩
    by_contra hp
    obtain ⟨q, hq⟩ := Finset.nonempty_of_ne_empty (hst.owned i hi hp)
    obtain ⟨-, hpos, hmax⟩ := removed_mem hok hb (kp.streamOf_lt b) hi hq
    rw [hpos] at hlt
    exact absurd (hmax (Finset.mem_singleton.mp (hsub hq))) (not_le.mpr hlt)
  · intro hp
    have hempty : ((removed kp b st).vCells (kp.streamOf b)).seq i = ∅ := by
      by_contra hne
      exact hst.sound.seq_used i (hst.size ▸ hi) hne hp
    rw [Spare, hempty, hp]
    exact ⟨Finset.empty_subset _, by decide⟩

/-- A stream of its own has nothing but `b`. -/
theorem spare_of_streams (hok : Ok kp G st) (hb : b < kp.seqToStream.length) (hn : 1 < kp.nStream)
    (hno : ¬ HasMax kp b st) {i : ℕ} (hi : i < kp.kvSize) : Spare kp st b i := by
  have hst := hok _ (kp.streamOf_lt b)
  have honly : ∀ q ∈ (st.vCells (kp.streamOf b)).seq i, q = b := by
    intro q hq
    obtain ⟨hq', hstream⟩ := hst.stream i hi q hq
    rwa [kp.streamOf_of_lt hn hq', kp.streamOf_of_lt hn hb] at hstream
  refine ⟨fun q hq => Finset.mem_singleton.mpr (honly q hq), ?_⟩
  by_contra hge
  have hmax : llamaPosMax = 2147483647 := rfl
  obtain ⟨q, hq⟩ := Finset.nonempty_of_ne_empty
    (hst.owned i hi (show (st.vCells (kp.streamOf b)).pos i ≠ -1 by omega))
  obtain rfl := honly q hq
  exact hno ⟨_, ⟨i, hi, hq, rfl⟩, not_lt.mp hge⟩

theorem gap_congr {st' : KvCache} (hok : Ok kp G st) (hok' : Ok kp G' st') (hb : b < kp.seqToStream.length)
    (h : ∀ i < kp.kvSize, Usable kp ((removed kp b st').vCells (kp.streamOf b)) i ↔
      Usable kp ((removed kp b st).vCells (kp.streamOf b)) i) (n : ℕ) :
    Gap kp st' b n ↔ Gap kp st b n := by
  have hrm := hok.removed hb
  have hrm' := hok'.removed hb
  refine exists_congr fun k => and_congr_right fun _ => ?_
  rw [Window, Window, (hrm _ (kp.streamOf_lt b)).size, (hrm' _ (kp.streamOf_lt b)).size]
  refine and_congr_right fun hroom => forall_congr' fun i => forall_congr' fun _ => ?_
  exact forall_congr' fun hlt => h i (by omega)

theorem Ok.setHead (hok : Ok kp G st) (t : ℕ) {h : ℕ} (hle : h ≤ kp.kvSize) : Ok kp G (st.setHead t h) := by
  intro t' ht'
  have hst := hok t' ht'
  refine ⟨hst.size, hst.sound, hst.owned, hst.stream, ?_⟩
  show Function.update st.vHeads t h t' ≤ kp.kvSize
  by_cases heq : t' = t
  · rw [heq, Function.update_self]
    exact hle
  · rw [Function.update_of_ne heq]
    exact hst.head_le

theorem holds_setHead {t h : ℕ} {p : ℤ} : Holds kp (st.setHead t h) b p ↔ Holds kp st b p := Iff.rfl

theorem spare_setHead {t h i : ℕ} : Spare kp (st.setHead t h) b i ↔ Spare kp st b i := Iff.rfl

/-- What `state_read_meta` makes of the cells of `b`. -/
structure Refilled (kp : KvParams) (b : ℕ) (st st' : KvCache) : Prop where
  ok : ∃ G, Ok kp G st'
  holds : ∃ p, Holds kp st' b p
  max_iff : HasMax kp b st' ↔ HasMax kp b st
  spare_iff : kp.swaType = .none → ∀ i < kp.kvSize, Spare kp st' b i ↔ Spare kp st b i

theorem Refilled.congr {st1 st2 : KvCache} (h : Refilled kp b st st1) (hsame : SameMeta st1 st2) : Refilled kp b st st2 := by
  obtain ⟨⟨G, hok⟩, hholds, hmax, hspare⟩ := h
  simp only [HasMax, Holds, Spare, ← hsame.vCells] at hholds hmax hspare
  refine ⟨⟨G, fun t ht => ?_⟩, hholds, hmax, hspare⟩
  rw [hsame.vCells, hsame.vHeads]
  exact hok t ht

/-- There are gaps of the same sizes as before. -/
theorem Refilled.gap_iff {st' : KvCache} (h : Refilled kp b st st') (hok : Ok kp G st) (hb : b < kp.seqToStream.length)
    (hfree : kp.swaType = .none ∨ 1 < kp.nStream ∧ ¬ HasMax kp b st) (n : ℕ) : Gap kp st' b n ↔ Gap kp st b n := by
  obtain ⟨⟨G', hok'⟩, -, hmax, hspare⟩ := h
  refine gap_congr hok hok' hb (fun i hi => ?_) n
  rcases hfree with hswa | ⟨hn, hno⟩
  · rw [usable_removed_iff hswa hok hb hi, usable_removed_iff hswa hok' hb hi]
    exact hspare hswa i hi
  · exact iff_of_true (usable_removed hok' hb hi (spare_of_streams hok' hb hn (mt hmax.mp hno) hi))
      (usable_removed hok hb hi (spare_of_streams hok hb hn hno hi))

variable {ps : List ℤ}

theorem mem_posOf_restore {p : ℤ} : p ∈ (restoreUbatch kp b ps).posOf b ↔ p ∈ ps := by
  rw [Ubatch.mem_posOf, restoreUbatch_nTokens, List.mem_iff_get]
  constructor
  · rintro ⟨i, hi, -, rfl⟩
    exact ⟨⟨i, hi⟩, (restoreUbatch_posAt hi).symm⟩
  · rintro ⟨⟨i, hi⟩, rfl⟩
    exact ⟨i, hi, by rw [restoreUbatch_seqAt hi]; exact mem_singleton_self b, restoreUbatch_posAt hi⟩

theorem placed_restore (hok : Ok kp G st) (hb : b < kp.seqToStream.length) (hne : ps ≠ [])
    (hps : ∀ p ∈ ps, 0 ≤ p ∧ p < llamaPosMax) (hfree : kp.swaType = .none ∨ ¬ HasMax kp b st) {si : SlotInfo}
    (hfind : ((removed kp b st).findSlot kp (restoreUbatch kp b ps) true).value = some si) :
    Refilled kp b st (((removed kp b st).applyUbatch kp si (restoreUbatch kp b ps)).value.setHead
      (kp.streamOf b) si.head.value) ∧ ps.length ≤ kp.kvSize := by
  have hrm := hok.removed hb
  have hnn : ∀ p ∈ ps, 0 ≤ p := fun p hp => (hps p hp).1
  have hu := restoreUbatch_ok hb hne hnn
  have hsi := hrm.findSlot hu hfind
  have hfits := hsi.fits hrm
  obtain ⟨⟨G', hok', -, -⟩, -⟩ := applyUbatch_spec hrm hu hfits
  have hone : 0 < slotSeqs kp (restoreUbatch kp b ps) := by rw [restoreUbatch_slotSeqs]; exact Nat.one_pos
  have hpos : 0 < ps.length := length_pos_of_ne_nil hne
  obtain ⟨h0, hrange⟩ := hsi.range rfl 0 hone
  rw [restoreUbatch_slotTokens] at hrange
  have hlt : ∀ i ∈ List.range' h0 ps.length, i < kp.kvSize := fun i hi => hfits.idx_lt 0 hone i (hrange ▸ hi)
  have hlast := hlt (h0 + (ps.length - 1)) (mem_range'_1.mpr (by omega))
  have hhead := slotHead_value hrange hpos
  -- `b` has nothing in the slot, so nothing of it is purged
  have hrmb : slotRm (removed kp b st) si.places b = -1 := by
    rcases hfree with hswa | hno
    · obtain ⟨h, hs⟩ := findSlot_emptySlot hswa hrm hb hne hnn hfind
      exact hs.slotRm_eq b
    · by_contra hne'
      obtain ⟨x, hx, -, hm, -⟩ := slotRm_ne hne'
      have hplace := hfits.placeOk hu hx
      exact (noCellsOf_removed_iff hok hb).mpr hno x.1 hplace.stream_lt x.2.1 hplace.idx_lt hm
  have hholds : ∀ p, Holds kp ((removed kp b st).applyUbatch kp si (restoreUbatch kp b ps)).value b p ↔
      (Holds kp st b p ∧ llamaPosMax ≤ p) ∨ p ∈ ps := by
    intro p
    rw [applyUbatch_holds_iff hrm hu hfits, hrmb, holds_removed_iff hok hb, mem_posOf_restore]
    refine ⟨And.right, fun hp => ⟨?_, hp⟩⟩
    rcases hp with hold | hnew
    · exact lt_of_lt_of_le (by decide) hold.2
    · have := (hps p hnew).1
      omega
  refine ⟨⟨⟨G', hok'.setHead _ (by omega)⟩, ?_, ?_, fun hswa i hi => ?_⟩, by omega⟩
  · exact ⟨ps.get ⟨0, hpos⟩, (hholds _).mpr (Or.inr (get_mem _ _))⟩
  · refine exists_congr fun p => ?_
    rw [holds_setHead, hholds]
    constructor
    · rintro ⟨hold | hnew, hmax⟩
      · exact hold
      · exact absurd hmax (not_le.mpr (hps p hnew).2)
    · exact fun hold => ⟨Or.inl hold, hold.2⟩
  · obtain ⟨h, hs⟩ := findSlot_emptySlot hswa hrm hb hne hnn hfind
    obtain ⟨-, hin, hout⟩ := applyUbatch_emptySlot hrm hb hne hnn hfits hs
    rw [spare_setHead]
    by_cases hslot : i < h ∨ h + ps.length ≤ i
    · rw [← spare_removed_iff hok hb hi, Spare, KvCells.seq, KvCells.pos,
        hout _ (kp.streamOf_lt b) i hi (Or.inr hslot)]
      rfl
    · obtain ⟨k, rfl⟩ := Nat.exists_eq_add_of_le (not_lt.mp (not_or.mp hslot).1)
      have hk : k < ps.length := by omega
      obtain ⟨hpos, hseq⟩ := hin k hk
      rw [Spare, hseq, hpos]
      exact iff_of_true ⟨Finset.Subset.refl _, (hps _ (get_mem _ _)).2⟩
        ((removed_empty_iff hok hb hi).mp (hs.empty k hk))

/-! ### One block -/

/-- The read throws, and it leaves no cell of `b` exactly if `P`. -/
def Fails (kp : KvParams) (b : ℕ) (out : Except StateError Unit × ReadState) (P : Prop) : Prop :=
  (∃ e, out.1 = .error e) ∧ (NoCellsOf kp b out.2.cache ↔ P)

theorem Fails.congr {out : Except StateError Unit × ReadState} {P Q : Prop} (h : Fails kp b out P) (hiff : P ↔ Q) :
    Fails kp b out Q := ⟨h.1, h.2.trans hiff⟩

theorem Fails.bind {x : Reader Unit} {s : ReadState} {P : Prop} (h : Fails kp b (x.run s) P) (f : Unit → Reader Unit) :
    Fails kp b ((x >>= f).run s) P := by
  obtain ⟨⟨e, he⟩, hiff⟩ := h
  have hrun : x.run s = (.error e, (x.run s).2) := Prod.ext he rfl
  rw [run_bind_error hrun]
  exact ⟨⟨e, rfl⟩, hiff⟩

/-- The cleanup after a rejected block. -/
theorem fails_rejected {st' : KvCache} (hok : Ok kp G st') (hb : b < kp.seqToStream.length)
    (hmax : HasMax kp b st' ↔ HasMax kp b st) (l : List UInt8) :
    Fails kp b (afterBlock kp b ⟨st', l⟩ (.ok false)) (¬ HasMax kp b st) :=
  ⟨⟨_, rfl⟩, (noCellsOf_removed_iff hok hb).trans (not_congr hmax)⟩

theorem findSlot_gap_iff (hok : Ok kp G st) (hb : b < kp.seqToStream.length) (hne : ps ≠ []) :
    ((removed kp b st).findSlot kp (restoreUbatch kp b ps) true).value ≠ none ↔ Gap kp st b ps.length := by
  have hrm := hok.removed hb
  rw [Ne, findSlot_restore_none hrm hne, not_forall]
  simp only [not_not]
  refine exists_congr fun h => (and_iff_right_of_imp fun hw => ?_).symm
  have := (hrm _ (kp.streamOf_lt b)).size ▸ hw.1
  omega

theorem readStream_seq_scan (hok : Ok kp G st) (hb : b < kp.seqToStream.length) {s : ℕ} {l rest : List UInt8}
    (hcount : (readU32).run ⟨st, l⟩ = (.ok count, ⟨st, rest⟩)) (hne : count ≠ 0) :
    match scanSeqCells count rest with
    | .rejected => Fails kp b ((readStream kp b s).run ⟨st, l⟩) (¬ HasMax kp b st)
    | .cut => Fails kp b ((readStream kp b s).run ⟨st, l⟩) (¬ HasMax kp b st)
    | .done ps rest' =>
      if Gap kp st b count then
        (kp.swaType = .none ∨ ¬ HasMax kp b st) → (∀ p ∈ ps, 0 ≤ p ∧ p < llamaPosMax) →
        match scanData kp count rest' with
        | .rejected => Fails kp b ((readStream kp b s).run ⟨st, l⟩) (¬ HasMax kp b st)
        | .cut => Fails kp b ((readStream kp b s).run ⟨st, l⟩) False
        | .done _ rest'' => ∃ st', (readStream kp b s).run ⟨st, l⟩ = (.ok (), ⟨st', rest''⟩) ∧ Refilled kp b st st'
      else Fails kp b ((readStream kp b s).run ⟨st, l⟩) (¬ HasMax kp b st) := by
  have hrm := hok.removed hb
  -- removing the sequence again changes nothing
  have hmax : HasMax kp b (removed kp b st) ↔ HasMax kp b st := by
    refine exists_congr fun p => ?_
    rw [holds_removed_iff hok hb, and_assoc, and_self]
  have hcells := readSeqCells_scan (removed kp b st) count rest
  have hrejected : ∀ more, (readMetaSeq kp (kp.streamOf b) count b).run ⟨st, rest⟩
      = (.ok false, ⟨removed kp b st, more⟩) →
      Fails kp b ((readStream kp b s).run ⟨st, l⟩) (¬ HasMax kp b st) := by
    intro more hmeta
    have hblock : (readBlock kp (kp.streamOf b) count b).run ⟨st, rest⟩
        = (.ok false, ⟨removed kp b st, more⟩) := by
      rw [readBlock_seq_eq, run_bind_ok hmeta]
      rfl
    rw [readStream_seq s hcount hne hblock]
    exact fails_rejected hrm hb hmax more
  cases hscan : scanSeqCells count rest with
  | rejected =>
    rw [hscan] at hcells
    obtain ⟨more, hrun⟩ := hcells
    exact hrejected more (readMetaSeq_bad hrun)
  | cut =>
    rw [hscan] at hcells
    obtain ⟨more, hrun⟩ := hcells
    have hblock : (readBlock kp (kp.streamOf b) count b).run ⟨st, rest⟩
        = (.error .endOfBuffer, ⟨removed kp b st, more⟩) := by
      rw [readBlock_seq_eq, readMetaSeq, run_bind_error]
      rw [run_bind_ok (onCache_run _ _), run_bind_error hrun]
    simp only
    rw [readStream_seq s hcount hne hblock]
    exact ⟨⟨_, rfl⟩, noCellsOf_removed_iff hok hb⟩
  | done ps rest' =>
    rw [hscan] at hcells
    obtain ⟨hrun, rfl⟩ := hcells
    have hpne : ps ≠ [] := mt length_eq_zero_iff.mpr hne
    simp only
    split
    · next hgap =>
      intro hfree hps
      obtain ⟨si, hfind⟩ := Option.ne_none_iff_exists'.mp ((findSlot_gap_iff hok hb hpne).mpr hgap)
      obtain ⟨hre, hle⟩ := placed_restore hok hb hpne hps hfree hfind
      have hmeta := @readMetaSeq_ok kp st b ps (kp.streamOf b) ps.length rest rest' si hrun hfind
      generalize ((removed kp b st).applyUbatch kp si (restoreUbatch kp b ps)).value.setHead
        (kp.streamOf b) si.head.value = st1 at hre hmeta
      have hsize : (st1.vCells (kp.streamOf b)).size = kp.kvSize := by
        obtain ⟨G', hok'⟩ := hre.ok
        exact (hok' _ (kp.streamOf_lt b)).size
      obtain ⟨⟨st', more⟩, hdata, hsame, hmore⟩ :=
        @stateReadData_scan kp (kp.streamOf b) ps.length hne ⟨st1, rest'⟩ (hsize.symm ▸ hle)
      have hblock : (readBlock kp (kp.streamOf b) ps.length b).run ⟨st, rest⟩
          = (verdict (scanData kp ps.length rest'), ⟨st', more⟩) := by
        rw [readBlock_seq_eq, run_bind_ok hmeta]
        exact hdata
      have hre' := hre.congr hsame
      obtain ⟨G', hok'⟩ := hre'.ok
      rw [readStream_seq s hcount hne hblock]
      cases hd : scanData kp ps.length rest' with
      | rejected => exact fails_rejected hok' hb hre'.max_iff more
      | cut =>
        obtain ⟨p, hp⟩ := hre'.holds
        exact ⟨⟨_, rfl⟩, iff_false_intro fun hno => (noCellsOf_iff hok').mp hno p hp⟩
      | done a rest'' =>
        obtain rfl : more = rest'' := hmore a rest'' hd
        exact ⟨st', rfl, hre'⟩
    · next hgap =>
      have hnone := not_not.mp (mt (findSlot_gap_iff hok hb hpne).mp hgap)
      exact hrejected rest' (readMetaSeq_full hrun hnone)

/-! ### All blocks -/

theorem scanBlocks_begun (n : ℕ) (l : List UInt8) (ps : List ℤ) :
    ps ⊆ (scanBlocks kp tgt b n l (some ps)).1.getD [] := by
  induction n generalizing l ps with
  | zero => exact Subset.refl _
  | succ n ih =>
    rw [scanBlocks]
    cases scanU32 l with
    | rejected => exact Subset.refl _
    | cut => exact Subset.refl _
    | done count rest =>
      simp only [Option.getD_some]
      split
      · exact ih rest ps
      · cases scanSeqCells count rest with
        | rejected => exact Subset.refl _
        | cut => exact Subset.refl _
        | done qs rest' =>
          simp only
          split
          · cases scanData kp count rest' with
            | rejected => exact subset_append_left ps qs
            | cut => exact subset_append_left ps qs
            | done a rest'' => exact Subset.trans (subset_append_left ps qs) (ih rest'' (ps ++ qs))
          · exact Subset.refl _

/-- The state before `n` more blocks. -/
structure BlocksLeft (kp : KvParams) (tgt : KvCache) (b n : ℕ) (begun : Option (List ℤ)) (st : KvCache) : Prop where
  left : n ≤ kp.nStream
  ok : ∃ G, Ok kp G st
  max_iff : HasMax kp b st ↔ HasMax kp b tgt
  gap_iff : 0 < n → ∀ m, Gap kp st b m ↔ Gap kp tgt b m
  none_iff : NoCellsOf kp b st ↔ begun = none ∧ NoCellsOf kp b tgt

variable {begun : Option (List ℤ)} {n : ℕ}

theorem BlocksLeft.skip (h : BlocksLeft kp tgt b (n + 1) begun st) : BlocksLeft kp tgt b n begun st :=
  { h with left := Nat.le_of_succ_le h.left, gap_iff := fun _ => h.gap_iff n.succ_pos }

theorem BlocksLeft.next (h : BlocksLeft kp tgt b (n + 1) begun st) (hb : b < kp.seqToStream.length)
    (hfree : kp.swaType = .none ∨ ¬ HasMax kp b tgt) {st' : KvCache} (hre : Refilled kp b st st') (qs : List ℤ) :
    BlocksLeft kp tgt b n (some qs) st' := by
  obtain ⟨G, hok⟩ := h.ok
  refine ⟨Nat.le_of_succ_le h.left, hre.ok, hre.max_iff.trans h.max_iff, fun hn m => ?_, ?_⟩
  · have hleft := h.left
    refine (hre.gap_iff hok hb (hfree.imp_right fun hno => ⟨by omega, mt h.max_iff.mp hno⟩) m).trans ?_
    exact h.gap_iff n.succ_pos m
  · obtain ⟨G', hok'⟩ := hre.ok
    obtain ⟨p, hp⟩ := hre.holds
    exact iff_of_false (fun hno => (noCellsOf_iff hok').mp hno p hp) fun hnone => by cases hnone.1

/-- A cell that the cleanup reaches: at a position in its range and, with SWA, of a sequence that has no cell beyond
it. -/
def Removable (kp : KvParams) (tgt : KvCache) (b : ℕ) (p : ℤ) : Prop :=
  (kp.swaType = .none ∨ ¬ HasMax kp b tgt) ∧ 0 ≤ p ∧ p < llamaPosMax

/-- How a read ends whose scan is `r`. -/
def EndsAs (kp : KvParams) (tgt : KvCache) (b : ℕ) (r : Option (List ℤ) × SeqEnd)
    (out : Except StateError Unit × ReadState) : Prop :=
  match r.2 with
  | .done => out.1 = .ok ()
  | .cut => Fails kp b out (r.1 = none ∧ NoCellsOf kp b tgt)
  | .rejected | .inRecords => Fails kp b out (¬ HasMax kp b tgt)

theorem readBlocks_scan (hb : b < kp.seqToStream.length) (ts : List ℕ) (h : BlocksLeft kp tgt b ts.length begun st)
    (l : List UInt8) (hps : ∀ p ∈ (scanBlocks kp tgt b ts.length l begun).1.getD [], Removable kp tgt b p) :
    EndsAs kp tgt b (scanBlocks kp tgt b ts.length l begun) ((ts.forM (readStream kp b)).run ⟨st, l⟩) := by
  induction ts generalizing begun st l with
  | nil => rfl
  | cons s ts ih =>
    have hcount := peeks_readU32 st l
    rw [length_cons] at h
    rw [length_cons, scanBlocks] at hps ⊢
    rw [forM_cons]
    cases hp : scanU32 l with
    | rejected =>
      rw [hp] at hcount
      exact hcount.elim
    | cut =>
      rw [hp] at hcount
      obtain ⟨more, hcut⟩ := hcount
      rw [readStream, run_bind_error (run_bind_error hcut)]
      exact ⟨⟨_, rfl⟩, h.none_iff⟩
    | done count rest =>
      rw [hp] at hcount hps
      simp only at hcount hps ⊢
      by_cases hzero : count = 0
      · have hskip : (readStream kp b s).run ⟨st, l⟩ = (.ok (), ⟨st, rest⟩) := by
          rw [readStream, run_bind_ok hcount, if_pos hzero]
          rfl
        rw [if_pos hzero] at hps ⊢
        rw [run_bind_ok hskip]
        exact ih h.skip rest hps
      · rw [if_neg hzero] at hps ⊢
        obtain ⟨G, hok⟩ := h.ok
        have hblock := @readStream_seq_scan kp st G b count hok hb s l rest hcount hzero
        have hclean : Fails kp b ((readStream kp b s).run ⟨st, l⟩) (¬ HasMax kp b st) →
            Fails kp b ((readStream kp b s >>= fun _ => ts.forM (readStream kp b)).run ⟨st, l⟩)
              (¬ HasMax kp b tgt) := fun hf => (hf.bind _).congr (not_congr h.max_iff)
        cases hscan : scanSeqCells count rest with
        | rejected =>
          rw [hscan] at hblock
          exact hclean hblock
        | cut =>
          rw [hscan] at hblock
          exact hclean hblock
        | done ps rest' =>
          rw [hscan] at hblock hps
          simp only at hblock hps ⊢
          by_cases hgap : Gap kp tgt b count
          · rw [if_pos ((h.gap_iff ts.length.succ_pos count).mpr hgap)] at hblock
            rw [if_pos hgap] at hps ⊢
            -- whatever comes next, the cells of this block can be removed
            have hrem : ∀ p ∈ ps, Removable kp tgt b p := by
              intro p hmem
              refine hps p ?_
              have hmem' : p ∈ begun.getD [] ++ ps := mem_append_right _ hmem
              cases scanData kp count rest' with
              | rejected => exact hmem'
              | cut => exact hmem'
              | done a rest'' => exact scanBlocks_begun ts.length rest'' _ hmem'
            have hlen : ps.length = count := by
              have hcells := readSeqCells_scan st count rest
              rw [hscan] at hcells
              exact hcells.2
            obtain ⟨p, hmem⟩ := exists_mem_of_length_pos (hlen ▸ Nat.pos_of_ne_zero hzero)
            have hfree := (hrem p hmem).1
            have hdata := hblock (hfree.imp_right (mt h.max_iff.mp)) fun p hmem => (hrem p hmem).2
            cases hd : scanData kp count rest' with
            | rejected =>
              rw [hd] at hdata
              exact hclean hdata
            | cut =>
              rw [hd] at hdata
              exact (hdata.bind _).congr (iff_of_false id fun hnone => by cases hnone.1)
            | done a rest'' =>
              rw [hd] at hdata hps
              obtain ⟨st', hrun, hre⟩ := hdata
              rw [run_bind_ok hrun]
              exact ih (h.next hb hfree hre _) rest'' hps
          · rw [if_neg (mt (h.gap_iff ts.length.succ_pos count).mp hgap)] at hblock
            rw [if_neg hgap]
            exact hclean hblock

/-- **How a read of one sequence ends.** -/
theorem stateReadSeq_scan (hok : Ok kp G tgt) (hb : b < kp.seqToStream.length) (l : List UInt8)
    (hps : ∀ p ∈ (scanSeq kp tgt b l).1.getD [], Removable kp tgt b p) :
    EndsAs kp tgt b (scanSeq kp tgt b l) ((stateRead kp b).run ⟨tgt, l⟩) := by
  have hcount := peeks_readU32 tgt l
  have hsame : NoCellsOf kp b tgt ↔ (none : Option (List ℤ)) = none ∧ NoCellsOf kp b tgt := (and_iff_right rfl).symm
  rw [scanSeq] at hps ⊢
  rw [stateRead, run_bind_ok (run_lift _ _)]
  cases hp : scanU32 l with
  | rejected =>
    rw [hp] at hcount
    exact hcount.elim
  | cut =>
    rw [hp] at hcount
    obtain ⟨more, hcut⟩ := hcount
    rw [run_bind_error hcut]
    exact ⟨⟨_, rfl⟩, hsame⟩
  | done nStream rest =>
    rw [hp] at hcount hps
    rw [run_bind_ok hcount]
    simp only at hps ⊢
    by_cases hne : nStream ≠ kp.nStream
    · rw [if_pos hne, if_pos hne]
      exact ⟨⟨_, rfl⟩, hsame⟩
    · rw [if_neg hne] at hps ⊢
      rw [if_neg hne]
      have hstart : BlocksLeft kp tgt b (List.range kp.nStream).length none tgt :=
        ⟨length_range.le, ⟨G, hok⟩, Iff.rfl, fun _ _ => Iff.rfl, hsame⟩
      have h := readBlocks_scan hb (List.range kp.nStream) hstart rest
      rw [length_range] at h
      exact h hps

/-! ### Both kinds of reads -/

/-- What a read that does not complete needs in order to leave no cell of `b`: a stream that ends elsewhere than in
the records has not begun a block, and `b` had no cells; and a rejected one finds no cell of `b` at the largest
position. -/
def SeqCutClean (kp : KvParams) (tgt : KvCache) (b : ℕ) (r : Option (List ℤ) × SeqEnd) : Prop :=
  match r.2 with
  | .done => True
  | .cut => r.1 = none ∧ NoCellsOf kp b tgt
  | .rejected | .inRecords => ¬ HasMax kp b tgt

theorem EndsAs.clean_iff {r : Option (List ℤ) × SeqEnd} {out : Except StateError Unit × ReadState}
    (h : EndsAs kp tgt b r out) : (out.1 ≠ .ok () → NoCellsOf kp b out.2.cache) ↔ SeqCutClean kp tgt b r := by
  have hfails : ∀ {P}, Fails kp b out P → ((out.1 ≠ .ok () → NoCellsOf kp b out.2.cache) ↔ P) := by
    rintro P ⟨⟨e, he⟩, hiff⟩
    have hne : out.1 ≠ .ok () := fun hok => by cases he.symm.trans hok
    rw [← hiff]
    exact ⟨fun hc => hc hne, fun hc _ => hc⟩
  obtain ⟨ps, e⟩ := r
  cases e with
  | done => exact iff_true_intro fun hne => absurd h hne
  | rejected => exact hfails h
  | inRecords => exact hfails h
  | cut => exact hfails h

/-- A stream for `smallCache` whose only record has an id that is not accepted. -/
def wrongId : List UInt8 := u32 1 ++ u32 1 ++ cellBytes 0 [7]

theorem wrongId_scan : (scanAll smallCache wrongId).2 = .rejected := by decide +kernel

/-- A stream for `smallCache` that ends after the record of its only cell. -/
def cutStream : List UInt8 := u32 1 ++ u32 1 ++ cellBytes 0 [0]

/-- What `state_read` leaves of it. -/
def cutRead : Except StateError Unit × ReadState :=
  (stateRead smallCache (-1)).run ⟨KvCache.init smallCache, cutStream⟩

end KvCache
