import LlamaRafaelia.Kv.Reach
import LlamaRafaelia.Kv.Window

/-!
# What holds in every run of the KV cache

The results on single calls, for every state that the operations reach, and a small run for each condition that shows
what happens without it.
-/

def Ubatch.single (pos : ℤ) (s : ℕ) : Ubatch where
  bEqualSeqs := false
  nTokens := 1
  nSeqTokens := 1
  nSeqs := 1
  nPos := 1
  token := some [0]
  pos := [pos]
  seqId := [[s]]
  seqIdUnq := [s]
  seqIdx := BatchAllocr.seqIdx [s]
  output := [true]

namespace KvCache

open Checked KvCells BatchAllocr Ubatch KvCache

/-- Decoding a whole batch in ubatches of at most `nUbatch` tokens. -/
def DecodeArgs.whole (b : Batch) (nUbatch : ℕ) : DecodeArgs where
  batch := b
  nVocab := 1
  nUbatch := nUbatch
  outputAll := false
  shifted := none
  nDone := b.nTokens
  kData := fun _ _ _ => 0
  vData := fun _ _ _ => 0

/-! ### Assertions and consistency -/

/-- **Safe runs.**  In every state that a safe run reaches the cells of all streams are consistent, and the
next safe operation meets every assertion of the cells. -/
theorem safeRun_consistent_asserts (kp : KvParams) (st : KvCache) (h : SafeRun kp st) :
    (∀ t < kp.nStream, (st.vCells t).Consistent) ∧
      ∀ op : Op, op.Safe kp st → (st.step kp op).checks = true → (st.step kp op).asserts = true :=
  ⟨fun t ht => (consistent_iff_sound).mpr (safeRun_ok h t ht).sound,
    fun op hsafe hc => (step_safe (safeRun_ok h) op hsafe hc).1⟩

def smallCache : KvParams where
  unified := true
  kvSize := 2
  nSeqMax := 2
  nSwa := 0
  swaType := .none
  nPosPerEmbd := 1
  vTrans := false
  layers := []
  nPosPerEmbd_pos := by decide
  nSeqMax_pos := by decide
  nSeqMax_le := by decide
  kvSize_lt := by decide
  layers_lt := by decide

def oneToken : DecodeArgs := .whole (.text [0] [[0]] rfl) 1

theorem oneToken_placed (kp : KvParams) (st : KvCache) : (Op.decode oneToken).Placed kp st := by
  intro a ha i hi
  obtain ⟨-, -, -, rfl⟩ := BatchAllocr.init_ok ha
  have hi' : i < 1 := hi
  obtain rfl : i = 0 := by omega
  exact ⟨List.cons_ne_nil 0 [], le_rfl⟩

theorem safeRun_consistent_asserts_token :
    SafeRun smallCache (((init smallCache).step smallCache (.decode oneToken)).value) ∧
      ((((init smallCache).step smallCache (.decode oneToken)).value).vCells 0).Consistent := by
  have hsafe : (Op.decode oneToken).Safe smallCache (init smallCache) := by
    intro a ha
    refine ⟨oneToken_placed _ _ a ha, fun i hi => ?_, fun t _ i _ => ?_⟩
    · obtain ⟨-, -, -, rfl⟩ := BatchAllocr.init_ok ha
      have hi' : i < 1 := hi
      obtain rfl : i = 0 := by omega
      exact List.nodup_singleton 0
    · show ((((init smallCache).update smallCache none).vCells t).cell i).shift = 0
      rcases @update_cell smallCache (init smallCache) none t with heq | heq
      · rw [heq]
        rfl
      · rw [heq]
        rfl
  have hrun := SafeRun.init.step (.decode oneToken) hsafe (by decide +kernel)
  exact ⟨hrun, (safeRun_consistent_asserts smallCache _ hrun).1 0 (by decide)⟩

/-- Copying sequence 0 to sequence 1 twice: the second copy adds a sequence that the cell already holds, and
`seq_pos` counts two positions for one cell. -/
theorem seqCp_twice_inconsistent :
    ∃ st, PlacedReach smallCache st ∧ (Op.seqCp 0 1 (-1) (-1)).Admissible ∧
      (st.step smallCache (.seqCp 0 1 (-1) (-1))).checks = true ∧
      (st.step smallCache (.seqCp 0 1 (-1) (-1))).asserts = false ∧
      ¬ ((st.step smallCache (.seqCp 0 1 (-1) (-1))).value.vCells 0).Consistent := by
  have htoken := PlacedReach.init.step (.decode oneToken) trivial (oneToken_placed smallCache (init smallCache))
    (by decide +kernel)
  have hcopy := htoken.step (.seqCp 0 1 (-1) (-1)) trivial trivial (by decide +kernel)
  refine ⟨_, hcopy, trivial, by decide +kernel, by decide +kernel, fun hcons => ?_⟩
  have htracks := hcons.tracks 1 (by decide) 0
  revert htracks
  decide +kernel

/-! ### `prepare` -/

/-- **When `prepare` leaves the cells as they were**, in every state of a run that places its tokens. -/
theorem reach_prepare_cells_iff (kp : KvParams) (st : KvCache) (h : PlacedReach kp st) (us : List Ubatch)
    (hus : ∀ u ∈ us, UbatchOk kp u) :
    SameCells kp st (st.prepare kp us).value.1 ↔ Restorable kp st [] us := by
  obtain ⟨G, hok⟩ := reach_ok h
  exact prepare_cells_iff kp G st hok us hus

def windowCache : KvParams where
  unified := true
  kvSize := 4
  nSeqMax := 2
  nSwa := 2
  swaType := .standard
  nPosPerEmbd := 1
  vTrans := false
  layers := []
  nPosPerEmbd_pos := by decide
  nSeqMax_pos := by decide
  nSeqMax_le := by decide
  kvSize_lt := by decide
  layers_lt := by decide

/-- Four tokens of sequence 0, the first of which is also in sequence 1. -/
def sharedStart : DecodeArgs := .whole (.text [0, 1, 2, 3] [[0, 1], [0], [0], [0]] rfl) 4

/-- The window cache filled by `sharedStart`. -/
def windowFull : KvCache := ((init windowCache).step windowCache (.decode sharedStart)).value

/-- One purge: the next token of sequence 0 takes the second cell, and sequence 1 is alone in the first. -/
example : let st := (windowFull.applyUbatch windowCache ⟨0, 0, [0], [[1]]⟩ (single 4 0)).value
    (List.range 4).map (fun i => (st.vCells 0).seq i) = [{1}, {0}, {0}, {0}] := by
  decide +kernel

theorem windowFull_reach : PlacedReach windowCache windowFull := by
  refine PlacedReach.init.step (.decode sharedStart) trivial (fun a ha i hi => ?_) (by decide +kernel)
  obtain ⟨-, -, -, rfl⟩ := BatchAllocr.init_ok ha
  have hi' : i < 4 := hi
  show ([[0, 1], [0], [0], [0]] : List (List ℕ)).getD i [] ≠ [] ∧ 0 ≤ ([0, 1, 2, 3] : List ℤ).getD i 0
  revert i
  decide

theorem single_ubatchOk {kp : KvParams} {p : ℤ} {s : ℕ} (hp : 0 ≤ p) (hs : s < kp.seqToStream.length) :
    UbatchOk kp (single p s) := by
  have hseqs : slotSeqs kp (single p s) = 1 := by
    unfold slotSeqs
    split <;> rfl
  have htok : slotTokens kp (single p s) = 1 := by
    rw [slotTokens, hseqs, Nat.div_one]
    rfl
  have hone : ∀ i < (single p s).nTokens, i = 0 := fun i hi => Nat.lt_one_iff.mp hi
  refine ⟨Nat.one_pos, List.nodup_singleton s, ?_, ?_, ?_, ?_, ?_, ?_⟩
  · intro q hq
    rwa [List.mem_singleton.mp hq]
  · rw [hseqs]
    exact le_rfl
  · rw [hseqs, htok]
    rfl
  · intro i hi
    rw [hone i hi]
    exact hp
  · intro i hi
    rw [hone i hi]
    exact List.cons_ne_nil s []
  · intro b hb ii hii q hq
    rw [hseqs] at hb
    rw [htok] at hii hq
    obtain rfl : b = 0 := by omega
    obtain rfl : ii = 0 := by omega
    obtain rfl : q = s := List.mem_singleton.mp hq
    exact ⟨hs, rfl⟩

theorem reach_prepare_cells_iff_empty :
    SameCells windowCache (init windowCache)
      ((init windowCache).prepare windowCache [single 0 0]).value.1 :=
  (reach_prepare_cells_iff windowCache _ .init [single 0 0]
    (by simpa using single_ubatchOk le_rfl (by decide +kernel))).mpr (by decide +kernel)

/-- The next token of sequence 0 takes the cell at position 1.  The purge also removes sequence 0 from the
shared cell at position 0, which no slot has saved. -/
theorem prepare_purges_shared_cell :
    PlacedReach windowCache windowFull ∧ ShiftFree windowCache windowFull ∧
      (∀ u ∈ [single 4 0], UbatchOk windowCache u) ∧
      ¬ SameCells windowCache windowFull (windowFull.prepare windowCache [single 4 0]).value.1 := by
  refine ⟨windowFull_reach, fun t ht i hi => ?_, by simpa using single_ubatchOk (by decide) (by decide +kernel),
    fun hsame => ?_⟩
  · have ht' : t < 1 := ht
    have hi' : i < 4 := hi
    obtain rfl : t = 0 := by omega
    revert i
    decide +kernel
  · have hcell := ((hsame 0 (by decide)).1 0 (by decide)).2.2
    revert hcell
    decide +kernel

/-- **When `prepare` leaves the heads as they were**, in every state of a run that places its tokens. -/
theorem reach_prepare_heads_iff (kp : KvParams) (st : KvCache) (h : PlacedReach kp st) (us : List Ubatch)
    (hus : ∀ u ∈ us, UbatchOk kp u) :
    (∀ t < kp.nStream, (st.prepare kp us).value.1.vHeads t = st.vHeads t) ↔ HeadsRestored kp st [] us := by
  obtain ⟨G, hok⟩ := reach_ok h
  exact prepare_heads_iff kp G st hok us hus

def twoStreams : KvParams where
  unified := false
  kvSize := 2
  nSeqMax := 2
  nSwa := 0
  swaType := .none
  nPosPerEmbd := 1
  vTrans := false
  layers := []
  nPosPerEmbd_pos := by decide
  nSeqMax_pos := by decide
  nSeqMax_le := by decide
  kvSize_lt := by decide
  layers_lt := by decide

/-- Stream 1 gets the head that stream 0 has behind the first ubatch. -/
example : ((init twoStreams).prepare twoStreams [single 0 0, single 0 1]).value.1.vHeads 1 = 1 := by
  decide +kernel

theorem reach_prepare_heads_iff_first :
    let st := ((init twoStreams).prepare twoStreams [single 0 0]).value.1
    st.vHeads 0 = (init twoStreams).vHeads 0 ∧ st.vHeads 1 = (init twoStreams).vHeads 1 := by
  have h := (reach_prepare_heads_iff twoStreams _ .init [single 0 0]
    (by simpa using single_ubatchOk le_rfl (by decide +kernel))).mpr (by decide +kernel)
  exact ⟨h 0 (by decide), h 1 (by decide)⟩

/-- After one token in stream 0, a ubatch for stream 1 leaves the head of stream 0 in stream 1. -/
theorem prepare_moves_head :
    ∃ st, PlacedReach twoStreams st ∧ (∀ u ∈ [single 0 1], UbatchOk twoStreams u) ∧
      (st.prepare twoStreams [single 0 1]).value.1.vHeads 1 ≠ st.vHeads 1 := by
  have htoken := PlacedReach.init.step (.decode oneToken) trivial (oneToken_placed twoStreams (init twoStreams))
    (by decide +kernel)
  exact ⟨_, htoken, by simpa using single_ubatchOk le_rfl (by decide +kernel), by decide +kernel⟩

/-! ### The window -/

/-- **Nothing in view is lost.**  For every SWA type and window, every state of a run that places its tokens and every
ubatch that is placed in a slot that `find_slot` returned. -/
theorem reach_apply_keeps_visible (kp : KvParams) (st : KvCache) (h : PlacedReach kp st) (u : Ubatch)
    (hu : UbatchOk kp u) (cont : Bool) (si : SlotInfo) (hfind : (st.findSlot kp u cont).value = some si)
    (s : ℕ) (p q : ℤ) (hq : (st.seqPosMax kp s).value + 1 ≤ q)
    (hvis : (kp.isMasked p q).value = false) (hhold : Holds kp st s p) :
    Holds kp (st.applyUbatch kp si u).value s p := by
  obtain ⟨G, hok⟩ := reach_ok h
  have hmax : (st.seqPosMax kp s).value = ((st.vCells (kp.streamOf s)).seqPosMax s).value := by
    simp only [seqPosMax, bind_value, Int.toNat_natCast]
  exact applyUbatch_holds hok hu (hok.findSlot hu hfind) (hmax ▸ hq) hhold hvis

/-- Position 3 of sequence 0 is in view of the token at position 4, which takes the cell of position 1. -/
theorem reach_apply_keeps_visible_window :
    (windowFull.findSlot windowCache (single 4 0) false).value = some ⟨0, 0, [0], [[1]]⟩ ∧
      Holds windowCache (windowFull.applyUbatch windowCache ⟨0, 0, [0], [[1]]⟩ (single 4 0)).value 0 3 := by
  have hfind : (windowFull.findSlot windowCache (single 4 0) false).value
      = some ⟨0, 0, [0], [[1]]⟩ := by decide +kernel
  refine ⟨hfind, reach_apply_keeps_visible windowCache windowFull windowFull_reach (single 4 0)
    (single_ubatchOk (by decide) (by decide +kernel)) false _ hfind 0 3 4 (by decide +kernel)
    (by decide +kernel) ⟨3, by decide, by decide +kernel, by decide +kernel⟩⟩

theorem oneCell_lt : 1 < 2 ^ 32 := by decide

/-- A cache of a single cell. -/
def oneCell : KvParams := { smallCache with kvSize := 1, kvSize_lt := oneCell_lt }

/-- One token of sequence 0 at position -1. -/
def markToken : DecodeArgs := .whole (.text [-1] [[0]] rfl) 1

/-- The single cell with the token of `markToken`. -/
def markFull : KvCache := ((init oneCell).step oneCell (.decode markToken)).value

/-- `init` accepts a token at position -1.  Its cell counts as empty, so the next token of the sequence takes it, and the
position that this token could attend to is gone. -/
theorem apply_drops_mark :
    KvReach oneCell markFull ∧ UbatchOk oneCell (single 0 0) ∧
      (markFull.findSlot oneCell (single 0 0) false).value = some ⟨0, 0, [0], [[0]]⟩ ∧
      (markFull.seqPosMax oneCell 0).value + 1 ≤ 0 ∧ (oneCell.isMasked (-1) 0).value = false ∧
      Holds oneCell markFull 0 (-1) ∧
      ¬ Holds oneCell (markFull.applyUbatch oneCell ⟨0, 0, [0], [[0]]⟩ (single 0 0)).value 0 (-1) := by
  refine ⟨KvReach.init.step (.decode markToken) trivial (by decide +kernel),
    single_ubatchOk le_rfl (by decide +kernel), by decide +kernel, by decide +kernel, by decide +kernel,
    ⟨0, by decide, by decide +kernel, by decide +kernel⟩, ?_⟩
  rintro ⟨i, hi, -, hpos⟩
  have hi' : i < 1 := hi
  obtain rfl : i = 0 := by omega
  revert hpos
  decide +kernel

end KvCache
