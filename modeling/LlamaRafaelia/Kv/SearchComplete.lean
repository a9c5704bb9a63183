import LlamaRafaelia.Kv.Runs

/-!
# The search for a slot ends and misses nothing

Here the `while (true)` loop of `find_slot` is a relation, so that a search that never ends has no result.  For a
ubatch without a token the search tests one cell before it asks whether it has enough.

* `findLoop_ends` - **the loop ends**, with the result that the model computes;
* `findStream_complete` - **one stream**: the search ends, what it finds is a slot, and it finds one exactly when there
  is room;
-/

namespace KvCache

open List Checked

variable {kp : KvParams} {c : KvCells} {cont : Bool}

/-! ### The loop ends -/

/-- The `while (true)` of `find_slot`, entered with the search `a`, ends with the result `r`. -/
inductive LoopEnds (kp : KvParams) (c : KvCells) (cont : Bool) (n nTest : ℕ) : Search → Option (List ℕ) → Prop
  | wrap {a : Search} {r : Option (List ℕ)} (h : c.size < a.headCur + nTest)
      (rest : LoopEnds kp c cont n nTest ⟨0, a.nTested + (c.size - a.headCur), a.idxs⟩ r) :
      LoopEnds kp c cont n nTest a r
  | found {a a' : Search} (h : ¬ c.size < a.headCur + nTest) (hscan : (scan kp c cont nTest a).value = a')
      (hlen : a'.idxs.length = n) : LoopEnds kp c cont n nTest a (some a'.idxs)
  | full {a a' : Search} (h : ¬ c.size < a.headCur + nTest) (hscan : (scan kp c cont nTest a).value = a')
      (hlen : a'.idxs.length ≠ n) (hall : c.size ≤ a'.nTested) : LoopEnds kp c cont n nTest a none
  | again {a a' : Search} {r : Option (List ℕ)} (h : ¬ c.size < a.headCur + nTest)
      (hscan : (scan kp c cont nTest a).value = a') (hlen : a'.idxs.length ≠ n) (hmore : a'.nTested < c.size)
      (rest : LoopEnds kp c cont n nTest { a' with idxs := if cont then [] else a'.idxs } r) :
      LoopEnds kp c cont n nTest a r

/-- **The loop ends**: with enough fuel the model is never cut off. -/
theorem findLoop_ends {n nTest : ℕ} (hpos : 0 < nTest) (hle : nTest ≤ c.size) (fuel : ℕ) (a : Search)
    (hfuel : searchBound c nTest a ≤ fuel) :
    LoopEnds kp c cont n nTest a (findLoop kp c cont n nTest fuel a).value := by
  induction fuel generalizing a with
  | zero =>
    exfalso
    unfold searchBound at hfuel
    split at hfuel <;> omega
  | succ fuel ih =>
    unfold searchBound at hfuel
    by_cases hend : c.size < a.headCur + nTest
    · rw [if_pos hend] at hfuel
      rw [findLoop_wrap hend]
      refine .wrap hend (ih _ ?_)
      unfold searchBound
      rw [if_neg (by simp only; omega)]
      simp only
      omega
    · rw [if_neg hend] at hfuel
      rw [findLoop_scan hend]
      obtain ⟨k, rfl⟩ : ∃ k, nTest = k + 1 := ⟨nTest - 1, by omega⟩
      have hprog := @scan_nTested_lt kp c cont k a
      dsimp only
      split
      · next hlen => exact .found hend rfl hlen
      · next hlen =>
        split
        · next hall => exact .full hend rfl hlen hall
        · next hmore =>
          refine .again hend rfl hlen (Nat.lt_of_not_le hmore) (ih _ ?_)
          unfold searchBound
          simp only
          split <;> omega

/-! ### A search that need not be contiguous takes every usable cell -/

/-- Every usable cell that a search from `h0` has passed is among its indices. -/
def Passed (kp : KvParams) (c : KvCells) (h0 : ℕ) (a : Search) : Prop :=
  (a.headCur = h0 + a.nTested ∧ a.headCur ≤ c.size ∧
      ∀ i, h0 ≤ i → i < a.headCur → Usable kp c i → i ∈ a.idxs) ∨
    (a.nTested + h0 = c.size + a.headCur ∧
      ∀ i < c.size, (h0 ≤ i ∨ i < a.headCur) → Usable kp c i → i ∈ a.idxs)

theorem Passed.all {h0 : ℕ} {a : Search} (h : Passed kp c h0 a) (hge : c.size ≤ a.nTested) :
    ∀ i < c.size, Usable kp c i → i ∈ a.idxs := by
  intro i hi hu
  rcases h with ⟨ht, hle, hc⟩ | ⟨ht, hc⟩
  · exact hc i (by omega) (by omega) hu
  · exact hc i hi (by omega) hu

theorem Passed.wrap {h0 : ℕ} {a : Search} (h : Passed kp c h0 a) (h0le : h0 ≤ c.size) (hlt : a.nTested < c.size)
    (hend : c.size < a.headCur + 1) :
    Passed kp c h0 ⟨0, a.nTested + (c.size - a.headCur), a.idxs⟩ ∧
      a.nTested + (c.size - a.headCur) < c.size := by
  rcases h with ⟨ht, hle, hc⟩ | ⟨ht, -⟩
  · refine ⟨Or.inr ⟨?_, fun i hi hin hu => ?_⟩, by omega⟩
    · show a.nTested + (c.size - a.headCur) + h0 = c.size + 0
      omega
    · exact hc i (hin.resolve_right (Nat.not_lt_zero i)) (by omega) hu
  · omega

theorem Passed.step {h0 : ℕ} {a : Search} (h : Passed kp c h0 a) (hin : a.headCur < c.size) :
    Passed kp c h0 (scan kp c false 1 a).value := by
  -- what was taken stays, and the cell at the head is taken if it is usable
  have hold : ∀ i ∈ a.idxs, i ∈ (scan kp c false 1 a).value.idxs := by
    intro i hi
    rw [scan_one]
    dsimp only
    split
    · exact mem_append_left _ hi
    · exact hi
  have hnew : Usable kp c a.headCur → a.headCur ∈ (scan kp c false 1 a).value.idxs := by
    intro hu
    rw [scan_one, if_pos hu]
    exact mem_append_right _ (mem_singleton_self _)
  have hhead : (scan kp c false 1 a).value.headCur = a.headCur + 1 := by rw [scan_one]
  have htested : (scan kp c false 1 a).value.nTested = a.nTested + 1 := by rw [scan_one]
  rcases h with ⟨ht, hle, hc⟩ | ⟨ht, hc⟩
  · refine Or.inl ⟨by omega, by omega, fun i hge hlt hu => ?_⟩
    by_cases hi : i = a.headCur
    · exact hi ▸ hnew (hi ▸ hu)
    · exact hold i (hc i hge (by omega) hu)
  · refine Or.inr ⟨by omega, fun i hi hor hu => ?_⟩
    by_cases hi' : i = a.headCur
    · exact hi' ▸ hnew (hi' ▸ hu)
    · exact hold i (hc i hi (by omega) hu)

theorem findLoop_none {h0 n fuel : ℕ} {a : Search} (h0le : h0 ≤ c.size) (h : Passed kp c h0 a)
    (hlen : a.idxs.length < n) (hlt : a.nTested < c.size) (hfuel : searchBound c 1 a ≤ fuel)
    (hnone : (findLoop kp c false n 1 fuel a).value = none) :
    ∃ l : List ℕ, l.length < n ∧ ∀ i < c.size, Usable kp c i → i ∈ l := by
  induction fuel generalizing a with
  | zero =>
    exfalso
    unfold searchBound at hfuel
    split at hfuel <;> omega
  | succ fuel ih =>
    unfold searchBound at hfuel
    by_cases hend : c.size < a.headCur + 1
    · rw [if_pos hend] at hfuel
      rw [findLoop_wrap hend] at hnone
      obtain ⟨hcov, hlt'⟩ := h.wrap h0le hlt hend
      refine ih hcov hlen hlt' ?_ hnone
      unfold searchBound
      rw [if_neg (by simp only; omega)]
      simp only
      omega
    · rw [if_neg hend] at hfuel
      rw [findLoop_scan hend] at hnone
      dsimp only at hnone
      have hstep := h.step (show a.headCur < c.size by omega)
      have hshort : (scan kp c false 1 a).value.idxs.length ≤ n := by
        rw [scan_one]
        dsimp only
        split
        · rw [length_append, length_singleton]
          omega
        · omega
      have htested : (scan kp c false 1 a).value.nTested = a.nTested + 1 := by rw [scan_one]
      split at hnone
      · cases hnone
      · next hne =>
        split at hnone
        · next hall => exact ⟨_, Nat.lt_of_le_of_ne hshort hne, hstep.all hall⟩
        · next hmore =>
          refine ih hstep (Nat.lt_of_le_of_ne hshort hne) (Nat.lt_of_not_le hmore) ?_ hnone
          unfold searchBound
          split <;> omega

/-! ### One stream -/

/-- What a search for `n` tokens may return: `n` distinct cells that are free, side by side when the slot has to be
contiguous. -/
structure StreamSlot (kp : KvParams) (c : KvCells) (n : ℕ) (cont : Bool) (l : List ℕ) : Prop where
  length : l.length = n
  nodup : l.Nodup
  lt : ∀ i ∈ l, i < c.size
  free : ∀ i ∈ l, Free kp c i
  range : cont = true → ∃ h, l = List.range' h n

/-- There is room for `n` tokens: as many free cells, side by side when the slot has to be contiguous. -/
def HasRoom (kp : KvParams) (c : KvCells) (n : ℕ) : Bool → Prop
  | false => ∃ cells : Finset ℕ, n ≤ cells.card ∧ ∀ i ∈ cells, i < c.size ∧ Free kp c i
  | true => ∃ h, h + n ≤ c.size ∧ ∀ i, h ≤ i → i < h + n → Free kp c i

/-- The search in one stream ends with the result `r`. -/
def SearchEnds (kp : KvParams) (c : KvCells) (head n : ℕ) (cont : Bool) (r : Option (List ℕ)) : Prop :=
  if c.size < n then r = none
  else LoopEnds kp c cont n (if cont then n else 1) ⟨searchHead c head n, 0, []⟩ r

theorem searchHead_le {head n : ℕ} (hhead : head ≤ c.size) : searchHead c head n ≤ c.size := by
  rw [searchHead]
  split
  · exact Nat.zero_le _
  · exact hhead

theorem searchBound_start (nTest h0 : ℕ) : searchBound c nTest ⟨h0, 0, []⟩ ≤ 2 * c.size + 2 := by
  rw [searchBound]
  split <;> omega

theorem StreamSlot.hasRoom {n : ℕ} {l : List ℕ} (h : StreamSlot kp c n cont l) : HasRoom kp c n cont := by
  cases cont with
  | false =>
    refine ⟨l.toFinset, ?_, fun i hi => ?_⟩
    · rw [toFinset_card_of_nodup h.nodup, h.length]
    · rw [mem_toFinset] at hi
      exact ⟨h.lt i hi, h.free i hi⟩
  | true =>
    obtain ⟨h', rfl⟩ := h.range rfl
    by_cases hn : n = 0
    · subst hn
      exact ⟨0, Nat.zero_le _, fun i hge hlt => by omega⟩
    · have hlast := h.lt (h' + (n - 1)) (mem_range'_1.mpr (by omega))
      exact ⟨h', by omega, fun i hge hlt => h.free i (mem_range'_1.mpr ⟨hge, hlt⟩)⟩

theorem findStream_cont_zero {head : ℕ} (hhead : head ≤ c.size) :
    (findStream kp c head 0 true).value = some [] ∧ SearchEnds kp c head 0 true (some []) := by
  have hstart := searchHead_le (c := c) (n := 0) hhead
  have hend : ¬ c.size < searchHead c head 0 + 0 := by omega
  refine ⟨?_, ?_⟩
  · rw [findStream, if_neg (Nat.not_lt_zero _), if_pos rfl, findLoop_scan hend]
    rfl
  · rw [SearchEnds, if_neg (Nat.not_lt_zero _)]
    exact @LoopEnds.found kp c true 0 0 _ ⟨searchHead c head 0, 0, []⟩ hend rfl rfl

theorem findStream_none {head n : ℕ} (hhead : head ≤ c.size) (hseq : ∀ i, ∀ s ∈ c.seq i, s < llamaMaxSeq) (hn : 0 < n)
    (hnone : (findStream kp c head n cont).value = none) : ¬ HasRoom kp c n cont := by
  have hfree : ∀ i, Usable kp c i ↔ Free kp c i := fun i => usable_iff_free (hseq i)
  cases cont with
  | true =>
    rw [findStream_cont_none_iff hhead hn] at hnone
    intro ⟨h, hle, hall⟩
    exact hnone h ⟨hle, fun i hge hlt => (hfree i).mpr (hall i hge hlt)⟩
  | false =>
    have hfew : ∃ l : List ℕ, l.length < n ∧ ∀ i < c.size, Usable kp c i → i ∈ l := by
      unfold findStream at hnone
      split at hnone
      · next hsize => exact ⟨List.range c.size, by simpa using hsize, fun i hi _ => List.mem_range.mpr hi⟩
      · next hsize =>
        have hstart := searchHead_le (c := c) (n := n) hhead
        have hpassed : Passed kp c (searchHead c head n) ⟨searchHead c head n, 0, []⟩ :=
          Or.inl ⟨rfl, hstart, fun i hge hlt => absurd hlt (Nat.not_lt.mpr hge)⟩
        exact findLoop_none hstart hpassed hn (show 0 < c.size by omega) (searchBound_start 1 _) hnone
    obtain ⟨l, hlen, hall⟩ := hfew
    intro ⟨cells, hcard, hcells⟩
    have hsub : cells ⊆ l.toFinset := fun i hi =>
      mem_toFinset.mpr (hall i (hcells i hi).1 ((hfree i).mpr (hcells i hi).2))
    have := (Finset.card_le_card hsub).trans (toFinset_card_le l)
    omega

/-- **One stream.**  The search ends; what it finds is a slot; and it finds one exactly when there is room. -/
theorem findStream_complete {head n : ℕ} (hhead : head ≤ c.size) (hseq : ∀ i, ∀ s ∈ c.seq i, s < llamaMaxSeq)
    (hn : cont = false → 0 < n) :
    SearchEnds kp c head n cont (findStream kp c head n cont).value ∧
      (∀ l, (findStream kp c head n cont).value = some l → StreamSlot kp c n cont l) ∧
      ((findStream kp c head n cont).value.isSome ↔ HasRoom kp c n cont) := by
  by_cases hpos : 0 < n
  · have hslot : ∀ l, (findStream kp c head n cont).value = some l → StreamSlot kp c n cont l := by
      intro l hl
      obtain ⟨hlen, hnodup, huse, hrange⟩ := findStream_spec hhead hpos hl
      exact ⟨hlen, hnodup, fun i hi => (huse i hi).1, fun i hi => (usable_iff_free (hseq i)).mp (huse i hi).2, hrange⟩
    refine ⟨?_, hslot, fun h => ?_, fun hroom => ?_⟩
    · rw [SearchEnds]
      split
      · next hsize => rw [findStream, if_pos hsize, pure_value]
      · next hsize =>
        rw [findStream, if_neg hsize]
        refine findLoop_ends ?_ ?_ _ _ (searchBound_start _ _)
        · split <;> omega
        · split <;> omega
    · obtain ⟨l, hl⟩ := Option.isSome_iff_exists.mp h
      exact (hslot l hl).hasRoom
    · rw [← Option.ne_none_iff_isSome]
      exact fun hnone => findStream_none hhead hseq hpos hnone hroom
  · obtain rfl : n = 0 := by omega
    cases cont with
    | false => exact absurd (hn rfl) hpos
    | true =>
      obtain ⟨hval, hends⟩ := @findStream_cont_zero kp c head hhead
      have hslot : StreamSlot kp c 0 true [] := ⟨rfl, nodup_nil, nofun, nofun, fun _ => ⟨0, rfl⟩⟩
      rw [hval]
      exact ⟨hends, fun l hl => Option.some.inj hl ▸ hslot, fun _ => hslot.hasRoom, fun _ => rfl⟩

/-! ### All streams of a ubatch -/

variable {st : KvCache} {u : Ubatch}

/-- The cells of the stream that the `s`-th sequence of the ubatch goes to. -/
def seqCells (kp : KvParams) (st : KvCache) (u : Ubatch) (s : ℕ) : KvCells :=
  st.vCells (kp.streamOf (u.seqIdUnq.getD s 0))

def seqHead (kp : KvParams) (st : KvCache) (u : Ubatch) (s : ℕ) : ℕ :=
  st.vHeads (kp.streamOf (u.seqIdUnq.getD s 0))

theorem findSlot_isSome (h : ∀ s < slotSeqs kp u,
    (findStream kp (seqCells kp st u s) (seqHead kp st u s) (slotTokens kp u) cont).value.isSome) :
    (st.findSlot kp u cont).value.isSome := by
  refine loopRange_value_rule (f := st.findStep kp u cont) (fun _ (res : Option SlotInfo) => res.isSome)
    (slotSeqs kp u) rfl fun s res hs hres => ?_
  obtain ⟨r, rfl⟩ := Option.isSome_iff_exists.mp hres
  simp only [findStep, bind_value, pure_value, Option.isSome_map]
  exact h s hs

/-- **`find_slot` ends and misses nothing.**  For all cells, heads inside them and a ubatch with a token (or a
contiguous slot), the search in every stream of the ubatch ends.  A slot that is returned has for each stream exactly
as many distinct free cells as there are tokens, side by side if it has to be contiguous; and a slot is returned
exactly when every stream has room for one. -/
theorem findSlot_complete (kp : KvParams) (st : KvCache) (u : Ubatch) (cont : Bool)
    (hheads : ∀ t, st.vHeads t ≤ (st.vCells t).size) (hseq : ∀ t i, ∀ s ∈ (st.vCells t).seq i, s < llamaMaxSeq)
    (hn : cont = false → 0 < slotTokens kp u) :
    (∀ s < slotSeqs kp u,
      SearchEnds kp (seqCells kp st u s) (seqHead kp st u s) (slotTokens kp u) cont
          (findStream kp (seqCells kp st u s) (seqHead kp st u s) (slotTokens kp u) cont).value ∧
        ((findStream kp (seqCells kp st u s) (seqHead kp st u s) (slotTokens kp u) cont).value.isSome ↔
          HasRoom kp (seqCells kp st u s) (slotTokens kp u) cont)) ∧
    (∀ si, (st.findSlot kp u cont).value = some si →
      si.strm.length = slotSeqs kp u ∧ si.idxs.length = slotSeqs kp u ∧ ∀ s < slotSeqs kp u,
        si.strmAt s = kp.streamOf (u.seqIdUnq.getD s 0) ∧
          StreamSlot kp (seqCells kp st u s) (slotTokens kp u) cont (si.idxsAt s)) ∧
    ((st.findSlot kp u cont).value.isSome ↔
      ∀ s < slotSeqs kp u, HasRoom kp (seqCells kp st u s) (slotTokens kp u) cont) := by
  have hstream := fun s => @findStream_complete kp (seqCells kp st u s) cont (seqHead kp st u s) (slotTokens kp u)
    (hheads _) (hseq _) hn
  have hslot : ∀ si, (st.findSlot kp u cont).value = some si →
      si.strm.length = slotSeqs kp u ∧ si.idxs.length = slotSeqs kp u ∧ ∀ s < slotSeqs kp u,
        si.strmAt s = kp.streamOf (u.seqIdUnq.getD s 0) ∧
          StreamSlot kp (seqCells kp st u s) (slotTokens kp u) cont (si.idxsAt s) := by
    intro si hsi
    obtain ⟨h1, h2, h3⟩ := findSlot_streams hsi
    refine ⟨h1, h2, fun s hs => ?_⟩
    obtain ⟨hstrm, hval⟩ := h3 s hs
    rw [hstrm] at hval
    exact ⟨hstrm, (hstream s).2.1 _ hval⟩
  refine ⟨fun s _ => ⟨(hstream s).1, (hstream s).2.2⟩, hslot, fun h s hs => ?_, fun hroom => ?_⟩
  · obtain ⟨si, hsi⟩ := Option.isSome_iff_exists.mp h
    exact ((hslot si hsi).2.2 s hs).2.hasRoom
  · exact findSlot_isSome fun s hs => (hstream s).2.2.mpr (hroom s hs)

def twoTokens : Ubatch where
  bEqualSeqs := false
  nTokens := 2
  nSeqTokens := 1
  nSeqs := 2
  nPos := 1
  token := some [5, 6]
  pos := [0, 1]
  seqId := [[0], [0]]
  seqIdUnq := [0]
  seqIdx := [0]
  output := [false, true]

/-- The new cache of two cells has room for two tokens. -/
theorem findSlot_complete_two :
    ((init smallCache).findSlot smallCache twoTokens false).value.isSome ∧
      ∀ s < slotSeqs smallCache twoTokens,
        HasRoom smallCache (seqCells smallCache (init smallCache) twoTokens s) (slotTokens smallCache twoTokens) false := by
  have hfound : ((init smallCache).findSlot smallCache twoTokens false).value.isSome := by decide
  have hspec := findSlot_complete smallCache (init smallCache) twoTokens false (fun _ => Nat.zero_le _)
    (fun _ _ s hs => absurd hs (Finset.notMem_empty s)) (fun _ => by decide)
  exact ⟨hfound, hspec.2.2.mp hfound⟩

def noToken : Ubatch where
  bEqualSeqs := false
  nTokens := 0
  nSeqTokens := 1
  nSeqs := 0
  nPos := 1
  token := some []
  pos := []
  seqId := []
  seqIdUnq := [0]
  seqIdx := [0]
  output := []

/-- **A search for no cell fails.**  There are enough usable cells, but the first one is taken before the search asks
whether it has enough, and one is more than none. -/
theorem noToken_finds_nothing :
    ((init smallCache).findSlot smallCache noToken false).value = none ∧
      (∀ s < slotSeqs smallCache noToken,
        HasRoom smallCache (seqCells smallCache (init smallCache) noToken s) (slotTokens smallCache noToken) false) := by
  refine ⟨by decide, fun s _ => ⟨∅, Nat.le_of_eq (by decide), by simp⟩⟩

end KvCache
