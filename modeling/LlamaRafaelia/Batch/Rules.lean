import LlamaRafaelia.Batch.Split
import Mathlib.Data.List.Chain

/-!
# What `init` accepts

The last loop of `llama_batch_allocr::init` is there to refuse a batch in which a sequence belongs to incompatible
sequence sets or has decreasing positions.

* `init_ok_iff` - **what the last loop tests never fails** for positions from `-1` on: `cur_seq_set[s]` always has `s`
  in it, and `cur_seq_pos[s]` is never updated.
* `init_continues_iff` - the positions that `init` generates go on in every sequence.
-/

def Batch.unpositioned (seqId : List (List ℤ)) : Batch where
  nTokens := seqId.length
  token := some (List.replicate seqId.length 0)
  pos := none
  seqId := some seqId
  logits := none
  token_length := by simp
  pos_length := by simp
  seqId_length := by simp
  logits_length := by simp

namespace BatchAllocr

open List Checked Function

/-! ### What `init` accepts -/

/-- The checks of `init` that a batch can fail. -/
structure Passes (nPosPerEmbd nVocab : ℕ) (b : Batch) (memory : Option Memory) (nSeqMax : ℕ) (outputAll : Bool) :
    Prop where
  nSeqMax_le : nSeqMax ≤ llamaMaxSeq
  tokens : tokensOk nVocab b = true
  seqIds : seqIdsOk nSeqMax b = true
  consistent : (List.range nSeqMax).forM
    (if 1 < nPosPerEmbd then (sanitize nPosPerEmbd b memory nSeqMax outputAll).checkMrope memory
      else (sanitize nPosPerEmbd b memory nSeqMax outputAll).checkSeqPos memory) = .ok ()
  coupled : (sanitize nPosPerEmbd b memory nSeqMax outputAll).seqCpl.forM (checkCoupled memory) = .ok ()
  /-- `cur_seq_pos` is `-1` for every sequence. -/
  ge : ∀ x ∈ (sanitize nPosPerEmbd b memory nSeqMax outputAll).memberships,
    -1 ≤ (sanitize nPosPerEmbd b memory nSeqMax outputAll).posAt x.1

theorem mem_memberships {a : BatchAllocr} {x : ℕ × ℕ} :
    x ∈ a.memberships ↔ x.1 < a.nTokens ∧ x.2 ∈ a.seqAt x.1 := by
  constructor
  · intro h
    obtain ⟨i, hi, hx⟩ := mem_flatMap.mp h
    obtain ⟨s, hs, rfl⟩ := mem_map.mp hx
    exact ⟨List.mem_range.mp hi, hs⟩
  · intro h
    exact mem_flatMap.mpr ⟨x.1, List.mem_range.mpr h.1, mem_map.mpr ⟨x.2, h.2, rfl⟩⟩

theorem foldlM_checkSetStep (a : BatchAllocr) {l : List (ℕ × ℕ)} (hl : ∀ x ∈ l, x.2 ∈ a.seqAt x.1)
    (cur : ℕ → Finset ℕ) (hcur : ∀ x ∈ l, x.2 ∈ cur x.2) :
    (∃ cur', l.foldlM a.checkSetStep cur = .ok cur') ↔ ∀ x ∈ l, -1 ≤ a.posAt x.1 := by
  induction l generalizing cur with
  | nil => exact ⟨fun _ _ hx => absurd hx not_mem_nil, fun _ => ⟨cur, rfl⟩⟩
  | cons x l ih =>
    have hx : x.2 ∈ cur x.2 ∩ a.seqSet x.1 :=
      Finset.mem_inter.mpr ⟨hcur x mem_cons_self, mem_toFinset.mpr (hl x mem_cons_self)⟩
    have hset : cur x.2 ∩ a.seqSet x.1 ≠ ∅ := Finset.ne_empty_of_mem hx
    rw [foldlM_cons, forall_mem_cons]
    by_cases hpos : a.posAt x.1 < -1
    · have hstep : a.checkSetStep cur x = .error .decreasingPositions := by
        rw [checkSetStep]
        simp only [update_self, if_neg hset, curSeqPos]
        exact if_pos hpos
      rw [hstep]
      exact ⟨fun ⟨cur', h⟩ => (by cases h), fun h => absurd h.1 (Int.not_le.mpr hpos)⟩
    · have hstep : a.checkSetStep cur x = .ok (update cur x.2 (cur x.2 ∩ a.seqSet x.1)) := by
        rw [checkSetStep]
        simp only [update_self, if_neg hset, curSeqPos]
        exact if_neg hpos
      rw [hstep]
      have hcur' : ∀ y ∈ l, y.2 ∈ update cur x.2 (cur x.2 ∩ a.seqSet x.1) y.2 := by
        intro y hy
        by_cases he : y.2 = x.2
        · rw [he, update_self]
          exact hx
        · rw [update_of_ne he]
          exact hcur y (mem_cons_of_mem _ hy)
      exact (ih (fun y hy => hl y (mem_cons_of_mem _ hy)) _ hcur').trans
        (and_iff_right (Int.not_lt.mp hpos)).symm

theorem validate_ok_iff {a : BatchAllocr} (memory : Option Memory)
    (hseq : ∀ i, ∀ s ∈ a.seqAt i, s < llamaMaxSeq) :
    a.validate memory = .ok () ↔
      (List.range a.nSeqMax).forM (if 1 < a.nPosPerEmbd then a.checkMrope memory else a.checkSeqPos memory) = .ok () ∧
      a.seqCpl.forM (checkCoupled memory) = .ok () ∧ ∀ x ∈ a.memberships, -1 ≤ a.posAt x.1 := by
  have hmem : ∀ x ∈ a.memberships, x.2 ∈ a.seqAt x.1 := fun x hx => ((mem_memberships).mp hx).2
  have hfull : ∀ x ∈ a.memberships, x.2 ∈ Finset.range llamaMaxSeq := fun x hx =>
    Finset.mem_range.mpr (hseq x.1 x.2 (hmem x hx))
  rw [← a.foldlM_checkSetStep hmem (fun _ => Finset.range llamaMaxSeq) hfull, validate]
  cases (List.range a.nSeqMax).forM (if 1 < a.nPosPerEmbd then a.checkMrope memory else a.checkSeqPos memory) with
  | error e => simp [bind, Except.bind]
  | ok u =>
    cases a.seqCpl.forM (checkCoupled memory) with
    | error e => simp [bind, Except.bind]
    | ok v =>
      cases a.memberships.foldlM a.checkSetStep fun _ => Finset.range llamaMaxSeq with
      | error e => simp [bind, Except.bind]
      | ok w => simp [bind, Except.bind, pure, Except.pure]

variable {nPosPerEmbd nVocab : ℕ} {b : Batch} {memory : Option Memory} {nSeqMax : ℕ} {outputAll : Bool}

theorem init_ok_iff {a : BatchAllocr} :
    (init nPosPerEmbd nVocab b memory nSeqMax outputAll).value = .ok a ↔
      Passes nPosPerEmbd nVocab b memory nSeqMax outputAll ∧
        a = (sanitize nPosPerEmbd b memory nSeqMax outputAll).splitReset := by
  simp only [init, bind_value, pure_value]
  by_cases hmax : llamaMaxSeq < nSeqMax
  · simp only [hmax, bind, Except.bind, throw, throwThe, MonadExceptOf.throw, if_true]
    exact ⟨fun h => (by cases h), fun h => absurd h.1.nSeqMax_le (Nat.not_le.mpr hmax)⟩
  by_cases htok : tokensOk nVocab b = true
  swap
  · simp only [hmax, htok, bind, Except.bind, throw, throwThe, MonadExceptOf.throw, if_false]
    exact ⟨fun h => (by cases h), fun h => absurd h.1.tokens htok⟩
  by_cases hids : seqIdsOk nSeqMax b = true
  swap
  · simp only [hmax, htok, hids, bind, Except.bind, throw, throwThe, MonadExceptOf.throw, if_false, not_true_eq_false]
    exact ⟨fun h => (by cases h), fun h => absurd h.1.seqIds hids⟩
  have hseq : ∀ i, ∀ s ∈ (sanitize nPosPerEmbd b memory nSeqMax outputAll).seqAt i, s < llamaMaxSeq := by
    intro i s hs
    have hs' : s ∈ (fillSeqId b).getD i [] := hs
    by_cases hi : i < (fillSeqId b).length
    · rw [getD_eq_getElem _ _ hi] at hs'
      exact fillSeqId_lt (by decide) (Nat.not_lt.mp hmax) hids _ (getElem_mem hi) s hs'
    · rw [getD_eq_default _ _ (Nat.not_lt.mp hi)] at hs'
      exact absurd hs' not_mem_nil
  have hpasses : Passes nPosPerEmbd nVocab b memory nSeqMax outputAll ↔
      (sanitize nPosPerEmbd b memory nSeqMax outputAll).validate memory = .ok () := by
    rw [validate_ok_iff memory hseq]
    exact ⟨fun h => ⟨h.consistent, h.coupled, h.ge⟩,
      fun h => ⟨Nat.not_lt.mp hmax, htok, hids, h.1, h.2.1, h.2.2⟩⟩
  rw [hpasses]
  cases (sanitize nPosPerEmbd b memory nSeqMax outputAll).validate memory with
  | error e =>
    simp only [hmax, htok, hids, bind, Except.bind, if_false, not_true_eq_false]
    exact ⟨fun h => (by cases h), fun h => (by cases h.1)⟩
  | ok v =>
    simp only [hmax, htok, hids, bind, Except.bind, pure, Except.pure, if_false, not_true_eq_false, Except.ok.injEq]
    exact ⟨fun h => ⟨trivial, h.symm⟩, fun h => h.2.symm⟩

theorem forall_init_iff {p : BatchAllocr → Prop} :
    (∀ a, (init nPosPerEmbd nVocab b memory nSeqMax outputAll).value = .ok a → p a) ↔
      ¬ Passes nPosPerEmbd nVocab b memory nSeqMax outputAll ∨
        p (sanitize nPosPerEmbd b memory nSeqMax outputAll).splitReset := by
  constructor
  · intro h
    by_cases hpass : Passes nPosPerEmbd nVocab b memory nSeqMax outputAll
    · exact Or.inr (h _ ((init_ok_iff).mpr ⟨hpass, rfl⟩))
    · exact Or.inl hpass
  · intro h a ha
    obtain ⟨hpass, rfl⟩ := (init_ok_iff).mp ha
    exact h.resolve_left (not_not_intro hpass)

/-! ### Generated positions -/

/-- The positions of the tokens of sequence `s`, in batch order. -/
def positionsOf (a : BatchAllocr) (s : ℕ) : List ℤ := (a.tokensOf s).map a.posAt

/-- The memory has tokens of sequence `s`. -/
def Held (memory : Option Memory) (s : ℕ) : Prop := ∃ m ∈ memory, 0 ≤ m.seqPosMax s

/-- Sequence `s` has consecutive positions, from the one behind the last position in the memory. -/
structure Continues (a : BatchAllocr) (memory : Option Memory) (s : ℕ) : Prop where
  consecutive : (a.positionsOf s).IsChain fun p q => q = p + 1
  start : ∀ m ∈ memory, 0 ≤ m.seqPosMax s → ∀ p ∈ (a.positionsOf s).head?, p = m.seqPosMax s + 1

/-- How many tokens of sequence `s` are in front of token `i`. -/
def rank (l : List (List ℕ)) (s i : ℕ) : ℕ := (l.take i).countP fun ids => s ∈ ids

/-- With these first positions of the sequences, every token comes up at the same position in all of its sequences.
The memory, or the first sequence of a token, says what some of the first positions are. -/
structure Fits (l : List (List ℕ)) (start : ℕ → ℤ) (held : ℕ → Prop) (first : ℕ → ℤ) : Prop where
  held : ∀ s, held s → first s = start s
  fresh : ∀ i ids, l[i]? = some ids → rank l (ids.headD 0) i = 0 → first (ids.headD 0) = start (ids.headD 0)
  agree : ∀ i ids, l[i]? = some ids → ∀ s ∈ ids,
    first s + rank l s i = first (ids.headD 0) + rank l (ids.headD 0) i

/-- Consecutive positions, from the position `d` on if it is known. -/
def Follows (known : Prop) (d : ℤ) (l : List ℤ) : Prop :=
  (l.IsChain fun p q => q = p + 1) ∧ (known → ∀ p ∈ l.head?, p = d)

theorem follows_cons {known : Prop} {d p : ℤ} {l : List ℤ} :
    Follows known d (p :: l) ↔ (known → p = d) ∧ Follows True (p + 1) l := by
  rw [Follows, Follows, isChain_cons, head?_cons]
  simp only [Option.mem_some_iff, forall_eq', forall_true_left]
  tauto

/-- The positions `ps` of those of the tokens `l` that are in sequence `s`. -/
def pick (s : ℕ) (l : List (List ℕ)) (ps : List ℤ) : List ℤ :=
  ((l.zip ps).filter fun x => s ∈ x.1).map Prod.snd

theorem pick_cons (s : ℕ) (ids : List ℕ) (l : List (List ℕ)) (p : ℤ) (ps : List ℤ) :
    pick s (ids :: l) (p :: ps) = if s ∈ ids then p :: pick s l ps else pick s l ps := by
  rw [pick, zip_cons_cons, filter_cons]
  split_ifs with h1 h2 h2
  · rfl
  · exact absurd (of_decide_eq_true h1) h2
  · exact absurd (decide_eq_true h2) h1
  · rfl

theorem pick_eq (s : ℕ) (l : List (List ℕ)) (ps : List ℤ) (hlen : ps.length = l.length) :
    ((List.range l.length).filter fun i => s ∈ l.getD i []).map (fun i => ps.getD i 0) = pick s l ps := by
  induction l generalizing ps with
  | nil => rfl
  | cons ids l ih =>
    cases ps with
    | nil => cases hlen
    | cons p ps =>
      have htail := ih ps (Nat.succ.inj hlen)
      rw [pick_cons, ← htail, length_cons, range_succ_eq_map, filter_cons, filter_map]
      simp only [getD_cons_zero, comp_def, getD_cons_succ, decide_eq_true_eq]
      split_ifs
      · rw [map_cons, map_map]
        rfl
      · rw [map_map]
        rfl

theorem autoPos_length (l : List (List ℕ)) (p0 : ℕ → ℤ) : (autoPos l p0).length = l.length := by
  induction l generalizing p0 with
  | nil => rfl
  | cons ids l ih => rw [autoPos, length_cons, length_cons, ih]

theorem rank_cons_succ (ids : List ℕ) (l : List (List ℕ)) (s i : ℕ) :
    rank (ids :: l) s (i + 1) = rank l s i + if s ∈ ids then 1 else 0 := by
  rw [rank, take_succ_cons, countP_cons, rank]
  simp only [decide_eq_true_eq]

theorem fits_cons {ids : List ℕ} {l : List (List ℕ)} {start : ℕ → ℤ} {held : ℕ → Prop} {first : ℕ → ℤ} (hne : ids ≠ []) :
    Fits (ids :: l) start held first ↔
      (∀ s ∈ ids, first s = start (ids.headD 0)) ∧ (∀ s, held s → first s = start s) ∧
        Fits l (fun s => if s ∈ ids then start (ids.headD 0) + 1 else start s) (fun s => held s ∨ s ∈ ids)
          (fun s => first s + if s ∈ ids then 1 else 0) := by
  have hhead : ids.headD 0 ∈ ids := by
    cases ids with
    | nil => exact absurd rfl hne
    | cons x ids => exact mem_cons_self
  constructor
  · intro h
    have hfirst : ∀ s ∈ ids, first s = start (ids.headD 0) := by
      intro s hs
      have hagree := h.agree 0 ids rfl s hs
      have hfresh := h.fresh 0 ids rfl rfl
      simp only [rank, take_zero, countP_nil] at hagree
      omega
    refine ⟨hfirst, h.held, fun s hs => ?_, fun i ids' hi hrank => ?_, fun i ids' hi s hs => ?_⟩
    · by_cases hmem : s ∈ ids
      · rw [if_pos hmem, if_pos hmem, hfirst s hmem]
      · rw [if_neg hmem, if_neg hmem, h.held s (hs.resolve_right hmem), Int.add_zero]
    · by_cases hmem : ids'.headD 0 ∈ ids
      · rw [if_pos hmem, if_pos hmem, hfirst _ hmem]
      · rw [if_neg hmem, if_neg hmem, Int.add_zero]
        refine h.fresh (i + 1) ids' hi ?_
        rw [rank_cons_succ, hrank, if_neg hmem]
    · have hagree := h.agree (i + 1) ids' hi s hs
      rw [rank_cons_succ, rank_cons_succ] at hagree
      split_ifs at hagree ⊢ <;> omega
  · rintro ⟨hfirst, hheld, h⟩
    refine ⟨hheld, fun i ids' hi hrank => ?_, fun i ids' hi s hs => ?_⟩
    · cases i with
      | zero =>
        obtain rfl := Option.some.inj hi
        exact hfirst _ hhead
      | succ i =>
        rw [rank_cons_succ] at hrank
        have hmem : ids'.headD 0 ∉ ids := by
          intro hmem
          rw [if_pos hmem] at hrank
          omega
        rw [if_neg hmem] at hrank
        have hfresh := h.fresh i ids' hi hrank
        rwa [if_neg hmem, if_neg hmem, Int.add_zero] at hfresh
    · cases i with
      | zero =>
        obtain rfl := Option.some.inj hi
        rw [hfirst s hs, hfirst _ hhead]
        rfl
      | succ i =>
        have hagree := h.agree i ids' hi s hs
        rw [rank_cons_succ, rank_cons_succ]
        split_ifs at hagree ⊢ <;> omega

/-- **Generated positions.**  They go on in every sequence if and only if there are first positions that fit. -/
theorem follows_autoPos_iff {l : List (List ℕ)} (hne : ∀ ids ∈ l, ids ≠ []) (start : ℕ → ℤ) (held : ℕ → Prop) :
    (∀ s, Follows (held s) (start s) (pick s l (autoPos l start))) ↔ ∃ first, Fits l start held first := by
  induction l generalizing start held with
  | nil =>
    refine iff_of_true (fun s => ⟨List.IsChain.nil, fun _ p hp => by cases hp⟩) ⟨start, fun _ _ => rfl, ?_, ?_⟩
    · exact fun i ids hi => by cases hi
    · exact fun i ids hi => by cases hi
  | cons ids l ih =>
    have hids : ids ≠ [] := hne ids mem_cons_self
    have hstep : (∀ s, Follows (held s) (start s) (pick s (ids :: l) (autoPos (ids :: l) start))) ↔
        (∀ s ∈ ids, held s → start (ids.headD 0) = start s) ∧
          ∀ s, Follows (held s ∨ s ∈ ids) (if s ∈ ids then start (ids.headD 0) + 1 else start s)
            (pick s l (autoPos l fun s => if s ∈ ids then start (ids.headD 0) + 1 else start s)) := by
      rw [autoPos]
      simp only [pick_cons]
      constructor
      · intro h
        refine ⟨fun s hs => ?_, fun s => ?_⟩
        · have hs' := h s
          rw [if_pos hs, follows_cons] at hs'
          exact hs'.1
        · have hs' := h s
          by_cases hs : s ∈ ids
          · rw [if_pos hs, follows_cons] at hs'
            rw [if_pos hs]
            exact ⟨hs'.2.1, fun _ => hs'.2.2 trivial⟩
          · rw [if_neg hs] at hs'
            rw [if_neg hs]
            exact ⟨hs'.1, fun hknown => hs'.2 (hknown.resolve_right hs)⟩
      · rintro ⟨hstart, h⟩ s
        have hs' := h s
        by_cases hs : s ∈ ids
        · rw [if_pos hs] at hs' ⊢
          exact (follows_cons).mpr ⟨hstart s hs, hs'.1, fun _ => hs'.2 (Or.inr hs)⟩
        · rw [if_neg hs] at hs' ⊢
          exact ⟨hs'.1, fun hknown => hs'.2 (Or.inl hknown)⟩
    rw [hstep, ih fun ids' hmem => hne ids' (mem_cons_of_mem _ hmem)]
    constructor
    · rintro ⟨hstart, first, hfits⟩
      -- The first positions of the sequences of this token are one less than what is left of them.
      have hmem : ∀ s ∈ ids, first s - (if s ∈ ids then 1 else 0) = start (ids.headD 0) := by
        intro s hs
        have hs' := hfits.held s (Or.inr hs)
        rw [if_pos hs] at hs'
        rw [if_pos hs, hs']
        omega
      refine ⟨fun s => first s - if s ∈ ids then 1 else 0, (fits_cons hids).mpr ⟨hmem, fun s hs => ?_, ?_⟩⟩
      · by_cases hin : s ∈ ids
        · exact (hmem s hin).trans (hstart s hin hs)
        · have hs' := hfits.held s (Or.inl hs)
          rw [if_neg hin] at hs'
          rw [if_neg hin, hs', Int.sub_zero]
      · simpa only [Int.sub_add_cancel] using hfits
    · rintro ⟨first, hfits⟩
      obtain ⟨hfirst, hheld, hrest⟩ := (fits_cons hids).mp hfits
      exact ⟨fun s hs hs' => (hfirst s hs).symm.trans (hheld s hs'), _, hrest⟩

theorem continues_iff {b : Batch} (hpos : b.pos = none) (s : ℕ) :
    (sanitize nPosPerEmbd b memory nSeqMax outputAll).Continues memory s ↔
      Follows (Held memory s) (startPos memory s)
        (pick s (fillSeqId b) (autoPos (fillSeqId b) (startPos memory))) := by
  have hfill : fillPos b memory = autoPos (fillSeqId b) (startPos memory) := by rw [fillPos, hpos]
  have hpositions : (sanitize nPosPerEmbd b memory nSeqMax outputAll).positionsOf s
      = pick s (fillSeqId b) (autoPos (fillSeqId b) (startPos memory)) := by
    rw [← pick_eq s _ _ (autoPos_length _ _), fillSeqId_length, ← hfill]
    rfl
  constructor
  · rintro ⟨hchain, hstart⟩
    rw [hpositions] at hchain hstart
    refine ⟨hchain, ?_⟩
    rintro ⟨m, hm, hheld⟩ p hp
    obtain rfl : memory = some m := hm
    exact hstart m rfl hheld p hp
  · rintro ⟨hchain, hstart⟩
    rw [← hpositions] at hchain hstart
    refine ⟨hchain, fun m hm hheld p hp => ?_⟩
    rw [hstart ⟨m, hm, hheld⟩ p hp]
    obtain rfl : memory = some m := hm
    rfl

/-- **Generated positions go on in every sequence** if and only if something in the batch is refused or there are first
positions that fit. -/
theorem init_continues_iff (nPosPerEmbd nVocab : ℕ) (b : Batch) (memory : Option Memory) (nSeqMax : ℕ)
    (outputAll : Bool) (hlist : b.Listed) (hpos : b.pos = none) :
    (∀ a, (init nPosPerEmbd nVocab b memory nSeqMax outputAll).value = .ok a → ∀ s, a.Continues memory s) ↔
      ¬ Passes nPosPerEmbd nVocab b memory nSeqMax outputAll ∨
        ∃ first, Fits (fillSeqId b) (startPos memory) (Held memory) first := by
  rw [forall_init_iff, ← follows_autoPos_iff (fillSeqId_ne hlist)]
  have hcont : (∀ s, (sanitize nPosPerEmbd b memory nSeqMax outputAll).Continues memory s) ↔
      ∀ s, Follows (Held memory s) (startPos memory s)
        (pick s (fillSeqId b) (autoPos (fillSeqId b) (startPos memory))) :=
    forall_congr' fun s => continues_iff hpos s
  rw [← hcont]
  -- The splitting state has nothing to do with the positions.
  exact or_congr_right (forall_congr' fun s => ⟨fun h => ⟨h.consecutive, h.start⟩, fun h => ⟨h.consecutive, h.start⟩⟩)

/-- Two sequences that come together. -/
theorem init_continues_joined :
    (∃ first, Fits (fillSeqId (Batch.unpositioned [[0], [0, 1]])) (startPos none) (Held none) first) ∧
      ∀ a, (init 1 1 (Batch.unpositioned [[0], [0, 1]]) none 2 false).value = .ok a →
        ∀ s, a.Continues none s := by
  have hfits : Fits (fillSeqId (Batch.unpositioned [[0], [0, 1]])) (startPos none) (Held none)
      fun s => s := by
    have hnone : ∀ s, ¬ Held none s := fun s ⟨m, hm, _⟩ => (by cases hm)
    refine (fits_cons (by decide)).mpr ⟨by decide, fun s hs => absurd hs (hnone s), ?_⟩
    refine (fits_cons (by decide)).mpr ⟨by decide, fun s hs => ?_, fun s hs => ?_, ?_, ?_⟩
    · obtain rfl := mem_singleton.mp (hs.resolve_left (hnone s))
      rfl
    · obtain hs | hs := hs
      · obtain rfl := mem_singleton.mp (hs.resolve_left (hnone s))
        rfl
      · obtain rfl | hs := mem_cons.mp hs
        · rfl
        · obtain rfl := mem_singleton.mp hs
          rfl
    · exact fun i ids hi => by cases hi
    · exact fun i ids hi => by cases hi
  exact ⟨⟨_, hfits⟩, (init_continues_iff 1 1 _ none 2 false (by decide) rfl).mpr (Or.inr ⟨_, hfits⟩)⟩

/-- Two sequences that come together after a different number of tokens. -/
theorem init_accepts_repeat :
    ∃ a, (init 1 1 (Batch.unpositioned [[0], [0], [1], [1, 0]]) none 2 false).value = .ok a ∧
      ¬ a.Continues none 0 := by
  refine ⟨(sanitize 1 (Batch.unpositioned [[0], [0], [1], [1, 0]]) none 2 false).splitReset, rfl, fun h => ?_⟩
  exact absurd h.consecutive (by decide)

end BatchAllocr
