import LlamaRafaelia.Grammar.Candidates

/-!
# The mask against acceptance

A token is masked if no stack can read its code points up to the first zero; it is not acceptable if no stack can read
all of them.  For the converse, a piece that is not clean is tried on a grammar of one string (`literal`).
-/

namespace Grammar

open List

variable {R : Type}

/-- A state of a grammar between two tokens. -/
structure Live (g : Grammar) : Prop where
  wellFormed : WellFormed g.rules
  notLeft : ¬ LeftRecursive g.rules
  stacks_ : Stacks g.rules g.stackSet
  nonempty : g.stackSet ≠ []
  partial_ : g.partialUtf8 = ⟨0, 0⟩
  awaiting : g.awaitingTrigger = false

/-! ### The mask -/

section

variable {vocab : Pieces} {g : Grammar} {allowEog : Bool}

theorem mem_candidatesFrom {cur : List (TokenData R)} {k : ℕ} {tok : Candidate} :
    tok ∈ candidatesFrom vocab g allowEog k cur ↔ ∃ j t d, cur[j]? = some t ∧
      (applyToken vocab g allowEog t).2 = some d ∧ tok = ⟨k + j, d.1, 0, d.2⟩ := by
  induction cur generalizing k with
  | nil => simp [candidatesFrom]
  | cons t cur ih =>
    have htail : (∃ j t' d, (t :: cur)[j]? = some t' ∧ (applyToken vocab g allowEog t').2 = some d ∧
        tok = ⟨k + j, d.1, 0, d.2⟩) ↔ (∃ d, (applyToken vocab g allowEog t).2 = some d ∧ tok = ⟨k, d.1, 0, d.2⟩) ∨
          tok ∈ candidatesFrom vocab g allowEog (k + 1) cur := by
      rw [ih]
      constructor
      · rintro ⟨j, t', d, hj, hd, htok⟩
        cases j with
        | zero =>
          obtain rfl : t = t' := by simpa using hj
          exact Or.inl ⟨d, hd, htok⟩
        | succ j => exact Or.inr ⟨j, t', d, by simpa using hj, hd, by rw [htok, Nat.add_right_comm, Nat.add_assoc]⟩
      · rintro (⟨d, hd, htok⟩ | ⟨j, t', d, hj, hd, htok⟩)
        · exact ⟨0, t, d, rfl, hd, htok⟩
        · exact ⟨j + 1, t', d, by simpa using hj, hd, by rw [htok, Nat.add_right_comm, Nat.add_assoc]⟩
    rw [htail, candidatesFrom]
    cases hd : (applyToken vocab g allowEog t).2 with
    | none => simp
    | some d => simp

theorem foldl_modify_mask (rejects : List Candidate) (data : List (TokenData R)) (i : ℕ) :
    (rejects.foldl (fun data reject => data.modify reject.index TokenData.mask) data)[i]?
      = (data[i]?).map fun t => if ∃ r ∈ rejects, r.index = i then t.mask else t := by
  induction rejects generalizing data with
  | nil => simp
  | cons r rejects ih =>
    rw [foldl_cons, ih, getElem?_modify]
    by_cases hr : r.index = i
    · cases hdata : data[i]? with
      | none => simp
      | some t =>
        by_cases hmem : ∃ r ∈ rejects, r.index = i
        · simp [hr, TokenData.mask]
        · simp [hr, TokenData.mask]
    · cases hdata : data[i]? with
      | none => simp
      | some t => simp [hr]

/-- The token keeps its logit exactly if `v` holds, in whatever list it comes. -/
def Verdict (R : Type) (vocab : Pieces) (g : Grammar) (id : ℕ) (v : Prop) : Prop :=
  ∀ (cur : List (TokenData R)) (i : ℕ) (logit : WithBot R), cur[i]? = some ⟨id, logit⟩ → ∃ F, ∀ fuel ≥ F, ∃ cur',
    applyImpl fuel vocab g cur = .ok cur' ∧ (v → cur'[i]? = some ⟨id, logit⟩) ∧ (¬ v → cur'[i]? = some ⟨id, ⊥⟩)

def Keeps (vocab : Pieces) (g : Grammar) (id : ℕ) : Prop :=
  if vocab.isEog id then g.stackSet.any List.isEmpty = true
  else vocab.tokenToPiece id ≠ [] ∧ (vocab.tokenToPiece id).headD 0 ≠ 0 ∧
    ∃ s ∈ g.stackSet, Takes g.rules s ((decodeUtf8 (vocab.tokenToPiece id) ⟨0, 0⟩).1.takeWhile (· ≠ 0))
      (decodeUtf8 (vocab.tokenToPiece id) ⟨0, 0⟩).2

/-- **The mask**: a token other than an end of generation is kept exactly if it does not start with a zero byte and
some stack can read it up to the first zero. -/
theorem applyImpl_spec (hg : Live g) (id : ℕ) : Verdict R vocab g id (Keeps vocab g id) := by
  intro cur i logit hi
  obtain ⟨F, rejects, hval, hmem⟩ := rejectCandidates_spec hg.wellFormed (acc_of_not_leftRecursive hg.notLeft)
    hg.nonempty hg.stacks_ (candidatesFrom vocab g (g.stackSet.any List.isEmpty) 0 cur)
  refine ⟨F, fun fuel hfuel => ⟨_, by rw [applyImpl, hg.awaiting]; simp only [hval fuel hfuel]; rfl, ?_⟩⟩
  have hdata : (cur.map fun t => (applyToken vocab g (g.stackSet.any List.isEmpty) t).1)[i]?
      = some (applyToken vocab g (g.stackSet.any List.isEmpty) ⟨id, logit⟩).1 := by
    rw [getElem?_map, hi]
    rfl
  rw [foldl_modify_mask, hdata, Option.map_some]
  -- the rejected candidates with this index
  have hrejected : (∃ r ∈ rejects, r.index = i) ↔
      ∃ d, (applyToken vocab g (g.stackSet.any List.isEmpty) (⟨id, logit⟩ : TokenData R)).2 = some d ∧
        ¬ ∃ s ∈ g.stackSet, Takes g.rules s (d.1.takeWhile (· ≠ 0)) d.2 := by
    constructor
    · rintro ⟨r, hr, rfl⟩
      obtain ⟨hcand, hnot⟩ := (hmem r).mp hr
      obtain ⟨j, t, d, hj, hd, rfl⟩ := (mem_candidatesFrom).mp hcand
      rw [Nat.zero_add, hj, Option.some.injEq] at hi
      exact ⟨d, hi ▸ hd, hnot⟩
    · rintro ⟨d, hd, hnot⟩
      exact ⟨⟨i, d.1, 0, d.2⟩, (hmem _).mpr ⟨(mem_candidatesFrom).mpr ⟨i, _, d, hi, hd, by rw [Nat.zero_add]⟩, hnot⟩, rfl⟩
  by_cases heog : vocab.isEog id = true
  · have hnone : ¬ ∃ r ∈ rejects, r.index = i := by
      rw [hrejected]
      simp [applyToken, heog]
    rw [if_neg hnone]
    cases hallow : g.stackSet.any List.isEmpty with
    | true => simp [applyToken, Keeps, heog, hallow]
    | false => simp [applyToken, Keeps, heog, hallow, TokenData.mask]
  · by_cases hpiece : vocab.tokenToPiece id = [] ∨ (vocab.tokenToPiece id).headD 0 = 0
    · have happly : applyToken vocab g (g.stackSet.any List.isEmpty) (⟨id, logit⟩ : TokenData R)
          = (⟨id, ⊥⟩, none) := by
        simp only [applyToken, heog, Bool.false_eq_true, if_false, if_pos hpiece]
        rfl
      rw [happly] at hrejected ⊢
      refine ⟨fun h => ?_, fun _ => ?_⟩
      · rw [Keeps, if_neg heog] at h
        rcases hpiece with hpiece | hpiece
        · exact absurd hpiece h.1
        · exact absurd hpiece h.2.1
      · split
        · rfl
        · rfl
    · have happly : applyToken vocab g (g.stackSet.any List.isEmpty) (⟨id, logit⟩ : TokenData R)
          = (⟨id, logit⟩, some (decodeUtf8 (vocab.tokenToPiece id) ⟨0, 0⟩)) := by
        simp only [applyToken, heog, Bool.false_eq_true, if_false, if_neg hpiece, hg.partial_]
      rw [happly] at hrejected ⊢
      simp only [Option.some.injEq, exists_eq_left'] at hrejected
      rw [not_or] at hpiece
      rw [Keeps, if_neg heog]
      refine ⟨fun h => ?_, fun h => ?_⟩
      · rw [if_neg fun hr => hrejected.mp hr h.2.2]
      · rw [if_pos (hrejected.mpr fun htakes => h ⟨hpiece.1, hpiece.2, htakes⟩)]
        rfl

theorem Verdict.unique [Inhabited R] {id : ℕ} {v v' : Prop} (h : Verdict R vocab g id v)
    (h' : Verdict R vocab g id v') : v → v' := by
  intro hv
  by_contra hv'
  obtain ⟨F, hF⟩ := h [⟨id, (default : R)⟩] 0 (default : R) rfl
  obtain ⟨F', hF'⟩ := h' [⟨id, (default : R)⟩] 0 (default : R) rfl
  obtain ⟨cur, hval, hkeep, -⟩ := hF (max F F') (le_max_left F F')
  obtain ⟨cur', hval', -, hmask⟩ := hF' (max F F') (le_max_right F F')
  rw [hval, Except.ok.injEq] at hval'
  have heq := (hkeep hv).symm.trans (hval' ▸ hmask hv')
  simp only [Option.some.injEq, TokenData.mk.injEq, true_and] at heq
  exact WithBot.coe_ne_bot heq

end

/-! ### Acceptance -/

/-- `accept_str` returns, and throws exactly if `b` holds. -/
def Throws (g : Grammar) (piece : List UInt8) (b : Prop) : Prop :=
  ∃ F, ∀ fuel ≥ F, ∃ g' thrown, acceptStr fuel g piece = .ok (g', thrown) ∧ (thrown = true ↔ b)

/-- **Acceptance**: `accept_str` throws exactly if no stack can read the code points. -/
theorem acceptStr_spec {g : Grammar} (hg : Live g) (piece : List UInt8) :
    Throws g piece (¬ ∃ s ∈ g.stackSet, ∃ t, Run g.rules s (decodeUtf8 piece ⟨0, 0⟩).1.dropLast t) := by
  obtain ⟨F, l, hval, -, hmem⟩ := acceptAll_spec hg.wellFormed (acc_of_not_leftRecursive hg.notLeft)
    (decodeUtf8 piece ⟨0, 0⟩).1.dropLast rfl hg.stacks_
  refine ⟨F, fun fuel hfuel => ⟨{ g with stackSet := l, partialUtf8 := (decodeUtf8 piece ⟨0, 0⟩).2 }, l.isEmpty,
    ?_, ?_⟩⟩
  · simp only [acceptStr, hg.partial_, hval fuel hfuel]
    rfl
  · rw [List.isEmpty_iff, eq_nil_iff_forall_not_mem]
    simp only [hmem]
    constructor
    · rintro hno ⟨s, hs, t, hrun⟩
      exact hno t ⟨s, hs, hrun⟩
    · rintro hno t ⟨s, hs, hrun⟩
      exact hno ⟨s, hs, t, hrun⟩

theorem Throws.unique {g : Grammar} {piece : List UInt8} {b b' : Prop} (h : Throws g piece b)
    (h' : Throws g piece b') : b ↔ b' := by
  obtain ⟨F, hF⟩ := h
  obtain ⟨F', hF'⟩ := h'
  obtain ⟨g₁, t₁, hval, hb⟩ := hF (max F F') (le_max_left F F')
  obtain ⟨g₂, t₂, hval', hb'⟩ := hF' (max F F') (le_max_right F F')
  rw [hval, Except.ok.injEq, Prod.mk.injEq] at hval'
  rw [← hb, ← hb', hval'.2]

/-! ### Decoded pieces -/

theorem decodeTail_nonneg (bs : List ℕ) (value : ℕ) (n : ℤ) (hn : 0 ≤ n) : 0 ≤ (decodeTail bs value n).2.2 := by
  induction bs generalizing value n with
  | nil => exact hn
  | cons b bs ih =>
    rw [decodeTail]
    split
    · exact ih _ _ (by omega)
    · exact hn

theorem decodeLoop_invalid (fuel : ℕ) (bs cps : List ℕ) (st : PartialUtf8) (hst : 0 ≤ st.nRemain)
    (h : (decodeLoop fuel bs cps st).2.nRemain < 0) : (decodeLoop fuel bs cps st).1 = [0] := by
  induction fuel generalizing bs cps st with
  | zero => exact absurd h (not_lt.mpr hst)
  | succ fuel ih =>
    cases bs with
    | nil => exact absurd h (not_lt.mpr hst)
    | cons b bs =>
      rw [decodeLoop] at h ⊢
      split at h
      · next hneg => rw [if_pos hneg]
      · next hneg =>
        rw [if_neg hneg]
        exact ih _ _ _ (decodeTail_nonneg _ _ _ (by omega)) h

theorem decodeUtf8_invalid {piece : List UInt8} (h : (decodeUtf8 piece ⟨0, 0⟩).2.nRemain < 0) :
    (decodeUtf8 piece ⟨0, 0⟩).1 = [0] := by
  cases hbytes : cString piece with
  | nil => simp [decodeUtf8, hbytes, continueDecode, decodeLoop]
  | cons b bs =>
    simp only [decodeUtf8, hbytes, continueDecode, lt_self_iff_false, if_false, false_and] at h ⊢
    exact decodeLoop_invalid _ _ _ _ (le_refl 0) h

theorem decodeUtf8_zero {piece : List UInt8} (h : piece.headD 0 = 0) :
    decodeUtf8 piece ⟨0, 0⟩ = ([0], ⟨0, 0⟩) := by
  have hbytes : cString piece = [] := by
    cases piece with
    | nil => rfl
    | cons b bs =>
      obtain rfl : b = 0 := h
      rfl
  simp [decodeUtf8, hbytes, continueDecode, decodeLoop]

/-! ### A grammar of one string -/

def literalRule (l : List ℕ) : List Element := l.map (fun c => ⟨.char, c⟩) ++ [⟨.endOfRule, 0⟩]

def literal (l : List ℕ) : Grammar := ⟨[literalRule l], [[⟨0, 0⟩]], ⟨0, 0⟩, false⟩

theorem wellFormedFrom_literal (l : List ℕ) (prev : Gretype) : wellFormedFrom 1 prev (literalRule l) = true := by
  induction l generalizing prev with
  | nil => rfl
  | cons c l ih => exact ih .char

theorem altsFrom_literal (l : List ℕ) (i : ℕ) : altsFrom (literalRule l) i = [] := by
  induction l generalizing i with
  | nil => rfl
  | cons c l ih => exact ih (i + 1)

theorem elemsAt_literal (l : List ℕ) (k : ℕ) (hk : k ≤ l.length) :
    Rules.elemsAt [literalRule l] ⟨0, k⟩ = literalRule (l.drop k) := by
  show (literalRule l).drop k = literalRule (l.drop k)
  rw [literalRule, drop_append_of_le_length (by simpa using hk), ← map_drop]
  rfl

theorem literal_live (c : ℕ) (l : List ℕ) : Live (literal (c :: l)) where
  wellFormed := by
    intro rule hrule
    obtain rfl := mem_singleton.mp hrule
    exact wellFormedFrom_literal _ _
  notLeft := by
    refine not_leftRecursive_of_chars fun rule hrule i hi => ?_
    obtain rfl := mem_singleton.mp hrule
    rw [altStarts, altsFrom_literal] at hi
    obtain rfl := mem_singleton.mp hi
    rfl
  stacks_ := by
    intro s hs
    obtain rfl := mem_singleton.mp hs
    refine ⟨fun p hp => ?_, fun htype => by cases htype⟩
    obtain rfl := mem_singleton.mp hp
    exact ⟨⟨.alt, ⟨.char, c⟩, literalRule l, rfl, rfl, wellFormedFrom_literal (c :: l) .alt⟩, rfl⟩
  nonempty := cons_ne_nil _ _
  partial_ := rfl
  awaiting := rfl

theorem matchChar_literal {l : List ℕ} {k c : ℕ} {rest : List ℕ} (h : l.drop k = c :: rest) (chr : ℕ) :
    matchChar [literalRule l] ⟨0, k⟩ chr = .ok (decide (c = chr), ⟨0, k + 1⟩) := by
  have hk : k ≤ l.length := by
    by_contra hk
    rw [drop_eq_nil_of_le (by omega)] at h
    cases h
  have helems := elemsAt_literal l k hk
  rw [h] at helems
  have hloop : matchLoop chr (literalRule (c :: rest)) false 0 = (decide (c = chr), 1) := by
    cases rest with
    | nil => simp [literalRule, matchLoop]
    | cons c' rest => simp [literalRule, matchLoop]
  have helem : Rules.elemAt [literalRule l] ⟨0, k⟩ = ⟨.char, c⟩ := elemAt_of_elemsAt helems
  simp only [matchChar, helem, helems, hloop]
  simp [Pos.add]

theorem next_literal {l : List ℕ} {k c : ℕ} {rest : List ℕ} (h : l.drop k = c :: rest) {chr : ℕ} {t : Stack} :
    Next [literalRule l] chr [⟨0, k⟩] t ↔ c = chr ∧ t = push [literalRule l] ⟨0, k + 1⟩ [] := by
  have hready : Ready [literalRule l] (push [literalRule l] ⟨0, k + 1⟩ []) := by
    unfold push
    split
    · trivial
    · next hend =>
      have hk : k + 1 ≤ l.length := by
        by_contra hk
        rw [drop_eq_nil_of_le (by omega)] at h
        cases h
      have helems := elemsAt_literal l (k + 1) hk
      show (Rules.elemAt [literalRule l] ⟨0, k + 1⟩).type ≠ .ruleRef
      cases hdrop : l.drop (k + 1) with
      | nil =>
        rw [hdrop] at helems
        have helem : Rules.elemAt [literalRule l] ⟨0, k + 1⟩ = ⟨.endOfRule, 0⟩ := elemAt_of_elemsAt helems
        rw [helem]
        decide
      | cons c' rest' =>
        rw [hdrop] at helems
        have helem : Rules.elemAt [literalRule l] ⟨0, k + 1⟩ = ⟨.char, c'⟩ := elemAt_of_elemsAt helems
        rw [helem]
        exact fun hc => by cases hc
  constructor
  · rintro ⟨p, rest', q, heq, hmatch, hreach⟩
    obtain ⟨rfl, rfl⟩ := List.cons.inj heq
    rw [matchChar_literal h, Except.ok.injEq, Prod.mk.injEq, decide_eq_true_eq] at hmatch
    obtain ⟨hc, rfl⟩ := hmatch
    exact ⟨hc, (reaches_of_ready hready).mp hreach⟩
  · rintro ⟨rfl, rfl⟩
    exact ⟨_, [], _, rfl, by rw [matchChar_literal h, decide_eq_true rfl], (reaches_of_ready hready).mpr rfl⟩

theorem push_literal {l : List ℕ} {k c : ℕ} {rest : List ℕ} (h : l.drop k = c :: rest) :
    push [literalRule l] ⟨0, k⟩ [] = [⟨0, k⟩] := by
  have hk : k ≤ l.length := by
    by_contra hk
    rw [drop_eq_nil_of_le (by omega)] at h
    cases h
  have helems := elemsAt_literal l k hk
  rw [h] at helems
  have helem : Rules.elemAt [literalRule l] ⟨0, k⟩ = ⟨.char, c⟩ := elemAt_of_elemsAt helems
  rw [push, helem]
  rfl

theorem run_literal {l w : List ℕ} {c chr : ℕ} {rest v : List ℕ} {k : ℕ} (h : l.drop k = w ++ c :: rest)
    (hne : c ≠ chr) :
    (∃ t, Run [literalRule l] [⟨0, k⟩] w t) ∧ ¬ ∃ t, Run [literalRule l] [⟨0, k⟩] (w ++ chr :: v) t := by
  induction w generalizing k with
  | nil =>
    refine ⟨⟨_, rfl⟩, ?_⟩
    rintro ⟨t, u, hnext, -⟩
    exact hne ((next_literal h).mp hnext).1
  | cons d w ih =>
    have hdrop : l.drop (k + 1) = w ++ c :: rest := by
      rw [← drop_drop, h]
      rfl
    have hpush : push [literalRule l] ⟨0, k + 1⟩ [] = [⟨0, k + 1⟩] := by
      cases w with
      | nil => exact push_literal hdrop
      | cons d' w => exact push_literal hdrop
    obtain ⟨⟨t, ht⟩, hnot⟩ := ih hdrop
    refine ⟨⟨t, _, (next_literal h).mpr ⟨rfl, hpush.symm⟩, ht⟩, ?_⟩
    rintro ⟨t, u, hnext, hrun⟩
    obtain ⟨-, rfl⟩ := (next_literal h).mp hnext
    rw [hpush] at hrun
    exact hnot ⟨t, hrun⟩

/-! ### When the two agree -/

/-- A piece without a leading zero byte that the decoder reads to its end, and without encodings of zero. -/
def Clean (piece : List UInt8) : Prop :=
  piece.headD 0 ≠ 0 ∧ (decodeUtf8 piece ⟨0, 0⟩).2.nRemain = 0 ∧ 0 ∉ (decodeUtf8 piece ⟨0, 0⟩).1.dropLast

instance (piece : List UInt8) : Decidable (Clean piece) :=
  inferInstanceAs (Decidable (_ ∧ _ ∧ _))

theorem fits_of_nRemain {rules : Rules} {s : Stack} {st : PartialUtf8} (h : st.nRemain = 0) : Fits rules s st := by
  cases s with
  | nil => exact h
  | cons p s => exact Or.inl h

theorem not_fits_of_neg {rules : Rules} {s : Stack} {st : PartialUtf8} (h : st.nRemain < 0) : ¬ Fits rules s st := by
  intro hfits
  cases s with
  | nil => exact absurd h (by rw [show st.nRemain = 0 from hfits]; exact lt_irrefl 0)
  | cons p s =>
    rcases hfits with hfits | hfits
    · omega
    · unfold matchPartialChar at hfits
      simp only [h, true_or, if_true] at hfits
      split at hfits
      · cases hfits
      · cases hfits

section

variable {vocab : Pieces} {id : ℕ}

theorem Clean.agree {g : Grammar} (hg : Live g) (heog : vocab.isEog id = false) (hne : vocab.tokenToPiece id ≠ [])
    (h : Clean (vocab.tokenToPiece id)) : Throws g (vocab.tokenToPiece id) (¬ Keeps vocab g id) := by
  obtain ⟨hhead, hremain, hzero⟩ := h
  obtain ⟨l, hl⟩ := decodeUtf8_ends (vocab.tokenToPiece id) ⟨0, 0⟩
  have hdrop : (decodeUtf8 (vocab.tokenToPiece id) ⟨0, 0⟩).1.dropLast = l := by rw [hl, dropLast_concat]
  have htake : (decodeUtf8 (vocab.tokenToPiece id) ⟨0, 0⟩).1.takeWhile (· ≠ 0) = l := by
    rw [hdrop] at hzero
    rw [hl, takeWhile_append_of_pos fun c hc => by simpa using fun h0 : c = 0 => hzero (h0 ▸ hc)]
    simp
  have hkeeps : Keeps vocab g id ↔ ∃ s ∈ g.stackSet, ∃ t, Run g.rules s l t := by
    rw [Keeps, heog, if_neg (by decide), htake]
    simp only [hne, hhead, ne_eq, not_false_eq_true, true_and, Takes, fits_of_nRemain hremain, and_true]
  have hthrows := acceptStr_spec hg (vocab.tokenToPiece id)
  rw [hdrop, ← hkeeps] at hthrows
  exact hthrows

theorem not_agree_of_not_clean (heog : vocab.isEog id = false)
    (hend : (decodeUtf8 (vocab.tokenToPiece id) ⟨0, 0⟩).2.nRemain ≤ 0) (h : ¬ Clean (vocab.tokenToPiece id)) :
    ∃ g, Live g ∧ ¬ Throws g (vocab.tokenToPiece id) (¬ Keeps vocab g id) := by
  -- nothing is read, so that acceptance succeeds, but the token is masked
  have hnothing : (decodeUtf8 (vocab.tokenToPiece id) ⟨0, 0⟩).1.dropLast = [] → ¬ Keeps vocab (literal [1]) id →
      ∃ g, Live g ∧ ¬ Throws g (vocab.tokenToPiece id) (¬ Keeps vocab g id) := by
    intro hnil hnot
    refine ⟨literal [1], literal_live 1 [], fun hthrows => ?_⟩
    have hread := (hthrows.unique (acceptStr_spec (literal_live 1 []) _)).mp hnot
    rw [hnil] at hread
    exact hread ⟨[⟨0, 0⟩], mem_singleton.mpr rfl, _, rfl⟩
  by_cases hhead : (vocab.tokenToPiece id).headD 0 = 0
  · refine hnothing (by rw [decodeUtf8_zero hhead]; rfl) fun hkeeps => ?_
    rw [Keeps, heog, if_neg (by decide)] at hkeeps
    exact hkeeps.2.1 hhead
  · by_cases hremain : (decodeUtf8 (vocab.tokenToPiece id) ⟨0, 0⟩).2.nRemain = 0
    · -- the code points before the zero, and a one behind them
      have hzero : 0 ∈ (decodeUtf8 (vocab.tokenToPiece id) ⟨0, 0⟩).1.dropLast := by
        by_contra hzero
        exact h ⟨hhead, hremain, hzero⟩
      obtain ⟨l, hl⟩ := decodeUtf8_ends (vocab.tokenToPiece id) ⟨0, 0⟩
      rw [hl, dropLast_concat] at hzero
      obtain ⟨w, v, hwv, hw⟩ := eq_append_cons_of_mem hzero
      have htake : (decodeUtf8 (vocab.tokenToPiece id) ⟨0, 0⟩).1.takeWhile (· ≠ 0) = w := by
        rw [hl, hwv, append_assoc,
          takeWhile_append_of_pos fun c hc => by simpa using fun h0 : c = 0 => hw (h0 ▸ hc)]
        simp
      have hlive : Live (literal (w ++ [1])) := by
        cases w with
        | nil => exact literal_live 1 []
        | cons c w => exact literal_live c (w ++ [1])
      obtain ⟨⟨t, hrun⟩, hnot⟩ := run_literal (l := w ++ [1]) (k := 0) (w := w) (c := 1) (v := v) rfl one_ne_zero
      refine ⟨literal (w ++ [1]), hlive, fun hthrows => ?_⟩
      have hiff := hthrows.unique (acceptStr_spec hlive _)
      rw [not_iff_not] at hiff
      by_cases hne : vocab.tokenToPiece id = []
      · rw [hne] at hhead
        exact hhead rfl
      · have hkeeps : Keeps vocab (literal (w ++ [1])) id := by
          rw [Keeps, heog, if_neg (by decide), htake]
          exact ⟨hne, hhead, _, mem_singleton.mpr rfl, t, hrun, fits_of_nRemain hremain⟩
        obtain ⟨s, hs, t', hrun'⟩ := hiff.mp hkeeps
        obtain rfl := mem_singleton.mp hs
        rw [hl, dropLast_concat, hwv] at hrun'
        exact hnot ⟨t', hrun'⟩
    · have hneg : (decodeUtf8 (vocab.tokenToPiece id) ⟨0, 0⟩).2.nRemain < 0 := by omega
      have hone := decodeUtf8_invalid hneg
      refine hnothing (by rw [hone]; rfl) fun hkeeps => ?_
      rw [Keeps, heog, if_neg (by decide), hone] at hkeeps
      obtain ⟨-, -, s, -, htakes⟩ := hkeeps
      exact not_fits_of_neg hneg ((takes_nil).mp htakes)

end

/-- **When the mask and acceptance agree.**  The verdict on a token never depends on the other candidates.  For a
token whose piece does not break off inside a sequence, in every state the logit is left as it is exactly if
`accept_str` does not throw, if and only if the piece is clean. -/
theorem mask_exact (R : Type) [Inhabited R] (vocab : Pieces) :
    (∀ g id, Live g → ∃ v, Verdict R vocab g id v) ∧
      ∀ id, vocab.isEog id = false → vocab.tokenToPiece id ≠ [] →
        (decodeUtf8 (vocab.tokenToPiece id) ⟨0, 0⟩).2.nRemain ≤ 0 →
        ((∀ g, Live g → ∃ v, Verdict R vocab g id v ∧ Throws g (vocab.tokenToPiece id) (¬ v)) ↔
          Clean (vocab.tokenToPiece id)) := by
  refine ⟨fun g id hg => ⟨_, applyImpl_spec hg id⟩, fun id heog hne hend => ⟨fun hagree => ?_, fun hclean g hg => ?_⟩⟩
  · by_contra hclean
    obtain ⟨g, hg, hdiffer⟩ := not_agree_of_not_clean heog hend hclean
    obtain ⟨v, hverdict, hthrows⟩ := hagree g hg
    have hv : v ↔ Keeps vocab g id :=
      ⟨hverdict.unique (applyImpl_spec hg id), (applyImpl_spec hg id).unique hverdict⟩
    rw [hv] at hthrows
    exact hdiffer hthrows
  · exact ⟨_, applyImpl_spec hg id, hclean.agree hg heog hne⟩

/-- Token 0 is the letter `a`, token 1 the encoding of zero in two bytes. -/
def twoPieces : Pieces := ⟨fun id => if id = 0 then [97] else [0xC0, 0x80], fun _ => false⟩

theorem mask_exact_letter : ∃ v, Verdict ℕ twoPieces (literal [97]) 0 v ∧ Throws (literal [97]) [97] (¬ v) := by
  have hclean : Clean (twoPieces.tokenToPiece 0) := by decide
  exact ((mask_exact ℕ twoPieces).2 0 rfl (by decide) (by decide)).mpr hclean (literal [97]) (literal_live 97 [])

/-- The encoding of zero in two bytes ends on a complete code point.  Where the grammar wants another character its
logit is left as it is, but `accept_str` throws. -/
theorem overlong_zero_kept :
    (decodeUtf8 [0xC0, 0x80] ⟨0, 0⟩).2.nRemain = 0 ∧ Live (literal [1]) ∧ Verdict ℕ twoPieces (literal [1]) 1 True ∧
      Throws (literal [1]) (twoPieces.tokenToPiece 1) True := by
  refine ⟨by decide, literal_live 1 [], ?_, ?_⟩
  · have hkeeps : Keeps twoPieces (literal [1]) 1 :=
      ⟨by decide, by decide, [⟨0, 0⟩], mem_singleton.mpr rfl, _, rfl, Or.inl (by decide)⟩
    have hverdict : Verdict ℕ twoPieces (literal [1]) 1 _ := applyImpl_spec (R := ℕ) (literal_live 1 []) 1
    rw [eq_true hkeeps] at hverdict
    exact hverdict
  · obtain ⟨-, hnot⟩ := run_literal (l := [1]) (k := 0) (w := []) (c := 1) (v := []) rfl one_ne_zero
    have hthrows := acceptStr_spec (literal_live 1 []) (twoPieces.tokenToPiece 1)
    have hunread : ¬ ∃ s ∈ (literal [1]).stackSet, ∃ t,
        Run (literal [1]).rules s (decodeUtf8 (twoPieces.tokenToPiece 1) ⟨0, 0⟩).1.dropLast t := by
      rintro ⟨s, hs, t, hrun⟩
      obtain rfl := mem_singleton.mp hs
      exact hnot ⟨t, hrun⟩
    rw [eq_true hunread] at hthrows
    exact hthrows

end Grammar
