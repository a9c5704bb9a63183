import LlamaRafaelia.Lib.Rescan
import LlamaRafaelia.Tokenizer.Bpe
import LlamaRafaelia.Tokenizer.Spm
import Mathlib.Data.Prod.Lex

/-!
# The queue against rescanning

A session looks at neighbours once, when they meet, and finds the best ones in its queue.  An entry does not say how
long its symbols were; but a symbol keeps its pointer, so the check of the total length (SPM) or of the text (BPE)
finds everything.

* `Made.rank_eq` - **an entry that is not outdated is the one of the symbols as they are now**.
-/

namespace Tokenizer

open List Linked Except Rescan

variable {β μ ε κ : Type} [LinearOrder κ]

/-- The promises: an entry has the rank of its two symbols, an entry that is not outdated says how long the right one is,
and the queue is ordered by ranks and then by the left symbol. -/
structure Ranked (R : Rules β μ ε) (text : List UInt8) (rank : List UInt8 → List UInt8 → Option κ) (key : β → κ) :
    Prop where
  add : ∀ (l r : ℕ) {a b : Slice}, a.Meets b → a.text <:+ text → ∃ added, R.bigram? l r a b = .ok added ∧
    added.map key = rank a.piece b.piece ∧
      ∀ e, added = some e → R.left e = l ∧ R.right e = r ∧ R.outdated e a b = false
  alive : ∀ {e : β} {a b : Slice}, R.outdated e a b = false → 0 < a.n ∧ 0 < b.n
  right_n : ∀ {e : β} {a b b' : Slice}, a.Meets b → a.Meets b' → R.outdated e a b = false → R.outdated e a b' = false →
    b.n = b'.n
  below : ∀ e e', R.below e e' = true ↔ key e' < key e ∨ key e' = key e ∧ R.left e' < R.left e

def Made (R : Rules β μ ε) (rank : List UInt8 → List UInt8 → Option κ) (key : β → κ) (w : Work β μ) : Prop :=
  ∀ e ∈ w.queue, ∃ a b : Slice, a.Meets b ∧ a.text = (w.symbols (R.left e)).text ∧
    b.text = (w.symbols (R.right e)).text ∧ R.outdated e a b = false ∧ rank a.piece b.piece = some (key e)

section

variable {R : Rules β μ ε} {text : List UInt8} {rank : List UInt8 → List UInt8 → Option κ} {key : β → κ} {count : ℕ}
  {w : Work β μ} {ids : List ℕ} {untried : ℕ → ℕ → Prop}

theorem popTop_first {below : β → β → Bool} {κ' : Type} [LinearOrder κ'] {order : β → κ'}
    (hbelow : ∀ e e', below e e' = true ↔ order e' < order e) {queue others : List β} {top : β}
    (h : popTop below queue = some (top, others)) : ∀ e ∈ queue, order top ≤ order e := by
  induction queue generalizing top others with
  | nil => cases h
  | cons e es ih =>
    rw [popTop] at h
    cases hpop : popTop below es with
    | none =>
      rw [hpop] at h
      obtain ⟨rfl, -⟩ := Prod.mk.inj (Option.some.inj h)
      rw [popTop_eq_none hpop]
      intro e' he'
      rw [mem_singleton.mp he']
    | some pair =>
      obtain ⟨top', others'⟩ := pair
      rw [hpop] at h
      have hes := ih hpop
      dsimp only at h
      split at h
      · next hlt =>
        obtain ⟨rfl, -⟩ := Prod.mk.inj (Option.some.inj h)
        intro e' he'
        obtain rfl | he' := mem_cons.mp he'
        · exact le_of_lt ((hbelow _ _).mp hlt)
        · exact hes e' he'
      · next hle =>
        obtain ⟨rfl, -⟩ := Prod.mk.inj (Option.some.inj h)
        have hle : order e ≤ order top' := not_lt.mp fun hlt => hle ((hbelow _ _).mpr hlt)
        intro e' he'
        obtain rfl | he' := mem_cons.mp he'
        · exact le_refl _
        · exact le_trans hle (hes e' he')

theorem Ranked.lawful (h : Ranked R text rank key) :
    Lawful R text (fun _ => True) (fun _ _ => True) fun _ => True := by
  refine ⟨?_, fun _ _ _ => trivial, h.alive⟩
  intro l r a b hmeets hsuffix
  obtain ⟨added, hbigram, -, hentry⟩ := h.add l r hmeets hsuffix
  refine ⟨added, hbigram, fun e he => ?_⟩
  obtain ⟨hleft, hright, hfresh⟩ := hentry e he
  exact ⟨hleft, hright, trivial, hfresh, fun _ _ => trivial⟩

theorem Slice.Meets.left_n {a b a' b' : Slice} (h : a.Meets b) (h' : a'.Meets b') (ha : a.text = a'.text)
    (hb : b.text = b'.text) : a.n = a'.n := by
  have hlen := congrArg List.length h.text_eq
  have hlen' := congrArg List.length h'.text_eq
  have hle := h.left_le
  have hle' := h'.left_le
  rw [length_drop] at hlen hlen'
  rw [hb, ha] at hlen
  rw [ha] at hle
  omega

/-- **An entry that is not outdated** has the rank of its two symbols as they are now. -/
theorem Made.rank_eq (laws : Ranked R text rank key) (hmade : Made R rank key w) {e : β} (he : e ∈ w.queue)
    (hmeets : (w.symbols (R.left e)).toSlice.Meets (w.symbols (R.right e)).toSlice)
    (hfresh : R.outdated e (w.symbols (R.left e)).toSlice (w.symbols (R.right e)).toSlice = false) :
    rank (w.symbols (R.left e)).toSlice.piece (w.symbols (R.right e)).toSlice.piece = some (key e) := by
  obtain ⟨a, b, hab, ha, hb, hab', hrank⟩ := hmade e he
  have haeq : a = (w.symbols (R.left e)).toSlice := by
    have hn := hab.left_n hmeets ha hb
    cases a
    exact congrArg₂ Slice.mk ha hn
  rw [haeq] at hab hab' hrank
  have hbeq : b = (w.symbols (R.right e)).toSlice := by
    have hn := laws.right_n hab hmeets hab' hfresh
    cases b
    exact congrArg₂ Slice.mk hb hn
  rw [← hbeq]
  exact hrank

omit [LinearOrder κ] in
theorem Made.mono {w' : Work β μ} (hmade : Made R rank key w) (htext : ∀ i, (w'.symbols i).text = (w.symbols i).text)
    (hqueue : ∀ e ∈ w'.queue, e ∈ w.queue) : Made R rank key w' := by
  intro e he
  rw [htext, htext]
  exact hmade e (hqueue e he)

theorem tryAdd_symbols {l? r? : Option ℕ} {w' : Work β μ} (h : R.tryAdd w l? r? = .ok w') : w'.symbols = w.symbols := by
  cases l? with
  | none =>
    obtain rfl : w = w' := ok.inj (by cases r? <;> exact h)
    rfl
  | some l =>
    cases r? with
    | none =>
      obtain rfl : w = w' := ok.inj h
      rfl
    | some r =>
      rw [Rules.tryAdd] at h
      cases hbigram : R.bigram? l r (w.symbols l).toSlice (w.symbols r).toSlice with
      | error err =>
        rw [hbigram] at h
        cases h
      | ok added =>
        rw [hbigram] at h
        cases added with
        | none =>
          obtain rfl : w = w' := ok.inj h
          rfl
        | some e =>
          obtain rfl := ok.inj h
          rfl

theorem Made.tryAdd (laws : Ranked R text rank key) (hmade : Made R rank key w) (hchain : Chain w.symbols count text ids)
    {l? r? : Option ℕ} (hadj : ∀ l r, l? = some l → r? = some r → Adjacent ids l r) {w' : Work β μ}
    (hadd : R.tryAdd w l? r? = .ok w') : Made R rank key w' := by
  cases l? with
  | none =>
    obtain rfl : w = w' := ok.inj (by cases r? <;> exact hadd)
    exact hmade
  | some l =>
    cases r? with
    | none =>
      obtain rfl : w = w' := ok.inj hadd
      exact hmade
    | some r =>
      obtain ⟨hmeets, hsuffix⟩ := hchain.meets (hadj l r rfl rfl)
      obtain ⟨added, hbigram, hrank, hentry⟩ := laws.add l r hmeets hsuffix
      rw [Rules.tryAdd, hbigram] at hadd
      cases added with
      | none =>
        obtain rfl : w = w' := ok.inj hadd
        exact hmade
      | some e =>
        obtain ⟨hleft, hright, hfresh⟩ := hentry e rfl
        obtain rfl := ok.inj hadd
        intro e' he'
        obtain rfl | he' := mem_cons.mp he'
        · dsimp only
          rw [hleft, hright]
          exact ⟨_, _, hmeets, rfl, rfl, hfresh, hrank.symm⟩
        · exact hmade e' he'

/-! ### The loop -/

theorem exists_of_pieces {S : Symbols} {xs ys : List (List UInt8)} {a b : List UInt8}
    (h : pieces S ids = xs ++ a :: b :: ys) : ∃ is l r js, ids = is ++ l :: r :: js ∧ is.length = xs.length ∧
      a = (S l).toSlice.piece ∧ b = (S r).toSlice.piece := by
  obtain ⟨is, rest, rfl, rfl, hleft⟩ := map_eq_append_iff.mp h
  obtain ⟨l, rest, rfl, rfl, hright⟩ := map_eq_cons_iff.mp hleft
  obtain ⟨r, js, rfl, rfl, -⟩ := map_eq_cons_iff.mp hright
  exact ⟨is, l, r, js, rfl, (length_map _).symm, rfl, rfl⟩

theorem length_le_of_le {is js is' js' : List ℕ} {l l' : ℕ} (hsorted : (is ++ l :: js).Pairwise (· < ·))
    (h : is ++ l :: js = is' ++ l' :: js') (hle : l ≤ l') : is.length ≤ is'.length := by
  obtain ⟨front, rfl, -⟩ | ⟨back, rfl, hback⟩ := append_eq_append_iff.mp h
  · rw [length_append]
    exact Nat.le_add_right _ _
  · cases back with
    | nil => rw [append_nil]
    | cons x back =>
      obtain ⟨rfl, -⟩ := List.cons.inj hback
      have hlt := (pairwise_append.mp hsorted).2.2 l' (by simp) l mem_cons_self
      exact absurd hlt (Nat.not_lt.mpr hle)

theorem best_of_empty (laws : Ranked R text rank key)
    (h : Inv R count text (fun _ _ => True) (fun _ => True) (fun _ _ => False) w ids) (hempty : w.queue = []) :
    best rank (pieces w.symbols ids) = none := by
  refine best_eq_none fun xs a b ys hpieces => ?_
  obtain ⟨is, l, r, js, rfl, -, rfl, rfl⟩ := exists_of_pieces hpieces
  have hadj : Adjacent (is ++ l :: r :: js) l r := ⟨is, js, rfl⟩
  obtain hnone | ⟨e, he, -⟩ := (h.complete l r hadj).resolve_left id
  · obtain ⟨hmeets, hsuffix⟩ := h.chain.meets hadj
    obtain ⟨added, hbigram, hrank, -⟩ := laws.add l r hmeets hsuffix
    rw [hnone] at hbigram
    rw [← hrank, ← ok.inj hbigram]
    rfl
  · rw [hempty] at he
    cases he

/-- **The entry that comes up**, if it is not outdated, is of the pair that rescanning finds. -/
theorem best_of_top (laws : Ranked R text rank key)
    (h : Inv R count text (fun _ _ => True) (fun _ => True) (fun _ _ => False) w ids) (hmade : Made R rank key w)
    {e : β} {others : List β} (hpop : popTop R.below w.queue = some (e, others)) {is js : List ℕ}
    (hids : ids = is ++ R.left e :: R.right e :: js)
    (hfresh : R.outdated e (w.symbols (R.left e)).toSlice (w.symbols (R.right e)).toSlice = false) :
    best rank (pieces w.symbols is ++ (w.symbols (R.left e)).toSlice.piece ::
      (w.symbols (R.right e)).toSlice.piece :: pieces w.symbols js) = some (key e, (pieces w.symbols is).length) := by
  have he : e ∈ w.queue := (popTop_perm hpop).mem_iff.mpr mem_cons_self
  have hsorted : ids.Pairwise (· < ·) := pairwise_lt_range.sublist h.chain.sublist
  have hmeets := (h.chain.meets ⟨is, js, hids⟩).1
  refine best_eq_of_first (hmade.rank_eq laws he hmeets hfresh) fun xs' a' b' ys' k' hother hk' => ?_
  rw [← pieces_pair, ← hids] at hother
  obtain ⟨is', l', r', js', hids', hlen', rfl, rfl⟩ := exists_of_pieces hother
  have hadj' : Adjacent ids l' r' := ⟨is', js', hids'⟩
  obtain ⟨hmeets', hsuffix'⟩ := h.chain.meets hadj'
  obtain hnone | ⟨e', he', rfl, rfl, hfresh'⟩ := (h.complete l' r' hadj').resolve_left id
  · -- refused neighbours have no rank
    obtain ⟨added, hbigram, hrank, -⟩ := laws.add l' r' hmeets' hsuffix'
    rw [hnone] at hbigram
    rw [← hrank, ← ok.inj hbigram] at hk'
    cases hk'
  · rw [hmade.rank_eq laws he' hmeets' hfresh'] at hk'
    obtain rfl := Option.some.inj hk'
    have hbelow : ∀ e e', R.below e e' = true ↔ toLex (key e', R.left e') < toLex (key e, R.left e) := fun e e' => by
      rw [laws.below, Prod.Lex.toLex_lt_toLex]
    have hfirst := popTop_first hbelow hpop e' he'
    obtain hlt | ⟨heq, hle⟩ := Prod.Lex.toLex_le_toLex.mp hfirst
    · exact ⟨le_of_lt hlt, fun heq => absurd heq (ne_of_lt hlt)⟩
    · refine ⟨le_of_eq heq, fun _ => ?_⟩
      rw [pieces, length_map, ← hlen']
      exact length_le_of_le (hids ▸ hsorted) (hids.symm.trans hids') hle

theorem mergeLoop_rescan (laws : Ranked R text rank key) {fuel : ℕ}
    (h : Inv R count text (fun _ _ => True) (fun _ => True) (fun _ _ => False) w ids) (hmade : Made R rank key w)
    (hfuel : w.queue.length + 2 * ids.length ≤ fuel) :
    ∃ w' ids', R.mergeLoop fuel w = .ok w' ∧ Chain w'.symbols count text ids' ∧
      pieces w'.symbols ids' = merge rank (pieces w.symbols ids) := by
  induction fuel generalizing w ids with
  | zero =>
    have hempty : w.queue = [] := eq_nil_of_length_eq_zero (by omega)
    exact ⟨w, ids, rfl, h.chain, (merge_stop (best_of_empty laws h hempty)).symm⟩
  | succ fuel ih =>
    rw [Rules.mergeLoop]
    cases hpop : popTop R.below w.queue with
    | none => exact ⟨w, ids, rfl, h.chain, (merge_stop (best_of_empty laws h (popTop_eq_none hpop))).symm⟩
    | some pair =>
      obtain ⟨e, queue⟩ := pair
      have hperm := popTop_perm hpop
      have hqueue : ∀ e' ∈ queue, e' ∈ w.queue := fun e' he' => hperm.mem_iff.mpr (mem_cons_of_mem e he')
      have hlen : w.queue.length = queue.length + 1 := hperm.length_eq
      dsimp only
      split
      next hold =>
        exact ih (h.drop hperm hold) (hmade.mono (fun _ => rfl) hqueue) (by dsimp only; omega)
      next hold =>
        have hfresh := Bool.eq_false_of_not_eq_true hold
        obtain ⟨xs, ys, hids, -, hinv⟩ := merge_inv laws.lawful h hperm hfresh
        have hbest := best_of_top laws h hmade hpop hids hfresh
        rw [hids] at h hfuel ⊢
        have hadj : Adjacent (xs ++ R.left e :: R.right e :: ys) (R.left e) (R.right e) := ⟨xs, ys, rfl⟩
        have hmade₁ : Made R rank key ⟨mergeSymbols w.symbols (R.left e) (R.right e), queue, w.memo⟩ :=
          hmade.mono (mergeSymbols_text w.symbols (h.chain.ne hadj)) hqueue
        obtain ⟨w₁, w₂, hadd₁, hadd₂, hsymbols, hqueue₂, hinv₂⟩ := retry_spec laws.lawful hinv (by simp)
        have hmade₂ : Made R rank key w₂ := by
          have hi : R.left e ∈ xs ++ R.left e :: ys := by simp
          have hmade' := hmade₁.tryAdd laws hinv.chain (fun l r hprev hr => by
            rw [← Option.some.inj hr]
            exact hinv.chain.adjacent_of_prev hi hprev) hadd₁
          have hchain' : Chain w₁.symbols count text (xs ++ R.left e :: ys) := by
            rw [tryAdd_symbols hadd₁]
            exact hinv.chain
          refine hmade'.tryAdd laws hchain' (fun l r hl hnext => ?_) hadd₂
          rw [← Option.some.inj hl]
          exact hinv.chain.adjacent_of_next hi hnext
        have hmeasure : w₂.queue.length + 2 * (xs ++ R.left e :: ys).length ≤ fuel := by
          simp only [length_append, length_cons] at hfuel hqueue₂ ⊢
          omega
        obtain ⟨w', ids', hloop, hchain', hpieces'⟩ := ih hinv₂ hmade₂ hmeasure
        refine ⟨w', ids', ?_, hchain', ?_⟩
        · dsimp only at hadd₁ hadd₂
          rw [hadd₁]
          show (R.tryAdd w₁ _ _ >>= fun w => R.mergeLoop fuel w) = .ok w'
          rw [hadd₂]
          exact hloop
        · rw [hpieces', hsymbols]
          dsimp only
          rw [h.chain.pieces_merge, ← merge_step hbest, pieces_pair]

theorem Made.seed (laws : Ranked R text rank key) {n k start : ℕ} (hpos : 0 < start) (hk : start + k ≤ max start n)
    (hmade : Made R rank key w) (hchain : Chain w.symbols count text (List.range n)) {w' : Work β μ}
    (hfold : (List.range' start k).foldlM (fun w i => R.tryAdd w (some (i - 1)) (some i)) w = .ok w') :
    Made R rank key w' := by
  induction k generalizing start w with
  | zero =>
    obtain rfl : w = w' := ok.inj hfold
    exact hmade
  | succ k ih =>
    rw [range'_succ, foldlM_cons] at hfold
    cases hadd : R.tryAdd w (some (start - 1)) (some start) with
    | error err =>
      rw [hadd] at hfold
      cases hfold
    | ok w₁ =>
      rw [hadd] at hfold
      have hmade₁ := hmade.tryAdd laws hchain (fun l r hl hr => by
        rw [← Option.some.inj hl, ← Option.some.inj hr]
        exact (adjacent_range).mpr ⟨by omega, by omega⟩) hadd
      refine ih (Nat.succ_pos start) (by omega) hmade₁ ?_ hfold
      rw [tryAdd_symbols hadd]
      exact hchain

/-- **A session does what rescanning does** with the pieces of its symbols. -/
theorem session_rescan (laws : Ranked R text rank key) {syms : List Symbol} (memo : μ)
    (hchain : Chain (vector syms) syms.length text (List.range syms.length)) :
    ∃ w ids, R.session syms memo = .ok w ∧ Chain w.symbols syms.length text ids ∧
      pieces w.symbols ids = merge rank (syms.map fun s => s.toSlice.piece) := by
  have hstart : Inv R syms.length text (fun _ _ => True) (fun _ => True) (fun _ r => 1 ≤ r) ⟨vector syms, [], memo⟩
      (List.range syms.length) := by
    refine ⟨hchain, by simp, by simp, ?_, trivial⟩
    intro l r hlr
    have hsucc := ((adjacent_range).mp hlr).1
    exact .inl (by omega)
  obtain ⟨w₁, hseed, hsymbols, hlen, hinv⟩ := seed_spec laws.lawful Nat.one_pos rfl hstart
  have hmade : Made R rank key w₁ :=
    Made.seed laws Nat.one_pos (by omega) (fun e he => absurd he not_mem_nil) hchain hseed
  have hfuel : w₁.queue.length + 2 * (List.range syms.length).length ≤ 3 * syms.length := by
    simp only [length_nil, length_range] at hlen ⊢
    omega
  obtain ⟨w', ids', hloop, hchain', hpieces⟩ := mergeLoop_rescan laws hinv hmade hfuel
  refine ⟨w', ids', ?_, hchain', ?_⟩
  · unfold Rules.session Rules.seed
    rw [hseed]
    exact hloop
  · rw [hpieces, hsymbols, pieces_vector]

end

/-! ### SPM -/

/-- The symbols that a session leaves, from the first one on; that of `spmTokenize` has the scores `V.score`. -/
def spmSegments (V : Vocab) (score : ℕ → κ) (text : List UInt8) : Except TokenizeError (List (List UInt8)) := do
  let syms := symbolsOf text
  let w ← (spmRules V score).session syms []
  return pieces w.symbols (read (fun i => (w.symbols i).next) syms.length (some 0))

/-- The rank of two pieces: the score of the token that they are together, the highest one first. -/
def spmRank (V : Vocab) (score : ℕ → κ) (a b : List UInt8) : Option κᵒᵈ :=
  (V.textToToken (a ++ b)).map fun token => OrderDual.toDual (score token)

theorem spm_ranked (V : Vocab) (score : ℕ → κ) (text : List UInt8) :
    Ranked (spmRules V score) text (spmRank V score) fun e => OrderDual.toDual e.score := by
  constructor
  · intro l r a b hmeets _
    unfold spmRank
    rw [hmeets.piece_append]
    cases htoken : V.textToToken (a.text.take (a.n + b.n)) with
    | none => exact ⟨none, by simp [spmRules, htoken], rfl, by simp⟩
    | some token =>
      obtain ⟨data, hdata, -⟩ := V.textToToken_eq_some htoken
      have hlt : ¬ V.tokens.length ≤ token := Nat.not_le.mpr (List.getElem?_eq_some_iff.mp hdata).1
      have hlen : (a.text.take (a.n + b.n)).length = a.n + b.n := by
        have hle := hmeets.right_le
        rw [hmeets.text_eq, length_drop] at hle
        have := hmeets.left_le
        rw [length_take]
        omega
      refine ⟨some ⟨l, r, score token, (a.text.take (a.n + b.n)).length⟩, ?_, rfl, ?_⟩
      · simp only [spmRules, htoken, if_neg hlt]
      · intro e he
        obtain rfl := Option.some.inj he
        refine ⟨rfl, rfl, ?_⟩
        have hleft := hmeets.left_pos
        have hright := hmeets.right_pos
        simp only [spmRules, hlen, decide_eq_false_iff_not]
        omega
  · intro e a b hfresh
    simp only [spmRules, decide_eq_false_iff_not, not_or] at hfresh
    omega
  · intro e a b b' _ _ hfresh hfresh'
    simp only [spmRules, decide_eq_false_iff_not, not_or, not_not] at hfresh hfresh'
    omega
  · intro e e'
    simp only [spmRules, decide_eq_true_eq, OrderDual.toDual_lt_toDual, OrderDual.toDual_inj]
    rw [eq_comm (a := e'.score)]

theorem spmSegments_eq (V : Vocab) (score : ℕ → κ) (text : List UInt8) :
    spmSegments V score text = .ok (merge (spmRank V score) (chars text)) := by
  obtain ⟨w, ids, hsession, hchain, hpieces⟩ := session_rescan (spm_ranked V score text) []
    (chain_symbolsOf text)
  unfold spmSegments
  dsimp only
  rw [hsession]
  show ok _ = ok _
  rw [chars, ← hpieces]
  have hlen : ids.length ≤ (symbolsOf text).length := by
    have := hchain.sublist.length_le
    rwa [length_range] at this
  cases hsyms : (symbolsOf text).length with
  | zero =>
    rw [hsyms] at hlen
    rw [length_eq_zero_iff.mp (Nat.le_zero.mp hlen)]
    rfl
  | succ n =>
    have hfirst : entry ids none = some 0 := by
      rw [hchain.first, hsyms, range_succ_eq_map]
      rfl
    rw [← hsyms, ← hfirst]
    exact congrArg _ (congrArg _ (hchain.linked.read_eq hlen))

/-! ### BPE -/

def bpeRank (V : BpeVocab) (a b : List UInt8) : Option ℕ := V.merges.findIdx? fun pair => pair = (a, b)

theorem bpe_ranked (V : BpeVocab) {word : List UInt8} (hplain : isPlain word = true) :
    Ranked (bpeRules V) word (bpeRank V) BigramBpe.rank := by
  constructor
  · intro l r a b hmeets hsuffix
    have hrank := findBpeRank_piece V hplain hmeets hsuffix
    unfold bpeRank
    cases hfind : V.merges.findIdx? fun pair => pair = (a.piece, b.piece) with
    | none =>
      refine ⟨none, ?_, rfl, by simp⟩
      simp only [bpeRules, hrank, hfind]
      rfl
    | some rank =>
      refine ⟨some ⟨l, r, a.piece ++ b.piece, rank, a.piece.length + b.piece.length⟩, ?_, rfl, ?_⟩
      · simp only [bpeRules, hrank, hfind]
        rfl
      · intro e he
        obtain rfl := Option.some.inj he
        refine ⟨rfl, rfl, ?_⟩
        have hleft := hmeets.left_pos
        have hright := hmeets.right_pos
        simp only [bpeRules, decide_eq_false_iff_not]
        grind
  · intro e a b hfresh
    simp only [bpeRules, decide_eq_false_iff_not, not_or] at hfresh
    omega
  · intro e a b b' hmeets hmeets' hfresh hfresh'
    simp only [bpeRules, decide_eq_false_iff_not, not_or, not_not] at hfresh hfresh'
    -- the same text behind the same left piece
    have hlen := congrArg List.length (append_cancel_left (hfresh.2.2.trans hfresh'.2.2.symm))
    rwa [Slice.piece, Slice.piece, length_take_of_le hmeets.right_le, length_take_of_le hmeets'.right_le] at hlen
  · intro e e'
    simp only [bpeRules, decide_eq_true_eq]
    rw [eq_comm (a := e'.rank)]

theorem bpeWord_eq (V : BpeVocab) {word : List UInt8} (hplain : isPlain word = true) :
    bpeWord V word = .ok (merge (bpeRank V)
      (if V.ignoreMerges ∧ V.textToToken word ≠ none then [word] else chars word)) := by
  obtain ⟨syms, hsyms, hchain, hfirst⟩ : ∃ syms, (if V.ignoreMerges ∧ V.textToToken word ≠ none then
        [⟨⟨word, word.length⟩, none, none⟩] else symbolsOf word) = syms ∧
      Chain (vector syms) syms.length word (List.range syms.length) ∧ (syms.map fun s => s.toSlice.piece) =
        if V.ignoreMerges ∧ V.textToToken word ≠ none then [word] else chars word := by
    split
    next hwhole =>
      obtain ⟨id, hid⟩ := Option.ne_none_iff_exists'.mp hwhole.2
      obtain ⟨t, ht, htext⟩ := V.textToToken_eq_some hid
      refine ⟨_, rfl, chain_whole ?_, ?_⟩
      · rw [← htext]
        exact V.nonempty t (mem_of_getElem? ht)
      · show [word.take word.length] = _
        rw [take_length]
    next => exact ⟨_, rfl, chain_symbolsOf _, rfl⟩
  obtain ⟨w, ids, hsession, hchain', hpieces⟩ := session_rescan (bpe_ranked V hplain) () hchain
  unfold bpeWord
  dsimp only
  rw [hsyms, hsession, ← hfirst, ← hpieces]
  exact congrArg (fun ids => ok (pieces w.symbols ids)) hchain'.filter_living

/-- **Queue and rescanning.**  In both sessions the symbols that are left when the queue is empty are those of the plain
procedure: an SPM text by the scores, a BPE word by the ranks. -/
theorem sessions_rescan (V : Vocab) (score : ℕ → κ) (text : List UInt8) (B : BpeVocab) (word : List UInt8)
    (hplain : isPlain word = true) :
    spmSegments V score text = .ok (merge (spmRank V score) (chars text)) ∧
      bpeWord B word = .ok (merge (bpeRank B)
        (if B.ignoreMerges ∧ B.textToToken word ≠ none then [word] else chars word)) :=
  ⟨spmSegments_eq V score text, bpeWord_eq B hplain⟩

def letters : BpeVocab where
  tokens := [[0x61], [0x62], [0x63], [0x61, 0x62], [0x62, 0x63]].map fun text =>
    ⟨text, 0, ⟨false, false, false, false, false, false⟩⟩
  distinct := by decide
  nonempty := by decide
  merges := [([0x62], [0x63]), ([0x61], [0x62])]
  ignoreMerges := false

/-- In `abc` the scores are the same, so the left pair is merged; by the ranks it is the right one. -/
theorem sessions_rescan_abc :
    spmSegments letters.toVocab (fun _ => (0 : ℤ)) [0x61, 0x62, 0x63] = .ok [[0x61, 0x62], [0x63]] ∧
      bpeWord letters [0x61, 0x62, 0x63] = .ok [[0x61], [0x62, 0x63]] :=
  sessions_rescan letters.toVocab (fun _ => (0 : ℤ)) [0x61, 0x62, 0x63] letters [0x61, 0x62, 0x63] (by decide)

end Tokenizer
