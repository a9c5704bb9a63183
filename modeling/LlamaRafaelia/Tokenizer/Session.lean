import LlamaRafaelia.Tokenizer.Symbols

/-!
# A merging session

The sessions put neighbouring pairs into a priority queue, and merge the best one until the queue is empty.  An entry
is never taken back: when it comes up, the session looks whether its symbols are still what they were.  What the two
sessions do differently is a parameter (`Rules`).

* **`session_spec`** - the session ends with an empty queue, after a run of merges that leaves no neighbours to merge.
-/

namespace Tokenizer

open List Linked Merging

/-! ### The session -/

/-- What the sessions do differently: `bigram?` is the queue entry for two symbols, `outdated` the check when it comes
up, `below` the comparator of the queue and `remember` what is noted beside the queue. -/
structure Rules (β μ ε : Type) where
  left : β → ℕ
  right : β → ℕ
  bigram? : ℕ → ℕ → Slice → Slice → Except ε (Option β)
  outdated : β → Slice → Slice → Bool
  below : β → β → Bool
  remember : β → Slice → Slice → μ → μ

/-- The session between two rounds. -/
structure Work (β μ : Type) where
  symbols : Symbols
  queue : List β
  memo : μ

variable {β μ ε : Type}

/-- The top of the queue and the others.  Of entries that compare as equal the queue may give any. -/
def popTop (below : β → β → Bool) : List β → Option (β × List β)
  | [] => none
  | e :: es =>
    match popTop below es with
    | none => some (e, [])
    | some (top, others) => if below e top then some (top, e :: others) else some (e, top :: others)

theorem popTop_eq_none {below : β → β → Bool} {queue : List β} (h : popTop below queue = none) : queue = [] := by
  cases queue with
  | nil => rfl
  | cons e es =>
    rw [popTop] at h
    split at h
    · cases h
    · split at h <;> cases h

theorem popTop_perm {below : β → β → Bool} {queue others : List β} {top : β}
    (h : popTop below queue = some (top, others)) : queue.Perm (top :: others) := by
  induction queue generalizing top others with
  | nil => cases h
  | cons e es ih =>
    rw [popTop] at h
    cases hpop : popTop below es with
    | none =>
      rw [hpop] at h
      obtain ⟨rfl, rfl⟩ := Prod.mk.inj (Option.some.inj h)
      cases es with
      | nil => rfl
      | cons e' es => exact absurd (popTop_eq_none hpop) (cons_ne_nil e' es)
    | some pair =>
      obtain ⟨top', others'⟩ := pair
      rw [hpop] at h
      have hes := ih hpop
      dsimp only at h
      split at h
      · obtain ⟨rfl, rfl⟩ := Prod.mk.inj (Option.some.inj h)
        exact (hes.cons e).trans (List.Perm.swap _ _ _)
      · obtain ⟨rfl, rfl⟩ := Prod.mk.inj (Option.some.inj h)
        exact hes.cons e

namespace Rules

/-- `try_add_bigram` and `add_new_bigram`. -/
def tryAdd (R : Rules β μ ε) (w : Work β μ) : Option ℕ → Option ℕ → Except ε (Work β μ)
  | some l, some r => do
    match ← R.bigram? l r (w.symbols l).toSlice (w.symbols r).toSlice with
    | none => return w
    | some e =>
      return ⟨w.symbols, e :: w.queue, R.remember e (w.symbols l).toSlice (w.symbols r).toSlice w.memo⟩
  | _, _ => return w

def seed (R : Rules β μ ε) (count : ℕ) (w : Work β μ) : Except ε (Work β μ) :=
  (List.range' 1 (count - 1)).foldlM (fun w i => R.tryAdd w (some (i - 1)) (some i)) w

def mergeLoop (R : Rules β μ ε) : ℕ → Work β μ → Except ε (Work β μ)
  | 0, w => return w
  | fuel + 1, w =>
    match popTop R.below w.queue with
    | none => return w
    | some (e, queue) =>
      if R.outdated e (w.symbols (R.left e)).toSlice (w.symbols (R.right e)).toSlice then
        mergeLoop R fuel ⟨w.symbols, queue, w.memo⟩
      else do
        let S := mergeSymbols w.symbols (R.left e) (R.right e)
        -- find more substitutions
        let w ← R.tryAdd ⟨S, queue, w.memo⟩ (S (R.left e)).prev (some (R.left e))
        let w ← R.tryAdd w (some (R.left e)) (S (R.left e)).next
        mergeLoop R fuel w

/-- A session over the given symbols.  An entry is pushed for each symbol at the beginning and two for each merge, so
that many rounds are enough. -/
def session (R : Rules β μ ε) (syms : List Symbol) (memo : μ) : Except ε (Work β μ) := do
  let w ← R.seed syms.length ⟨vector syms, [], memo⟩
  R.mergeLoop (3 * syms.length) w

end Rules

/-! ### What a session promises -/

/-- The promises about the texts of one session: an entry is made for its two symbols and claims something of the text
at the left one (`claims`); as long as it is not outdated, the two symbols together are one of the texts that may be
made (`T`); `M` is kept of what is noted. -/
structure Lawful (R : Rules β μ ε) (text : List UInt8) (T : List UInt8 → Prop) (claims : List UInt8 → β → Prop)
    (M : μ → Prop) : Prop where
  add : ∀ (l r : ℕ) {a b : Slice}, a.Meets b → a.text <:+ text → ∃ added, R.bigram? l r a b = .ok added ∧
    ∀ e, added = some e → R.left e = l ∧ R.right e = r ∧ claims a.text e ∧ R.outdated e a b = false ∧
      ∀ memo, M memo → M (R.remember e a b memo)
  join : ∀ {e : β} {a b : Slice}, a.Meets b → claims a.text e → R.outdated e a b = false → T (a.piece ++ b.piece)
  alive : ∀ {e : β} {a b : Slice}, R.outdated e a b = false → 0 < a.n ∧ 0 < b.n

/-- The entry for two neighbours was refused, or is in the queue and not outdated. -/
def Tried (R : Rules β μ ε) (w : Work β μ) (l r : ℕ) : Prop :=
  R.bigram? l r (w.symbols l).toSlice (w.symbols r).toSlice = .ok none ∨
    ∃ e ∈ w.queue, R.left e = l ∧ R.right e = r ∧
      R.outdated e (w.symbols l).toSlice (w.symbols r).toSlice = false

/-- The session between two rounds.  `untried` are neighbours that were not looked at since one of them changed. -/
structure Inv (R : Rules β μ ε) (count : ℕ) (text : List UInt8) (claims : List UInt8 → β → Prop) (M : μ → Prop)
    (untried : ℕ → ℕ → Prop) (w : Work β μ) (ids : List ℕ) : Prop where
  chain : Chain w.symbols count text ids
  paired : ∀ e ∈ w.queue, (w.symbols (R.left e)).n = 0 ∨ (w.symbols (R.right e)).n = 0 ∨
    Adjacent ids (R.left e) (R.right e)
  claimed : ∀ e ∈ w.queue, claims (w.symbols (R.left e)).text e
  complete : ∀ l r, Adjacent ids l r → untried l r ∨ Tried R w l r
  memo : M w.memo

section Spec

variable {R : Rules β μ ε} {count : ℕ} {text : List UInt8} {T : List UInt8 → Prop} {claims : List UInt8 → β → Prop}
  {M : μ → Prop} {untried : ℕ → ℕ → Prop} {w : Work β μ} {ids : List ℕ}

theorem Tried.mono {w' : Work β μ} {l r : ℕ} (h : Tried R w l r) (hl : (w'.symbols l).toSlice = (w.symbols l).toSlice)
    (hr : (w'.symbols r).toSlice = (w.symbols r).toSlice)
    (hq : ∀ e ∈ w.queue, R.left e = l → R.right e = r →
      R.outdated e (w.symbols l).toSlice (w.symbols r).toSlice = false → e ∈ w'.queue) : Tried R w' l r := by
  unfold Tried
  rw [hl, hr]
  rcases h with hnone | ⟨e, he, hel, her, hfresh⟩
  · exact .inl hnone
  · exact .inr ⟨e, hq e he hel her hfresh, hel, her, hfresh⟩

theorem tryAdd_spec (laws : Lawful R text T claims M) (h : Inv R count text claims M untried w ids) (l? r? : Option ℕ)
    (hadj : ∀ l r, l? = some l → r? = some r → Adjacent ids l r) :
    ∃ w', R.tryAdd w l? r? = .ok w' ∧ w'.symbols = w.symbols ∧ w'.queue.length ≤ w.queue.length + 1 ∧
      Inv R count text claims M (fun l r => untried l r ∧ ¬ (l? = some l ∧ r? = some r)) w' ids := by
  cases l? with
  | none =>
    refine ⟨w, by cases r? <;> rfl, rfl, by omega, h.chain, h.paired, h.claimed, ?_, h.memo⟩
    simpa using h.complete
  | some l =>
    cases r? with
    | none =>
      refine ⟨w, rfl, rfl, by omega, h.chain, h.paired, h.claimed, ?_, h.memo⟩
      simpa using h.complete
    | some r =>
      have hlr := hadj l r rfl rfl
      obtain ⟨hmeets, hsuffix⟩ := h.chain.meets hlr
      obtain ⟨added, hbigram, hentry⟩ := laws.add l r hmeets hsuffix
      cases added with
      | none =>
        refine ⟨w, by simp [Rules.tryAdd, hbigram]; rfl, rfl, by omega, h.chain, h.paired, h.claimed, ?_, h.memo⟩
        intro l' r' hadj'
        rcases h.complete l' r' hadj' with hun | htried
        · by_cases hsame : l' = l ∧ r' = r
          · rw [hsame.1, hsame.2]
            exact .inr (.inl hbigram)
          · exact .inl ⟨hun, by grind⟩
        · exact .inr htried
      | some e =>
        obtain ⟨hel, her, hclaims, hfresh, hmemo⟩ := hentry e rfl
        refine ⟨⟨w.symbols, e :: w.queue, _⟩, by simp only [Rules.tryAdd, hbigram]; rfl, rfl, by simp, h.chain, ?_, ?_, ?_,
          hmemo _ h.memo⟩
        · intro e' he'
          rcases mem_cons.mp he' with rfl | he'
          · exact .inr (.inr (by rw [hel, her]; exact hlr))
          · exact h.paired e' he'
        · intro e' he'
          rcases mem_cons.mp he' with rfl | he'
          · rw [hel]
            exact hclaims
          · exact h.claimed e' he'
        · intro l' r' hadj'
          rcases h.complete l' r' hadj' with hun | htried
          · by_cases hsame : l' = l ∧ r' = r
            · rw [hsame.1, hsame.2]
              exact .inr (.inr ⟨e, mem_cons_self, hel, her, hfresh⟩)
            · exact .inl ⟨hun, by grind⟩
          · exact .inr (htried.mono rfl rfl fun e' he' _ _ _ => mem_cons_of_mem e he')

theorem Inv.drop (h : Inv R count text claims M (fun _ _ => False) w ids) {e : β} {queue : List β}
    (hperm : w.queue.Perm (e :: queue))
    (hold : R.outdated e (w.symbols (R.left e)).toSlice (w.symbols (R.right e)).toSlice = true) :
    Inv R count text claims M (fun _ _ => False) ⟨w.symbols, queue, w.memo⟩ ids := by
  refine ⟨h.chain, ?_, ?_, ?_, h.memo⟩
  · intro e' he'
    exact h.paired e' (hperm.mem_iff.mpr (mem_cons_of_mem e he'))
  · intro e' he'
    exact h.claimed e' (hperm.mem_iff.mpr (mem_cons_of_mem e he'))
  · intro l r hlr
    refine .inr (((h.complete l r hlr).resolve_left id).mono rfl rfl ?_)
    intro e' he' hel her hfresh
    rcases mem_cons.mp (hperm.mem_iff.mp he') with rfl | he'
    · rw [hel, her, hfresh] at hold
      cases hold
    · exact he'

/-- **Merging the pair that came up.**  Only the pairs of the merged symbol have to be tried again. -/
theorem merge_inv (laws : Lawful R text T claims M) (h : Inv R count text claims M (fun _ _ => False) w ids) {e : β}
    {queue : List β} (hperm : w.queue.Perm (e :: queue))
    (hfresh : R.outdated e (w.symbols (R.left e)).toSlice (w.symbols (R.right e)).toSlice = false) :
    ∃ xs ys, ids = xs ++ R.left e :: R.right e :: ys ∧
      T ((w.symbols (R.left e)).toSlice.piece ++ (w.symbols (R.right e)).toSlice.piece) ∧
      Inv R count text claims M (fun l r => l = R.left e ∨ r = R.left e)
        ⟨mergeSymbols w.symbols (R.left e) (R.right e), queue, w.memo⟩ (xs ++ R.left e :: ys) := by
  have he : e ∈ w.queue := hperm.mem_iff.mpr mem_cons_self
  have hqueue : ∀ e' ∈ queue, e' ∈ w.queue := fun e' he' => hperm.mem_iff.mpr (mem_cons_of_mem e he')
  have halive := laws.alive hfresh
  have hadj : Adjacent ids (R.left e) (R.right e) := by
    rcases h.paired e he with hdead | hdead | hadj
    · exact absurd hdead halive.1.ne'
    · exact absurd hdead halive.2.ne'
    · exact hadj
  have hlr := h.chain.ne hadj
  have hnext := (h.chain.next_prev hadj).1
  have hjoin := laws.join (h.chain.meets hadj).1 (h.claimed e he) hfresh
  obtain ⟨xs, ys, hids⟩ := hadj
  generalize hl : R.left e = l at *
  generalize R.right e = r at *
  subst hids
  have hchain := h.chain.merge
  have hr : r ∉ xs ++ l :: ys := by
    have hnd := h.chain.nodup
    simp [nodup_append] at hnd ⊢
    grind
  have hslice := mergeSymbols_slice w.symbols hlr
  have hdead : ∀ i, (w.symbols i).n = 0 → (mergeSymbols w.symbols l r i).n = 0 := by
    intro i hi
    show (mergeSymbols w.symbols l r i).toSlice.n = 0
    rw [hslice]
    split_ifs with hil hir
    · rw [hil] at hi
      exact absurd hi halive.1.ne'
    · rfl
    · exact hi
  have hdeadr : (mergeSymbols w.symbols l r r).n = 0 := by
    show (mergeSymbols w.symbols l r r).toSlice.n = 0
    rw [hslice, if_neg hlr.symm, if_pos rfl]
  refine ⟨xs, ys, rfl, hjoin, hchain, ?_, ?_, ?_, h.memo⟩
  · -- an entry of the right symbol is of a dead one now
    intro e' he'
    rcases h.paired e' (hqueue e' he') with hleft | hright | hadj
    · exact .inl (hdead _ hleft)
    · exact .inr (.inl (hdead _ hright))
    · by_cases hleft : R.left e' = r
      · exact .inl (by rw [hleft]; exact hdeadr)
      · by_cases hright : R.right e' = r
        · exact .inr (.inl (by rw [hright]; exact hdeadr))
        · obtain ⟨hmem, hnext'⟩ := h.chain.adjacent_iff.mp hadj
          have hne : R.left e' ≠ l := by
            intro heq
            rw [heq, hnext] at hnext'
            exact hright (Option.some.inj hnext').symm
          refine .inr (.inr (hchain.adjacent_iff.mpr ⟨?_, ?_⟩))
          · simp at hmem ⊢
            tauto
          · exact (mergeSymbols_next w.symbols hlr hne).trans hnext'
  · intro e' he'
    show claims (mergeSymbols w.symbols l r (R.left e')).text e'
    rw [mergeSymbols_text w.symbols hlr]
    exact h.claimed e' (hqueue e' he')
  · intro a b hab
    by_cases hal : a = l
    · exact .inl (.inl hal)
    · by_cases hbl : b = l
      · exact .inl (.inr hbl)
      · -- neither symbol has changed since the pair was tried
        obtain ⟨hmem, hnext'⟩ := hchain.adjacent_iff.mp hab
        have hnexta : (w.symbols a).next = some b := (mergeSymbols_next w.symbols hlr hal).symm.trans hnext'
        have har : a ≠ r := by
          rintro rfl
          exact hr hmem
        have hadj : Adjacent (xs ++ l :: r :: ys) a b := by
          apply h.chain.adjacent_of_next _ hnexta
          simp at hmem ⊢
          tauto
        have hbr : b ≠ r := by
          rintro rfl
          have hprev := (h.chain.next_prev hadj).2
          rw [(h.chain.next_prev ⟨xs, ys, rfl⟩).2] at hprev
          exact hal (Option.some.inj hprev).symm
        have htried := (h.complete a b hadj).resolve_left id
        refine .inr (htried.mono ?_ ?_ ?_)
        · exact (hslice a).trans (by rw [if_neg hal, if_neg har])
        · exact (hslice b).trans (by rw [if_neg hbl, if_neg hbr])
        · intro e' he' hel _ _
          rcases mem_cons.mp (hperm.mem_iff.mp he') with rfl | he'
          · exact absurd (hel.symm.trans hl) hal
          · exact he'

theorem retry_spec (laws : Lawful R text T claims M) {i : ℕ}
    (h : Inv R count text claims M (fun l r => l = i ∨ r = i) w ids) (hi : i ∈ ids) :
    ∃ w₁ w₂, R.tryAdd w (w.symbols i).prev (some i) = .ok w₁ ∧ R.tryAdd w₁ (some i) (w.symbols i).next = .ok w₂ ∧
      w₂.symbols = w.symbols ∧ w₂.queue.length ≤ w.queue.length + 2 ∧
      Inv R count text claims M (fun _ _ => False) w₂ ids := by
  obtain ⟨w₁, hadd₁, hsymbols₁, hlen₁, hinv₁⟩ := tryAdd_spec laws h (w.symbols i).prev (some i) (by
    intro l r hprev hr
    rw [← Option.some.inj hr]
    exact h.chain.adjacent_of_prev hi hprev)
  obtain ⟨w₂, hadd₂, hsymbols₂, hlen₂, hinv₂⟩ := tryAdd_spec laws hinv₁ (some i) (w.symbols i).next (by
    intro l r hl hnext
    rw [← Option.some.inj hl]
    exact h.chain.adjacent_of_next hi hnext)
  refine ⟨w₁, w₂, hadd₁, hadd₂, hsymbols₂.trans hsymbols₁, by omega, hinv₂.chain, hinv₂.paired, hinv₂.claimed, ?_,
    hinv₂.memo⟩
  intro l r hlr
  rcases hinv₂.complete l r hlr with ⟨⟨hside, hleft⟩, hright⟩ | htried
  · obtain ⟨hnext, hprev⟩ := h.chain.next_prev hlr
    rcases hside with rfl | rfl
    · exact absurd ⟨rfl, hnext⟩ hright
    · exact absurd ⟨hprev, rfl⟩ hleft
  · exact .inr htried

def Holds (S : Symbols) (ids : List ℕ) (gs : List (List (List UInt8))) : Prop := pieces S ids = gs.map List.flatten

theorem Holds.merge {S : Symbols} {xs ys : List ℕ} {l r : ℕ} {gs : List (List (List UInt8))}
    (h : Holds S (xs ++ l :: r :: ys) gs) (hchain : Chain S count text (xs ++ l :: r :: ys))
    (hT : T ((S l).toSlice.piece ++ (S r).toSlice.piece)) :
    ∃ gs', Merging.Step (fun g => T g.flatten) gs gs' ∧ Holds (mergeSymbols S l r) (xs ++ l :: ys) gs' := by
  unfold Holds pieces at h
  rw [map_append, map_cons, map_cons] at h
  obtain ⟨gx, gs, rfl, hx, hrest⟩ := map_eq_append_iff.mp h.symm
  obtain ⟨ga, gs, rfl, ha, hrest⟩ := map_eq_cons_iff.mp hrest
  obtain ⟨gb, gy, rfl, hb, hy⟩ := map_eq_cons_iff.mp hrest
  refine ⟨gx ++ (ga ++ gb) :: gy, .join gx ga gb gy ?_, ?_⟩
  · rw [flatten_append, ha, hb]
    exact hT
  · unfold Holds
    rw [hchain.pieces_merge, map_append, map_cons, flatten_append, ha, hb, hx, hy]
    rfl

/-- **The loop** ends with an empty queue, after a run of merges. -/
theorem mergeLoop_spec (laws : Lawful R text T claims M) {fuel : ℕ} {gs : List (List (List UInt8))}
    (h : Inv R count text claims M (fun _ _ => False) w ids) (hgs : Holds w.symbols ids gs)
    (hfuel : w.queue.length + 2 * ids.length ≤ fuel) :
    ∃ w' ids' gs', R.mergeLoop fuel w = .ok w' ∧ w'.queue = [] ∧
      Inv R count text claims M (fun _ _ => False) w' ids' ∧ Holds w'.symbols ids' gs' ∧
      Run (fun g => T g.flatten) gs gs' := by
  induction fuel generalizing w ids gs with
  | zero =>
    have hqueue : w.queue = [] := eq_nil_of_length_eq_zero (by omega)
    exact ⟨w, ids, gs, rfl, hqueue, h, hgs, .refl⟩
  | succ fuel ih =>
    rw [Rules.mergeLoop]
    cases hpop : popTop R.below w.queue with
    | none => exact ⟨w, ids, gs, rfl, popTop_eq_none hpop, h, hgs, .refl⟩
    | some pair =>
      obtain ⟨e, queue⟩ := pair
      have hperm := popTop_perm hpop
      have hlen : w.queue.length = queue.length + 1 := hperm.length_eq
      dsimp only
      split
      next hold =>
        -- an outdated entry: the pair it was made for is gone
        have hinv := h.drop hperm hold
        exact ih hinv hgs (by dsimp only; omega)
      next hold =>
        have hfresh := Bool.eq_false_of_not_eq_true hold
        obtain ⟨xs, ys, hids, hT, hinv⟩ := merge_inv laws h hperm hfresh
        rw [hids] at hgs h
        obtain ⟨gs', hstep, hgs'⟩ := hgs.merge h.chain hT
        obtain ⟨w₁, w₂, hadd₁, hadd₂, hsymbols, hqueue, hinv₂⟩ := retry_spec laws hinv (by simp)
        have hgs₂ : Holds w₂.symbols (xs ++ R.left e :: ys) gs' := by
          rw [hsymbols]
          exact hgs'
        have hmeasure : w₂.queue.length + 2 * (xs ++ R.left e :: ys).length ≤ fuel := by
          rw [hids] at hfuel
          simp only [length_append, length_cons] at hfuel hqueue ⊢
          omega
        obtain ⟨w', ids', gs'', hloop, hempty, hinv', hgs'', hrun⟩ := ih hinv₂ hgs₂ hmeasure
        refine ⟨w', ids', gs'', ?_, hempty, hinv', hgs'', .head hstep hrun⟩
        dsimp only at hadd₁ hadd₂
        rw [hadd₁]
        show (R.tryAdd w₁ _ _ >>= fun w => R.mergeLoop fuel w) = .ok w'
        rw [hadd₂]
        exact hloop

theorem seed_spec (laws : Lawful R text T claims M) {n k start : ℕ} (hpos : 0 < start) (hk : k = n - start)
    (h : Inv R count text claims M (fun _ r => start ≤ r) w (List.range n)) :
    ∃ w', (List.range' start k).foldlM (fun w i => R.tryAdd w (some (i - 1)) (some i)) w = .ok w' ∧
      w'.symbols = w.symbols ∧ w'.queue.length ≤ w.queue.length + k ∧
      Inv R count text claims M (fun _ _ => False) w' (List.range n) := by
  induction k generalizing start w with
  | zero =>
    refine ⟨w, rfl, rfl, le_rfl, h.chain, h.paired, h.claimed, ?_, h.memo⟩
    intro l r hlr
    have hbound := ((adjacent_range).mp hlr).2
    exact (h.complete l r hlr).imp_left fun huntried => by omega
  | succ k ih =>
    have hadj : Adjacent (List.range n) (start - 1) start := (adjacent_range).mpr ⟨by omega, by omega⟩
    obtain ⟨w₁, hadd, hsymbols, hlen, hinv⟩ := tryAdd_spec laws h (some (start - 1)) (some start) (by
      intro l r hl hr
      rw [← Option.some.inj hl, ← Option.some.inj hr]
      exact hadj)
    have hinv₁ : Inv R count text claims M (fun _ r => start + 1 ≤ r) w₁ (List.range n) := by
      refine ⟨hinv.chain, hinv.paired, hinv.claimed, ?_, hinv.memo⟩
      intro l r hlr
      refine (hinv.complete l r hlr).imp_left ?_
      rintro ⟨hle, hne⟩
      have hsucc := ((adjacent_range).mp hlr).1
      rcases Nat.eq_or_lt_of_le hle with rfl | hlt
      · exact absurd ⟨congrArg some (by omega), rfl⟩ hne
      · exact hlt
    obtain ⟨w', hfold, hsymbols', hlen', hinv'⟩ := ih (Nat.succ_pos start) (by omega) hinv₁
    refine ⟨w', ?_, hsymbols'.trans hsymbols, by omega, hinv'⟩
    rw [range'_succ, foldlM_cons, hadd]
    exact hfold

/-- **A session** ends with an empty queue: its symbols are linked and are the text, they come from the first ones by
merges, and no neighbours are left that may be merged. -/
theorem session_spec (laws : Lawful R text T claims M) {syms : List Symbol} {memo : μ}
    (hchain : Chain (vector syms) syms.length text (List.range syms.length)) (hmemo : M memo) :
    ∃ w ids gs, R.session syms memo = .ok w ∧ Chain w.symbols syms.length text ids ∧
      Holds w.symbols ids gs ∧ Run (fun g => T g.flatten) (syms.map fun s => [s.toSlice.piece]) gs ∧
      (∀ l r, Adjacent ids l r → R.bigram? l r (w.symbols l).toSlice (w.symbols r).toSlice = .ok none) ∧ M w.memo := by
  have hstart : Inv R syms.length text claims M (fun _ r => 1 ≤ r) ⟨vector syms, [], memo⟩ (List.range syms.length) := by
    refine ⟨hchain, by simp, by simp, ?_, hmemo⟩
    intro l r hlr
    have hsucc := ((adjacent_range).mp hlr).1
    exact .inl (by omega)
  obtain ⟨w₁, hseed, hsymbols, hlen, hinv⟩ := seed_spec laws Nat.one_pos rfl hstart
  have hholds : Holds w₁.symbols (List.range syms.length) (syms.map fun s => [s.toSlice.piece]) := by
    unfold Holds
    rw [hsymbols, pieces_vector, map_map]
    exact map_congr_left fun s _ => flatten_singleton.symm
  have hfuel : w₁.queue.length + 2 * (List.range syms.length).length ≤ 3 * syms.length := by
    simp only [length_nil, length_range] at hlen ⊢
    omega
  obtain ⟨w', ids', gs', hloop, hempty, hinv', hholds', hrun⟩ := mergeLoop_spec laws hinv hholds hfuel
  refine ⟨w', ids', gs', ?_, hinv'.chain, hholds', hrun, ?_, hinv'.memo⟩
  · unfold Rules.session Rules.seed
    rw [hseed]
    exact hloop
  · intro l r hlr
    rcases (hinv'.complete l r hlr).resolve_left id with hnone | ⟨e, he, -⟩
    · exact hnone
    · rw [hempty] at he
      cases he

end Spec

end Tokenizer
