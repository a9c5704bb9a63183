import LlamaRafaelia.Grammar.Syntax

/-!
# Stacks and forms

The stack of the engine stands for the string of symbols that is still to come: from every pointer the symbols up
to the end of its alternate (`formOf`).  `advance_stack` replaces a rule reference on top by the alternates of
the rule, which is an expansion of the first symbol of the form, until a character class is on top.

* **`advanceStack_spec`** — as long as expansion ends, `advance_stack` returns, and adds exactly the stacks with a
  class on top that the expansions reach.
* **`acceptAll_spec`** — after a word, the stacks are those that can be reached by reading it.
-/

namespace Grammar

open List Relation ReflTransGen

variable {rules : Rules} {p : Pos} {s t : Stack}

/-! ### Stacks as forms -/

def formOf (rules : Rules) (s : Stack) : List (ℕ ⊕ GrammarSymbol) :=
  (s.flatMap fun p => symsOf (rules.elemsAt p)).map Sum.inr

def Valid (rules : Rules) (s : Stack) : Prop := ∀ p ∈ s, Head rules p

def Ready (rules : Rules) : Stack → Prop
  | [] => True
  | p :: _ => (rules.elemAt p).type ≠ .ruleRef

theorem formOf_cons (p : Pos) (s : Stack) :
    formOf rules (p :: s) = (symsOf (rules.elemsAt p)).map Sum.inr ++ formOf rules s := by
  simp only [formOf, flatMap_cons, map_append]

theorem symsOf_end (h : isEndOfSequence (rules.elemAt p) = true) : symsOf (rules.elemsAt p) = [] := by
  cases hes : rules.elemsAt p with
  | nil => rfl
  | cons e es =>
    rw [elemAt_of_elemsAt hes] at h
    have htype : e.type = .endOfRule ∨ e.type = .alt := by simpa [isEndOfSequence] using h
    rcases htype with htype | htype
    · simp [symsOf, htype]
    · simp [symsOf, htype]

theorem formOf_push (p : Pos) (s : Stack) :
    formOf rules (push rules p s) = (symsOf (rules.elemsAt p)).map Sum.inr ++ formOf rules s := by
  unfold push
  split
  · next hend =>
    rw [symsOf_end hend]
    rfl
  · exact formOf_cons p s

theorem Valid.push (hs : Valid rules s) (hp : Place rules p) : Valid rules (push rules p s) := by
  unfold Grammar.push
  split
  · exact hs
  · next hend =>
    intro q hq
    rcases mem_cons.mp hq with rfl | hq
    · exact ⟨hp, by simpa using hend⟩
    · exact hs q hq

theorem Valid.tail (hs : Valid rules (p :: s)) : Valid rules s := fun q hq => hs q (mem_cons_of_mem p hq)

theorem valid_nil : Valid rules [] := fun _ hp => absurd hp not_mem_nil

/-- A stack with a rule reference on top. -/
structure RefTop (rules : Rules) (p : Pos) (rest : Stack) (r : ℕ) : Prop where
  value : (rules.elemAt p).value = r
  type : (rules.elemAt p).type = .ruleRef
  lt : r < rules.length
  next : Place rules (p.add 1)
  form : formOf rules (p :: rest) = Sum.inr (.rule r) :: formOf rules (Grammar.push rules (p.add 1) rest)

/-- A stack with a character class on top, and the pointer behind it. -/
structure ClassTop (rules : Rules) (p : Pos) (rest : Stack) (cls : CharClass) (q : Pos) : Prop where
  type : (rules.elemAt p).type = .char ∨ (rules.elemAt p).type = .charNot ∨ (rules.elemAt p).type = .charAny
  matches_ : ∀ chr, matchChar rules p chr = .ok (cls.mem chr, q)
  next : Place rules q
  form : formOf rules (p :: rest) = Sum.inr (.chars cls) :: formOf rules (Grammar.push rules q rest)

theorem Valid.top (h : Valid rules (p :: s)) :
    (∃ r, RefTop rules p s r) ∨ ∃ cls q, ClassTop rules p s cls q := by
  obtain ⟨e, es, hes, hwf, htype⟩ := (h p mem_cons_self).cases
  have helem := elemAt_of_elemsAt hes
  rcases htype with ⟨htype, hlt⟩ | htype
  · refine Or.inl ⟨e.value, by rw [helem], by rw [helem]; exact htype, hlt, place_of_ruleRef hes hwf htype, ?_⟩
    rw [formOf_cons, formOf_push, hes, elemsAt_add, hes]
    simp [symsOf, htype]
  · obtain ⟨q, hmatch, hplace, hsyms⟩ := matchChar_spec hes hwf htype
    refine Or.inr ⟨classOf e es, q, by rw [helem]; exact htype, hmatch, hplace, ?_⟩
    rw [formOf_cons, formOf_push, hes, hsyms]
    rcases htype with htype | htype | htype
    · simp [symsOf, htype]
    · simp [symsOf, htype]
    · simp [symsOf, htype]

theorem Valid.eq_nil (h : Valid rules s) (hform : formOf rules s = []) : s = [] := by
  cases s with
  | nil => rfl
  | cons p s =>
    rcases h.top with ⟨r, href⟩ | ⟨cls, q, hcls⟩
    · rw [href.form] at hform
      cases hform
    · rw [hcls.form] at hform
      cases hform

/-! ### Expansions -/

/-- One round of `advance_stack`. -/
def Expands (rules : Rules) (s t : Stack) : Prop :=
  ∃ p rest, s = p :: rest ∧ (rules.elemAt p).type = .ruleRef ∧ t ∈ expansions rules p rest

def Reaches (rules : Rules) (s t : Stack) : Prop := ReflTransGen (Expands rules) s t ∧ Ready rules t

theorem RefTop.mem_expansions {rest : Stack} {r : ℕ} (h : RefTop rules p rest r) :
    t ∈ expansions rules p rest ↔
      ∃ i ∈ altStarts (rules.getD r []), t = push rules ⟨r, i⟩ (push rules (p.add 1) rest) := by
  simp only [expansions, h.value, mem_map, eq_comm]

theorem RefTop.expansion_form {rest : Stack} {r : ℕ} (h : RefTop rules p rest r) {i : ℕ}
    (hi : i ∈ altStarts (rules.getD r [])) :
    ∃ δ γ, Produces rules (.rule r) δ ∧ formOf rules (p :: rest) = Sum.inr (.rule r) :: γ ∧
      formOf rules (push rules ⟨r, i⟩ (push rules (p.add 1) rest)) = δ ++ γ :=
  ⟨_, _, Produces.rule h.lt hi, h.form, formOf_push _ _⟩

theorem Expands.valid (hwf : WellFormed rules) (hs : Valid rules s) (h : Expands rules s t) :
    Valid rules t ∧ Leftmost.Expand (Produces rules) (formOf rules s) (formOf rules t) := by
  obtain ⟨p, rest, rfl, htype, ht⟩ := h
  rcases hs.top with ⟨r, href⟩ | ⟨cls, q, hcls⟩
  · obtain ⟨i, hi, rfl⟩ := href.mem_expansions.mp ht
    obtain ⟨δ, γ, hprod, hform, hform'⟩ := href.expansion_form hi
    refine ⟨(hs.tail.push href.next).push (hwf.place href.lt hi), ?_⟩
    rw [hform, hform']
    exact Leftmost.Expand.replace hprod γ
  · rcases hcls.type with h | h | h <;> rw [h] at htype <;> cases htype

theorem Reaches.valid (hwf : WellFormed rules) (hs : Valid rules s) (h : Reaches rules s t) : Valid rules t := by
  obtain ⟨h, -⟩ := h
  induction h with
  | refl => exact hs
  | tail _ hstep ih => exact (hstep.valid hwf ih).1

theorem reaches_of_ready (h : Ready rules s) : Reaches rules s t ↔ t = s := by
  constructor
  · rintro ⟨hreach, -⟩
    rcases cases_head hreach with heq | ⟨u, hstep, -⟩
    · exact heq.symm
    · obtain ⟨p, rest, rfl, htype, -⟩ := hstep
      exact absurd htype h
  · rintro rfl
    exact ⟨refl, h⟩

theorem ClassTop.ready {rest : Stack} {cls : CharClass} {q : Pos} (h : ClassTop rules p rest cls q) :
    Ready rules (p :: rest) := by
  intro htype
  rcases h.type with h | h | h <;> rw [h] at htype <;> cases htype

theorem RefTop.reaches {rest : Stack} {r : ℕ} (h : RefTop rules p rest r) :
    Reaches rules (p :: rest) t ↔ ∃ u ∈ expansions rules p rest, Reaches rules u t := by
  constructor
  · rintro ⟨hreach, hready⟩
    rcases cases_head hreach with heq | ⟨u, ⟨p', rest', heq, -, hu⟩, hrest⟩
    · rw [← heq] at hready
      exact absurd h.type hready
    · obtain ⟨rfl, rfl⟩ := List.cons.inj heq
      exact ⟨u, hu, hrest, hready⟩
  · rintro ⟨u, hu, hreach, hready⟩
    exact ⟨head ⟨p, rest, rfl, h.type, hu⟩ hreach, hready⟩

/-! ### `advance_stack` -/

theorem mem_addNew {news : List Stack} : t ∈ addNew s news ↔ t ∈ news ∨ t = s := by
  unfold addNew
  split
  · next hmem =>
    refine ⟨Or.inl, ?_⟩
    rintro (h | rfl)
    · exact h
    · exact hmem
  · rw [mem_append, mem_singleton]

/-- With enough fuel `advance_stack` returns, and adds the stacks that can be reached. -/
def Advances (rules : Rules) (s : Stack) : Prop :=
  ∃ F, ∀ news, ∃ news', (∀ fuel ≥ F, advanceStack rules fuel s news = .ok news') ∧
    ∀ t, t ∈ news' ↔ t ∈ news ∨ Reaches rules s t

theorem foldlM_adds {l : List Stack} {f : ℕ → List Stack → Stack → Except Stop (List Stack)}
    {R : Stack → Stack → Prop}
    (h : ∀ s ∈ l, ∃ F, ∀ news, ∃ news', (∀ fuel ≥ F, f fuel news s = .ok news') ∧
      ∀ t, t ∈ news' ↔ t ∈ news ∨ R s t) :
    ∃ F, ∀ news, ∃ news', (∀ fuel ≥ F, l.foldlM (f fuel) news = .ok news') ∧
      ∀ t, t ∈ news' ↔ t ∈ news ∨ ∃ s ∈ l, R s t := by
  induction l with
  | nil => exact ⟨0, fun news => ⟨news, fun _ _ => rfl, by simp⟩⟩
  | cons s l ih =>
    obtain ⟨F, hF⟩ := h s mem_cons_self
    obtain ⟨F', hF'⟩ := ih fun u hu => h u (mem_cons_of_mem s hu)
    refine ⟨max F F', fun news => ?_⟩
    obtain ⟨news1, hval1, hmem1⟩ := hF news
    obtain ⟨news2, hval2, hmem2⟩ := hF' news1
    refine ⟨news2, fun fuel hfuel => ?_, fun t => ?_⟩
    · rw [foldlM_cons, hval1 fuel (le_trans (le_max_left F F') hfuel)]
      exact hval2 fuel (le_trans (le_max_right F F') hfuel)
    · rw [hmem2, hmem1]
      simp only [mem_cons, exists_eq_or_imp, or_assoc]

theorem advances_of_ready (hs : Ready rules s) (hval : ∀ fuel news, advanceStack rules (fuel + 1) s news
    = .ok (addNew s news)) : Advances rules s := by
  refine ⟨1, fun news => ⟨addNew s news, fun fuel hfuel => ?_, fun t => ?_⟩⟩
  · obtain ⟨fuel, rfl⟩ := Nat.exists_eq_add_of_le' hfuel
    exact hval fuel news
  · rw [mem_addNew, reaches_of_ready hs]

/-- **`advance_stack` returns** whenever the expansion of the form ends. -/
theorem advanceStack_spec (hwf : WellFormed rules) (hs : Valid rules s)
    (hacc : Acc (fun β α => Leftmost.Expand (Produces rules) α β) (formOf rules s)) : Advances rules s := by
  generalize hα : formOf rules s = α at hacc
  induction hacc generalizing s with
  | intro α _ ih =>
    cases s with
    | nil => exact advances_of_ready trivial fun fuel news => rfl
    | cons p rest =>
      rcases hs.top with ⟨r, href⟩ | ⟨cls, q, hcls⟩
      · have hall : ∀ u ∈ expansions rules p rest, Advances rules u := by
          intro u hu
          have hexp := Expands.valid hwf hs ⟨p, rest, rfl, href.type, hu⟩
          exact ih _ (hα ▸ hexp.2) hexp.1 rfl
        -- the fuel that the most expensive expansion needs, and one more
        obtain ⟨F, hF⟩ := foldlM_adds hall
        refine ⟨F + 1, fun news => ?_⟩
        obtain ⟨news', hval, hmem⟩ := hF news
        refine ⟨news', fun fuel hfuel => ?_, fun t => ?_⟩
        · obtain ⟨fuel, rfl⟩ := Nat.exists_eq_add_of_le' (le_trans (Nat.le_add_left 1 F) hfuel)
          rw [advanceStack, href.type]
          exact hval fuel (Nat.le_of_succ_le_succ hfuel)
        · rw [hmem, href.reaches]
      · refine advances_of_ready hcls.ready fun fuel news => ?_
        rw [advanceStack]
        rcases hcls.type with h | h | h <;> rw [h]

theorem exists_reaches (hwf : WellFormed rules) (hs : Valid rules s)
    (hacc : Acc (fun β α => Leftmost.Expand (Produces rules) α β) (formOf rules s)) :
    ∃ t, Reaches rules s t := by
  generalize hα : formOf rules s = α at hacc
  induction hacc generalizing s with
  | intro α _ ih =>
    cases s with
    | nil => exact ⟨[], refl, trivial⟩
    | cons p rest =>
      rcases hs.top with ⟨r, href⟩ | ⟨cls, q, hcls⟩
      · have hu : push rules ⟨r, 0⟩ (push rules (p.add 1) rest) ∈ expansions rules p rest :=
          href.mem_expansions.mpr ⟨0, mem_cons_self, rfl⟩
        have hexp := Expands.valid hwf hs ⟨p, rest, rfl, href.type, hu⟩
        obtain ⟨t, ht⟩ := ih _ (hα ▸ hexp.2) hexp.1 rfl
        exact ⟨t, href.reaches.mpr ⟨_, hu, ht⟩⟩
      · exact ⟨p :: rest, (reaches_of_ready hcls.ready).mpr rfl⟩

/-! ### `accept` -/

/-- Stack `t` is reached from `s` by reading one character. -/
def Next (rules : Rules) (chr : ℕ) (s t : Stack) : Prop :=
  ∃ p rest q, s = p :: rest ∧ matchChar rules p chr = .ok (true, q) ∧ Reaches rules (push rules q rest) t

/-- Stack `t` is reached from `s` by reading a word. -/
def Run (rules : Rules) (s : Stack) : List ℕ → Stack → Prop
  | [], t => t = s
  | c :: w, t => ∃ u, Next rules c s u ∧ Run rules u w t

def Stacks (rules : Rules) (l : List Stack) : Prop := ∀ s ∈ l, Valid rules s ∧ Ready rules s

theorem Next.valid {chr : ℕ} (hwf : WellFormed rules) (hs : Valid rules s) (h : Next rules chr s t) :
    Valid rules t ∧ Ready rules t := by
  obtain ⟨p, rest, q, rfl, hmatch, hreach⟩ := h
  rcases hs.top with ⟨r, href⟩ | ⟨cls, q', hcls⟩
  · simp [matchChar, href.type] at hmatch
  · rw [hcls.matches_, Except.ok.injEq, Prod.mk.injEq] at hmatch
    obtain ⟨-, rfl⟩ := hmatch
    exact ⟨hreach.valid hwf (hs.tail.push hcls.next), hreach.2⟩

theorem ClassTop.next_iff {rest : Stack} {cls : CharClass} {q : Pos} (h : ClassTop rules p rest cls q) {chr : ℕ} :
    Next rules chr (p :: rest) t ↔ cls.mem chr = true ∧ Reaches rules (push rules q rest) t := by
  constructor
  · rintro ⟨p', rest', q', heq, hmatch, hreach⟩
    obtain ⟨rfl, rfl⟩ := List.cons.inj heq
    rw [h.matches_, Except.ok.injEq, Prod.mk.injEq] at hmatch
    exact ⟨hmatch.1, hmatch.2 ▸ hreach⟩
  · rintro ⟨hmem, hreach⟩
    exact ⟨p, rest, q, rfl, by rw [h.matches_, hmem], hreach⟩

section

variable (hwf : WellFormed rules)
  (hacc : ∀ α, Acc (fun β α => Leftmost.Expand (Produces rules) α β) α)

include hwf hacc

theorem acceptStack_spec (chr : ℕ) (hs : Valid rules s) (hready : Ready rules s) :
    ∃ F, ∀ news, ∃ news', (∀ fuel ≥ F, acceptStack fuel rules chr news s = .ok news') ∧
      ∀ t, t ∈ news' ↔ t ∈ news ∨ Next rules chr s t := by
  cases s with
  | nil =>
    refine ⟨0, fun news => ⟨news, fun _ _ => rfl, fun t => ⟨Or.inl, ?_⟩⟩⟩
    rintro (h | ⟨p, rest, q, heq, -⟩)
    · exact h
    · cases heq
  | cons p rest =>
    rcases hs.top with ⟨r, href⟩ | ⟨cls, q, hcls⟩
    · exact absurd href.type hready
    · obtain ⟨F, hF⟩ := advanceStack_spec hwf (hs.tail.push hcls.next) (hacc _)
      have hval : ∀ fuel news, acceptStack fuel rules chr news (p :: rest) = if cls.mem chr = true then
          advanceStack rules fuel (push rules q rest) news else .ok news := by
        intro fuel news
        simp only [acceptStack, hcls.matches_]
        rfl
      refine ⟨F, fun news => ?_⟩
      by_cases hmem : cls.mem chr = true
      · obtain ⟨news', hval', hmem'⟩ := hF news
        refine ⟨news', fun fuel hfuel => by rw [hval, if_pos hmem, hval' fuel hfuel], fun t => ?_⟩
        rw [hmem', hcls.next_iff]
        simp only [hmem, true_and]
      · refine ⟨news, fun fuel _ => by rw [hval, if_neg hmem], fun t => ?_⟩
        rw [hcls.next_iff]
        simp only [hmem, Bool.false_eq_true, false_and, or_false]

/-- **A word, character by character**: the stacks afterwards are those reached by reading it. -/
theorem acceptAll_spec (w : List ℕ) {g : Grammar} (hrules : g.rules = rules) (hg : Stacks rules g.stackSet) :
    ∃ F l, (∀ fuel ≥ F, w.foldlM (accept fuel) g = .ok { g with stackSet := l }) ∧ Stacks rules l ∧
      ∀ t, t ∈ l ↔ ∃ s ∈ g.stackSet, Run rules s w t := by
  induction w generalizing g with
  | nil => exact ⟨0, g.stackSet, fun _ _ => rfl, hg, fun t => by simp [Run]⟩
  | cons c w ih =>
    obtain ⟨F, hF⟩ := foldlM_adds fun s hs => acceptStack_spec hwf hacc c (hg s hs).1 (hg s hs).2
    obtain ⟨l, hval, hmem⟩ := hF []
    have hl : Stacks rules l := by
      intro t ht
      obtain ⟨s, hs, hnext⟩ := ((hmem t).mp ht).resolve_left not_mem_nil
      exact hnext.valid hwf (hg s hs).1
    obtain ⟨F', l', hval', hl', hmem'⟩ := ih (g := { g with stackSet := l }) hrules hl
    refine ⟨max F F', l', fun fuel hfuel => ?_, hl', fun t => ?_⟩
    · have hstep : accept fuel g c = .ok { g with stackSet := l } := by
        rw [accept, hrules, hval fuel (le_trans (le_max_left F F') hfuel)]
        rfl
      rw [foldlM_cons, hstep]
      exact hval' fuel (le_trans (le_max_right F F') hfuel)
    · rw [hmem']
      constructor
      · rintro ⟨u, hu, hrun⟩
        obtain ⟨s, hs, hnext⟩ := ((hmem u).mp hu).resolve_left not_mem_nil
        exact ⟨s, hs, u, hnext, hrun⟩
      · rintro ⟨s, hs, u, hnext, hrun⟩
        exact ⟨u, (hmem u).mpr (Or.inr ⟨s, hs, hnext⟩), hrun⟩

end

end Grammar
