import LlamaRafaelia.Grammar.LeftRecursion

/-!
# The language of the engine

The stack set is a set of forms: those that are left behind the text so far in leftmost derivations from the start
rule.  One direction replays a run of the engine as a derivation (`Run.consumes`); the other follows a derivation
with a stack and stops where the text ends (`exists_run`).

* **`accept_language`** — after any text, the empty stack is there exactly if the text is derivable, and some stack
  is there exactly if the text is a prefix of a derivable form.
-/

namespace Grammar

open List Relation Leftmost.Consumes

variable {rules : Rules} {s t : Stack}

/-! ### Runs are derivations -/

theorem Reaches.consumes (hwf : WellFormed rules) (hs : Valid rules s) (h : Reaches rules s t) {w : List ℕ}
    {β : List (ℕ ⊕ GrammarSymbol)} (hd : Leftmost.Consumes (Produces rules) (formOf rules t) w β) :
    Leftmost.Consumes (Produces rules) (formOf rules s) w β := by
  obtain ⟨hreach, -⟩ := h
  induction hreach using ReflTransGen.head_induction_on with
  | refl => exact hd
  | head hstep _ ih =>
    obtain ⟨hvalid, hexp⟩ := hstep.valid hwf hs
    specialize ih hvalid
    generalize formOf rules _ = α at hexp
    generalize formOf rules _ = α' at hexp ih
    cases hexp with
    | replace hprod γ => exact expand hprod ih

theorem Next.consumes (hwf : WellFormed rules) (hs : Valid rules s) {c : ℕ} (h : Next rules c s t) {w : List ℕ}
    {β : List (ℕ ⊕ GrammarSymbol)} (hd : Leftmost.Consumes (Produces rules) (formOf rules t) w β) :
    Leftmost.Consumes (Produces rules) (formOf rules s) (c :: w) β := by
  have h' := h
  obtain ⟨p, rest, q, rfl, hmatch, -⟩ := h'
  rcases hs.top with ⟨r, href⟩ | ⟨cls, q', hcls⟩
  · simp [matchChar, href.type] at hmatch
  · obtain ⟨hmem, hreach⟩ := hcls.next_iff.mp h
    have hrest := hreach.consumes hwf (hs.tail.push hcls.next) hd
    rw [hcls.form]
    exact expand (Produces.chars hmem) (read c hrest)

/-- **Soundness**: what is read along a run is read along a derivation. -/
theorem Run.consumes (hwf : WellFormed rules) {w : List ℕ} (hs : Valid rules s) (h : Run rules s w t) :
    Leftmost.Consumes (Produces rules) (formOf rules s) w (formOf rules t) := by
  induction w generalizing s with
  | nil =>
    rw [show t = s from h]
    exact stop _
  | cons c w ih =>
    obtain ⟨u, hnext, hrun⟩ := h
    exact hnext.consumes hwf hs (ih (hnext.valid hwf hs).1 hrun)

/-! ### Derivations are runs -/

/-- The word can be read from the stack, and to the end if nothing is left of the form. -/
def CanRun (rules : Rules) (s : Stack) (w : List ℕ) (β : List (ℕ ⊕ GrammarSymbol)) : Prop :=
  ∃ t' t, Reaches rules s t' ∧ Run rules t' w t ∧ (β = [] → t = [])

/-- **Completeness**: a stack follows a derivation.  Between the choice of a character and its reading, the form
has the character in front, and the stack is the one behind it. -/
theorem exists_run (hwf : WellFormed rules)
    (hacc : ∀ α, Acc (fun β α => Leftmost.Expand (Produces rules) α β) α) {α β : List (ℕ ⊕ GrammarSymbol)} {w : List ℕ}
    (h : Leftmost.Consumes (Produces rules) α w β) :
    (∀ s, Valid rules s → α = formOf rules s → CanRun rules s w β) ∧
      ∀ c s, Valid rules s → α = Sum.inl c :: formOf rules s →
        w = [] ∧ β ≠ [] ∨ ∃ w', w = c :: w' ∧ CanRun rules s w' β := by
  induction h with
  | stop β =>
    constructor
    · rintro s hs rfl
      obtain ⟨t, ht⟩ := exists_reaches hwf hs (hacc _)
      refine ⟨t, t, ht, rfl, fun hnil => ?_⟩
      obtain rfl := hs.eq_nil hnil
      have hready : Ready rules [] := trivial
      exact (reaches_of_ready hready).mp ht
    · rintro c s - rfl
      exact Or.inl ⟨rfl, cons_ne_nil _ _⟩
  | @expand A δ γ β w hprod hd ih =>
    constructor
    · intro s hs hform
      cases s with
      | nil => cases hform
      | cons p rest =>
        rcases hs.top with ⟨r, href⟩ | ⟨cls, q, hcls⟩
        · -- the alternate of the production is among the expansions
          rw [href.form] at hform
          obtain ⟨hA, rfl⟩ := List.cons.inj hform
          obtain rfl := Sum.inr.inj hA
          cases hprod with
          | @rule r i hr hi =>
            have hu := href.mem_expansions.mpr ⟨i, hi, rfl⟩
            have hvalid := (hs.tail.push href.next).push (hwf.place hr hi)
            obtain ⟨t', t, hreach, hrun, hend⟩ := ih.1 _ hvalid (formOf_push ⟨r, i⟩ _).symm
            exact ⟨t', t, href.reaches.mpr ⟨_, hu, hreach⟩, hrun, hend⟩
        · rw [hcls.form] at hform
          obtain ⟨hA, rfl⟩ := List.cons.inj hform
          obtain rfl := Sum.inr.inj hA
          have hstay : Reaches rules (p :: rest) (p :: rest) := (reaches_of_ready hcls.ready).mpr rfl
          cases hprod with
          | chars hc =>
            rcases ih.2 _ _ (hs.tail.push hcls.next) rfl with ⟨rfl, hβ⟩ | ⟨w', rfl, t', t, hreach, hrun, hend⟩
            · exact ⟨_, _, hstay, rfl, fun hnil => absurd hnil hβ⟩
            · exact ⟨_, t, hstay, ⟨t', hcls.next_iff.mpr ⟨hc, hreach⟩, hrun⟩, hend⟩
    · intro c s _ hform
      cases hform
  | read c hd ih =>
    constructor
    · intro s hs hform
      -- a stack stands for symbols, not for characters
      have hmem : Sum.inl c ∈ formOf rules s := by
        rw [← hform]
        exact mem_cons_self
      simp [formOf] at hmem
    · intro c' s hs hform
      obtain ⟨hc, rfl⟩ := List.cons.inj hform
      obtain rfl := Sum.inl.inj hc
      exact Or.inr ⟨_, rfl, ih.1 s hs rfl⟩

/-! ### The start rule -/

section

variable (hwf : WellFormed rules) {start : ℕ} (hstart : start < rules.length)
  (hacc : ∀ α, Acc (fun β α => Leftmost.Expand (Produces rules) α β) α)

include hwf hstart hacc

theorem initialStacks_spec :
    ∃ F l, (∀ fuel ≥ F, initialStacks fuel rules start = .ok l) ∧
      ∀ t, t ∈ l ↔ ∃ i ∈ altStarts (rules.getD start []), Reaches rules (push rules ⟨start, i⟩ []) t := by
  have hadds : ∀ s ∈ (altStarts (rules.getD start [])).map fun i => push rules ⟨start, i⟩ [],
      Advances rules s := by
    intro s hs
    obtain ⟨i, hi, rfl⟩ := mem_map.mp hs
    exact advanceStack_spec hwf (valid_nil.push (hwf.place hstart hi)) (hacc _)
  obtain ⟨F, hF⟩ := foldlM_adds hadds
  obtain ⟨l, hval, hmem⟩ := hF []
  refine ⟨F, l, fun fuel hfuel => ?_, fun t => ?_⟩
  · have hfold := hval fuel hfuel
    rw [foldlM_map] at hfold
    exact hfold
  · rw [hmem t]
    simp only [not_mem_nil, false_or, mem_map, exists_exists_and_eq_and]

theorem start_consumes_iff {w : List ℕ} :
    ((∃ i ∈ altStarts (rules.getD start []), ∃ t', Reaches rules (push rules ⟨start, i⟩ []) t' ∧
        Run rules t' w []) ↔ Leftmost.Consumes (Produces rules) [Sum.inr (.rule start)] w []) ∧
      ((∃ i ∈ altStarts (rules.getD start []), ∃ t' t, Reaches rules (push rules ⟨start, i⟩ []) t' ∧
        Run rules t' w t) ↔ ∃ β, Leftmost.Consumes (Produces rules) [Sum.inr (.rule start)] w β) := by
  have hvalid : ∀ i ∈ altStarts (rules.getD start []), Valid rules (push rules ⟨start, i⟩ []) := fun i hi =>
    valid_nil.push (hwf.place hstart hi)
  have hform : ∀ i, formOf rules (push rules ⟨start, i⟩ [])
      = (symsOf ((rules.getD start []).drop i)).map Sum.inr ++ [] := fun i => formOf_push _ _
  -- a run from an alternate is a derivation from the start rule
  have hsound : ∀ {i t' t}, i ∈ altStarts (rules.getD start []) →
      Reaches rules (push rules ⟨start, i⟩ []) t' → Run rules t' w t →
      Leftmost.Consumes (Produces rules) [Sum.inr (.rule start)] w (formOf rules t) := by
    intro i t' t hi hreach hrun
    have hread := hreach.consumes hwf (hvalid i hi) (hrun.consumes hwf (hreach.valid hwf (hvalid i hi)))
    rw [hform] at hread
    exact expand (Produces.rule hstart hi) hread
  have hcomplete : ∀ {i β}, i ∈ altStarts (rules.getD start []) →
      Leftmost.Consumes (Produces rules) ((symsOf ((rules.getD start []).drop i)).map Sum.inr ++ []) w β →
      CanRun rules (push rules ⟨start, i⟩ []) w β := by
    intro i β hi hread
    exact (exists_run hwf hacc hread).1 _ (hvalid i hi) (hform i).symm
  refine ⟨⟨?_, ?_⟩, ?_, ?_⟩
  · rintro ⟨i, hi, t', hreach, hrun⟩
    exact hsound hi hreach hrun
  · intro hread
    cases hread with
    | expand hprod hread =>
      cases hprod with
      | rule _ hi =>
        obtain ⟨t', t, hreach, hrun, hend⟩ := hcomplete hi hread
        exact ⟨_, hi, t', hreach, hend rfl ▸ hrun⟩
  · rintro ⟨i, hi, t', t, hreach, hrun⟩
    exact ⟨_, hsound hi hreach hrun⟩
  · rintro ⟨β, hread⟩
    cases hread with
    | stop =>
      -- nothing is read: the first alternate will do
      obtain ⟨t, ht⟩ := exists_reaches hwf (hvalid 0 mem_cons_self) (hacc _)
      exact ⟨0, mem_cons_self, t, t, ht, rfl⟩
    | expand hprod hread =>
      cases hprod with
      | rule _ hi =>
        obtain ⟨t', t, hreach, hrun, -⟩ := hcomplete hi hread
        exact ⟨_, hi, t', t, hreach, hrun⟩

end

theorem initImpl_of_not_leftRecursive {rules : Rules} {start : ℕ} (hwf : WellFormed (rules.map copyRule))
    (hleft : ¬ LeftRecursive (rules.map copyRule)) {fuel : ℕ} {l : List Stack}
    (hinit : initialStacks fuel (rules.map copyRule) start = .ok l) :
    initImpl fuel rules start = .ok (some ⟨rules.map copyRule, l, ⟨0, 0⟩, false⟩) := by
  obtain ⟨b, hval, hiff⟩ := isLeftRecursive_spec hwf.refsBelow fun r x h => h.lt
  have hb : b = false := by
    cases b with
    | false => rfl
    | true => exact absurd (leftRecursive_of_leftRef hwf (hiff.mp rfl)) hleft
  subst hb
  simp only [initImpl, hval, hinit]
  rfl

/-- **The language of the engine.**  For well-formed rules without left recursion, after any text the stack set has
the empty stack exactly if the text can be derived from the start rule, and it has some stack exactly if the text
followed by some form can. -/
theorem accept_language (rules : Rules) (start : ℕ) (w : List ℕ) (hstart : start < rules.length)
    (hwf : WellFormed (rules.map copyRule)) (hleft : ¬ LeftRecursive (rules.map copyRule)) :
    ∃ F, ∀ fuel ≥ F, ∃ g₀ g, initImpl fuel rules start = .ok (some g₀) ∧ w.foldlM (accept fuel) g₀ = .ok g ∧
      ([] ∈ g.stackSet ↔
        Leftmost.Derives (Produces (rules.map copyRule)) [Sum.inr (.rule start)] (w.map Sum.inl)) ∧
      (g.stackSet ≠ [] ↔
        ∃ β, Leftmost.Derives (Produces (rules.map copyRule)) [Sum.inr (.rule start)] (w.map Sum.inl ++ β)) := by
  have hacc := acc_of_not_leftRecursive hleft
  have hstart' : start < (rules.map copyRule).length := by simpa using hstart
  obtain ⟨F, l₀, hinit, hmem₀⟩ := initialStacks_spec hwf hstart' hacc
  have hl₀ : Stacks (rules.map copyRule) l₀ := by
    intro t ht
    obtain ⟨i, hi, hreach⟩ := (hmem₀ t).mp ht
    exact ⟨hreach.valid hwf (valid_nil.push (hwf.place hstart' hi)), hreach.2⟩
  obtain ⟨F', l, hval, -, hmem⟩ := acceptAll_spec hwf hacc w
    (g := ⟨rules.map copyRule, l₀, ⟨0, 0⟩, false⟩) rfl hl₀
  obtain ⟨hword, hprefix⟩ := start_consumes_iff hwf hstart' hacc (w := w)
  refine ⟨max F F', fun fuel hfuel => ⟨_, _, initImpl_of_not_leftRecursive hwf hleft
    (hinit fuel (le_trans (le_max_left F F') hfuel)), hval fuel (le_trans (le_max_right F F') hfuel), ?_, ?_⟩⟩
  · rw [Leftmost.derives_iff_consumes, ← hword, hmem]
    constructor
    · rintro ⟨t', ht', hrun⟩
      obtain ⟨i, hi, hreach⟩ := (hmem₀ t').mp ht'
      exact ⟨i, hi, t', hreach, hrun⟩
    · rintro ⟨i, hi, t', hreach, hrun⟩
      exact ⟨t', (hmem₀ t').mpr ⟨i, hi, hreach⟩, hrun⟩
  · rw [Leftmost.exists_derives_iff_consumes, ← hprefix]
    constructor
    · intro hne
      obtain ⟨t, ht⟩ := exists_mem_of_ne_nil _ hne
      obtain ⟨t', ht', hrun⟩ := (hmem t).mp ht
      obtain ⟨i, hi, hreach⟩ := (hmem₀ t').mp ht'
      exact ⟨i, hi, t', t, hreach, hrun⟩
    · rintro ⟨i, hi, t', t, hreach, hrun⟩
      exact ne_nil_of_mem ((hmem t).mpr ⟨t', (hmem₀ t').mpr ⟨i, hi, hreach⟩, hrun⟩)

/-- `root ::= "a" root | "b"` accepts what it derives. -/
theorem accept_language_right :
    ∃ F, ∀ fuel ≥ F, ∃ g₀ g, initImpl fuel rightRecursive 0 = .ok (some g₀) ∧
      [97, 97].foldlM (accept fuel) g₀ = .ok g ∧
      ([] ∈ g.stackSet ↔ Leftmost.Derives (Produces (rightRecursive.map copyRule)) [Sum.inr (.rule 0)]
        [Sum.inl 97, Sum.inl 97]) := by
  have hnot : ¬ LeftRecursive (rightRecursive.map copyRule) := by
    refine not_leftRecursive_of_chars ?_
    decide
  obtain ⟨F, hF⟩ := accept_language rightRecursive 0 [97, 97] (by decide) (by decide) hnot
  refine ⟨F, fun fuel hfuel => ?_⟩
  obtain ⟨g₀, g, hinit, hval, hword, -⟩ := hF fuel hfuel
  exact ⟨g₀, g, hinit, hval, hword⟩

end Grammar
