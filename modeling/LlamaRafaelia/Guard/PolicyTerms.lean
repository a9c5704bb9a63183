import LlamaRafaelia.Guard.Evaluate

/-!
# The terms of a policy file

`load_policy_terms` leaves out a term that is empty, and then normalises what is left.  A term without a letter or a digit
that the normaliser knows is empty only afterwards, and the empty phrase occurs in every text.

* `foldl_policyLine` - **the loader**: the terms of the lines, normalised, in their order;
* **`policy_real_matches_iff`** - the policy fires on real matches only, for every prompt, exactly if no term of the file is
  normalised to the empty text.
-/

namespace SmartGuard

/-! ### The lines -/

/-- The two kinds of terms. -/
inductive TermKind
  | warn
  | block
  deriving DecidableEq, Repr

/-- The term of a line: none for an empty line, a comment, and a prefix with nothing behind it; a line without a prefix is
a term to warn of. -/
def lineTerm (line : List UInt8) : Option (TermKind × List UInt8) :=
  let trimmed := trimCopy line
  if trimmed = [] ∨ trimmed.head? = some 0x23 then none
  else if (ascii "warn:").isPrefixOf trimmed then
    let term := trimCopy (trimmed.drop (ascii "warn:").length)
    if term = [] then none else some (.warn, term)
  else if (ascii "block:").isPrefixOf trimmed then
    let term := trimCopy (trimmed.drop (ascii "block:").length)
    if term = [] then none else some (.block, term)
  else some (.warn, trimmed)

def termsOf (kind : TermKind) (lines : List (List UInt8)) : List (List UInt8) :=
  lines.filterMap fun line =>
    match lineTerm line with
    | none => none
    | some (k, term) => if k = kind then some (normalizeText term) else none

theorem termsOf_cons (kind : TermKind) (line : List UInt8) (lines : List (List UInt8)) :
    termsOf kind (line :: lines) = termsOf kind [line] ++ termsOf kind lines :=
  List.filterMap_append (l := [line])

theorem mem_termsOf {kind : TermKind} {lines : List (List UInt8)} {text : List UInt8} : text ∈ termsOf kind lines ↔
    ∃ line ∈ lines, ∃ term, lineTerm line = some (kind, term) ∧ normalizeText term = text := by
  unfold termsOf
  rw [List.mem_filterMap]
  constructor
  · rintro ⟨line, hline, h⟩
    cases hterm : lineTerm line with
    | none =>
      rw [hterm] at h
      cases h
    | some r =>
      obtain ⟨k, term⟩ := r
      rw [hterm] at h
      dsimp only at h
      split at h
      · rename_i hk
        subst hk
        exact ⟨line, hline, term, hterm, Option.some.inj h⟩
      · cases h
  · rintro ⟨line, hline, term, hterm, rfl⟩
    refine ⟨line, hline, ?_⟩
    rw [hterm]
    exact if_pos rfl

/-! ### The loader -/

def PolicyTerms.add (terms : PolicyTerms) : Option (TermKind × List UInt8) → PolicyTerms
  | none => terms
  | some (.warn, term) => { terms with warnTerms := terms.warnTerms ++ [normalizeText term] }
  | some (.block, term) => { terms with blockTerms := terms.blockTerms ++ [normalizeText term] }

theorem policyLine_eq (terms : PolicyTerms) (line : List UInt8) : policyLine terms line = terms.add (lineTerm line) := by
  unfold policyLine lineTerm
  dsimp only
  split
  · rfl
  · split
    · split
      · rfl
      · rfl
    · split
      · split
        · rfl
        · rfl
      · rfl

theorem foldl_policyLine (lines : List (List UInt8)) (terms : PolicyTerms) : lines.foldl policyLine terms =
    { warnTerms := terms.warnTerms ++ termsOf .warn lines, blockTerms := terms.blockTerms ++ termsOf .block lines } := by
  induction lines generalizing terms with
  | nil => simp [termsOf]
  | cons line lines ih =>
    have hadd : terms.add (lineTerm line) =
        { warnTerms := terms.warnTerms ++ termsOf .warn [line], blockTerms := terms.blockTerms ++ termsOf .block [line] } := by
      cases hterm : lineTerm line with
      | none => simp [PolicyTerms.add, termsOf, hterm]
      | some r =>
        obtain ⟨kind, term⟩ := r
        cases kind with
        | warn => simp [PolicyTerms.add, termsOf, hterm]
        | block => simp [PolicyTerms.add, termsOf, hterm]
    rw [List.foldl_cons, ih, policyLine_eq, hadd, termsOf_cons .warn line lines, termsOf_cons .block line lines,
      ← List.append_assoc, ← List.append_assoc]

def policyLines (readFile : List UInt8 → Option (List UInt8)) (m : Metadata) : List (List UInt8) :=
  match m.fields.lookup (ascii "policy_path") with
  | none => []
  | some path =>
    if path = [] then []
    else
      match readFile path with
      | none => []
      | some content => getlines [] content

theorem applyPolicy_eq (readFile : List UInt8 → Option (List UInt8)) (m : Metadata) (normalized : List UInt8)
    (v : ℕ × Action) : applyPolicy readFile m normalized v
      = overlay (containsAny normalized (termsOf .block (policyLines readFile m)))
          (containsAny normalized (termsOf .warn (policyLines readFile m))) v := by
  unfold applyPolicy policyLines
  cases m.fields.lookup (ascii "policy_path") with
  | none => rfl
  | some path =>
    dsimp only
    by_cases hpath : path = []
    · rw [if_pos hpath, if_pos hpath]
      rfl
    · rw [if_neg hpath, if_neg hpath, loadPolicyTerms, if_neg hpath]
      cases readFile path with
      | none => rfl
      | some content =>
        dsimp only
        rw [foldl_policyLine]
        rfl

/-! ### Real matches -/

/-- A line of the kind has a normalised term that is not empty and occurs in the normalised prompt. -/
def RealMatch (kind : TermKind) (lines : List (List UInt8)) (prompt : List UInt8) : Prop :=
  ∃ line ∈ lines, ∃ term, lineTerm line = some (kind, term) ∧ normalizeText term ≠ [] ∧
    normalizeText term <:+: normalizeText prompt

def FiresOnRealMatches (readFile : List UInt8 → Option (List UInt8)) (m : Metadata) (prompt : List UInt8) : Prop :=
  (.policyBlock ∈ (evaluate readFile prompt m).reasons → RealMatch .block (policyLines readFile m) prompt) ∧
  (.policyWarn ∈ (evaluate readFile prompt m).reasons → RealMatch .warn (policyLines readFile m) prompt)

def NoEmptyTerm (lines : List (List UInt8)) : Prop :=
  ∀ line ∈ lines, ∀ kind term, lineTerm line = some (kind, term) → normalizeText term ≠ []

theorem policy_not_collected (s : Signals) : .policyBlock ∉ collectReasons s ∧ .policyWarn ∉ collectReasons s := by
  obtain ⟨v, a, hr, hc, al⟩ := s
  revert v a hr hc al
  decide

theorem policy_reasons (readFile : List UInt8 → Option (List UInt8)) (m : Metadata) (prompt : List UInt8) :
    (.policyBlock ∈ (evaluate readFile prompt m).reasons ↔
      containsAny (normalizeText prompt) (termsOf .block (policyLines readFile m)) = true) ∧
    (.policyWarn ∈ (evaluate readFile prompt m).reasons ↔
      containsAny (normalizeText prompt) (termsOf .block (policyLines readFile m)) = false ∧
        containsAny (normalizeText prompt) (termsOf .warn (policyLines readFile m)) = true) := by
  have hover : ∀ (b w : Bool) (v : ℕ × Action), (.policyBlock ∈ (overlay b w v).2 ↔ b = true) ∧
      (.policyWarn ∈ (overlay b w v).2 ↔ b = false ∧ w = true) := by
    rintro b w ⟨level, action⟩
    cases b <;> cases w <;> cases action <;> simp [overlay]
  have hreasons : (evaluate readFile prompt m).reasons
      = collectReasons (m.fields.foldl fieldSignals (promptSignals (normalizeText prompt)))
        ++ (applyPolicy readFile m (normalizeText prompt)
          (verdict (m.fields.foldl fieldSignals (promptSignals (normalizeText prompt))))).2 := rfl
  obtain ⟨hblock, hwarn⟩ := policy_not_collected (m.fields.foldl fieldSignals (promptSignals (normalizeText prompt)))
  rw [hreasons, applyPolicy_eq, List.mem_append, List.mem_append, or_iff_right hblock, or_iff_right hwarn]
  exact hover _ _ _

theorem containsAny_iff {text : List UInt8} {phrases : List (List UInt8)} :
    containsAny text phrases = true ↔ ∃ phrase ∈ phrases, phrase <:+: text := by
  rw [containsAny, List.any_eq_true]
  simp only [decide_eq_true_eq]

theorem realMatch_of_contains {kind : TermKind} {lines : List (List UInt8)} (hno : NoEmptyTerm lines) {prompt : List UInt8}
    (h : containsAny (normalizeText prompt) (termsOf kind lines) = true) : RealMatch kind lines prompt := by
  obtain ⟨phrase, hphrase, hinfix⟩ := (containsAny_iff).mp h
  obtain ⟨line, hline, term, hterm, rfl⟩ := (mem_termsOf).mp hphrase
  exact ⟨line, hline, term, hterm, hno line hline kind term hterm, hinfix⟩

theorem not_realMatch_nil (kind : TermKind) (lines : List (List UInt8)) : ¬RealMatch kind lines [] := by
  rintro ⟨line, -, term, -, hne, hinfix⟩
  exact hne (List.infix_nil.mp hinfix)

/-- **When a policy fires on real matches only.**  For a file system and metadata, `policy_block` and `policy_warn` are for
every prompt added only if a line of that kind has a normalised term that is not empty and occurs in the normalised prompt,
exactly if no line of the policy file has a term that is normalised to the empty text. -/
theorem policy_real_matches_iff (readFile : List UInt8 → Option (List UInt8)) (m : Metadata) :
    (∀ prompt, FiresOnRealMatches readFile m prompt) ↔ NoEmptyTerm (policyLines readFile m) := by
  constructor
  · intro h line hline kind term hterm hempty
    obtain ⟨hblock, hwarn⟩ := h []
    obtain ⟨hreasonBlock, hreasonWarn⟩ := policy_reasons readFile m []
    -- the empty term occurs in the empty prompt, where no match is real
    have hcontains : ∀ k, lineTerm line = some (k, term) →
        containsAny (normalizeText []) (termsOf k (policyLines readFile m)) = true := by
      intro k hk
      exact (containsAny_iff).mpr ⟨[], (mem_termsOf).mpr ⟨line, hline, term, hk, hempty⟩, List.nil_infix⟩
    have hnot : containsAny (normalizeText []) (termsOf .block (policyLines readFile m)) = false := by
      by_contra hyes
      exact not_realMatch_nil _ _ (hblock (hreasonBlock.mpr (Bool.eq_true_of_not_eq_false hyes)))
    cases kind with
    | block =>
      rw [hcontains .block hterm] at hnot
      cases hnot
    | warn => exact not_realMatch_nil _ _ (hwarn (hreasonWarn.mpr ⟨hnot, hcontains .warn hterm⟩))
  · intro hno prompt
    obtain ⟨hreasonBlock, hreasonWarn⟩ := policy_reasons readFile m prompt
    exact ⟨fun h => realMatch_of_contains hno (hreasonBlock.mp h),
      fun h => realMatch_of_contains hno (hreasonWarn.mp h).2⟩

def bangFile : List UInt8 → Option (List UInt8) := fun _ => some (ascii "block: !!!")

def bangMeta : Metadata := ⟨[(ascii "policy_path", ascii "p")], by decide⟩

/-- It blocks a harmless prompt. -/
theorem bang_blocks_everything : .policyBlock ∈ (evaluate bangFile (ascii "hello") bangMeta).reasons ∧
    (evaluate bangFile (ascii "hello") bangMeta).actionTaken = .block ∧
    ¬RealMatch .block (policyLines bangFile bangMeta) (ascii "hello") := by
  have hempty : ∀ line ∈ policyLines bangFile bangMeta, ∀ term, lineTerm line = some (.block, term) →
      normalizeText term = [] := by
    have hlines : policyLines bangFile bangMeta = [ascii "block: !!!"] := by decide +kernel
    have hterm : lineTerm (ascii "block: !!!") = some (.block, ascii "!!!") := by decide +kernel
    intro line hline term h
    rw [hlines] at hline
    rw [List.mem_singleton.mp hline, hterm] at h
    obtain rfl := (Prod.mk.inj (Option.some.inj h)).2
    decide +kernel
  refine ⟨by decide +kernel, by decide +kernel, ?_⟩
  rintro ⟨line, hline, term, hterm, hne, -⟩
  exact hne (hempty line hline term hterm)

end SmartGuard
