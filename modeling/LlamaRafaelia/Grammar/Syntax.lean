import LlamaRafaelia.Grammar.Engine
import LlamaRafaelia.Lib.Leftmost
import Mathlib.Data.List.GetD

/-!
# What the rules of a grammar mean

The alternates of a rule are strings of symbols: references to rules, and character classes.  `symsOf` reads them off
the elements, and `Produces` says what a symbol can be replaced by.  `WellFormed` is what the comments in
`llama-grammar.h` ask of the elements.
-/

/-- The characters that a class stands for. -/
inductive CharClass where
  | any
  | oneOf (ranges : List (ℕ × ℕ))
  | noneOf (ranges : List (ℕ × ℕ))
  deriving DecidableEq, Repr

namespace CharClass

def inRanges (chr : ℕ) (ranges : List (ℕ × ℕ)) : Bool := ranges.any fun x => x.1 ≤ chr ∧ chr ≤ x.2

def mem (chr : ℕ) : CharClass → Bool
  | any => true
  | oneOf ranges => inRanges chr ranges
  | noneOf ranges => !inRanges chr ranges

end CharClass

/-- The symbols of a grammar. -/
inductive GrammarSymbol where
  | rule (r : ℕ)
  | chars (cls : CharClass)
  deriving DecidableEq, Repr

namespace Grammar

open List CharClass

/-! ### Symbols -/

/-- The ranges of a class from the elements that follow; `lo` is a character whose range may have an upper end
yet. -/
def ranges : Option ℕ → List Element → List (ℕ × ℕ)
  | none, [] => []
  | some lo, [] => [(lo, lo)]
  | none, e :: es => if e.type = .charAlt then ranges (some e.value) es else []
  | some lo, e :: es =>
    if e.type = .charRngUpper then (lo, e.value) :: ranges none es
    else if e.type = .charAlt then (lo, lo) :: ranges (some e.value) es
    else [(lo, lo)]

/-- The class that starts with element `e`. -/
def classOf (e : Element) (es : List Element) : CharClass :=
  match e.type with
  | .charAny => .any
  | .charNot => .noneOf (ranges (some e.value) es)
  | _ => .oneOf (ranges (some e.value) es)

def symsOf : List Element → List GrammarSymbol
  | [] => []
  | e :: es =>
    match e.type with
    | .endOfRule => []
    | .alt => []
    | .ruleRef => .rule e.value :: symsOf es
    | .char => .chars (classOf e es) :: symsOf es
    | .charNot => .chars (classOf e es) :: symsOf es
    | .charAny => .chars (classOf e es) :: symsOf es
    -- parts of the class before
    | .charRngUpper => symsOf es
    | .charAlt => symsOf es

/-- The productions: of a rule its alternates, of a class its characters. -/
inductive Produces (rules : Rules) : GrammarSymbol → List (ℕ ⊕ GrammarSymbol) → Prop
  | rule {r i : ℕ} (hr : r < rules.length) (hi : i ∈ altStarts (rules.getD r [])) :
      Produces rules (.rule r) ((symsOf ((rules.getD r []).drop i)).map Sum.inr)
  | chars {cls : CharClass} {c : ℕ} (hc : cls.mem c = true) : Produces rules (.chars cls) [Sum.inl c]

/-! ### Well-formed rules -/

def isModifier (e : Element) : Bool := e.type = .charRngUpper ∨ e.type = .charAlt

/-- An element of type `t` may follow one of type `prev`: an upper end comes behind a character, another
character behind a character or a range. -/
def canFollow (prev t : Gretype) : Bool :=
  match t with
  | .charRngUpper => prev = .char ∨ prev = .charNot ∨ prev = .charAlt
  | .charAlt => prev = .char ∨ prev = .charNot ∨ prev = .charAlt ∨ prev = .charRngUpper
  | _ => true

/-- The elements behind one of type `prev` are well formed, with `nRules` rules to refer to. -/
def wellFormedFrom (nRules : ℕ) : Gretype → List Element → Bool
  | _, [] => false
  | prev, e :: es =>
    if e.type = .endOfRule then es.isEmpty
    else canFollow prev e.type && (e.type ≠ .ruleRef || decide (e.value < nRules)) &&
      wellFormedFrom nRules e.type es

def WellFormed (rules : Rules) : Prop := ∀ rule ∈ rules, wellFormedFrom rules.length .alt rule = true

instance (rules : Rules) : Decidable (WellFormed rules) :=
  inferInstanceAs (Decidable (∀ rule ∈ rules, wellFormedFrom rules.length .alt rule = true))

section

variable {nRules : ℕ} {prev : Gretype} {e : Element} {es : List Element}

theorem wellFormedFrom_cons (h : wellFormedFrom nRules prev (e :: es) = true) (hend : e.type ≠ .endOfRule) :
    canFollow prev e.type = true ∧ (e.type = .ruleRef → e.value < nRules) ∧
      wellFormedFrom nRules e.type es = true := by
  simp only [wellFormedFrom, if_neg hend, Bool.and_eq_true, Bool.or_eq_true, decide_eq_true_eq] at h
  exact ⟨h.1.1, fun href => h.1.2.resolve_left fun hne => hne href, h.2⟩

theorem wellFormedFrom_ne_nil (h : wellFormedFrom nRules prev es = true) : es ≠ [] := by
  rintro rfl
  simp [wellFormedFrom] at h

theorem not_modifier_of_follow (h : wellFormedFrom nRules prev (e :: es) = true)
    (hprev : prev ≠ .char ∧ prev ≠ .charNot ∧ prev ≠ .charAlt ∧ prev ≠ .charRngUpper) :
    isModifier e = false := by
  by_cases hend : e.type = .endOfRule
  · simp [isModifier, hend]
  · obtain ⟨hfollow, -, -⟩ := wellFormedFrom_cons h hend
    by_contra hmod
    simp only [isModifier, Bool.not_eq_false, decide_eq_true_eq] at hmod
    rcases hmod with hmod | hmod
    · rw [hmod] at hfollow
      simp [canFollow, hprev] at hfollow
    · rw [hmod] at hfollow
      simp [canFollow, hprev] at hfollow

theorem altsFrom_wellFormed {rule : List Element} {k : ℕ}
    (h : wellFormedFrom nRules prev (rule.drop k) = true) {i : ℕ} (hi : i ∈ altsFrom (rule.drop k) k) :
    wellFormedFrom nRules .alt (rule.drop i) = true := by
  generalize hes : rule.drop k = es at h hi
  induction es generalizing k prev with
  | nil => simp [altsFrom] at hi
  | cons e es ih =>
    have htail : rule.drop (k + 1) = es := by rw [← drop_drop, hes]; rfl
    by_cases hend : e.type = .endOfRule
    · simp [altsFrom, hend] at hi
    · obtain ⟨-, -, hrest⟩ := wellFormedFrom_cons h hend
      by_cases halt : e.type = .alt
      · simp only [altsFrom, halt, mem_cons] at hi
        rcases hi with rfl | hi
        · rw [htail, ← halt]
          exact hrest
        · exact ih htail hrest hi
      · have hskip : altsFrom (e :: es) k = altsFrom es (k + 1) := by
          cases htype : e.type <;> simp_all [altsFrom]
        rw [hskip] at hi
        exact ih htail hrest hi

theorem altStarts_wellFormed {rule : List Element} (h : wellFormedFrom nRules .alt rule = true) {i : ℕ}
    (hi : i ∈ altStarts rule) : wellFormedFrom nRules .alt (rule.drop i) = true := by
  rcases mem_cons.mp hi with rfl | hi
  · exact h
  · exact altsFrom_wellFormed (k := 0) h hi

/-! ### `match_char` -/

theorem inRanges_cons (chr : ℕ) (x : ℕ × ℕ) (l : List (ℕ × ℕ)) :
    inRanges chr (x :: l) = (decide (x.1 ≤ chr ∧ chr ≤ x.2) || inRanges chr l) := rfl

/-- **Induction on the elements of a class**: a character or a range at its front, which may be the last one. -/
theorem classInduction {motive : Element → List Element → Prop}
    (rangeLast : ∀ e u a es, u.type = .charRngUpper → a.type ≠ .charAlt → isModifier a = false →
      motive e (u :: a :: es))
    (rangeNext : ∀ e u a es, u.type = .charRngUpper → a.type = .charAlt → motive a es → motive e (u :: a :: es))
    (charLast : ∀ e u es, e.type ≠ .charAny → u.type ≠ .charRngUpper → u.type ≠ .charAlt → motive e (u :: es))
    (charNext : ∀ e u es, e.type ≠ .charAny → u.type ≠ .charRngUpper → u.type = .charAlt → motive u es →
      motive e (u :: es))
    (h : wellFormedFrom nRules e.type es = true) (htype : e.type = .char ∨ e.type = .charNot ∨ e.type = .charAlt) :
    motive e es := by
  induction hlen : es.length using Nat.strong_induction_on generalizing e es with
  | _ len ih =>
    have hany : e.type ≠ .charAny := by
      intro hany
      simp [hany] at htype
    cases es with
    | nil => simp [wellFormedFrom] at h
    | cons u es =>
      have hrest : isModifier u = true → wellFormedFrom nRules u.type es = true := by
        intro hmod
        have hend : u.type ≠ .endOfRule := by
          intro hend
          simp [isModifier, hend] at hmod
        exact (wellFormedFrom_cons h hend).2.2
      by_cases hupper : u.type = .charRngUpper
      · have hrest := hrest (by simp [isModifier, hupper])
        cases es with
        | nil => simp [wellFormedFrom] at hrest
        | cons a es =>
          by_cases halt : a.type = .charAlt
          · obtain ⟨-, -, hrest'⟩ := wellFormedFrom_cons hrest (by simp [halt])
            exact rangeNext e u a es hupper halt
              (ih es.length (by simp at hlen; omega) hrest' (Or.inr (Or.inr halt)) rfl)
          · refine rangeLast e u a es hupper halt ?_
            -- An upper end does not follow an upper end.
            by_cases hend : a.type = .endOfRule
            · simp [isModifier, hend]
            · obtain ⟨hfollow, -, -⟩ := wellFormedFrom_cons hrest hend
              rw [hupper] at hfollow
              by_contra hmoda
              have hup : a.type = .charRngUpper := by simpa [isModifier, halt] using hmoda
              simp [hup, canFollow] at hfollow
      · by_cases halt : u.type = .charAlt
        · exact charNext e u es hany hupper halt
            (ih es.length (by simp at hlen; omega) (hrest (by simp [isModifier, halt])) (Or.inr (Or.inr halt)) rfl)
        · exact charLast e u es hany hupper halt

/-- **The loop of `match_char`** looks for the character in the ranges of the class and passes all of its
elements. -/
theorem matchLoop_spec (chr : ℕ) (h : wellFormedFrom nRules e.type es = true)
    (htype : e.type = .char ∨ e.type = .charNot ∨ e.type = .charAlt) (found : Bool) (n : ℕ) :
    matchLoop chr (e :: es) found n
      = (found || inRanges chr (ranges (some e.value) es),
        n + 1 + (es.takeWhile isModifier).length) := by
  have hone (v : ℕ) : decide (v ≤ chr ∧ chr ≤ v) = decide (v = chr) := by
    rw [decide_eq_decide]
    omega
  refine classInduction (motive := fun e es => ∀ found n, matchLoop chr (e :: es) found n
      = (found || inRanges chr (ranges (some e.value) es), n + 1 + (es.takeWhile isModifier).length))
    ?_ ?_ ?_ ?_ h htype found n
  · -- the range is the last part of the class
    intro e u a es hupper halt hmod found n
    rw [matchLoop, if_pos hupper, headD_cons, if_neg halt, ranges, if_pos hupper, ranges, if_neg halt,
      takeWhile_cons_of_pos (by simp [isModifier, hupper]), takeWhile_cons_of_neg (by simp [hmod])]
    simp [inRanges]
  · intro e u a es hupper halt ih found n
    rw [matchLoop, if_pos hupper, headD_cons, if_pos halt, ih, ranges, if_pos hupper, ranges, if_pos halt,
      inRanges_cons, takeWhile_cons_of_pos (by simp [isModifier, hupper]),
      takeWhile_cons_of_pos (by simp [isModifier, halt]), Bool.or_assoc]
    simp only [length_cons, Prod.mk.injEq, true_and]
    omega
  · intro e u es hany hupper halt found n
    rw [matchLoop, if_neg hupper, if_neg hany, if_neg halt, ranges, if_neg hupper, if_neg halt, inRanges_cons, hone,
      takeWhile_cons_of_neg (by simp [isModifier, hupper, halt])]
    simp [inRanges]
  · intro e u es hany hupper halt ih found n
    rw [matchLoop, if_neg hupper, if_neg hany, if_pos halt, ih, ranges, if_neg hupper, if_pos halt, inRanges_cons, hone,
      takeWhile_cons_of_pos (by simp [isModifier, halt]), Bool.or_assoc]
    simp only [length_cons, Prod.mk.injEq, true_and]
    omega

theorem matchLoop_any (chr : ℕ) (h : wellFormedFrom nRules e.type es = true) (htype : e.type = .charAny) :
    matchLoop chr (e :: es) false 0 = (true, 1) ∧ (es.takeWhile isModifier).length = 0 := by
  cases es with
  | nil => simp [wellFormedFrom] at h
  | cons u es =>
    rw [htype] at h
    have hmod := not_modifier_of_follow h (by decide)
    have hu : u.type ≠ .charRngUpper ∧ u.type ≠ .charAlt := by simpa [isModifier] using hmod
    refine ⟨?_, ?_⟩
    · simp only [matchLoop, if_neg hu.1, if_neg hu.2, if_pos htype]
    · rw [takeWhile_cons_of_neg (by simp [hmod])]
      rfl

theorem symsOf_dropWhile (es : List Element) : symsOf (es.dropWhile isModifier) = symsOf es := by
  induction es with
  | nil => rfl
  | cons e es ih =>
    by_cases hmod : isModifier e = true
    · rw [dropWhile_cons_of_pos hmod, ih]
      have htype : e.type = .charRngUpper ∨ e.type = .charAlt := by simpa [isModifier] using hmod
      rcases htype with htype | htype
      · simp [symsOf, htype]
      · simp [symsOf, htype]
    · rw [dropWhile_cons_of_neg hmod]

theorem drop_takeWhile_length (f : Element → Bool) (l : List Element) :
    l.drop (l.takeWhile f).length = l.dropWhile f := by
  have h : (l.takeWhile f ++ l.dropWhile f).drop (l.takeWhile f).length = l.dropWhile f := drop_left
  rwa [takeWhile_append_dropWhile] at h

theorem wellFormedFrom_dropWhile (h : wellFormedFrom nRules prev es = true) :
    ∃ prev' u us, es.dropWhile isModifier = u :: us ∧ isModifier u = false ∧
      wellFormedFrom nRules prev' (u :: us) = true := by
  induction es generalizing prev with
  | nil => simp [wellFormedFrom] at h
  | cons e es ih =>
    by_cases hmod : isModifier e = true
    · rw [dropWhile_cons_of_pos hmod]
      have hend : e.type ≠ .endOfRule := by
        intro hend
        simp [isModifier, hend] at hmod
      exact ih (wellFormedFrom_cons h hend).2.2
    · rw [dropWhile_cons_of_neg hmod]
      exact ⟨prev, e, es, rfl, by simpa using hmod, h⟩

end

/-! ### Pointers into well-formed rules -/

section

variable {rules : Rules} {p : Pos}

theorem elemsAt_add (rules : Rules) (p : Pos) (n : ℕ) :
    rules.elemsAt (p.add n) = (rules.elemsAt p).drop n := by
  simp only [Rules.elemsAt, Pos.add, drop_drop]

def Place (rules : Rules) (p : Pos) : Prop :=
  ∃ prev e es, rules.elemsAt p = e :: es ∧ isModifier e = false ∧
    wellFormedFrom rules.length prev (e :: es) = true

def Head (rules : Rules) (p : Pos) : Prop := Place rules p ∧ isEndOfSequence (rules.elemAt p) = false

theorem elemAt_of_elemsAt {e : Element} {es : List Element} (h : rules.elemsAt p = e :: es) :
    rules.elemAt p = e := by
  rw [Rules.elemAt, h]
  rfl

theorem WellFormed.place (h : WellFormed rules) {r i : ℕ} (hr : r < rules.length)
    (hi : i ∈ altStarts (rules.getD r [])) : Place rules ⟨r, i⟩ := by
  have hrule : rules.getD r [] ∈ rules := by
    rw [getD_eq_getElem _ _ hr]
    exact getElem_mem hr
  have hwf := altStarts_wellFormed (h _ hrule) hi
  cases hes : (rules.getD r []).drop i with
  | nil => exact absurd hes (wellFormedFrom_ne_nil hwf)
  | cons e es =>
    rw [hes] at hwf
    exact ⟨.alt, e, es, hes, not_modifier_of_follow hwf (by decide), hwf⟩

theorem Head.cases (h : Head rules p) :
    ∃ e es, rules.elemsAt p = e :: es ∧ wellFormedFrom rules.length e.type es = true ∧
      (e.type = .ruleRef ∧ e.value < rules.length ∨
        e.type = .char ∨ e.type = .charNot ∨ e.type = .charAny) := by
  obtain ⟨⟨prev, e, es, hes, hmod, hwf⟩, hend⟩ := h
  rw [elemAt_of_elemsAt hes] at hend
  have hne : e.type ≠ .endOfRule ∧ e.type ≠ .alt := by simpa [isEndOfSequence] using hend
  have hnm : e.type ≠ .charRngUpper ∧ e.type ≠ .charAlt := by simpa [isModifier] using hmod
  obtain ⟨-, href, hrest⟩ := wellFormedFrom_cons hwf hne.1
  refine ⟨e, es, hes, hrest, ?_⟩
  cases htype : e.type with
  | endOfRule => exact absurd htype hne.1
  | alt => exact absurd htype hne.2
  | ruleRef => exact Or.inl ⟨rfl, href htype⟩
  | char => exact Or.inr (Or.inl rfl)
  | charNot => exact Or.inr (Or.inr (Or.inl rfl))
  | charRngUpper => exact absurd htype hnm.1
  | charAlt => exact absurd htype hnm.2
  | charAny => exact Or.inr (Or.inr (Or.inr rfl))

theorem place_of_ruleRef {e : Element} {es : List Element} (hes : rules.elemsAt p = e :: es)
    (hwf : wellFormedFrom rules.length e.type es = true) (htype : e.type = .ruleRef) :
    Place rules (p.add 1) := by
  cases es with
  | nil => simp [wellFormedFrom] at hwf
  | cons u us =>
    refine ⟨e.type, u, us, ?_, not_modifier_of_follow hwf (by rw [htype]; decide), hwf⟩
    rw [elemsAt_add, hes]
    rfl

/-- **`match_char`** decides whether the character is in the class at the pointer, and returns the place behind
it, where the remaining symbols are. -/
theorem matchChar_spec {e : Element} {es : List Element} (hes : rules.elemsAt p = e :: es)
    (hwf : wellFormedFrom rules.length e.type es = true)
    (htype : e.type = .char ∨ e.type = .charNot ∨ e.type = .charAny) :
    ∃ q, (∀ chr, matchChar rules p chr = .ok ((classOf e es).mem chr, q)) ∧ Place rules q ∧
      symsOf (rules.elemsAt q) = symsOf es := by
  refine ⟨p.add (1 + (es.takeWhile isModifier).length), fun chr => ?_, ?_, ?_⟩
  · have helem := elemAt_of_elemsAt hes
    rcases htype with htype | htype | htype
    · have hloop := matchLoop_spec chr hwf (Or.inl htype) false 0
      simp only [matchChar, helem, hes, hloop, htype]
      simp [classOf, htype, mem]
    · have hloop := matchLoop_spec chr hwf (Or.inr (Or.inl htype)) false 0
      simp only [matchChar, helem, hes, hloop, htype]
      simp [classOf, htype, mem]
    · obtain ⟨hloop, hlen⟩ := matchLoop_any chr hwf htype
      simp only [matchChar, helem, hes, hloop, htype, hlen]
      simp [classOf, htype, mem]
  · obtain ⟨prev', u, us, hdrop, hmod, hwf'⟩ := wellFormedFrom_dropWhile hwf
    refine ⟨prev', u, us, ?_, hmod, hwf'⟩
    rw [elemsAt_add, hes, Nat.add_comm, drop_succ_cons, drop_takeWhile_length, hdrop]
  · rw [elemsAt_add, hes, Nat.add_comm, drop_succ_cons, drop_takeWhile_length, symsOf_dropWhile]

end

end Grammar
