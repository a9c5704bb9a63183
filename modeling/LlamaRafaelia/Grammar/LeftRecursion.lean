import LlamaRafaelia.Grammar.Stacks
import Mathlib.Data.Finset.Card
import Mathlib.Order.Interval.Set.Infinite
import Mathlib.Order.Interval.Finset.Nat

/-!
# The check for left recursion

`llama_grammar_detect_left_recursion` is a depth-first search along the references that can come first in a rule
(`LeftRef`).  `advance_stack` needs more: a rule can also vanish through other rules, and a cycle behind such a rule
is not found.

* **`leftRecursion_exact`** — the check is right, and `advance_stack` returns on every stack, exactly for the grammars
  that have a cycle of `LeftRef` whenever they are left-recursive.
* **`vanishing_accepted`** — a grammar that is left-recursive behind a rule that vanishes through another one.
-/

namespace Grammar

open List Relation Function ReflTransGen TransGen

variable {rules : Rules}

/-! ### What the two loops look at -/

def emptyAlt (rules : Rules) (r : ℕ) : Bool := hasEmptyAlt (rules.getD r []) true

/-- The references that the second loop goes into, when `empty` tells which rules may be empty. -/
def leftRefs (empty : ℕ → Bool) : List Element → Bool → List ℕ
  | [], _ => []
  | e :: es, recurse =>
    if e.type = .ruleRef ∧ recurse then e.value :: leftRefs empty es (empty e.value)
    else leftRefs empty es (isEndOfSequence e)

/-- Rule `r'` is a reference that can come first in rule `r`, behind references to rules with an empty alternate. -/
def LeftRef (rules : Rules) (r r' : ℕ) : Prop := r' ∈ leftRefs (emptyAlt rules) (rules.getD r []) true

def EmptySound (rules : Rules) (m : Marks) : Prop := ∀ r, m.mayBeEmpty r = true → emptyAlt rules r = true

/-- No cycle can be reached from `r`. -/
def NoCycle (rules : Rules) (r : ℕ) : Prop :=
  ∀ x, ReflTransGen (LeftRef rules) r x → ¬ TransGen (LeftRef rules) x x

/-- What is known of the flags between two calls. -/
structure MarksOk (rules : Rules) (m : Marks) : Prop where
  empty : EmptySound rules m
  visited : ∀ r, m.visited r = true → NoCycle rules r

/-- What the search of rule `r` from flags `m` finds out: `m.inProgress` are the rules above it. -/
structure Searched (rules : Rules) (r : ℕ) (m : Marks) (res : Bool × Marks) : Prop where
  /-- a rule that is in progress, or a cycle, can be reached -/
  found : res.1 = true →
    ∃ x, ReflTransGen (LeftRef rules) r x ∧ (m.inProgress x = true ∨ TransGen (LeftRef rules) x x)
  notFound : res.1 = false → NoCycle rules r ∧ MarksOk rules res.2 ∧
    (∀ x, ReflTransGen (LeftRef rules) r x → m.inProgress x = false) ∧
    res.2.inProgress = m.inProgress ∧ (∀ x, m.mayBeEmpty x = true → res.2.mayBeEmpty x = true) ∧
    res.2.mayBeEmpty r = emptyAlt rules r

def RefsBelow (rules : Rules) : Prop := ∀ r, ∀ e ∈ rules.getD r [], e.type = .ruleRef → e.value < rules.length

/-- **The second loop**, when the recursive calls do what they should.  The references behind are those of `es`. -/
theorem detectLoop_spec {detect : ℕ → Marks → Except Stop (Bool × Marks)} {inProgress : ℕ → Bool}
    (hdetect : ∀ r < rules.length, ∀ m, MarksOk rules m → m.inProgress = inProgress →
      ∃ res, detect r m = .ok res ∧ Searched rules r m res)
    {es : List Element} (hes : ∀ e ∈ es, e.type = .ruleRef → e.value < rules.length) (recurse : Bool) {m : Marks}
    (hm : MarksOk rules m) (hin : m.inProgress = inProgress) :
    ∃ res, detectLoop detect es recurse m = .ok res ∧
      (res.1 = true → ∃ r ∈ leftRefs (emptyAlt rules) es recurse, ∃ x, ReflTransGen (LeftRef rules) r x ∧
        (inProgress x = true ∨ TransGen (LeftRef rules) x x)) ∧
      (res.1 = false → MarksOk rules res.2 ∧ res.2.inProgress = inProgress ∧
        (∀ x, m.mayBeEmpty x = true → res.2.mayBeEmpty x = true) ∧
        ∀ r ∈ leftRefs (emptyAlt rules) es recurse, NoCycle rules r ∧
          ∀ x, ReflTransGen (LeftRef rules) r x → inProgress x = false) := by
  induction es generalizing recurse m with
  | nil => exact ⟨(false, m), rfl, by simp, fun _ => ⟨hm, hin, fun _ h => h, by simp [leftRefs]⟩⟩
  | cons e es ih =>
    have hes' : ∀ e ∈ es, e.type = .ruleRef → e.value < rules.length := fun e' he' => hes e' (by simp [he'])
    by_cases href : e.type = .ruleRef ∧ recurse = true
    · obtain ⟨⟨b, m'⟩, hval, hsearch⟩ := hdetect e.value (hes e (by simp) href.1) m hm hin
      have hrefs : leftRefs (emptyAlt rules) (e :: es) recurse
          = e.value :: leftRefs (emptyAlt rules) es (emptyAlt rules e.value) := by
        simp only [leftRefs, if_pos href]
      have hloop : detectLoop detect (e :: es) recurse m = if b = true then .ok (true, m')
          else detectLoop detect es (m'.mayBeEmpty e.value) m' := by
        simp only [detectLoop, if_pos href, hval]
        rfl
      rw [hloop, hrefs]
      cases b with
      | true =>
        refine ⟨(true, m'), rfl, fun _ => ?_, by simp⟩
        obtain ⟨x, hx, hfound⟩ := hsearch.found rfl
        exact ⟨e.value, by simp, x, hx, hin ▸ hfound⟩
      | false =>
        obtain ⟨hcycle, hok, hfree, hsame, hmono, hempty⟩ := hsearch.notFound rfl
        have hempty' : m'.mayBeEmpty e.value = emptyAlt rules e.value := hempty
        obtain ⟨res, hres, htrue, hfalse⟩ := ih hes' (m'.mayBeEmpty e.value) hok (hsame.trans hin)
        rw [hempty'] at htrue hfalse
        refine ⟨res, hres, fun hb => ?_, fun hb => ?_⟩
        · obtain ⟨r, hr, hx⟩ := htrue hb
          exact ⟨r, by simp [hr], hx⟩
        · obtain ⟨hok', hin', hmono', hall⟩ := hfalse hb
          refine ⟨hok', hin', fun x hx => hmono' x (hmono x hx), fun r hr => ?_⟩
          rcases mem_cons.mp hr with rfl | hr
          · exact ⟨hcycle, fun x hx => hin ▸ hfree x hx⟩
          · exact hall r hr
    · have hrefs : leftRefs (emptyAlt rules) (e :: es) recurse
          = leftRefs (emptyAlt rules) es (isEndOfSequence e) := by
        simp only [leftRefs, if_neg href]
      have hloop : detectLoop detect (e :: es) recurse m = detectLoop detect es (isEndOfSequence e) m := by
        simp only [detectLoop, if_neg href]
      rw [hloop, hrefs]
      exact ih hes' (isEndOfSequence e) hm hin

def waiting (rules : Rules) (inProgress : ℕ → Bool) : Finset ℕ :=
  (Finset.range rules.length).filter fun x => inProgress x = false

theorem waiting_update {inProgress : ℕ → Bool} {r : ℕ} (hr : r < rules.length) (hin : inProgress r = false) :
    (waiting rules (update inProgress r true)).card + 1 = (waiting rules inProgress).card := by
  have hmem : r ∈ waiting rules inProgress := by simp [waiting, hr, hin]
  have herase : waiting rules (update inProgress r true) = (waiting rules inProgress).erase r := by
    ext x
    by_cases hx : x = r
    · subst hx
      simp [waiting]
    · simp [waiting, hx]
  rw [herase, Finset.card_erase_add_one hmem]

/-- **The search.**  It returns with as much fuel as there are rules that are not in progress. -/
theorem detectLeftRecursion_spec (href : RefsBelow rules) (fuel : ℕ) {r : ℕ} (hr : r < rules.length) {m : Marks}
    (hm : MarksOk rules m) (hfuel : (waiting rules m.inProgress).card < fuel) :
    ∃ res, detectLeftRecursion rules fuel r m = .ok res ∧ Searched rules r m res := by
  induction fuel generalizing r m with
  | zero => omega
  | succ fuel ih =>
    cases hin : m.inProgress r with
    | true =>
      refine ⟨(true, m), by simp only [detectLeftRecursion, hin, if_true], fun _ => ?_, by simp⟩
      exact ⟨r, refl, Or.inl hin⟩
    | false =>
      -- the flags when the second loop starts
      obtain ⟨m1, hm1⟩ : ∃ m1, m1 = (if hasEmptyAlt (rules.getD r []) true = true then
        { m with inProgress := update m.inProgress r true,
                 mayBeEmpty := update m.mayBeEmpty r true }
        else { m with inProgress := update m.inProgress r true }) := ⟨_, rfl⟩
      have hin1 : m1.inProgress = update m.inProgress r true := by
        rw [hm1]
        split <;> rfl
      have hvis1 : m1.visited = m.visited := by
        rw [hm1]
        split <;> rfl
      have hempty1 : ∀ x, m1.mayBeEmpty x = (m.mayBeEmpty x || decide (x = r) && emptyAlt rules r) := by
        intro x
        rw [hm1]
        by_cases hE : hasEmptyAlt (rules.getD r []) true = true
        · rw [if_pos hE, emptyAlt, hE]
          by_cases hx : x = r
          · subst hx
            simp
          · simp [hx]
        · have hE' : hasEmptyAlt (rules.getD r []) true = false := by simpa using hE
          rw [if_neg hE, emptyAlt, hE']
          simp
      have hok1 : MarksOk rules m1 := by
        refine ⟨fun x hx => ?_, fun x hx => hm.visited x (hvis1 ▸ hx)⟩
        rw [hempty1] at hx
        rcases Bool.or_eq_true _ _ ▸ hx with hx | hx
        · exact hm.empty x hx
        · obtain ⟨hxr, hE⟩ := Bool.and_eq_true _ _ ▸ hx
          rw [of_decide_eq_true hxr]
          exact hE
      have hcard := waiting_update hr hin
      rw [← hin1] at hcard
      obtain ⟨res, hres, htrue, hfalse⟩ := detectLoop_spec
        (fun r' hr' m' hm' hin' => ih hr' hm' (by rw [hin']; omega)) (href r) true hok1 rfl
      have hval : detectLeftRecursion rules (fuel + 1) r m = if res.1 = true then .ok (true, res.2)
          else .ok (false, { res.2 with
            inProgress := update res.2.inProgress r false
            visited := update res.2.visited r true }) := by
        have hunfold : detectLeftRecursion rules (fuel + 1) r m = (do
            let res ← detectLoop (detectLeftRecursion rules fuel) (rules.getD r []) true m1
            if res.1 then return (true, res.2)
            else
              return (false, { res.2 with
                inProgress := update res.2.inProgress r false
                visited := update res.2.visited r true })) := by
          rw [hm1]
          simp only [detectLeftRecursion, hin, Bool.false_eq_true, if_false]
        rw [hunfold, hres]
        rfl
      rw [hval]
      cases hb : res.1 with
      | true =>
        refine ⟨_, rfl, fun _ => ?_, by simp⟩
        obtain ⟨r', hr', x, hx, hfound⟩ := htrue hb
        have hreach : ReflTransGen (LeftRef rules) r x := head hr' hx
        rcases hfound with hprog | hcycle
        · rw [hin1] at hprog
          by_cases hxr : x = r
          · -- the rule itself: a cycle
            subst hxr
            exact ⟨x, refl, Or.inr (head' hr' hx)⟩
          · rw [update_of_ne hxr] at hprog
            exact ⟨x, hreach, Or.inl hprog⟩
        · exact ⟨x, hreach, Or.inr hcycle⟩
      | false =>
        obtain ⟨hok, hin2, hmono, hall⟩ := hfalse hb
        have hfree : ∀ r', LeftRef rules r r' → ∀ x, ReflTransGen (LeftRef rules) r' x →
            x ≠ r ∧ m.inProgress x = false := by
          intro r' hr' x hx
          have hfree := (hall r' hr').2 x hx
          rw [hin1] at hfree
          by_cases hxr : x = r
          · simp [hxr] at hfree
          · rw [update_of_ne hxr] at hfree
            exact ⟨hxr, hfree⟩
        have hnocycle : NoCycle rules r := by
          intro x hx hcycle
          rcases cases_head hx with rfl | ⟨r', hr', hrest⟩
          · obtain ⟨r', hr', hback⟩ := head'_iff.mp hcycle
            exact (hfree r' hr' r hback).1 rfl
          · exact (hall r' hr').1 x hrest hcycle
        refine ⟨_, rfl, by simp, fun _ => ⟨hnocycle, ⟨hok.empty, fun x hx => ?_⟩, fun x hx => ?_, ?_, ?_, ?_⟩⟩
        · by_cases hxr : x = r
          · rw [hxr]
            exact hnocycle
          · have hx' : update res.2.visited r true x = true := hx
            rw [update_of_ne hxr] at hx'
            exact hok.visited x hx'
        · rcases cases_head hx with rfl | ⟨r', hr', hrest⟩
          · exact hin
          · exact (hfree r' hr' x hrest).2
        · show update res.2.inProgress r false = m.inProgress
          rw [hin2, hin1, update_idem, ← hin, update_eq_self]
        · exact fun x hx => hmono x (by rw [hempty1, hx, Bool.true_or])
        · show res.2.mayBeEmpty r = emptyAlt rules r
          cases hE : emptyAlt rules r with
          | true => exact hmono r (by rw [hempty1, hE]; simp)
          | false =>
            by_contra hne
            exact absurd (hok.empty r (by simpa using hne)) (by simp [hE])

theorem isLeftRecursive_spec (href : RefsBelow rules) (hlt : ∀ r x, LeftRef rules r x → r < rules.length) :
    ∃ b, isLeftRecursive rules = .ok b ∧ (b = true ↔ ∃ r, TransGen (LeftRef rules) r r) := by
  have hloop : ∀ (rs : List ℕ) (m : Marks), (∀ r ∈ rs, r < rules.length) → MarksOk rules m →
      m.inProgress = (fun _ => false) → (∀ r < rules.length, r ∉ rs → NoCycle rules r) →
      ∃ b, checkRules rules rs m = .ok b ∧ (b = true ↔ ∃ r, TransGen (LeftRef rules) r r) := by
    intro rs
    induction rs with
    | nil =>
      intro m _ _ _ hdone
      refine ⟨false, rfl, by simp, ?_⟩
      rintro ⟨r, hcycle⟩
      obtain ⟨x, hx, -⟩ := head'_iff.mp hcycle
      exact absurd hcycle (hdone r (hlt r x hx) not_mem_nil r refl)
    | cons r rs ih =>
      intro m hrs hm hin hdone
      have hrs' : ∀ r ∈ rs, r < rules.length := fun x hx => hrs x (by simp [hx])
      cases hvis : m.visited r with
      | true =>
        have hval : checkRules rules (r :: rs) m = checkRules rules rs m := by
          simp only [checkRules, hvis, if_true]
        rw [hval]
        refine ih m hrs' hm hin fun x hx hnot => ?_
        by_cases hxr : x = r
        · rw [hxr]
          exact hm.visited r hvis
        · exact hdone x hx (by simp [hxr, hnot])
      | false =>
        have hcard : (waiting rules m.inProgress).card < rules.length + 1 := by
          have := Finset.card_filter_le (Finset.range rules.length) fun x => m.inProgress x = false
          rw [Finset.card_range] at this
          exact Nat.lt_succ_of_le this
        obtain ⟨⟨b, m'⟩, hres, hsearch⟩ := detectLeftRecursion_spec href _ (hrs r (by simp)) hm hcard
        have hval : checkRules rules (r :: rs) m = if b = true then .ok true else checkRules rules rs m' := by
          simp only [checkRules, hvis, Bool.false_eq_true, if_false, hres]
          rfl
        rw [hval]
        cases b with
        | true =>
          refine ⟨true, rfl, fun _ => ?_, fun _ => rfl⟩
          obtain ⟨x, -, hprog | hcycle⟩ := hsearch.found rfl
          · rw [hin] at hprog
            cases hprog
          · exact ⟨x, hcycle⟩
        | false =>
          obtain ⟨hcycle, hok, -, hsame, -, -⟩ := hsearch.notFound rfl
          refine ih m' hrs' hok (hsame.trans hin) fun x hx hnot => ?_
          by_cases hxr : x = r
          · rw [hxr]
            exact hcycle
          · exact hdone x hx (by simp [hxr, hnot])
  refine hloop (List.range rules.length) _ (fun r hr => List.mem_range.mp hr) ⟨?_, ?_⟩ rfl fun r hr hnot => ?_
  · intro r h
    cases h
  · intro r h
    cases h
  · exact absurd (List.mem_range.mpr hr) hnot

/-! ### The same in terms of symbols -/

/-- The symbols have a reference to `r` behind references to rules with an empty alternate. -/
def FirstRef (empty : ℕ → Bool) : List GrammarSymbol → ℕ → Prop
  | [], _ => False
  | .rule x :: l, r => r = x ∨ empty x = true ∧ FirstRef empty l r
  | .chars _ :: _, _ => False

theorem wellFormedFrom_refs {nRules : ℕ} {prev : Gretype} {es : List Element}
    (h : wellFormedFrom nRules prev es = true) : ∀ e ∈ es, e.type = .ruleRef → e.value < nRules := by
  induction es generalizing prev with
  | nil => simp
  | cons e es ih =>
    by_cases hend : e.type = .endOfRule
    · have hes : es = [] := by simpa [wellFormedFrom, hend] using h
      subst hes
      intro e' he' href
      rw [mem_singleton.mp he', hend] at href
      cases href
    · obtain ⟨-, href, hrest⟩ := wellFormedFrom_cons h hend
      intro e' he' href'
      rcases mem_cons.mp he' with rfl | he'
      · exact href href'
      · exact ih hrest e' he' href'

theorem getD_of_not_lt {r : ℕ} (hr : ¬ r < rules.length) : rules.getD r [] = [] := by
  rw [getD_eq_default _ _ (Nat.not_lt.mp hr)]

theorem WellFormed.rule (h : WellFormed rules) {r : ℕ} (hr : r < rules.length) :
    wellFormedFrom rules.length .alt (rules.getD r []) = true := by
  refine h _ ?_
  rw [getD_eq_getElem _ _ hr]
  exact getElem_mem hr

theorem WellFormed.refsBelow (h : WellFormed rules) : RefsBelow rules := by
  intro r
  by_cases hr : r < rules.length
  · exact wellFormedFrom_refs (h.rule hr)
  · rw [getD_of_not_lt hr]
    simp

theorem LeftRef.lt {r x : ℕ} (h : LeftRef rules r x) : r < rules.length := by
  by_contra hr
  rw [LeftRef, getD_of_not_lt hr] at h
  exact absurd h not_mem_nil

theorem leftRefs_iff {nRules : ℕ} (empty : ℕ → Bool) {rule : List Element} (r : ℕ) {prev : Gretype} {k : ℕ}
    {recurse : Bool} (h : wellFormedFrom nRules prev (rule.drop k) = true)
    (hprev : recurse = true → prev ≠ .char ∧ prev ≠ .charNot ∧ prev ≠ .charAlt ∧ prev ≠ .charRngUpper) :
    r ∈ leftRefs empty (rule.drop k) recurse ↔
      (recurse = true ∧ FirstRef empty (symsOf (rule.drop k)) r) ∨
        ∃ i ∈ altsFrom (rule.drop k) k, FirstRef empty (symsOf (rule.drop i)) r := by
  generalize hes : rule.drop k = es at h ⊢
  induction es generalizing prev k recurse with
  | nil => simp [wellFormedFrom] at h
  | cons e es ih =>
    have htail : rule.drop (k + 1) = es := by rw [← drop_drop, hes]; rfl
    by_cases hend : e.type = .endOfRule
    · have hnil : es = [] := by simpa [wellFormedFrom, hend] using h
      simp [leftRefs, hend, hnil, symsOf, FirstRef, altsFrom]
    · obtain ⟨-, -, hrest⟩ := wellFormedFrom_cons h hend
      -- elements that start no symbol before which the loop recurses
      have hother : e.type ≠ .ruleRef → isEndOfSequence e = false →
          (r ∈ leftRefs empty (e :: es) recurse ↔
            ∃ i ∈ altsFrom es (k + 1), FirstRef empty (symsOf (rule.drop i)) r) := by
        intro href hseq
        simp only [leftRefs, href, false_and, if_false, hseq]
        rw [ih (fun hc : false = true => by cases hc) htail hrest]
        simp
      cases htype : e.type with
      | endOfRule => exact absurd htype hend
      | alt =>
        rw [htype] at hrest
        have hstart := ih (k := k + 1) (fun _ : true = true => by decide) htail hrest
        simp only [leftRefs, htype, isEndOfSequence, symsOf, altsFrom, FirstRef, and_false, false_or,
          mem_cons, exists_eq_or_imp, htail]
        simpa using hstart
      | ruleRef =>
        rw [htype] at hrest
        cases recurse with
        | true =>
          have hnext := ih (k := k + 1) (fun _ : empty e.value = true => by decide) htail hrest
          simp only [leftRefs, htype, true_and, if_true, mem_cons, hnext, symsOf, FirstRef, altsFrom]
          tauto
        | false =>
          have hnext := ih (k := k + 1) (fun hc : false = true => by cases hc) htail hrest
          simp only [leftRefs, htype, Bool.false_eq_true, and_false, if_false, isEndOfSequence, altsFrom,
            false_and, false_or]
          simpa using hnext
      | char =>
        rw [hother (by simp [htype]) (by simp [isEndOfSequence, htype])]
        simp [symsOf, htype, FirstRef, altsFrom]
      | charNot =>
        rw [hother (by simp [htype]) (by simp [isEndOfSequence, htype])]
        simp [symsOf, htype, FirstRef, altsFrom]
      | charAny =>
        rw [hother (by simp [htype]) (by simp [isEndOfSequence, htype])]
        simp [symsOf, htype, FirstRef, altsFrom]
      | charRngUpper =>
        have hmod : recurse = false := by
          by_contra hrec
          have hnot := not_modifier_of_follow h (hprev (by simpa using hrec))
          simp [isModifier, htype] at hnot
        rw [hother (by simp [htype]) (by simp [isEndOfSequence, htype])]
        simp [hmod, altsFrom, htype]
      | charAlt =>
        have hmod : recurse = false := by
          by_contra hrec
          have hnot := not_modifier_of_follow h (hprev (by simpa using hrec))
          simp [isModifier, htype] at hnot
        rw [hother (by simp [htype]) (by simp [isEndOfSequence, htype])]
        simp [hmod, altsFrom, htype]

theorem hasEmptyAlt_alt {nRules : ℕ} {rule : List Element} {prev : Gretype} {k : ℕ} {start : Bool}
    (h : wellFormedFrom nRules prev (rule.drop k) = true) (he : hasEmptyAlt (rule.drop k) start = true) :
    (start = true ∧ symsOf (rule.drop k) = []) ∨ ∃ i ∈ altsFrom (rule.drop k) k, symsOf (rule.drop i) = [] := by
  generalize hes : rule.drop k = es at h he ⊢
  induction es generalizing prev k start with
  | nil => simp [wellFormedFrom] at h
  | cons e es ih =>
    have htail : rule.drop (k + 1) = es := by rw [← drop_drop, hes]; rfl
    by_cases hend : e.type = .endOfRule
    · have hnil : es = [] := by simpa [wellFormedFrom, hend] using h
      have hstart : start = true := by simpa [hasEmptyAlt, isEndOfSequence, hend, hnil] using he
      exact Or.inl ⟨hstart, by simp [symsOf, hend]⟩
    · obtain ⟨-, -, hrest⟩ := wellFormedFrom_cons h hend
      by_cases halt : e.type = .alt
      · cases start with
        | true => exact Or.inl ⟨rfl, by simp [symsOf, halt]⟩
        | false =>
          have he' : hasEmptyAlt es true = true := by simpa [hasEmptyAlt, isEndOfSequence, halt] using he
          refine Or.inr ?_
          simp only [altsFrom, halt, mem_cons, exists_eq_or_imp]
          rcases ih htail hrest he' with ⟨-, hsyms⟩ | hlater
          · exact Or.inl (htail ▸ hsyms)
          · exact Or.inr hlater
      · have hskip : altsFrom (e :: es) k = altsFrom es (k + 1) := by
          cases htype : e.type <;> simp_all [altsFrom]
        have he' : hasEmptyAlt es false = true := by
          simpa [hasEmptyAlt, isEndOfSequence, hend, halt] using he
        rw [hskip]
        rcases ih htail hrest he' with ⟨hc, -⟩ | hlater
        · cases hc
        · exact Or.inr hlater

theorem WellFormed.vanishes (h : WellFormed rules) {r : ℕ} (he : emptyAlt rules r = true) :
    Leftmost.Derives (Produces rules) [Sum.inr (.rule r)] [] := by
  have hr : r < rules.length := by
    by_contra hr
    rw [emptyAlt, getD_of_not_lt hr] at he
    simp [hasEmptyAlt] at he
  have halt : ∃ i ∈ altStarts (rules.getD r []), symsOf ((rules.getD r []).drop i) = [] := by
    rcases hasEmptyAlt_alt (k := 0) (h.rule hr) he with ⟨-, hsyms⟩ | ⟨i, hi, hsyms⟩
    · exact ⟨0, mem_cons_self, hsyms⟩
    · exact ⟨i, mem_cons_of_mem 0 hi, hsyms⟩
  obtain ⟨i, hi, hsyms⟩ := halt
  have hprod := Produces.rule hr hi
  rw [hsyms] at hprod
  exact Leftmost.Derives.head hprod refl

theorem FirstRef.split (h : WellFormed rules) {l : List GrammarSymbol} {r : ℕ} (hfirst : FirstRef (emptyAlt rules) l r) :
    ∃ δ γ : List (ℕ ⊕ GrammarSymbol), l.map Sum.inr = δ ++ Sum.inr (.rule r) :: γ ∧
      Leftmost.Derives (Produces rules) δ [] := by
  induction l with
  | nil => exact absurd hfirst id
  | cons x l ih =>
    cases x with
    | chars cls => exact absurd hfirst id
    | rule x =>
      rcases hfirst with rfl | ⟨hempty, hrest⟩
      · exact ⟨[], l.map Sum.inr, rfl, refl⟩
      · obtain ⟨δ, γ, hsplit, hvanish⟩ := ih hrest
        refine ⟨Sum.inr (.rule x) :: δ, γ, by rw [map_cons, hsplit]; rfl, ?_⟩
        exact (h.vanishes hempty).vanish_append hvanish

theorem LeftRef.left (h : WellFormed rules) {r r' : ℕ} (hleft : LeftRef rules r r') :
    Leftmost.Left (Produces rules) (.rule r) (.rule r') := by
  have hr := hleft.lt
  have halt : ∃ i ∈ altStarts (rules.getD r []),
      FirstRef (emptyAlt rules) (symsOf ((rules.getD r []).drop i)) r' := by
    rcases (leftRefs_iff (emptyAlt rules) r' (k := 0) (h.rule hr) fun _ => by decide).mp hleft with
      ⟨-, hfirst⟩ | ⟨i, hi, hfirst⟩
    · exact ⟨0, mem_cons_self, hfirst⟩
    · exact ⟨i, mem_cons_of_mem 0 hi, hfirst⟩
  obtain ⟨i, hi, hfirst⟩ := halt
  obtain ⟨δ, γ, hsplit, hvanish⟩ := hfirst.split h
  exact ⟨δ, γ, hsplit ▸ Produces.rule hr hi, hvanish⟩

/-! ### Left recursion and `advance_stack` -/

/-- Some symbol can come first in what it derives, behind symbols that vanish. -/
def LeftRecursive (rules : Rules) : Prop := ∃ A, TransGen (Leftmost.Left (Produces rules)) A A

theorem acc_of_not_leftRecursive (h : ¬ LeftRecursive rules) (α : List (ℕ ⊕ GrammarSymbol)) :
    Acc (fun β α => Leftmost.Expand (Produces rules) α β) α := by
  refine Leftmost.acc_expand (Leftmost.wellFounded_of_acyclic
    (S := GrammarSymbol.rule '' Set.Iio rules.length) ((Set.finite_Iio rules.length).image _) ?_ fun A hA => h ⟨A, hA⟩) α
  rintro A B ⟨δ, γ, hprod, -⟩
  generalize hform : δ ++ Sum.inr B :: γ = form at hprod
  cases hprod with
  | rule hr _ => exact ⟨_, hr, rfl⟩
  | chars _ =>
    -- a character is no reference
    have hmem : Sum.inr B ∈ δ ++ Sum.inr B :: γ := by simp
    rw [hform] at hmem
    simp at hmem

/-- The stacks that `advance_stack` is called with, from the start rule on and for any characters. -/
inductive Reached (rules : Rules) (start : ℕ) : Stack → Prop
  | start {i : ℕ} (hi : i ∈ altStarts (rules.getD start [])) : Reached rules start (push rules ⟨start, i⟩ [])
  | expand {s t : Stack} (h : Reached rules start s) (hs : Expands rules s t) : Reached rules start t
  | accept {p q : Pos} {rest : Stack} {chr : ℕ} (h : Reached rules start (p :: rest))
      (hm : matchChar rules p chr = .ok (true, q)) : Reached rules start (push rules q rest)

theorem Reached.valid (hwf : WellFormed rules) {start : ℕ} (hstart : start < rules.length) {s : Stack}
    (h : Reached rules start s) : Valid rules s := by
  induction h with
  | start hi => exact valid_nil.push (hwf.place hstart hi)
  | expand _ hs ih => exact (hs.valid hwf ih).1
  | accept _ hm ih =>
    rcases ih.top with ⟨r, href⟩ | ⟨cls, q', hcls⟩
    · simp [matchChar, href.type] at hm
    · rw [hcls.matches_, Except.ok.injEq, Prod.mk.injEq] at hm
      exact hm.2 ▸ ih.tail.push hcls.next

/-- `advance_stack` returns when it is called with this stack. -/
def Returns (rules : Rules) (s : Stack) : Prop :=
  ∃ fuel, ∀ news, ∃ news', advanceStack rules fuel s news = .ok news'

theorem returns_of_not_leftRecursive (hwf : WellFormed rules) (h : ¬ LeftRecursive rules) {s : Stack}
    (hs : Valid rules s) : Returns rules s := by
  obtain ⟨F, hF⟩ := advanceStack_spec hwf hs (acc_of_not_leftRecursive h _)
  refine ⟨F, fun news => ?_⟩
  obtain ⟨news', hval, -⟩ := hF news
  exact ⟨news', hval F le_rfl⟩

theorem initImpl_none_iff (fuel : ℕ) (rules : Rules) (start : ℕ) :
    initImpl fuel rules start = .ok none ↔ isLeftRecursive (rules.map copyRule) = .ok true := by
  cases hval : isLeftRecursive (rules.map copyRule) with
  | error e => simp [initImpl, hval, bind, Except.bind]
  | ok b =>
    cases b with
    | true => simp [initImpl, hval, bind, Except.bind, pure, Except.pure]
    | false =>
      cases hinit : initialStacks fuel (rules.map copyRule) start with
      | error e => simp [initImpl, hval, hinit, bind, Except.bind]
      | ok l => simp [initImpl, hval, hinit, bind, Except.bind, pure, Except.pure]

theorem isLeftRecursive_iff (hwf : WellFormed rules) :
    isLeftRecursive rules = .ok true ↔ ∃ r, TransGen (LeftRef rules) r r := by
  obtain ⟨b, hval, hiff⟩ := isLeftRecursive_spec hwf.refsBelow fun r x h => h.lt
  rw [hval, ← hiff, Except.ok.injEq]

theorem leftRecursive_of_leftRef (hwf : WellFormed rules) (h : ∃ r, TransGen (LeftRef rules) r r) :
    LeftRecursive rules := by
  obtain ⟨r, hr⟩ := h
  exact ⟨.rule r, lift GrammarSymbol.rule (fun a b (hab : LeftRef rules a b) => hab.left hwf) _ _ hr⟩

def startsWithRef : List GrammarSymbol → Bool
  | .rule _ :: _ => true
  | _ => false

theorem not_leftRecursive_of_chars
    (h : ∀ rule ∈ rules, ∀ i ∈ altStarts rule, startsWithRef (symsOf (rule.drop i)) = false) :
    ¬ LeftRecursive rules := by
  have hfirst : ∀ A B, Leftmost.Left (Produces rules) A B → (∃ cls, B = .chars cls) ∧ ∃ r, A = .rule r := by
    rintro A B ⟨δ, γ, hprod, hvanish⟩
    generalize hform : δ ++ Sum.inr B :: γ = form at hprod
    cases hprod with
    | @rule r i hr hi =>
      have hrule : rules.getD r [] ∈ rules := by
        rw [getD_eq_getElem _ _ hr]
        exact getElem_mem hr
      have hhead := h _ hrule i hi
      cases hsyms : symsOf ((rules.getD r []).drop i) with
      | nil =>
        rw [hsyms] at hform
        simp at hform
      | cons y l =>
        rw [hsyms] at hhead hform
        cases y with
        | rule x => exact absurd hhead (by simp [startsWithRef])
        | chars cls =>
          cases δ with
          | nil =>
            obtain ⟨hB, -⟩ := List.cons.inj hform
            exact ⟨⟨cls, Sum.inr.inj hB⟩, r, rfl⟩
          | cons z δ =>
            -- a character does not vanish
            obtain ⟨rfl, -⟩ := List.cons.inj hform
            cases hvanish.vanish with
            | expand hc hd =>
              cases hc
              cases hd
    | chars _ =>
      have hmem : Sum.inr B ∈ δ ++ Sum.inr B :: γ := by simp
      rw [hform] at hmem
      simp at hmem
  rintro ⟨A, hA⟩
  obtain ⟨B, hAB, -⟩ := head'_iff.mp hA
  obtain ⟨C, -, hCA⟩ := tail'_iff.mp hA
  obtain ⟨r, rfl⟩ := (hfirst A B hAB).2
  obtain ⟨⟨cls, hcls⟩, -⟩ := hfirst C _ hCA
  cases hcls

/-- **When the check for left recursion is right.**  A grammar is rejected exactly if it is left-recursive, and
otherwise `advance_stack` returns on every stack, if and only if left recursion always shows behind rules that have
an empty alternate of their own. -/
theorem leftRecursion_exact (rules : Rules) (start : ℕ) (hstart : start < rules.length)
    (hwf : WellFormed (rules.map copyRule)) :
    ((∀ fuel, initImpl fuel rules start = .ok none ↔ LeftRecursive (rules.map copyRule)) ∧
      ((∃ fuel, initImpl fuel rules start ≠ .ok none) →
        ∀ s, Reached (rules.map copyRule) start s → Returns (rules.map copyRule) s)) ↔
      (LeftRecursive (rules.map copyRule) → ∃ r, TransGen (LeftRef (rules.map copyRule)) r r) := by
  have hcheck : ∀ fuel, initImpl fuel rules start = .ok none ↔
      ∃ r, TransGen (LeftRef (rules.map copyRule)) r r := fun fuel =>
    (initImpl_none_iff fuel rules start).trans (isLeftRecursive_iff hwf)
  constructor
  · rintro ⟨hreject, -⟩ hleft
    exact (hcheck 0).mp ((hreject 0).mpr hleft)
  · intro hcond
    refine ⟨fun fuel => (hcheck fuel).trans ⟨leftRecursive_of_leftRef hwf, hcond⟩, ?_⟩
    rintro ⟨fuel, hfuel⟩ s hs
    have hnot : ¬ LeftRecursive (rules.map copyRule) := fun hleft =>
      hfuel ((hcheck fuel).mpr (hcond hleft))
    exact returns_of_not_leftRecursive hwf hnot (hs.valid hwf (by simpa using hstart))

/-- `root ::= "a" root | "b"` -/
def rightRecursive : Rules :=
  [[⟨.char, 97⟩, ⟨.ruleRef, 0⟩, ⟨.alt, 0⟩, ⟨.char, 98⟩]]

theorem leftRecursion_exact_right :
    Returns (rightRecursive.map copyRule) [⟨0, 1⟩] := by
  have hnot : ¬ LeftRecursive (rightRecursive.map copyRule) := by
    refine not_leftRecursive_of_chars ?_
    decide
  have hexact := (leftRecursion_exact rightRecursive 0 (by decide) (by decide)).mpr fun h => absurd h hnot
  refine hexact.2 ⟨0, fun h => hnot ((hexact.1 0).mp h)⟩ [⟨0, 1⟩] ?_
  -- behind the character of the first alternate
  have hstart : Reached (rightRecursive.map copyRule) 0 [⟨0, 0⟩] := Reached.start (i := 0) (by decide)
  have hmatch : matchChar (rightRecursive.map copyRule) ⟨0, 0⟩ 97 = .ok (true, ⟨0, 1⟩) := by decide
  exact hstart.accept hmatch

/-- `root ::= b root | "x"`, `b ::= c`, `c ::=` -/
def vanishing : Rules :=
  [[⟨.ruleRef, 1⟩, ⟨.ruleRef, 0⟩, ⟨.alt, 0⟩, ⟨.char, 120⟩], [⟨.ruleRef, 2⟩], []]

theorem vanishing_leftRecursive : LeftRecursive (vanishing.map copyRule) := by
  have hc : Leftmost.Derives (Produces (vanishing.map copyRule)) [Sum.inr (.rule 2)] [] :=
    Leftmost.Derives.head (Produces.rule (r := 2) (i := 0) (by decide) (by decide)) refl
  have hb : Leftmost.Derives (Produces (vanishing.map copyRule)) [Sum.inr (.rule 1)] [] :=
    Leftmost.Derives.head (Produces.rule (r := 1) (i := 0) (by decide) (by decide)) hc
  refine ⟨.rule 0, single ⟨[Sum.inr (.rule 1)], [], ?_, hb⟩⟩
  exact Produces.rule (r := 0) (i := 0) (by decide) (by decide)

theorem foldlM_error {f : List Stack → Stack → Except Stop (List Stack)} {news : List Stack} {s : Stack}
    {l : List Stack} {e : Stop} (h : f news s = .error e) : (s :: l).foldlM f news = .error e := by
  rw [foldlM_cons, h]
  rfl

theorem vanishing_diverges (fuel : ℕ) (news : List Stack) :
    advanceStack (vanishing.map copyRule) fuel [⟨0, 0⟩] news = .error .outOfFuel := by
  induction fuel using Nat.strong_induction_on with
  | _ fuel ih =>
    match fuel with
    | 0 => rfl
    | 1 => rfl
    | 2 => rfl
    | fuel + 3 =>
      -- three calls later the first call is made again
      have hroot : advanceStack (vanishing.map copyRule) (fuel + 1) [⟨0, 1⟩] news = .error .outOfFuel := by
        have hcall : advanceStack (vanishing.map copyRule) (fuel + 1) [⟨0, 1⟩] news =
            [[⟨0, 0⟩], [⟨0, 3⟩]].foldlM (fun news s => advanceStack (vanishing.map copyRule) fuel s news) news := rfl
        rw [hcall]
        exact foldlM_error (ih fuel (by omega))
      have hb : advanceStack (vanishing.map copyRule) (fuel + 2) [⟨1, 0⟩, ⟨0, 1⟩] news = .error .outOfFuel := by
        have hcall : advanceStack (vanishing.map copyRule) (fuel + 2) [⟨1, 0⟩, ⟨0, 1⟩] news =
            [[⟨0, 1⟩]].foldlM (fun news s => advanceStack (vanishing.map copyRule) (fuel + 1) s news) news := rfl
        rw [hcall]
        exact foldlM_error hroot
      have hcall : advanceStack (vanishing.map copyRule) (fuel + 3) [⟨0, 0⟩] news =
          [[⟨1, 0⟩, ⟨0, 1⟩]].foldlM (fun news s => advanceStack (vanishing.map copyRule) (fuel + 2) s news) news := rfl
      rw [hcall]
      exact foldlM_error hb

/-- The grammar is not rejected, but it is left-recursive: `b` vanishes through `c`.  `advance_stack` does not return
on the first stack. -/
theorem vanishing_accepted :
    WellFormed (vanishing.map copyRule) ∧ LeftRecursive (vanishing.map copyRule) ∧
      (∀ fuel, initImpl fuel vanishing 0 ≠ .ok none) ∧
      Reached (vanishing.map copyRule) 0 [⟨0, 0⟩] ∧
      ∀ fuel news, advanceStack (vanishing.map copyRule) fuel [⟨0, 0⟩] news = .error .outOfFuel := by
  refine ⟨by decide, vanishing_leftRecursive, fun fuel => ?_, ?_, vanishing_diverges⟩
  · rw [Ne, initImpl_none_iff]
    decide
  · exact Reached.start (i := 0) (by decide)

end Grammar
