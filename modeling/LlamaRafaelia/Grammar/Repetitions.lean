import LlamaRafaelia.Grammar.ParserSound
import LlamaRafaelia.Lib.FormLanguage

/-!
# Repetitions

A suffix `*`, `+`, `?` or `{m,n}` behind an item is written out: the elements are repeated as often as they have to be
there, and the rest is a reference to a rule made for it.  Another suffix is for what the first one has left.

* `handleRepetitions_language` - **one suffix**: the powers of the item with a permitted exponent;
* `repetitions_derive_iff` - **several suffixes** of an item that was read, which derive what they should exactly if each
  of them finds elements - in the rules of any later state of the parser.
-/

namespace Grammar

open List Leftmost Language
open scoped Computability

/-! ### The language of some elements -/

/-- The elements of an item: none ends an alternate, and the first one does not modify what is in front of it. -/
structure Item (xs : List Element) : Prop where
  inner : ∀ e ∈ xs, isEndOfSequence e = false
  front : ∀ e ∈ xs.head?, isModifier e = false

def language (rules : Rules) (xs : List Element) : Language ℕ := words (Produces rules) ((symsOf xs).map Sum.inr)

section

variable {rules : Rules} {xs ys : List Element}

theorem Item.nil : Item [] := ⟨fun _ he => absurd he not_mem_nil, fun e he => by cases he⟩

theorem Item.append (hx : Item xs) (hy : Item ys) : Item (xs ++ ys) := by
  refine ⟨fun e he => (mem_append.mp he).elim (hx.inner e) (hy.inner e), ?_⟩
  cases xs with
  | nil => exact hy.front
  | cons x xs => exact hx.front

theorem Item.ref (id : ℕ) : Item [⟨.ruleRef, id⟩] := by
  refine ⟨fun e he => ?_, fun e he => ?_⟩
  · rw [mem_singleton.mp he]
    rfl
  · obtain rfl := Option.some.inj he
    rfl

theorem Item.replicate (hx : Item xs) (n : ℕ) : Item (List.replicate n xs).flatten := by
  induction n with
  | zero => exact Item.nil
  | succ n ih =>
    rw [replicate_succ, flatten_cons]
    exact hx.append ih

theorem ranges_append (hy : ∀ e ∈ ys.head?, isModifier e = false) (o : Option ℕ) (es : List Element) :
    ranges o (es ++ ys) = ranges o es := by
  induction es generalizing o with
  | nil =>
    cases ys with
    | nil => rfl
    | cons y ys =>
      have hmod := hy y rfl
      simp only [isModifier, decide_eq_false_iff_not, not_or] at hmod
      cases o with
      | none => exact if_neg hmod.2
      | some lo =>
        show (if y.type = .charRngUpper then _ else if y.type = .charAlt then _ else _) = _
        rw [if_neg hmod.1, if_neg hmod.2]
        rfl
  | cons e es ih =>
    cases o with
    | none =>
      rw [cons_append, ranges, ranges, ih]
    | some lo => rw [cons_append, ranges, ranges, ih, ih]

theorem classOf_append (hy : ∀ e ∈ ys.head?, isModifier e = false) (e : Element) (es : List Element) :
    classOf e (es ++ ys) = classOf e es := by
  unfold classOf
  rw [ranges_append hy]

theorem symsOf_append (hx : ∀ e ∈ xs, isEndOfSequence e = false) (hy : ∀ e ∈ ys.head?, isModifier e = false) :
    symsOf (xs ++ ys) = symsOf xs ++ symsOf ys := by
  induction xs with
  | nil => rfl
  | cons e es ih =>
    have hrest := ih fun e' he' => hx e' (mem_cons_of_mem e he')
    have hend := hx e mem_cons_self
    simp only [isEndOfSequence, decide_eq_false_iff_not, not_or] at hend
    rw [cons_append, symsOf, symsOf, hrest, classOf_append hy]
    cases htype : e.type with
    | endOfRule => exact absurd htype hend.1
    | alt => exact absurd htype hend.2
    | ruleRef => rfl
    | char => rfl
    | charNot => rfl
    | charRngUpper => rfl
    | charAlt => rfl
    | charAny => rfl

theorem language_append (hx : Item xs) (hy : Item ys) :
    language rules (xs ++ ys) = language rules xs * language rules ys := by
  rw [language, symsOf_append hx.inner hy.front, map_append, words_append]
  rfl

theorem language_replicate (hx : Item xs) (n : ℕ) :
    language rules (List.replicate n xs).flatten = language rules xs ^ n := by
  induction n with
  | zero => exact words_nil
  | succ n ih => rw [replicate_succ, flatten_cons, language_append hx (hx.replicate n), ih, pow_succ']

/-! ### The rules that are made -/

/-- The body of a rule `S' ::= xs |`. -/
def optionalRule (xs : List Element) : List Element := xs ++ [⟨.alt, 0⟩, ⟨.endOfRule, 0⟩]

theorem altsFrom_append (hx : ∀ e ∈ xs, isEndOfSequence e = false) (i : ℕ) :
    altsFrom (xs ++ ys) i = altsFrom ys (i + xs.length) := by
  induction xs generalizing i with
  | nil => rfl
  | cons e es ih =>
    have hrest := ih (fun e' he' => hx e' (mem_cons_of_mem e he')) (i + 1)
    have hend := hx e mem_cons_self
    simp only [isEndOfSequence, decide_eq_false_iff_not, not_or] at hend
    have hlen : i + 1 + es.length = i + (e :: es).length := by
      rw [length_cons]
      omega
    rw [hlen] at hrest
    rw [cons_append, altsFrom, ← hrest]
    split
    · next htype => exact absurd htype hend.1
    · next htype => exact absurd htype hend.2
    · rfl

theorem produces_optional (hx : Item xs) {id : ℕ} (hrule : rules.getD id [] = optionalRule xs)
    (δ : List (ℕ ⊕ GrammarSymbol)) :
    Produces rules (.rule id) δ ↔ δ = (symsOf xs).map Sum.inr ∨ δ = [] := by
  have hlt : id < rules.length := by
    by_contra hge
    rw [getD_eq_default _ _ (Nat.not_lt.mp hge), optionalRule] at hrule
    simp at hrule
  have halts : altStarts (rules.getD id []) = [0, xs.length + 1] := by
    rw [hrule, altStarts, optionalRule, altsFrom_append hx.inner, Nat.zero_add]
    rfl
  have hfirst : symsOf ((rules.getD id []).drop 0) = symsOf xs := by
    rw [hrule, drop_zero, optionalRule, symsOf_append hx.inner (fun e he => by cases he; rfl)]
    exact append_nil _
  have hsecond : symsOf ((rules.getD id []).drop (xs.length + 1)) = [] := by
    rw [hrule, optionalRule, drop_length_add_append]
    rfl
  constructor
  · intro hprod
    cases hprod with
    | @rule r i hr hi =>
      rw [halts] at hi
      obtain rfl | hi := mem_cons.mp hi
      · exact Or.inl (congrArg _ hfirst)
      · obtain rfl := mem_singleton.mp hi
        exact Or.inr (congrArg _ hsecond)
  · intro hδ
    obtain rfl | rfl := hδ
    · rw [← hfirst]
      exact Produces.rule hlt (halts ▸ mem_cons_self)
    · have hprod := Produces.rule (i := xs.length + 1) hlt (by rw [halts]; simp)
      rw [hsecond] at hprod
      exact hprod

theorem language_optional (hx : Item xs) {id : ℕ} (hrule : rules.getD id [] = optionalRule xs) :
    language rules [⟨.ruleRef, id⟩] = language rules xs + 1 := words_optional (produces_optional hx hrule)

theorem language_star (hx : Item xs) {id : ℕ} (hrule : rules.getD id [] = optionalRule (xs ++ [⟨.ruleRef, id⟩])) :
    language rules [⟨.ruleRef, id⟩] = (language rules xs)∗ := by
  refine words_star fun δ => ?_
  rw [produces_optional (hx.append (Item.ref id)) hrule, symsOf_append hx.inner (Item.ref id).front, map_append]
  rfl

end

theorem Sequence.not_end {named : ℕ → Prop} {prev : Gretype} (h : Sequence named prev xs) :
    ∀ e ∈ xs, e.type ≠ .endOfRule := by
  induction xs generalizing prev with
  | nil => exact fun e he => absurd he not_mem_nil
  | cons x xs ih => exact forall_mem_cons.mpr ⟨h.1, ih h.2.2.2⟩

/-- **What is read is an item.** -/
theorem Body.item {named : ℕ → Prop} (h : Body named xs) : Item xs := by
  refine ⟨fun e he => ?_, fun e he => ?_⟩
  · have hend := h.sequence.not_end e he
    have halt := h.single e he
    simp [isEndOfSequence, hend, halt]
  · cases xs with
    | nil => cases he
    | cons x xs =>
      obtain rfl := Option.some.inj he
      have hfollow := h.sequence.2.1
      cases htype : x.type
      all_goals
        rw [htype] at hfollow
        first | exact absurd hfollow (by decide) | simp [isModifier, htype]

/-! ### Ids -/

/-- The later state has more names, made up ones, and the rules of the old ids. -/
structure Extends (st st' : Parser) : Prop where
  numbered : Numbered st'
  le : st.symbolIds.length ≤ st'.symbolIds.length
  rules : ∀ id < st.symbolIds.length, st'.rules.getD id [] = st.rules.getD id []
  names : ∀ kv ∈ st.symbolIds, kv ∈ st'.symbolIds
  made : ∀ id, st.symbolIds.length ≤ id → id < st'.symbolIds.length → ∃ k, 95 ∈ k ∧ (k, id) ∈ st'.symbolIds

/-- The table has the rules of the ids that are new in the later state. -/
def Holding (R : Rules) (st st' : Parser) : Prop :=
  ∀ id, st.symbolIds.length ≤ id → id < st'.symbolIds.length → R.getD id [] = st'.rules.getD id []

section

variable {st st' st'' : Parser} {R : Rules}

theorem Extends.trans (h : Extends st st') (h' : Extends st' st'') : Extends st st'' :=
  ⟨h'.numbered, h.le.trans h'.le, fun id hid => (h'.rules id (hid.trans_le h.le)).trans (h.rules id hid),
    fun kv hkv => h'.names kv (h.names kv hkv), fun id hle hlt => by
      by_cases hid : id < st'.symbolIds.length
      · obtain ⟨k, hk, hmem⟩ := h.made id hle hid
        exact ⟨k, hk, h'.names _ hmem⟩
      · exact h'.made id (Nat.not_lt.mp hid) hlt⟩

theorem Numbered.extends (h : Numbered st) : Extends st st :=
  ⟨h, Nat.le_refl _, fun _ _ => rfl, fun _ hkv => hkv, fun _ hle hlt => absurd hlt (Nat.not_lt.mpr hle)⟩

theorem Holding.first (h : Holding R st st'') (h' : Extends st' st'') : Holding R st st' := fun id hle hlt =>
  (h id hle (hlt.trans_le h'.le)).trans (h'.rules id hlt)

theorem Holding.second (h : Holding R st st'') (h' : Extends st st') : Holding R st' st'' := fun id hle hlt =>
  h id (h'.le.trans hle) hlt

/-- **A name that is made up is new**: the next id comes with it. -/
theorem Numbered.generateSymbolId_new (h : Numbered st) {base : Text} (hbase : 95 ∉ base)
    (hroom : st.symbolIds.length < 2 ^ 32) :
    (st.generateSymbolId base).1 = st.symbolIds.length ∧
      (st.generateSymbolId base).2.symbolIds.length = st.symbolIds.length + 1 ∧
        Extends st (st.generateSymbolId base).2 := by
  have hnext : st.nextId = st.symbolIds.length := Nat.mod_eq_of_lt hroom
  have hnew : ∀ v, (Parser.symbolName base st.nextId, v) ∉ st.symbolIds := fun v hv =>
    absurd (h.id_lt hbase hv) (by omega)
  have hlen : (st.generateSymbolId base).2.symbolIds.length = st.symbolIds.length + 1 := by
    rw [generateSymbolId_symbolIds, filter_new hnew, length_append]
    rfl
  refine ⟨hnext, hlen, h.generateSymbolId hbase, by omega, fun _ _ => rfl, fun kv hkv => ?_, fun id hle hlt => ?_⟩
  · rw [generateSymbolId_symbolIds, filter_new hnew]
    exact mem_append_left _ hkv
  · have hid : id = st.nextId := by omega
    rw [hid, generateSymbolId_symbolIds]
    exact ⟨_, by simp [Parser.symbolName], mem_append_right _ mem_cons_self⟩

theorem Numbered.makeRule (h : Numbered st) {base : Text} (hbase : 95 ∉ base) (hroom : st.symbolIds.length < 2 ^ 32)
    (rule : List Element) :
    let st' := (st.generateSymbolId base).2.addRule (st.generateSymbolId base).1 rule
    Extends st st' ∧ st'.symbolIds.length = st.symbolIds.length + 1 ∧ st'.rules.getD st.symbolIds.length [] = rule := by
  obtain ⟨hid, hlen, hext⟩ := h.generateSymbolId_new hbase hroom
  intro st'
  refine ⟨⟨⟨hext.numbered.nodup, hext.numbered.lt, hext.numbered.keys, hext.numbered.ids⟩, hext.le, fun id hlt => ?_,
    hext.names, hext.made⟩, hlen, ?_⟩
  · rw [addRule_getD, if_neg (by omega)]
    rfl
  · rw [addRule_getD, if_pos hid.symm]

end

/-! ### The rules of a repetition -/

section

variable {ruleName : Text} (hname : 95 ∉ ruleName) {st : Parser} {R : Rules} {prevRule : List Element}

include hname

theorem recursiveRules_extends (prevRule : List Element) (h : Numbered st) (maxTimes : ℤ) (n : ℕ) (first : Bool) (lastId : ℕ)
    (hroom : st.symbolIds.length + n ≤ 2 ^ 32) :
    Extends st (recursiveRules ruleName prevRule maxTimes n first lastId st).2 ∧
      (recursiveRules ruleName prevRule maxTimes n first lastId st).2.symbolIds.length = st.symbolIds.length + n := by
  induction n generalizing first lastId st with
  | zero => exact ⟨h.extends, rfl⟩
  | succ n ih =>
    obtain ⟨hext, hlen, -⟩ := h.makeRule hname (by omega) (prevRule ++ (if ¬ first ∨ maxTimes < 0 then
      [⟨.ruleRef, if maxTimes < 0 then (st.generateSymbolId ruleName).1 else lastId⟩] else []) ++
        [⟨.alt, 0⟩, ⟨.endOfRule, 0⟩])
    obtain ⟨hext', hlen'⟩ := ih hext.numbered false (st.generateSymbolId ruleName).1 (by omega)
    refine ⟨hext.trans hext', hlen'.trans ?_⟩
    rw [hlen]
    omega

theorem recursiveRules_first (h : Numbered st) (maxTimes : ℤ) (n : ℕ) (first : Bool) (lastId : ℕ)
    (hroom : st.symbolIds.length + (n + 1) ≤ 2 ^ 32)
    (hR : Holding R st (recursiveRules ruleName prevRule maxTimes (n + 1) first lastId st).2) :
    R.getD st.symbolIds.length [] = optionalRule (prevRule ++ (if ¬ first ∨ maxTimes < 0 then
      [⟨.ruleRef, if maxTimes < 0 then st.symbolIds.length else lastId⟩] else [])) := by
  obtain ⟨hid, -, -⟩ := h.generateSymbolId_new hname (by omega)
  obtain ⟨hext, hlen, hrule⟩ := h.makeRule hname (by omega) (prevRule ++ (if ¬ first ∨ maxTimes < 0 then
    [⟨.ruleRef, if maxTimes < 0 then (st.generateSymbolId ruleName).1 else lastId⟩] else []) ++
      [⟨.alt, 0⟩, ⟨.endOfRule, 0⟩])
  obtain ⟨hext', -⟩ := recursiveRules_extends hname prevRule hext.numbered maxTimes n false
    (st.generateSymbolId ruleName).1 (by omega)
  rw [hR.first hext' _ (Nat.le_refl _) (by omega), hrule, hid]
  rfl

/-- **The chain of optional rules**: at most so many of the item. -/
theorem recursiveRules_chain (h : Numbered st) (hprev : Item prevRule) {maxTimes : ℤ} (hmax : 0 ≤ maxTimes) (n : ℕ)
    (first : Bool) (lastId j : ℕ) (hroom : st.symbolIds.length + n ≤ 2 ^ 32)
    (hR : Holding R st (recursiveRules ruleName prevRule maxTimes n first lastId st).2)
    (hfirst : first = true → j = 0 ∧ 0 < n)
    (hlast : first = false → language R [⟨.ruleRef, lastId⟩] = powers (Set.Iic j) (language R prevRule)) :
    language R [⟨.ruleRef, (recursiveRules ruleName prevRule maxTimes n first lastId st).1⟩] =
      powers (Set.Iic (j + n)) (language R prevRule) := by
  induction n generalizing first lastId st j with
  | zero =>
    cases first with
    | true => exact absurd (hfirst rfl).2 (Nat.lt_irrefl 0)
    | false => exact hlast rfl
  | succ n ih =>
    obtain ⟨hid, -, -⟩ := h.generateSymbolId_new hname (by omega)
    obtain ⟨hext, hlen, -⟩ := h.makeRule hname (by omega) (prevRule ++ (if ¬ first ∨ maxTimes < 0 then
      [⟨.ruleRef, if maxTimes < 0 then (st.generateSymbolId ruleName).1 else lastId⟩] else []) ++
        [⟨.alt, 0⟩, ⟨.endOfRule, 0⟩])
    have hrule := recursiveRules_first hname h maxTimes n first lastId hroom hR
    have hone : language R [⟨.ruleRef, (st.generateSymbolId ruleName).1⟩] =
        powers (Set.Iic (j + 1)) (language R prevRule) := by
      rw [hid, powers_succ]
      cases first with
      | true =>
        obtain rfl := (hfirst rfl).1
        rw [if_neg (by simp; omega), append_nil] at hrule
        rw [language_optional hprev hrule, powers_zero, mul_one]
      | false =>
        rw [if_pos (Or.inl (by simp)), if_neg (by omega)] at hrule
        rw [language_optional (hprev.append (Item.ref lastId)) hrule, language_append hprev (Item.ref lastId), hlast rfl]
    have hrest := ih hext.numbered false (st.generateSymbolId ruleName).1 (j + 1) (by omega)
      (hR.second hext) (fun hfalse => by cases hfalse) fun _ => hone
    rw [Nat.add_assoc, Nat.add_comm 1 n] at hrest
    exact hrest

/-- **The rule that refers to itself**: any number of the item. -/
theorem recursiveRules_star (h : Numbered st) (hprev : Item prevRule) {maxTimes : ℤ} (hmax : maxTimes < 0)
    (hroom : st.symbolIds.length + 1 ≤ 2 ^ 32)
    (hR : Holding R st (recursiveRules ruleName prevRule maxTimes 1 true 0 st).2) :
    language R [⟨.ruleRef, (recursiveRules ruleName prevRule maxTimes 1 true 0 st).1⟩] = (language R prevRule)∗ := by
  obtain ⟨hid, -, -⟩ := h.generateSymbolId_new hname (by omega)
  have hrule := recursiveRules_first hname h maxTimes 0 true 0 hroom hR
  rw [if_pos (Or.inr hmax), if_pos hmax] at hrule
  have hlast : (recursiveRules ruleName prevRule maxTimes 1 true 0 st).1 = st.symbolIds.length := hid
  rw [hlast]
  exact language_star hprev hrule

end

/-! ### One suffix -/

/-- The counts that a suffix asks for: two `int`s in order, or no upper one. -/
def ValidCounts (minTimes maxTimes : ℤ) : Prop :=
  0 ≤ minTimes ∧ minTimes < 2 ^ 31 ∧ (maxTimes = -1 ∨ minTimes ≤ maxTimes ∧ maxTimes < 2 ^ 31)

def permitted (minTimes maxTimes : ℤ) : Set ℕ := {k | minTimes ≤ k ∧ (0 ≤ maxTimes → k ≤ maxTimes)}

def helperCount (minTimes maxTimes : ℤ) : ℕ := if maxTimes < 0 then 1 else (maxTimes - minTimes).toNat

theorem image_univ {m : ℕ} {minTimes maxTimes : ℤ} (hm : minTimes = m) (hmax : maxTimes < 0) :
    (m + ·) '' Set.univ = permitted minTimes maxTimes := by
  ext k
  constructor
  · intro ⟨j, _, hj⟩
    have hj : m + j = k := hj
    exact ⟨by omega, fun hnonneg => by omega⟩
  · intro ⟨hk, _⟩
    exact ⟨k - m, trivial, Nat.add_sub_cancel' (by omega)⟩

theorem image_Iic {m d : ℕ} {minTimes maxTimes : ℤ} (hm : minTimes = m) (hmax : maxTimes = m + d) :
    (m + ·) '' Set.Iic d = permitted minTimes maxTimes := by
  ext k
  constructor
  · intro ⟨j, hj, hjk⟩
    have hj : j ≤ d := hj
    have hjk : m + j = k := hjk
    exact ⟨by omega, fun _ => by omega⟩
  · intro ⟨hk, hk'⟩
    have hk' := hk' (by omega)
    exact ⟨k - m, Nat.sub_le_iff_le_add.mpr (by omega), Nat.add_sub_cancel' (by omega)⟩

section

variable {ruleName : Text} (hname : 95 ∉ ruleName) {st : Parser} {pre seg : List Element}

include hname

theorem handleRepetitions_language (h : Numbered st) (hseg : Item seg) (hne : seg ≠ []) {minTimes maxTimes : ℤ}
    (hvalid : ValidCounts minTimes maxTimes) (hroom : st.symbolIds.length + helperCount minTimes maxTimes ≤ 2 ^ 32)
    (pos : Text) :
    ∃ seg' st', handleRepetitions ruleName pos (pre ++ seg) pre.length minTimes maxTimes st = .ok (pre ++ seg', st') ∧
      Extends st st' ∧ st'.symbolIds.length = st.symbolIds.length + helperCount minTimes maxTimes ∧ Item seg' ∧
      (seg' = [] ↔ maxTimes = 0) ∧
      ∀ R, Holding R st st' → language R seg' = powers (permitted minTimes maxTimes) (language R seg) := by
  obtain ⟨hmin, hminlt, hmaxcases⟩ := hvalid
  obtain ⟨m, rfl⟩ := Int.eq_ofNat_of_zero_le hmin
  have hlen : ¬ pre.length = (pre ++ seg).length := by
    have := length_pos_of_ne_nil hne
    rw [length_append]
    omega
  -- The item as often as it has to be there.
  have hcopies : (if (m : ℤ) = 0 then pre else pre ++ seg ++ (List.replicate ((m : ℤ) - 1).toNat seg).flatten) =
      pre ++ (List.replicate m seg).flatten := by
    cases m with
    | zero => exact (append_nil pre).symm
    | succ m =>
      have hpred : (((m + 1 : ℕ) : ℤ) - 1).toNat = m := by omega
      rw [if_neg (by omega), hpred, append_assoc, replicate_succ, flatten_cons]
  have hnil : (List.replicate m seg).flatten = [] ↔ m = 0 := by
    cases m with
    | zero => exact iff_of_true rfl rfl
    | succ m =>
      rw [replicate_succ, flatten_cons]
      exact iff_of_false (fun hnil => hne (append_eq_nil_iff.mp hnil).1) (Nat.succ_ne_zero m)
  have hitem := hseg.replicate m
  rw [handleRepetitions, if_neg hlen]
  simp only [drop_left, take_left, hcopies]
  obtain rfl | ⟨hle, hmaxlt⟩ := hmaxcases
  · -- No upper count.
    have hstar : ∀ R, Holding R st (recursiveRules ruleName seg (-1) 1 true 0 st).2 → _ := fun R hR =>
      recursiveRules_star hname h hseg (by decide) hroom hR
    obtain ⟨hext, hids⟩ := recursiveRules_extends hname seg h (-1) 1 true 0 hroom
    have hone : (if (-1 : ℤ) < 0 then 1 else Int.bmod (-1 - m) (2 ^ 32)) = (1 : ℤ) := if_pos (by decide)
    have hneg : (-1 : ℤ) < 0 := by decide
    rw [hone, Int.toNat_one]
    refine ⟨_, _, by rw [if_pos Int.one_pos, append_assoc], hext, hids, hitem.append (Item.ref _), ?_,
      fun R hR => ?_⟩
    · exact iff_of_false (by simp) (by decide)
    · rw [language_append hitem (Item.ref _), language_replicate hseg, hstar R hR, ← powers_univ,
        pow_mul_powers, image_univ rfl hneg]
  · -- A chain of as many rules as there may be more of the item.
    obtain ⟨d, hd⟩ : ∃ d : ℕ, maxTimes = m + d := ⟨(maxTimes - m).toNat, by omega⟩
    have hbmod : (if maxTimes < 0 then 1 else Int.bmod (maxTimes - m) (2 ^ 32)) = (d : ℤ) := by
      have hsub : maxTimes - m = (d : ℤ) := by omega
      rw [if_neg (by omega), hsub, Int.bmod_eq_emod_of_lt (by omega)]
      omega
    have hcount : helperCount m maxTimes = d := by
      rw [helperCount, if_neg (by omega)]
      omega
    rw [hcount] at hroom ⊢
    obtain ⟨hext, hids⟩ := recursiveRules_extends hname seg h maxTimes d true 0 hroom
    rw [hbmod, Int.toNat_natCast]
    cases d with
    | zero =>
      refine ⟨_, _, by rw [if_neg (by decide)], hext, hids, hitem, ?_, fun R _ => ?_⟩
      · rw [hnil]
        omega
      · rw [language_replicate hseg, ← image_Iic (d := 0) rfl hd, ← pow_mul_powers, powers_zero,
          mul_one]
    | succ d =>
      refine ⟨_, _, by rw [if_pos (by omega), append_assoc], hext, hids, hitem.append (Item.ref _), ?_,
        fun R hR => ?_⟩
      · exact iff_of_false (by simp) (by omega)
      · have hchain := recursiveRules_chain hname h hseg (by omega) (d + 1) true 0 0 hroom hR
          (fun _ => ⟨rfl, Nat.succ_pos d⟩) fun hfalse => by cases hfalse
        rw [language_append hitem (Item.ref _), language_replicate hseg, hchain, Nat.zero_add, pow_mul_powers,
          image_Iic rfl hd]

end

/-! ### Several suffixes -/

/-- The text from here on is some suffixes and a rest. -/
inductive Suffixes (isNested : Bool) : Text → List Suffix → Text → Prop
  | nil (rest : Text) : Suffixes isNested rest [] rest
  | cons {pos rest : Text} {s : Suffix} {ss : List Suffix} (h : suffixAt isNested pos = some (.ok s))
      (hs : Suffixes isNested s.behind ss rest) : Suffixes isNested pos (s :: ss) rest

def repetitions (ruleName : Text) (lastSymStart : ℕ) :
    List Suffix → List Element → Parser → Except ParseStop (List Element × Parser)
  | [], rule, st => .ok (rule, st)
  | s :: ss, rule, st => do
    let r ← handleRepetitions ruleName s.behind rule lastSymStart s.minTimes s.maxTimes st
    repetitions ruleName lastSymStart ss r.1 r.2

def repeated : List Suffix → Language ℕ → Language ℕ
  | [], l => l
  | s :: ss, l => repeated ss (powers (permitted s.minTimes s.maxTimes) l)

def helperCounts (ss : List Suffix) : ℕ := (ss.map fun s => helperCount s.minTimes s.maxTimes).sum

theorem sequenceLoop_suffix {group : Text → ℕ → Parser → Except ParseStop (Text × Parser)} {ruleName : Text}
    {isNested : Bool} {pos : Text} {s : Suffix} (h : suffixAt isNested pos = some (.ok s)) (fuel : ℕ)
    (rule : List Element) (lastSymStart : ℕ) (st : Parser) :
    sequenceLoop group ruleName isNested (fuel + 1) pos rule lastSymStart st = (do
      let r ← handleRepetitions ruleName s.behind rule lastSymStart s.minTimes s.maxTimes st
      sequenceLoop group ruleName isNested fuel s.behind r.1 lastSymStart r.2) := by
  rw [sequenceLoop_eq, itemAt_of_suffixAt h, h]
  rfl

theorem sequenceLoop_suffixes {group : Text → ℕ → Parser → Except ParseStop (Text × Parser)} {ruleName : Text}
    {isNested : Bool} {pos rest : Text} {ss : List Suffix} (h : Suffixes isNested pos ss rest) (fuel : ℕ)
    (rule : List Element) (lastSymStart : ℕ) (st : Parser) :
    sequenceLoop group ruleName isNested (fuel + ss.length) pos rule lastSymStart st = (do
      let r ← repetitions ruleName lastSymStart ss rule st
      sequenceLoop group ruleName isNested fuel rest r.1 lastSymStart r.2) := by
  induction h generalizing rule st with
  | nil rest => rfl
  | @cons pos rest s ss h _ ih =>
    rw [length_cons, ← Nat.add_assoc, sequenceLoop_suffix h, repetitions, bind_assoc]
    exact congrArg _ (funext fun r => ih r.1 r.2)

/-- Every suffix finds elements: the item has some, and no suffix before the last one leaves none. -/
def Proceeds (seg : List Element) (ss : List Suffix) : Prop :=
  (ss ≠ [] → seg ≠ []) ∧ ∀ s ∈ ss.dropLast, s.maxTimes ≠ 0

theorem proceeds_nil (seg : List Element) : Proceeds seg [] :=
  ⟨fun h => absurd rfl h, fun _ hs => absurd hs not_mem_nil⟩

theorem proceeds_cons {seg seg' : List Element} {s : Suffix} {ss : List Suffix} (hne : seg ≠ [])
    (hseg' : seg' = [] ↔ s.maxTimes = 0) : Proceeds seg (s :: ss) ↔ Proceeds seg' ss := by
  cases ss with
  | nil => exact iff_of_true ⟨fun _ => hne, fun _ hs => absurd hs not_mem_nil⟩ (proceeds_nil seg')
  | cons s' ss =>
    rw [Proceeds, Proceeds, dropLast_cons_cons, forall_mem_cons]
    constructor
    · intro ⟨_, hs, hss⟩
      exact ⟨fun _ hnil => hs (hseg'.mp hnil), hss⟩
    · intro ⟨hne', hss⟩
      exact ⟨fun _ => hne, fun hs => hne' (cons_ne_nil s' ss) (hseg'.mpr hs), hss⟩

section

variable {ruleName : Text} (hname : 95 ∉ ruleName) {st : Parser} {seg : List Element}

include hname

theorem repetitions_language (pre : List Element) (h : Numbered st) (hseg : Item seg) (ss : List Suffix)
    (hvalid : ∀ s ∈ ss, ValidCounts s.minTimes s.maxTimes)
    (hroom : st.symbolIds.length + helperCounts ss ≤ 2 ^ 32) (hproceeds : Proceeds seg ss) :
    ∃ seg' st', repetitions ruleName pre.length ss (pre ++ seg) st = .ok (pre ++ seg', st') ∧ Extends st st' ∧
      ∀ R, Holding R st st' → language R seg' = repeated ss (language R seg) := by
  induction ss generalizing st seg with
  | nil => exact ⟨seg, st, rfl, h.extends, fun _ _ => rfl⟩
  | cons s ss ih =>
    rw [helperCounts, map_cons, sum_cons] at hroom
    have hne := hproceeds.1 (cons_ne_nil s ss)
    obtain ⟨seg₁, st₁, hone, hext, hlen, hseg₁, hempty, hlanguage⟩ := handleRepetitions_language hname h hseg hne
      (hvalid s mem_cons_self) (by omega) s.behind
    obtain ⟨seg', st', hrest, hext', hlanguage'⟩ := ih hext.numbered hseg₁
      (fun s' hs' => hvalid s' (mem_cons_of_mem s hs')) (by rw [helperCounts]; omega)
      ((proceeds_cons hne hempty).mp hproceeds)
    refine ⟨seg', st', ?_, hext.trans hext', fun R hR => ?_⟩
    · rw [repetitions, hone]
      exact hrest
    · rw [hlanguage' R (hR.second hext), hlanguage R (hR.first hext')]
      rfl

theorem repetitions_refused (pre : List Element) (h : Numbered st) (hseg : Item seg) (ss : List Suffix)
    (hvalid : ∀ s ∈ ss, ValidCounts s.minTimes s.maxTimes)
    (hroom : st.symbolIds.length + helperCounts ss ≤ 2 ^ 32) (hproceeds : ¬ Proceeds seg ss) :
    ∃ e, repetitions ruleName pre.length ss (pre ++ seg) st = .error e := by
  induction ss generalizing st seg with
  | nil => exact absurd (proceeds_nil seg) hproceeds
  | cons s ss ih =>
    by_cases hne : seg = []
    · refine ⟨.thrown ⟨"expecting preceding item to */+/?/\x7b at ", s.behind⟩, ?_⟩
      rw [hne, append_nil, repetitions, handleRepetitions, if_pos rfl]
      rfl
    · rw [helperCounts, map_cons, sum_cons] at hroom
      obtain ⟨seg₁, st₁, hone, hext, hlen, hseg₁, hempty, -⟩ := handleRepetitions_language hname h hseg hne
        (hvalid s mem_cons_self) (by omega) s.behind
      obtain ⟨e, he⟩ := ih hext.numbered hseg₁ (fun s' hs' => hvalid s' (mem_cons_of_mem s hs'))
        (by rw [helperCounts]; omega) (fun hp => hproceeds ((proceeds_cons hne hempty).mpr hp))
      refine ⟨e, ?_⟩
      rw [repetitions, hone]
      exact he

end

/-- A later state of the parser: what was set since then are rules of ids that were given out before `st`, and of names
of the text. -/
def Later (st st' fin : Parser) : Prop :=
  ∃ changed, Grows changed st' fin ∧ fin.symbolIds.length < 2 ^ 32 ∧
    ∀ id, changed id → id < st.symbolIds.length ∨ Defined fin id

/-- **The rules that were made stay as they are.** -/
theorem Extends.holding {st st' fin : Parser} (h : Extends st st') (hlater : Later st st' fin) : Holding fin.rules st st' := by
  obtain ⟨changed, hgrows, hroom, hchanged⟩ := hlater
  refine fun id hle hlt => hgrows.kept hroom id hlt fun hset => ?_
  rcases hchanged id hset with hold | ⟨k', hk', hid'⟩
  · exact absurd hold (Nat.not_lt.mpr hle)
  · -- Two names with one id are one name.
    obtain ⟨k, hk, hid⟩ := h.made id hle hlt
    have heq := inj_on_of_nodup_map (hgrows.sound.ids hroom) (hgrows.names _ hid) hid' rfl
    obtain rfl := congrArg Prod.fst heq
    exact hk' hk

/-- **Repetitions derive the powers of their item**, one suffix for what the suffix before it has left: exactly if every
suffix finds elements. -/
theorem repetitions_derive_iff {ruleName : Text} (hname : 95 ∉ ruleName) {st : Parser} (h : Sound st) {depth fuel : ℕ}
    {isNested : Bool} {pos rest : Text} {rule : List Element} {x : Text × List Element × Parser}
    (hitem : itemAt (parseAlternates ruleName depth true) ruleName isNested fuel pos rule st = some (.ok x))
    {ss : List Suffix} (hss : Suffixes isNested x.1 ss rest) (hvalid : ∀ s ∈ ss, ValidCounts s.minTimes s.maxTimes)
    (hroom : x.2.2.symbolIds.length + helperCounts ss ≤ 2 ^ 32) :
    ∃ seg, x.2.1 = rule ++ seg ∧
      ((∃ seg' st', repetitions ruleName rule.length ss x.2.1 x.2.2 = .ok (rule ++ seg', st') ∧
          (∀ n, sequenceLoop (parseAlternates ruleName depth true) ruleName isNested (n + ss.length) x.1 x.2.1 rule.length
            x.2.2 = sequenceLoop (parseAlternates ruleName depth true) ruleName isNested n rest (rule ++ seg') rule.length
              st') ∧
          ∀ fin, Later x.2.2 st' fin → language fin.rules seg' = repeated ss (language fin.rules seg)) ↔
        Proceeds seg ss) := by
  have hgroup : ∀ src id st r, parseAlternates ruleName depth true src id st = .ok r → Sound st → Grows (· = id) st r.2 :=
    fun src id st r hr hst => parseAlternates_spec hname hst hr
  obtain ⟨hgrows, seg, hseg, hbody⟩ : Grows (fun _ => False) st _ ∧ _ := itemAt_spec hname hgroup h hitem
  have hnumbered := hgrows.sound.toNumbered
  refine ⟨seg, hseg, ?_, fun hproceeds => ?_⟩
  · intro ⟨seg', st', hok, _⟩
    by_contra hnot
    obtain ⟨e, he⟩ := repetitions_refused hname rule hnumbered hbody.item ss hvalid hroom hnot
    rw [hseg, he] at hok
    cases hok
  · obtain ⟨seg', st', hok, hext, hlanguage⟩ := repetitions_language hname rule hnumbered hbody.item ss hvalid hroom hproceeds
    refine ⟨seg', st', by rw [hseg, hok], fun n => ?_, fun fin hlater => hlanguage _ (hext.holding hlater)⟩
    rw [sequenceLoop_suffixes hss, hseg, hok]
    rfl

/-- The name `root`. -/
def rootName : Text := [114, 111, 111, 116]

/-- The state in which the rule `root` of a text is parsed. -/
def rootState : Parser := ⟨[(rootName, 0)], []⟩

theorem rootState_sound : Sound rootState := by
  obtain ⟨hgrows, -⟩ : Grows (fun _ => False) _ _ ∧ _ := getSymbolId_spec Sound.init (show 95 ∉ rootName by decide)
  exact hgrows.sound

/-- The group `("a")` behind an `x`, as it is read from `("a")*?`. -/
def groupItem : Text × List Element × Parser :=
  ([42, 63], [⟨.char, 120⟩, ⟨.ruleRef, 1⟩],
    ⟨[(rootName, 0), (Parser.symbolName rootName 1, 1)], [[], [⟨.char, 97⟩, ⟨.endOfRule, 0⟩]]⟩)

theorem repetitions_derive_group :
    itemAt (parseAlternates rootName 5 true) rootName false 5 [40, 34, 97, 34, 41, 42, 63] [⟨.char, 120⟩] rootState =
        some (.ok groupItem) ∧
      ∃ seg' st', repetitions rootName 1 [⟨0, -1, [63]⟩, ⟨0, 1, []⟩] groupItem.2.1 groupItem.2.2 =
          .ok ([⟨.char, 120⟩] ++ seg', st') ∧
        ∀ fin, Later groupItem.2.2 st' fin → language fin.rules seg' =
          repeated [⟨0, -1, [63]⟩, ⟨0, 1, []⟩] (language fin.rules [⟨.ruleRef, 1⟩]) := by
  have hitem : itemAt (parseAlternates rootName 5 true) rootName false 5 [40, 34, 97, 34, 41, 42, 63] [⟨.char, 120⟩]
      rootState = some (.ok groupItem) := by decide
  have hss : Suffixes false groupItem.1 [⟨0, -1, [63]⟩, ⟨0, 1, []⟩] [] := .cons rfl (.cons rfl (.nil []))
  have hvalid : ∀ s ∈ ([⟨0, -1, [63]⟩, ⟨0, 1, []⟩] : List Suffix), ValidCounts s.minTimes s.maxTimes := by
    unfold ValidCounts
    decide
  obtain ⟨seg, hseg, hiff⟩ := repetitions_derive_iff (by decide) rootState_sound hitem hss hvalid (by decide)
  have hcancel : [⟨.char, 120⟩] ++ [⟨.ruleRef, 1⟩] = [⟨.char, 120⟩] ++ seg := hseg
  obtain rfl := append_cancel_left hcancel
  have hproceeds : Proceeds [⟨.ruleRef, 1⟩] [⟨0, -1, [63]⟩, ⟨0, 1, []⟩] := by
    unfold Proceeds
    decide
  obtain ⟨seg', st', hok, -, hlanguage⟩ := hiff.mpr hproceeds
  exact ⟨hitem, seg', st', hok, hlanguage⟩

/-- The text `root ::= "a"{0}*`: the item is refused as if it were not there, and in brackets it is not. -/
theorem repetitions_derive_zero :
    suffixAt false [123, 48, 125, 42] = some (.ok ⟨0, 0, [42]⟩) ∧ suffixAt false [42] = some (.ok ⟨0, -1, []⟩) ∧
      repetitions rootName 0 [⟨0, 0, [42]⟩, ⟨0, -1, []⟩] [⟨.char, 97⟩] rootState =
        throwAt "expecting preceding item to */+/?/\x7b at " [] ∧
      parse 20 (textA ++ [123, 48, 125, 42]) = throwAt "expecting preceding item to */+/?/\x7b at " [] ∧
      (parse 20 (textA.take 9 ++ [40, 34, 97, 34, 123, 48, 125, 41, 42])).isOk = true := by
  decide

end Grammar
