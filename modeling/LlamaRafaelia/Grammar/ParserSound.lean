import LlamaRafaelia.Grammar.Names
import LlamaRafaelia.Grammar.Candidates

/-!
# Parsed grammars are well formed

The parser is followed with one invariant (`Sound`): every rule is a sequence of elements with an end behind it, in
which modifiers stand behind characters and every reference is to an id that has a name.  No name goes, and a rule that
is made up is not set again (`Grows`).

* **`parse_wellFormed`** — what `parse` accepts is well formed.
* **`parse_never_aborts`** — and whatever is then done with the grammar, no assertion fails.
-/

namespace Grammar

open List Except

theorem bind_ok {ε α β : Type} {x : Except ε α} {f : α → Except ε β} {b : β} (h : x >>= f = .ok b) :
    ∃ a, x = .ok a ∧ f a = .ok b := by
  cases x with
  | error e => cases h
  | ok a => exact ⟨a, rfl, h⟩

theorem throwAt_ne_ok {α : Type} {msg : String} {rest : Text} {a : α} : throwAt msg rest ≠ .ok a := by
  intro h
  cases h

/-! ### Sequences of elements -/

/-- The elements behind one of type `prev` are well formed, as far as they go. -/
def Sequence (named : ℕ → Prop) : Gretype → List Element → Prop
  | _, [] => True
  | prev, e :: es => e.type ≠ .endOfRule ∧ canFollow prev e.type = true ∧ (e.type = .ruleRef → named e.value) ∧
      Sequence named e.type es

def lastType : Gretype → List Element → Gretype
  | prev, [] => prev
  | _, e :: es => lastType e.type es

section

variable {named named' : ℕ → Prop} {prev : Gretype} {xs ys : List Element}

theorem Sequence.mono (hsub : ∀ v, named v → named' v) (h : Sequence named prev xs) : Sequence named' prev xs := by
  induction xs generalizing prev with
  | nil => trivial
  | cons e es ih => exact ⟨h.1, h.2.1, fun href => hsub _ (h.2.2.1 href), ih h.2.2.2⟩

theorem Sequence.ref_named (h : Sequence named prev xs) {e : Element} (he : e ∈ xs) (htype : e.type = .ruleRef) :
    named e.value := by
  induction xs generalizing prev with
  | nil => cases he
  | cons x xs ih =>
    rcases mem_cons.mp he with rfl | he
    · exact h.2.2.1 htype
    · exact ih h.2.2.2 he

theorem canFollow_of_alt {t : Gretype} (h : canFollow .alt t = true) (prev : Gretype) : canFollow prev t = true := by
  cases t <;> first | rfl | exact absurd h (by decide)

theorem Sequence.after (h : Sequence named .alt ys) (prev : Gretype) : Sequence named prev ys := by
  cases ys with
  | nil => trivial
  | cons e es => exact ⟨h.1, canFollow_of_alt h.2.1 prev, h.2.2⟩

theorem Sequence.append (hx : Sequence named prev xs) (hy : Sequence named .alt ys) :
    Sequence named prev (xs ++ ys) := by
  induction xs generalizing prev with
  | nil => exact hy.after prev
  | cons e es ih => exact ⟨hx.1, hx.2.1, hx.2.2.1, ih hx.2.2.2⟩

theorem Sequence.snoc (hx : Sequence named prev xs) {e : Element} (hend : e.type ≠ .endOfRule)
    (hfollow : canFollow (lastType prev xs) e.type = true) (href : e.type ≠ .ruleRef) :
    Sequence named prev (xs ++ [e]) := by
  induction xs generalizing prev with
  | nil => exact ⟨hend, hfollow, fun h => absurd h href, trivial⟩
  | cons x xs ih => exact ⟨hx.1, hx.2.1, hx.2.2.1, ih hx.2.2.2 hfollow⟩

theorem lastType_snoc (e : Element) : lastType prev (xs ++ [e]) = e.type := by
  induction xs generalizing prev with
  | nil => rfl
  | cons x xs ih => exact ih

theorem Sequence.replicate (h : Sequence named .alt xs) (n : ℕ) :
    Sequence named .alt (List.replicate n xs).flatten := by
  induction n with
  | zero => trivial
  | succ n ih =>
    rw [replicate_succ, flatten_cons]
    exact h.append ih

theorem sequence_single {t : Gretype} (ht : t = .char ∨ t = .charNot ∨ t = .charAny ∨ t = .alt) (c : ℕ) :
    Sequence named .alt [⟨t, c⟩] := by
  rcases ht with rfl | rfl | rfl | rfl
  all_goals exact ⟨by simp, rfl, by simp, trivial⟩

theorem sequence_ruleRef {id : ℕ} (h : named id) : Sequence named .alt [⟨.ruleRef, id⟩] :=
  ⟨by simp, rfl, fun _ => h, trivial⟩

theorem Sequence.wellFormedFrom {nRules : ℕ} (h : Sequence named prev xs)
    (hdef : ∀ e ∈ xs, e.type = .ruleRef → e.value < nRules) :
    wellFormedFrom nRules prev (xs ++ [⟨.endOfRule, 0⟩]) = true := by
  induction xs generalizing prev with
  | nil => rfl
  | cons e es ih =>
    have hrest := ih h.2.2.2 fun e' he' => hdef e' (mem_cons_of_mem e he')
    rw [cons_append, Grammar.wellFormedFrom, if_neg h.1, h.2.1, hrest]
    by_cases href : e.type = .ruleRef
    · simp [href, hdef e mem_cons_self href]
    · simp [href]

end

/-! ### Names -/

def Named (st : Parser) (v : ℕ) : Prop := ∃ k, (k, v) ∈ st.symbolIds

/-- The invariant of the parser. -/
structure Sound (st : Parser) : Prop extends Numbered st where
  rules : ∀ rule ∈ st.rules, rule = [] ∨ ∃ body, rule = body ++ [⟨.endOfRule, 0⟩] ∧ Sequence (Named st) .alt body

/-- What a part of the parser does with the state: no name goes, and of the rules of the ids that are given out already
only those of `changed` are set. -/
structure Grows (changed : ℕ → Prop) (st st' : Parser) : Prop where
  sound : Sound st'
  names : ∀ kv ∈ st.symbolIds, kv ∈ st'.symbolIds
  le : st.symbolIds.length ≤ st'.symbolIds.length
  kept : st'.symbolIds.length < 2 ^ 32 → ∀ id < st.symbolIds.length, ¬ changed id →
    st'.rules.getD id [] = st.rules.getD id []

section

variable {changed changed' : ℕ → Prop} {st st' st'' : Parser}

theorem Grows.named (h : Grows changed st st') (v : ℕ) (hv : Named st v) : Named st' v := by
  obtain ⟨k, hk⟩ := hv
  exact ⟨k, h.names _ hk⟩

theorem Grows.trans (h : Grows changed st st') (h' : Grows changed st' st'') : Grows changed st st'' :=
  ⟨h'.sound, fun kv hkv => h'.names kv (h.names kv hkv), h.le.trans h'.le, fun hroom id hid hnot =>
    (h'.kept hroom id (hid.trans_le h.le) hnot).trans (h.kept (h'.le.trans_lt hroom) id hid hnot)⟩

theorem Grows.mono (hsub : ∀ id, changed id → changed' id) (h : Grows changed st st') : Grows changed' st st' :=
  ⟨h.sound, h.names, h.le, fun hroom id hid hnot => h.kept hroom id hid fun hc => hnot (hsub id hc)⟩

theorem Sound.grows (h : Sound st) : Grows changed st st := ⟨h, fun _ hkv => hkv, Nat.le_refl _, fun _ _ _ _ => rfl⟩

theorem Sound.init : Sound ⟨[], []⟩ := ⟨Numbered.init, fun _ h => absurd h not_mem_nil⟩

/-- Only the rule of an id that is made up here changes. -/
theorem Grows.of_made {base : Text} (h : Grows changed st (st.generateSymbolId base).2)
    (h' : Grows (· = (st.generateSymbolId base).1) (st.generateSymbolId base).2 st') : Grows changed st st' := by
  refine ⟨h'.sound, fun kv hkv => h'.names kv (h.names kv hkv), h.le.trans h'.le, fun hroom id hid hnot => ?_⟩
  have hnext : st.nextId = st.symbolIds.length := Nat.mod_eq_of_lt ((h.le.trans h'.le).trans_lt hroom)
  have hne : id ≠ (st.generateSymbolId base).1 := by
    show id ≠ st.nextId
    omega
  exact (h'.kept hroom id (hid.trans_le h.le) hne).trans (h.kept (h'.le.trans_lt hroom) id hid hnot)

end

section

variable {changed : ℕ → Prop} {st : Parser}

theorem getSymbolId_spec (h : Sound st) {name : Text} (hname : 95 ∉ name) :
    Grows changed st (st.getSymbolId name).2 ∧ Named (st.getSymbolId name).2 (st.getSymbolId name).1 := by
  have hnumbered := h.toNumbered.getSymbolId hname
  refine ⟨?_, name, getSymbolId_mem st name⟩
  unfold Parser.getSymbolId at hnumbered ⊢
  split
  · exact h.grows
  · next hnone =>
    rw [hnone] at hnumbered
    refine ⟨⟨hnumbered, fun rule hrule => ?_⟩, fun kv hkv => mem_append_left _ hkv, ?_, fun _ _ _ _ => rfl⟩
    · rcases h.rules rule hrule with hnil | ⟨body, hbody, hseq⟩
      · exact Or.inl hnil
      · refine Or.inr ⟨body, hbody, hseq.mono fun v hv => ?_⟩
        obtain ⟨k, hk⟩ := hv
        exact ⟨k, mem_append_left _ hk⟩
    · rw [length_append]
      exact Nat.le_add_right _ _

theorem generateSymbolId_spec (h : Sound st) {base : Text} (hbase : 95 ∉ base) :
    Grows changed st (st.generateSymbolId base).2 ∧ Named (st.generateSymbolId base).2 (st.generateSymbolId base).1 := by
  have hnames : ∀ kv ∈ st.symbolIds, kv ∈ (st.generateSymbolId base).2.symbolIds := by
    intro kv hkv
    by_cases hname : kv.1 = Parser.symbolName base st.nextId
    · -- A name that is there already has the same id.
      obtain ⟨base', hbase', hkey⟩ := h.keys kv.1 kv.2 hkv (by rw [hname]; simp [Parser.symbolName])
      have hid := symbolName_injective hbase' hbase (hkey.symm.trans hname)
      exact mem_append_right _ (mem_singleton.mpr (Prod.ext hname hid))
    · exact mem_append_left _ (mem_filter.mpr ⟨hkv, by simpa using hname⟩)
  refine ⟨⟨⟨h.toNumbered.generateSymbolId hbase, fun rule hrule => ?_⟩, hnames, ?_, fun _ _ _ _ => rfl⟩,
    Parser.symbolName base st.nextId, by simp [Parser.generateSymbolId]⟩
  · rcases h.rules rule hrule with hnil | ⟨body, hbody, hseq⟩
    · exact Or.inl hnil
    · refine Or.inr ⟨body, hbody, hseq.mono fun v hv => ?_⟩
      obtain ⟨k, hk⟩ := hv
      exact ⟨k, hnames _ hk⟩
  · rw [generateSymbolId_symbolIds, length_append]
    exact h.length_filter _

theorem addRule_spec (h : Sound st) (ruleId : ℕ) {body : List Element} (hbody : Sequence (Named st) .alt body) :
    Grows (· = ruleId) st (st.addRule ruleId (body ++ [⟨.endOfRule, 0⟩])) := by
  refine ⟨⟨⟨h.nodup, h.lt, h.keys, h.ids⟩, fun rule hrule => ?_⟩, fun _ hkv => hkv, Nat.le_refl _,
    fun _ id _ hid => by rw [addRule_getD, if_neg hid]⟩
  rcases mem_or_eq_of_mem_set hrule with hrule | rfl
  · rcases mem_append.mp hrule with hrule | hrule
    · exact h.rules rule hrule
    · exact Or.inl (eq_of_mem_replicate hrule)
  · exact Or.inr ⟨body, rfl, hbody⟩

end

/-! ### Symbols -/

/-- The elements of an item: well formed on their own, and in one alternate. -/
structure Body (named : ℕ → Prop) (seg : List Element) : Prop where
  sequence : Sequence named .alt seg
  single : ∀ e ∈ seg, e.type ≠ .alt

section

variable {named : ℕ → Prop} {seg seg' : List Element}

theorem Body.nil : Body named [] := ⟨trivial, fun _ he => absurd he not_mem_nil⟩

theorem Body.append (h : Body named seg) (h' : Body named seg') : Body named (seg ++ seg') :=
  ⟨h.sequence.append h'.sequence, fun e he => (mem_append.mp he).elim (h.single e) (h'.single e)⟩

theorem Body.snoc (h : Body named seg) {e : Element} (hend : e.type ≠ .endOfRule ∧ e.type ≠ .ruleRef ∧ e.type ≠ .alt)
    (hfollow : canFollow (lastType .alt seg) e.type = true) : Body named (seg ++ [e]) := by
  refine ⟨h.sequence.snoc hend.1 hfollow hend.2.1, fun e' he' => ?_⟩
  rcases mem_append.mp he' with he' | he'
  · exact h.single e' he'
  · rw [mem_singleton.mp he']
    exact hend.2.2

theorem body_single {t : Gretype} (ht : t = .char ∨ t = .charNot ∨ t = .charAny) (c : ℕ) : Body named [⟨t, c⟩] := by
  rcases ht with rfl | rfl | rfl
  all_goals exact Body.nil.snoc (by simp) rfl

theorem body_ruleRef {id : ℕ} (h : named id) : Body named [⟨.ruleRef, id⟩] := by
  refine ⟨sequence_ruleRef h, fun e he => ?_⟩
  rw [mem_singleton.mp he]
  simp

end

theorem literalLoop_spec {fuel : ℕ} {pos : Text} {rule : List Element} {r : Text × List Element}
    (h : literalLoop fuel pos rule = .ok r) (named : ℕ → Prop) : ∃ seg, r.2 = rule ++ seg ∧ Body named seg := by
  induction fuel generalizing pos rule with
  | zero => cases h
  | succ fuel ih =>
    rw [literalLoop] at h
    split at h
    · obtain rfl := ok.inj h
      exact ⟨[], by simp, Body.nil⟩
    · split at h
      · exact absurd h throwAt_ne_ok
      · obtain ⟨c, -, hrest⟩ := bind_ok h
        obtain ⟨seg, hseg, hok⟩ := ih hrest
        refine ⟨[⟨.char, c.1⟩] ++ seg, by rw [hseg, append_assoc], ?_⟩
        exact (body_single (Or.inl rfl) c.1).append hok

def ClassBody (named : ℕ → Prop) (seg : List Element) : Prop :=
  Body named seg ∧ (seg ≠ [] → canFollow (lastType .alt seg) .charAlt = true)

theorem ClassBody.char {named : ℕ → Prop} {seg : List Element} (h : ClassBody named seg) {startType : Gretype}
    (hstart : startType = .char ∨ startType = .charNot) (c : ℕ) (n : ℕ) :
    ClassBody named (seg ++ [⟨if n < n + seg.length then .charAlt else startType, c⟩]) ∧
      canFollow (lastType .alt (seg ++ [⟨if n < n + seg.length then .charAlt else startType, c⟩])) .charRngUpper
        = true := by
  rw [ClassBody, lastType_snoc]
  by_cases hne : seg = []
  · subst hne
    rw [if_neg (by simp)]
    rcases hstart with rfl | rfl
    · exact ⟨⟨body_single (Or.inl rfl) c, fun _ => rfl⟩, rfl⟩
    · exact ⟨⟨body_single (Or.inr (Or.inl rfl)) c, fun _ => rfl⟩, rfl⟩
  · have hpos : 0 < seg.length := length_pos_iff.mpr hne
    rw [if_pos (by omega)]
    exact ⟨⟨h.1.snoc (by simp) (h.2 hne), fun _ => rfl⟩, rfl⟩

theorem ClassBody.upper {named : ℕ → Prop} {seg : List Element} (h : ClassBody named seg)
    (hfollow : canFollow (lastType .alt seg) .charRngUpper = true) (c : ℕ) :
    ClassBody named (seg ++ [⟨.charRngUpper, c⟩]) := by
  rw [ClassBody, lastType_snoc]
  exact ⟨h.1.snoc (by simp) hfollow, fun _ => rfl⟩

theorem classLoop_spec {startType : Gretype} (hstart : startType = .char ∨ startType = .charNot)
    {named : ℕ → Prop} {fuel : ℕ} {pos : Text} (pre : List Element) {seg : List Element} {r : Text × List Element}
    (h : classLoop startType pre.length fuel pos (pre ++ seg) = .ok r) (hseg : ClassBody named seg) :
    ∃ seg', r.2 = pre ++ seg' ∧ Body named seg' := by
  induction fuel generalizing pos seg with
  | zero => cases h
  | succ fuel ih =>
    rw [classLoop] at h
    split at h
    · obtain rfl := ok.inj h
      exact ⟨seg, rfl, hseg.1⟩
    · split at h
      · exact absurd h throwAt_ne_ok
      · obtain ⟨c, -, hrest⟩ := bind_ok h
        obtain ⟨hbody, hupper⟩ := hseg.char hstart c.1 pre.length
        simp only [length_append, append_assoc] at hrest
        split at hrest
        · split at hrest
          · exact absurd hrest throwAt_ne_ok
          · obtain ⟨c', -, hrest⟩ := bind_ok hrest
            rw [← append_assoc seg] at hrest
            exact ih hrest (hbody.upper hupper c'.1)
        · exact ih hrest hbody

/-! ### Repetitions -/

section

variable {ruleName : Text} (hname : 95 ∉ ruleName)

include hname

theorem recursiveRules_spec {changed : ℕ → Prop} {prevRule : List Element} (maxTimes : ℤ) (n : ℕ) (first : Bool)
    (lastId : ℕ) {st : Parser} (h : Sound st) (hprev : Sequence (Named st) .alt prevRule)
    (hlast : first = false → Named st lastId) :
    Grows changed st (recursiveRules ruleName prevRule maxTimes n first lastId st).2 ∧
      (0 < n ∨ first = false → Named (recursiveRules ruleName prevRule maxTimes n first lastId st).2
        (recursiveRules ruleName prevRule maxTimes n first lastId st).1) := by
  induction n generalizing first lastId st with
  | zero =>
    refine ⟨h.grows, ?_⟩
    rintro (hpos | hfirst)
    · omega
    · exact hlast hfirst
  | succ n ih =>
    obtain ⟨hgrow, hid⟩ : Grows changed st _ ∧ _ := generateSymbolId_spec h hname
    have href : Sequence (Named (st.generateSymbolId ruleName).2) .alt
        (if ¬ first ∨ maxTimes < 0 then
          [⟨.ruleRef, if maxTimes < 0 then (st.generateSymbolId ruleName).1 else lastId⟩] else []) := by
      by_cases hcond : ¬ first ∨ maxTimes < 0
      · rw [if_pos hcond]
        refine sequence_ruleRef ?_
        by_cases hmax : maxTimes < 0
        · rw [if_pos hmax]
          exact hid
        · rw [if_neg hmax]
          have hfirst : first = false := by simpa [hmax] using hcond
          exact hgrow.named _ (hlast hfirst)
      · rw [if_neg hcond]
        trivial
    have hbody : Sequence (Named (st.generateSymbolId ruleName).2) .alt (prevRule ++ (if ¬ first ∨ maxTimes < 0 then
        [⟨.ruleRef, if maxTimes < 0 then (st.generateSymbolId ruleName).1 else lastId⟩] else []) ++ [⟨.alt, 0⟩]) :=
      ((hprev.mono hgrow.named).append href).append (sequence_single (by simp) 0)
    have hadd := addRule_spec hgrow.sound (st.generateSymbolId ruleName).1 hbody
    rw [append_assoc] at hadd
    obtain ⟨hgrow', hnamed⟩ := ih false (st.generateSymbolId ruleName).1 hadd.sound
      (hprev.mono fun v hv => hadd.named v (hgrow.named v hv)) fun _ => hadd.named _ hid
    exact ⟨(hgrow.of_made hadd).trans hgrow', fun _ => hnamed (Or.inr rfl)⟩

theorem handleRepetitions_spec {changed : ℕ → Prop} {pos : Text} {pre seg : List Element} {minTimes maxTimes : ℤ} {st : Parser}
    {r : List Element × Parser} (h : Sound st) (hseg : Sequence (Named st) .alt seg)
    (hval : handleRepetitions ruleName pos (pre ++ seg) pre.length minTimes maxTimes st = .ok r) :
    Grows changed st r.2 ∧ ∃ seg', r.1 = pre ++ seg' ∧ Sequence (Named r.2) .alt seg' := by
  unfold handleRepetitions at hval
  split at hval
  · exact absurd hval throwAt_ne_ok
  · obtain rfl := ok.inj hval
    simp only [drop_left, take_left]
    generalize hn : (if maxTimes < 0 then 1 else Int.bmod (maxTimes - minTimes) (2 ^ 32) : ℤ) = nOpt
    obtain ⟨hgrow, hid⟩ : Grows changed st _ ∧ _ :=
      recursiveRules_spec hname maxTimes nOpt.toNat true 0 h hseg (by simp)
    refine ⟨hgrow, ?_⟩
    -- the symbol as often as it has to be there
    have hcopies : ∃ seg', (if minTimes = 0 then pre
        else pre ++ seg ++ (List.replicate (minTimes - 1).toNat seg).flatten) = pre ++ seg' ∧
          Sequence (Named st) .alt seg' := by
      split
      · exact ⟨[], by simp, trivial⟩
      · exact ⟨seg ++ (List.replicate (minTimes - 1).toNat seg).flatten, by rw [append_assoc],
          hseg.append (hseg.replicate _)⟩
    obtain ⟨seg', hseg', hok⟩ := hcopies
    rw [hseg']
    split
    · next hpos =>
      refine ⟨seg' ++ [⟨.ruleRef, _⟩], by rw [append_assoc], (hok.mono hgrow.named).append (sequence_ruleRef ?_)⟩
      exact hid (Or.inl (by omega))
    · exact ⟨seg', rfl, hok.mono hgrow.named⟩

end

/-! ### Items and suffixes -/

/-- The item at the pointer, as `parse_sequence` reads it: the pointer behind it, and the elements so far. -/
def itemAt (group : Text → ℕ → Parser → Except ParseStop (Text × Parser)) (ruleName : Text) (isNested : Bool) (fuel : ℕ)
    (pos : Text) (rule : List Element) (st : Parser) : Option (Except ParseStop (Text × List Element × Parser)) :=
  let space := parseSpace isNested false
  if pos.cur = 34 then some do
    let x ← literalLoop fuel pos.tail rule
    return (space x.1.tail, x.2, st)
  else if pos.cur = 91 then some do
    let pos : Text := pos.tail
    let negated := pos.cur = 94
    let x ← classLoop (if negated then .charNot else .char) rule.length fuel (if negated then pos.tail else pos) rule
    return (space x.1.tail, x.2, st)
  else if isWordChar pos.cur then some do
    let x ← parseName pos
    return (space x.2, rule ++ [⟨.ruleRef, (st.getSymbolId x.1).1⟩], (st.getSymbolId x.1).2)
  else if pos.cur = 40 then some do
    let made := st.generateSymbolId ruleName
    let x ← group (parseSpace true false pos.tail) made.1 made.2
    if x.1.cur ≠ 41 then throwAt "expecting ')' at " x.1
    else return (space x.1.tail, rule ++ [⟨.ruleRef, made.1⟩], x.2)
  else if pos.cur = 46 then some (.ok (space pos.tail, rule ++ [⟨.charAny, 0⟩], st))
  else none

/-- A suffix as it is read: its counts, and the pointer behind it. -/
structure Suffix where
  minTimes : ℤ
  maxTimes : ℤ
  behind : Text
  deriving DecidableEq, Repr

/-- The suffix at the pointer, as `parse_sequence` reads it. -/
def suffixAt (isNested : Bool) (pos : Text) : Option (Except ParseStop Suffix) :=
  let space := parseSpace isNested false
  if pos.cur = 42 then some (.ok ⟨0, -1, space pos.tail⟩)
  else if pos.cur = 43 then some (.ok ⟨1, -1, space pos.tail⟩)
  else if pos.cur = 63 then some (.ok ⟨0, 1, space pos.tail⟩)
  else if pos.cur = 123 then some ((parseCounts isNested pos.tail).map fun r => ⟨r.1, r.2.1, r.2.2⟩)
  else none

section

variable {group : Text → ℕ → Parser → Except ParseStop (Text × Parser)} {ruleName : Text} {isNested : Bool} {pos : Text}

/-- **`parse_sequence`**, one item or one suffix at a time. -/
theorem sequenceLoop_eq (fuel : ℕ) (rule : List Element) (lastSymStart : ℕ) (st : Parser) :
    sequenceLoop group ruleName isNested (fuel + 1) pos rule lastSymStart st =
      (itemAt group ruleName isNested fuel pos rule st).elim
        ((suffixAt isNested pos).elim (.ok (pos, rule, st)) fun read => do
          let s ← read
          let r ← handleRepetitions ruleName s.behind rule lastSymStart s.minTimes s.maxTimes st
          sequenceLoop group ruleName isNested fuel s.behind r.1 lastSymStart r.2)
        fun read => (do
          let x ← read
          sequenceLoop group ruleName isNested fuel x.1 x.2.1 rule.length x.2.2) := by
  rw [sequenceLoop, itemAt]
  by_cases hzero : pos.cur = 0
  · rw [suffixAt]
    simp only [hzero]
    rfl
  rw [if_neg hzero]
  by_cases hliteral : pos.cur = 34
  · rw [if_pos hliteral, if_pos hliteral, Option.elim_some, bind_assoc]
    rfl
  rw [if_neg hliteral, if_neg hliteral]
  by_cases hclass : pos.cur = 91
  · rw [if_pos hclass, if_pos hclass, Option.elim_some, bind_assoc]
    rfl
  rw [if_neg hclass, if_neg hclass]
  by_cases hword : isWordChar pos.cur = true
  · rw [if_pos hword, if_pos hword, Option.elim_some, bind_assoc]
    rfl
  rw [if_neg hword, if_neg hword]
  by_cases hgrouping : pos.cur = 40
  · rw [if_pos hgrouping, if_pos hgrouping, Option.elim_some, bind_assoc]
    refine congrArg _ (funext fun x => ?_)
    show (if x.1.cur ≠ 41 then _ else _) = (if x.1.cur ≠ 41 then _ else _) >>= _
    by_cases hclose : x.1.cur ≠ 41
    · rw [if_pos hclose, if_pos hclose]
      rfl
    · rw [if_neg hclose, if_neg hclose]
      rfl
  rw [if_neg hgrouping, if_neg hgrouping]
  by_cases hany : pos.cur = 46
  · rw [if_pos hany, if_pos hany]
    rfl
  rw [if_neg hany, if_neg hany, Option.elim_none, suffixAt]
  by_cases hstar : pos.cur = 42
  · rw [if_pos hstar, if_pos hstar]
    rfl
  rw [if_neg hstar, if_neg hstar]
  by_cases hplus : pos.cur = 43
  · rw [if_pos hplus, if_pos hplus]
    rfl
  rw [if_neg hplus, if_neg hplus]
  by_cases hquestion : pos.cur = 63
  · rw [if_pos hquestion, if_pos hquestion]
    rfl
  rw [if_neg hquestion, if_neg hquestion]
  by_cases hbrace : pos.cur = 123
  · rw [if_pos hbrace, if_pos hbrace, Option.elim_some]
    cases parseCounts isNested pos.tail with
    | error e => rfl
    | ok counts => rfl
  rw [if_neg hbrace, if_neg hbrace]
  rfl

theorem itemAt_of_suffixAt {read : Except ParseStop Suffix} (h : suffixAt isNested pos = some read) (fuel : ℕ)
    (rule : List Element) (st : Parser) : itemAt group ruleName isNested fuel pos rule st = none := by
  have hcur : pos.cur = 42 ∨ pos.cur = 43 ∨ pos.cur = 63 ∨ pos.cur = 123 := by
    by_contra hnot
    push Not at hnot
    rw [suffixAt, if_neg hnot.1, if_neg hnot.2.1, if_neg hnot.2.2.1, if_neg hnot.2.2.2] at h
    cases h
  rw [itemAt]
  rcases hcur with hcur | hcur | hcur | hcur
  all_goals
    simp only [hcur]
    rfl

end

/-! ### Sequences, alternates and rules -/

theorem parseName_spec {src : Text} {r : Text × Text} (h : parseName src = .ok r) : 95 ∉ r.1 := by
  unfold parseName at h
  split at h
  · obtain rfl := ok.inj h
    intro h95
    have hword := all_takeWhile (p := isWordChar) (l := src)
    exact absurd (all_eq_true.mp hword 95 h95) (by decide)
  · exact absurd h throwAt_ne_ok

section

variable {ruleName : Text} (hname : 95 ∉ ruleName) {group : Text → ℕ → Parser → Except ParseStop (Text × Parser)}
  (hgroup : ∀ src id st r, group src id st = .ok r → Sound st → Grows (· = id) st r.2) {changed : ℕ → Prop}

include hname hgroup

/-- **An item in `parse_sequence`**: its elements come last. -/
theorem itemAt_spec {isNested : Bool} {fuel : ℕ} {pos : Text} {rule : List Element} {st : Parser}
    {x : Text × List Element × Parser} (h : Sound st)
    (hval : itemAt group ruleName isNested fuel pos rule st = some (.ok x)) :
    Grows changed st x.2.2 ∧ ∃ seg, x.2.1 = rule ++ seg ∧ Body (Named x.2.2) seg := by
  rw [itemAt] at hval
  by_cases hliteral : pos.cur = 34
  · rw [if_pos hliteral] at hval
    obtain ⟨y, hy, hval⟩ := bind_ok (Option.some.inj hval)
    obtain rfl := ok.inj hval
    exact ⟨h.grows, literalLoop_spec hy (Named st)⟩
  rw [if_neg hliteral] at hval
  by_cases hclass : pos.cur = 91
  · rw [if_pos hclass] at hval
    obtain ⟨y, hy, hval⟩ := bind_ok (Option.some.inj hval)
    obtain rfl := ok.inj hval
    have hstart : ∀ negated : Prop, [Decidable negated] → (if negated then Gretype.charNot else .char) = .char ∨
        (if negated then Gretype.charNot else .char) = .charNot := by
      intro negated _
      split
      · exact Or.inr rfl
      · exact Or.inl rfl
    have hnil : ClassBody (Named st) [] := ⟨Body.nil, fun hne => absurd rfl hne⟩
    exact ⟨h.grows, classLoop_spec (hstart _) rule (by rw [append_nil]; exact hy) hnil⟩
  rw [if_neg hclass] at hval
  by_cases hword : isWordChar pos.cur = true
  · rw [if_pos hword] at hval
    obtain ⟨y, hy, hval⟩ := bind_ok (Option.some.inj hval)
    obtain rfl := ok.inj hval
    obtain ⟨hgrow, hid⟩ : Grows changed st _ ∧ _ := getSymbolId_spec h (parseName_spec hy)
    exact ⟨hgrow, _, rfl, body_ruleRef hid⟩
  rw [if_neg hword] at hval
  by_cases hgrouping : pos.cur = 40
  · rw [if_pos hgrouping] at hval
    obtain ⟨hgrow, hid⟩ : Grows changed st _ ∧ _ := generateSymbolId_spec h hname
    obtain ⟨y, hy, hval⟩ := bind_ok (Option.some.inj hval)
    have hgrow' := hgroup _ _ _ _ hy hgrow.sound
    by_cases hclose : y.1.cur ≠ 41
    · rw [if_pos hclose] at hval
      exact absurd hval throwAt_ne_ok
    · rw [if_neg hclose] at hval
      obtain rfl := ok.inj hval
      exact ⟨hgrow.of_made hgrow', _, rfl, body_ruleRef (hgrow'.named _ hid)⟩
  rw [if_neg hgrouping] at hval
  by_cases hany : pos.cur = 46
  · rw [if_pos hany] at hval
    obtain rfl := ok.inj (Option.some.inj hval)
    exact ⟨h.grows, _, rfl, body_single (by simp) 0⟩
  · rw [if_neg hany] at hval
    cases hval

/-- **The loop of `parse_sequence`**: what is there when the last symbol starts, and the last symbol, are
sequences. -/
theorem sequenceLoop_spec {isNested : Bool} {fuel : ℕ} {pos : Text} {pre seg : List Element} {st : Parser}
    {r : Text × List Element × Parser} (h : Sound st) (hpre : Sequence (Named st) .alt pre)
    (hseg : Sequence (Named st) .alt seg)
    (hval : sequenceLoop group ruleName isNested fuel pos (pre ++ seg) pre.length st = .ok r) :
    Grows changed st r.2.2 ∧ Sequence (Named r.2.2) .alt r.2.1 := by
  induction fuel generalizing pos pre seg st with
  | zero => cases hval
  | succ fuel ih =>
    have hrule := hpre.append hseg
    rw [sequenceLoop_eq] at hval
    cases hitem : itemAt group ruleName isNested fuel pos (pre ++ seg) st with
    | some read =>
      -- a new symbol behind the old ones
      rw [hitem] at hval
      obtain ⟨x, rfl, hrest⟩ := bind_ok hval
      obtain ⟨hgrow, seg', hseg', hbody⟩ : Grows changed st _ ∧ _ := itemAt_spec hname hgroup h hitem
      rw [hseg'] at hrest
      obtain ⟨hgrow', hres⟩ := ih hgrow.sound (hrule.mono hgrow.named) hbody.sequence hrest
      exact ⟨hgrow.trans hgrow', hres⟩
    | none =>
      rw [hitem] at hval
      cases hsuffix : suffixAt isNested pos with
      | some read =>
        -- a repetition of the last symbol
        rw [hsuffix] at hval
        obtain ⟨s, -, hval⟩ := bind_ok hval
        obtain ⟨x, hx, hval⟩ := bind_ok hval
        obtain ⟨hgrow, seg', hseg', hok⟩ : Grows changed st _ ∧ _ := handleRepetitions_spec hname h hseg hx
        rw [hseg'] at hval
        obtain ⟨hgrow', hres⟩ := ih hgrow.sound (hpre.mono hgrow.named) hok hval
        exact ⟨hgrow.trans hgrow', hres⟩
      | none =>
        rw [hsuffix] at hval
        obtain rfl := ok.inj hval
        exact ⟨h.grows, hrule⟩

end

theorem alternatesLoop_spec {changed : ℕ → Prop}
    {sequence : Text → List Element → Parser → Except ParseStop (Text × List Element × Parser)}
    (hsequence : ∀ pos rule st r, sequence pos rule st = .ok r → Sound st → Sequence (Named st) .alt rule →
      Grows changed st r.2.2 ∧ Sequence (Named r.2.2) .alt r.2.1)
    {fuel : ℕ} {pos : Text} {rule : List Element} {st : Parser} {r : Text × List Element × Parser} (h : Sound st)
    (hrule : Sequence (Named st) .alt rule) (hval : alternatesLoop sequence fuel pos rule st = .ok r) :
    Grows changed st r.2.2 ∧ Sequence (Named r.2.2) .alt r.2.1 := by
  induction fuel generalizing pos rule st with
  | zero => cases hval
  | succ fuel ih =>
    rw [alternatesLoop] at hval
    split at hval
    · obtain ⟨x, hx, hval⟩ := bind_ok hval
      obtain ⟨hgrow, hok⟩ := hsequence _ _ _ _ hx h (hrule.append (sequence_single (by simp) 0))
      obtain ⟨hgrow', hres⟩ := ih hgrow.sound hok hval
      exact ⟨hgrow.trans hgrow', hres⟩
    · obtain rfl := ok.inj hval
      exact ⟨h.grows, hrule⟩

/-- **`parse_alternates`** keeps the invariant; the induction is on the depth of the groups. -/
theorem parseAlternates_spec {ruleName : Text} (hname : 95 ∉ ruleName) {fuel : ℕ} {isNested : Bool} {src : Text}
    {ruleId : ℕ} {st : Parser} {r : Text × Parser} (h : Sound st)
    (hval : parseAlternates ruleName fuel isNested src ruleId st = .ok r) : Grows (· = ruleId) st r.2 := by
  induction fuel generalizing isNested src ruleId st r with
  | zero => cases hval
  | succ fuel ih =>
    rw [parseAlternates] at hval
    have hsequence : ∀ pos rule st r, sequenceLoop (parseAlternates ruleName fuel true) ruleName isNested fuel pos rule
        rule.length st = .ok r → Sound st → Sequence (Named st) .alt rule →
        Grows (· = ruleId) st r.2.2 ∧ Sequence (Named r.2.2) .alt r.2.1 := by
      intro pos rule st r hr hst hrule
      have hgroup : ∀ src id st r, parseAlternates ruleName fuel true src id st = .ok r → Sound st →
          Grows (· = id) st r.2 := fun src id st r hr hst => ih hst hr
      have hr' : sequenceLoop (parseAlternates ruleName fuel true) ruleName isNested fuel pos (rule ++ []) rule.length st
          = .ok r := by
        rw [append_nil]
        exact hr
      have hnil : Sequence (Named st) .alt [] := trivial
      exact sequenceLoop_spec hname hgroup hst hrule hnil hr'
    obtain ⟨x, hx, hval⟩ := bind_ok hval
    obtain ⟨hgrow, hrule⟩ := hsequence _ _ _ _ hx h trivial
    obtain ⟨y, hy, hval⟩ := bind_ok hval
    obtain ⟨hgrow', hrule'⟩ := alternatesLoop_spec hsequence hgrow.sound hrule hy
    obtain rfl := ok.inj hval
    exact (hgrow.trans hgrow').trans (addRule_spec hgrow'.sound ruleId hrule')

/-- An id with a name of the text. -/
def Defined (st : Parser) (id : ℕ) : Prop := ∃ k, 95 ∉ k ∧ (k, id) ∈ st.symbolIds

/-- **`parse_rule`** sets a rule with a name of the text. -/
theorem parseRule_spec {fuel : ℕ} {src : Text} {st : Parser} {r : Text × Parser} (h : Sound st)
    (hval : parseRule fuel src st = .ok r) : Grows (Defined r.2) st r.2 := by
  unfold parseRule at hval
  obtain ⟨x, hx, hval⟩ := bind_ok hval
  have hname := parseName_spec hx
  obtain ⟨hgrow, -⟩ : Grows (Defined r.2) st _ ∧ _ := getSymbolId_spec h hname
  dsimp only at hval
  split at hval
  · exact absurd hval throwAt_ne_ok
  · obtain ⟨⟨pos, st'⟩, hy, hval⟩ := bind_ok hval
    have hgrow' := parseAlternates_spec hname hgrow.sound hy
    have hres : r.2 = st' := by
      dsimp only at hval
      split at hval
      · obtain rfl := ok.inj hval
        rfl
      split at hval
      · obtain rfl := ok.inj hval
        rfl
      split at hval
      · exact absurd hval throwAt_ne_ok
      · obtain rfl := ok.inj hval
        rfl
    refine hgrow.trans ?_
    rw [hres]
    refine hgrow'.mono fun id hid => ?_
    rw [hid]
    exact ⟨x.1, hname, hgrow'.names _ (getSymbolId_mem st x.1)⟩

theorem rulesLoop_spec {fuel : ℕ} {pos : Text} {st st' : Parser} (h : Sound st)
    (hval : rulesLoop fuel pos st = .ok st') : Grows (Defined st') st st' := by
  induction fuel generalizing pos st with
  | zero => cases hval
  | succ fuel ih =>
    rw [rulesLoop] at hval
    split at hval
    · obtain rfl := ok.inj hval
      exact h.grows
    · obtain ⟨x, hx, hval⟩ := bind_ok hval
      have hgrow := parseRule_spec h hx
      have hrest := ih hgrow.sound hval
      refine (hgrow.mono fun id hid => ?_).trans hrest
      obtain ⟨k, hk, hmem⟩ := hid
      exact ⟨k, hk, hrest.names _ hmem⟩

/-! ### The last check -/

theorem forM_ok {α ε : Type} {f : α → Except ε Unit} {l : List α} {u : Unit} (h : l.forM f = .ok u) :
    ∀ a ∈ l, f a = .ok () := by
  induction l with
  | nil => intro a ha; cases ha
  | cons x l ih =>
    obtain ⟨v, hv, hrest⟩ : ∃ v, f x = .ok v ∧ l.forM f = .ok u := bind_ok h
    intro a ha
    rcases mem_cons.mp ha with rfl | ha
    · exact hv
    · exact ih hrest a ha

theorem validateElement_ok {st : Parser} {e : Element} (h : validateElement st e = .ok ())
    (htype : e.type = .ruleRef) (hnamed : Named st e.value) : e.value < st.rules.length := by
  by_contra hlt
  obtain ⟨k, hk⟩ := hnamed
  rw [validateElement, if_pos ⟨htype, Or.inl (not_lt.mp hlt)⟩] at h
  split at h
  · exact absurd h throwAt_ne_ok
  · next hnone => exact absurd (find?_eq_none.mp hnone _ hk) (by simp)

theorem parse_wellFormed {fuel : ℕ} {src : Text} {st : Parser} (h : parse fuel src = .ok st) :
    WellFormed st.rules := by
  obtain ⟨st', hst', h⟩ := bind_ok h
  obtain ⟨u, hvalid, h⟩ := bind_ok h
  obtain rfl := ok.inj h
  have hsound := (rulesLoop_spec Sound.init hst').sound
  intro rule hrule
  have hcheck := forM_ok hvalid rule hrule
  unfold validateRule at hcheck
  split at hcheck
  · exact absurd hcheck throwAt_ne_ok
  · next hne =>
    obtain ⟨body, rfl, hseq⟩ := (hsound.rules rule hrule).resolve_left hne
    refine hseq.wellFormedFrom fun e he htype => ?_
    exact validateElement_ok (forM_ok hcheck e (mem_append_left _ he)) htype (hseq.ref_named he htype)

/-! ### No assertion fails -/

/-- No assertion fails, and `P` holds of what is returned. -/
def Safe {α : Type} (P : α → Prop) (x : Except Stop α) : Prop := x ≠ .error .abort ∧ ∀ a, x = .ok a → P a

section

variable {α β : Type} {P Q : α → Prop}

theorem safe_ok {a : α} (h : P a) : Safe P (.ok a) :=
  ⟨by simp, fun a' ha' => ok.inj ha' ▸ h⟩

theorem safe_outOfFuel : Safe P (.error .outOfFuel) := ⟨by simp, fun a ha => nomatch ha⟩

theorem Safe.mono {x : Except Stop α} (h : Safe P x) (hsub : ∀ a, P a → Q a) : Safe Q x :=
  ⟨h.1, fun a ha => hsub a (h.2 a ha)⟩

theorem Safe.bind {R : β → Prop} {x : Except Stop α} {f : α → Except Stop β} (h : Safe P x)
    (hf : ∀ a, P a → Safe R (f a)) : Safe R (x >>= f) := by
  cases x with
  | error e =>
    refine ⟨fun he => h.1 ?_, fun b hb => nomatch hb⟩
    rw [show e = .abort from error.inj he]
  | ok a => exact hf a (h.2 a rfl)

theorem safe_foldlM {f : α → β → Except Stop α} {l : List β} {a : α} (ha : P a)
    (h : ∀ b ∈ l, ∀ a, P a → Safe P (f a b)) : Safe P (l.foldlM f a) := by
  induction l generalizing a with
  | nil => exact safe_ok ha
  | cons b l ih =>
    rw [foldlM_cons]
    exact (h b mem_cons_self a ha).bind fun a' ha' => ih ha' fun c hc => h c (mem_cons_of_mem b hc)

end

theorem rejectAll_safe {f : Stack → List Candidate → Except Stop (List Candidate)} {l : List Stack} (hne : l ≠ [])
    (h : ∀ s ∈ l, ∀ toks, Safe (fun _ => True) (f s toks)) (toks : List Candidate) :
    Safe (fun _ => True) (rejectAll f l toks) := by
  cases l with
  | nil => exact absurd rfl hne
  | cons u us =>
    rw [rejectAll]
    split
    · exact safe_ok trivial
    · refine (h u mem_cons_self _).bind fun rejects _ => safe_foldlM trivial fun v hv _ _ => ?_
      exact h v (mem_cons_of_mem u hv) _

section

variable {rules : Rules} (hwf : WellFormed rules) {s : Stack}

include hwf

theorem advanceStack_safe (fuel : ℕ) (hs : Valid rules s) {news : List Stack} (hnews : Stacks rules news) :
    Safe (fun l => Stacks rules l ∧ l ≠ []) (advanceStack rules fuel s news) := by
  induction fuel generalizing s news with
  | zero => exact safe_outOfFuel
  | succ fuel ih =>
    have hadd : Ready rules s → Stacks rules (addNew s news) ∧ addNew s news ≠ [] := by
      intro hready
      refine ⟨fun t ht => ?_, ne_nil_of_mem ((mem_addNew).mpr (Or.inr rfl))⟩
      rcases (mem_addNew).mp ht with ht | rfl
      · exact hnews t ht
      · exact ⟨hs, hready⟩
    cases s with
    | nil => exact safe_ok (hadd trivial)
    | cons p rest =>
      rcases hs.top with ⟨r, href⟩ | ⟨cls, q, hcls⟩
      · rw [advanceStack, href.type]
        have hvalid : ∀ u ∈ expansions rules p rest, Valid rules u := fun u hu =>
          (Expands.valid hwf hs ⟨p, rest, rfl, href.type, hu⟩).1
        -- there is a first alternate
        cases hexp : expansions rules p rest with
        | nil =>
          have hlen : (expansions rules p rest).length ≠ 0 := by simp [expansions, altStarts]
          rw [hexp] at hlen
          exact absurd rfl hlen
        | cons u us =>
          rw [hexp] at hvalid
          show Safe _ ((u :: us).foldlM _ news)
          rw [foldlM_cons]
          refine (ih (hvalid u mem_cons_self) hnews).bind fun l hl => safe_foldlM hl fun v hv l hl => ?_
          exact ih (hvalid v (mem_cons_of_mem u hv)) hl.1
      · rw [advanceStack]
        rcases hcls.type with h | h | h
        all_goals
          rw [h]
          exact safe_ok (hadd hcls.ready)

theorem accept_safe (fuel : ℕ) {g : Grammar} (hrules : g.rules = rules) (hg : Stacks rules g.stackSet) (chr : ℕ) :
    Safe (fun g' => g'.rules = rules ∧ Stacks rules g'.stackSet) (accept fuel g chr) := by
  have hfold : Safe (Stacks rules) (g.stackSet.foldlM (acceptStack fuel g.rules chr) []) := by
    refine safe_foldlM (fun t ht => absurd ht not_mem_nil) fun s hs news hnews => ?_
    rw [hrules]
    cases s with
    | nil => exact safe_ok hnews
    | cons p rest =>
      obtain ⟨hvalid, hready⟩ := hg _ hs
      rcases hvalid.top with ⟨r, href⟩ | ⟨cls, q, hcls⟩
      · exact absurd href.type hready
      · rw [acceptStack, hcls.matches_]
        show Safe _ (if cls.mem chr = true then _ else _)
        split
        · exact (advanceStack_safe hwf fuel (hvalid.tail.push hcls.next) hnews).mono fun l hl => hl.1
        · exact safe_ok hnews
  exact hfold.bind fun l hl => safe_ok ⟨hrules, hl⟩

theorem rejectForStack_safe (fuel : ℕ) (hs : Valid rules s) (hready : Ready rules s) (toks : List Candidate) :
    Safe (fun _ => True) (rejectForStack rules fuel s toks) := by
  induction fuel generalizing s toks with
  | zero => exact safe_outOfFuel
  | succ fuel ih =>
    cases s with
    | nil => exact safe_ok trivial
    | cons p rest =>
      rcases hs.top with ⟨r, href⟩ | ⟨cls, q, hcls⟩
      · exact absurd href.type hready
      · obtain ⟨rejects, next, hsort, -, -⟩ := sortCandidates_spec hcls toks [] []
        rw [rejectForStack, hsort, hcls.matches_]
        refine (advanceStack_safe hwf fuel (hs.tail.push hcls.next) fun t ht => absurd ht not_mem_nil).bind
          fun l hl => ?_
        have hall := rejectAll_safe hl.2 (fun u hu toks => ih (hl.1 u hu).1 (hl.1 u hu).2 toks) ([] ++ next)
        exact hall.bind fun _ _ => safe_ok trivial

theorem initialStacks_safe (fuel start : ℕ) : Safe (Stacks rules) (initialStacks fuel rules start) := by
  refine safe_foldlM (fun t ht => absurd ht not_mem_nil) fun i hi news hnews => ?_
  have hvalid : Valid rules (push rules ⟨start, i⟩ []) := by
    by_cases hstart : start < rules.length
    · exact valid_nil.push (hwf.place hstart hi)
    · have hnil : rules.getD start [] = [] := getD_eq_default _ _ (not_lt.mp hstart)
      have hpush : push rules ⟨start, i⟩ [] = [] := by
        rw [push, Rules.elemAt, Rules.elemsAt, hnil, drop_nil]
        rfl
      rw [hpush]
      exact valid_nil
  exact (advanceStack_safe hwf fuel hvalid hnews).mono fun l hl => hl.1

end

theorem wellFormedFrom_copyRule {nRules : ℕ} {prev : Gretype} {rule : List Element}
    (h : wellFormedFrom nRules prev rule = true) : wellFormedFrom nRules prev (copyRule rule) = true := by
  induction rule generalizing prev with
  | nil => simp [wellFormedFrom] at h
  | cons e es ih =>
    by_cases hend : e.type = .endOfRule
    · simp [copyRule, hend, wellFormedFrom]
    · have hcopy : copyRule (e :: es) = e :: copyRule es := by simp [copyRule, hend]
      obtain ⟨hfollow, href, hrest⟩ := wellFormedFrom_cons h hend
      rw [hcopy, wellFormedFrom, if_neg hend, hfollow, ih hrest]
      by_cases htype : e.type = .ruleRef
      · simp [htype, href htype]
      · simp [htype]

theorem WellFormed.copyRule {rules : Rules} (h : WellFormed rules) : WellFormed (rules.map Grammar.copyRule) := by
  intro rule hrule
  obtain ⟨rule', hrule', rfl⟩ := mem_map.mp hrule
  rw [length_map]
  exact wellFormedFrom_copyRule (h rule' hrule')

theorem initImpl_safe {rules : Rules} (h : WellFormed rules) (fuel start : ℕ) :
    Safe (fun g => ∀ g₀, g = some g₀ → g₀.rules = rules.map copyRule ∧ Stacks (rules.map copyRule) g₀.stackSet)
      (initImpl fuel rules start) := by
  obtain ⟨b, hval, -⟩ := isLeftRecursive_spec h.copyRule.refsBelow fun r x h => h.lt
  simp only [initImpl, hval]
  show Safe _ (if b = true then _ else _)
  split
  · exact safe_ok fun g₀ hg₀ => by cases hg₀
  · refine (initialStacks_safe h.copyRule fuel start).bind fun l hl => safe_ok fun g₀ hg₀ => ?_
    obtain rfl := Option.some.inj hg₀
    exact ⟨rfl, hl⟩

/-- **Parsed grammars are safe.**  When `parse` returns true the rules are well formed, and for a grammar that is
made of them neither `accept`, over any code points from the initial stacks, nor `reject_candidates` on the stacks
that are left reaches an assertion. -/
theorem parse_never_aborts (fuel : ℕ) (src : Text) (st : Parser) (h : parse fuel src = .ok st) :
    WellFormed st.rules ∧ ∀ fuel' start, initImpl fuel' st.rules start ≠ .error .abort ∧
      ∀ g₀, initImpl fuel' st.rules start = .ok (some g₀) → ∀ w : List ℕ, w.foldlM (accept fuel') g₀ ≠ .error .abort ∧
        ∀ g, w.foldlM (accept fuel') g₀ = .ok g → g.stackSet ≠ [] →
          ∀ toks, rejectCandidates g.rules fuel' g.stackSet toks ≠ .error .abort := by
  have hwf := parse_wellFormed h
  refine ⟨hwf, fun fuel' start => ?_⟩
  obtain ⟨hno, hinit⟩ := initImpl_safe hwf fuel' start
  refine ⟨hno, fun g₀ hg₀ w => ?_⟩
  have hsafe : Safe (fun g => g.rules = st.rules.map copyRule ∧ Stacks (st.rules.map copyRule) g.stackSet)
      (w.foldlM (accept fuel') g₀) :=
    safe_foldlM (hinit _ hg₀ g₀ rfl) fun c _ g hg => accept_safe hwf.copyRule fuel' hg.1 hg.2 c
  obtain ⟨hno', hrun⟩ := hsafe
  refine ⟨hno', fun g hg hne toks => ?_⟩
  obtain ⟨hrules, hstacks⟩ := hrun g hg
  rw [hrules]
  exact (rejectAll_safe hne (fun s hs toks =>
    rejectForStack_safe hwf.copyRule fuel' (hstacks s hs).1 (hstacks s hs).2 toks) toks).1

/-- The text `root ::= "a"`. -/
def textA : Text := [114, 111, 111, 116, 32, 58, 58, 61, 32, 34, 97, 34]

/-- The text `root ::= "a" root | [b-d]`, and what is parsed. -/
def recursiveText : Text := textA ++ [32, 114, 111, 111, 116, 32, 124, 32, 91, 98, 45, 100, 93]

def recursiveState : Parser := ⟨[([114, 111, 111, 116], 0)], [[⟨.char, 97⟩, ⟨.ruleRef, 0⟩, ⟨.alt, 0⟩, ⟨.char, 98⟩,
  ⟨.charRngUpper, 100⟩, ⟨.endOfRule, 0⟩]]⟩

theorem parse_never_aborts_recursive : parse 40 recursiveText = .ok recursiveState ∧ WellFormed recursiveState.rules ∧
    ∃ g₀, initImpl 10 recursiveState.rules 0 = .ok (some g₀) ∧
      ∀ w : List ℕ, w.foldlM (accept 10) g₀ ≠ .error .abort ∧
        ∀ g, w.foldlM (accept 10) g₀ = .ok g → g.stackSet ≠ [] →
          ∀ toks, rejectCandidates g.rules 10 g.stackSet toks ≠ .error .abort := by
  have hparse : parse 40 recursiveText = .ok recursiveState := by decide
  have hinit : initImpl 10 recursiveState.rules 0 =
      .ok (some ⟨recursiveState.rules, [[⟨0, 0⟩], [⟨0, 3⟩]], ⟨0, 0⟩, false⟩) := by decide
  obtain ⟨hwf, hsafe⟩ := parse_never_aborts 40 recursiveText _ hparse
  exact ⟨hparse, hwf, _, hinit, (hsafe 10 0).2 _ hinit⟩

end Grammar
