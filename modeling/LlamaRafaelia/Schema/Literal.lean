import LlamaRafaelia.Grammar.Language
import LlamaRafaelia.Grammar.Parser
import LlamaRafaelia.Json.Value
import LlamaRafaelia.Lib.Utf8

/-!
# Schemas: the literal of a constant

The schema converter writes a constant as a literal (`format_literal`), with a backslash before line ends and
quotation marks, but not before a backslash, which the parser of grammars takes for the start of an escape.

* `literalLoop_plain` - **a literal without backslashes is read as the code points of its text**;
* `literalLoop_count` - **a literal with a backslash is not**: an escape takes two code points or more for one;
* `constant_exact_iff` - **the literal of a value is exact when no string of the value needs an escape**.
-/

namespace Schema

open List

open Grammar Utf8

/-! ### The converter -/

def utf8 (s : List Char) : Text := s.flatMap String.utf8EncodeChar

/-- `GRAMMAR_LITERAL_ESCAPE_RE` and `GRAMMAR_LITERAL_ESCAPES`, for one character. -/
def escapeLiteral (c : UInt8) : Text :=
  if c = 13 then [92, 114] else if c = 10 then [92, 110] else if c = 34 then [92, 34] else [c]

/-- `format_literal`. -/
def formatLiteral (literal : Text) : Text := 34 :: (literal.flatMap escapeLiteral ++ [34])

/-- `SchemaConverter::_generate_constant_rule`. -/
def generateConstantRule (value : Json) : Text := formatLiteral (utf8 (value.dump false))

/-! ### Characters -/

def literalBytes (c : Char) : Text := (String.utf8EncodeChar c).flatMap escapeLiteral

theorem decodeCharTail_cons {n : ℕ} {b : UInt8} (hb : 128 ≤ b) (pos : Text) (value : ℕ) :
    decodeCharTail (n + 1) (b :: pos) value = decodeCharTail n pos ((value * 64 + b.toNat % 64) % 2 ^ 32) := by
  have hne : b ≠ 0 := by
    rintro rfl
    exact absurd hb (by decide)
  show (if b = 0 then _ else _) = _
  rw [if_neg hne]
  rfl

theorem decodeChar_cons {b : UInt8} {len : ℕ} (rest : Text)
    (hlen : [1, 1, 1, 1, 1, 1, 1, 1, 1, 1, 1, 1, 2, 2, 3, 4].getD (b.toNat / 16) 0 = len) :
    decodeChar (b :: rest) = decodeCharTail (len - 1) rest (b.toNat % 2 ^ (8 - len)) := by
  rw [decodeChar]
  show decodeCharTail ([1, 1, 1, 1, 1, 1, 1, 1, 1, 1, 1, 1, 2, 2, 3, 4].getD (b.toNat / 16) 0 - 1) rest _ = _
  rw [hlen]
  show decodeCharTail _ _ (b.toNat % 2 ^ (8 - [1, 1, 1, 1, 1, 1, 1, 1, 1, 1, 1, 1, 2, 2, 3, 4].getD (b.toNat / 16) 0)) = _
  rw [hlen]

theorem decodeChar_utf8 (c : Char) (rest : Text) : decodeChar (String.utf8EncodeChar c ++ rest) = (c.toNat, rest) := by
  have hval : c.val.toNat = c.toNat := rfl
  have hmax : c.toNat < 0x110000 := by
    rcases c.valid with h | h
    · exact lt_trans h (by decide)
    · exact h.2
  rw [String.utf8EncodeChar]
  rw [hval]
  split_ifs with h1 h2 h3
  · have hb := toNat_byte (n := c.toNat) (by omega)
    have hlen : [1, 1, 1, 1, 1, 1, 1, 1, 1, 1, 1, 1, 2, 2, 3, 4].getD ((UInt8.ofNat c.toNat).toNat / 16) 0 = 1 := by
      have hlt : (UInt8.ofNat c.toNat).toNat / 16 < 8 := by omega
      generalize (UInt8.ofNat c.toNat).toNat / 16 = k at hlt
      revert k
      decide
    rw [singleton_append, decodeChar_cons rest hlen, hb]
    show ((c.toNat % 2 ^ 7, rest) : ℕ × Text) = _
    rw [Nat.mod_eq_of_lt (by omega)]
  · have hb := toNat_byte (n := c.toNat / 64 % 32 + 0xc0) (by omega)
    have hlen : [1, 1, 1, 1, 1, 1, 1, 1, 1, 1, 1, 1, 2, 2, 3, 4].getD
        ((UInt8.ofNat (c.toNat / 64 % 32 + 0xc0)).toNat / 16) 0 = 2 := by
      have hk : (UInt8.ofNat (c.toNat / 64 % 32 + 0xc0)).toNat / 16 = 12 ∨
          (UInt8.ofNat (c.toNat / 64 % 32 + 0xc0)).toNat / 16 = 13 := by omega
      rcases hk with hk | hk <;> rw [hk] <;> rfl
    rw [cons_append, decodeChar_cons _ hlen, cons_append, nil_append, hb]
    rw [decodeCharTail_cons (le_byte (by omega) (by omega)), toNat_byte (by omega)]
    simp only [decodeCharTail, Prod.mk.injEq, and_true]
    omega
  · have hb := toNat_byte (n := c.toNat / 4096 % 16 + 0xe0) (by omega)
    have hlen : [1, 1, 1, 1, 1, 1, 1, 1, 1, 1, 1, 1, 2, 2, 3, 4].getD
        ((UInt8.ofNat (c.toNat / 4096 % 16 + 0xe0)).toNat / 16) 0 = 3 := by
      have hk : (UInt8.ofNat (c.toNat / 4096 % 16 + 0xe0)).toNat / 16 = 14 := by omega
      rw [hk]
      rfl
    rw [cons_append, decodeChar_cons _ hlen, cons_append, cons_append, nil_append, hb,
      decodeCharTail_cons (le_byte (by omega) (by omega)), decodeCharTail_cons (le_byte (by omega) (by omega)),
      toNat_byte (by omega), toNat_byte (by omega)]
    simp only [decodeCharTail, Prod.mk.injEq, and_true]
    omega
  · have hb := toNat_byte (n := c.toNat / 262144 % 8 + 0xf0) (by omega)
    have hlen : [1, 1, 1, 1, 1, 1, 1, 1, 1, 1, 1, 1, 2, 2, 3, 4].getD
        ((UInt8.ofNat (c.toNat / 262144 % 8 + 0xf0)).toNat / 16) 0 = 4 := by
      have hk : (UInt8.ofNat (c.toNat / 262144 % 8 + 0xf0)).toNat / 16 = 15 := by omega
      rw [hk]
      rfl
    rw [cons_append, decodeChar_cons _ hlen, cons_append, cons_append, cons_append, nil_append,
      hb, decodeCharTail_cons (le_byte (by omega) (by omega)), decodeCharTail_cons (le_byte (by omega) (by omega)),
      decodeCharTail_cons (le_byte (by omega) (by omega)),
      toNat_byte (by omega), toNat_byte (by omega), toNat_byte (by omega)]
    simp only [decodeCharTail, Prod.mk.injEq, and_true]
    omega

theorem flatMap_escapeLiteral {l : Text} (h : ∀ b ∈ l, b ≠ 13 ∧ b ≠ 10 ∧ b ≠ 34) : l.flatMap escapeLiteral = l := by
  induction l with
  | nil => rfl
  | cons b l ih =>
    obtain ⟨h1, h2, h3⟩ := h b (mem_cons_self ..)
    rw [flatMap_cons, ih fun a ha => h a (mem_cons_of_mem _ ha), escapeLiteral, if_neg h1, if_neg h2,
      if_neg h3, singleton_append]

theorem ofNat_toNat_eq {c : Char} (hc : c.toNat < 128) {n : ℕ} (hn : n < 128) (h : UInt8.ofNat c.toNat = UInt8.ofNat n) :
    c.toNat = n := by
  have heq := congrArg UInt8.toNat h
  rwa [toNat_byte (by omega), toNat_byte (by omega)] at heq

theorem literalBytes_plain {c : Char} (hr : c ≠ '\r') (hn : c ≠ '\n') (hq : c ≠ '"') :
    literalBytes c = String.utf8EncodeChar c := by
  refine flatMap_escapeLiteral fun b hb => ?_
  rcases encodeChar_cases c with ⟨hlt, henc⟩ | ⟨-, -, hall⟩
  · rw [henc, mem_singleton] at hb
    subst hb
    exact ⟨fun h => hr (Char.toNat_inj.mp (ofNat_toNat_eq hlt (n := 13) (by decide) h)),
      fun h => hn (Char.toNat_inj.mp (ofNat_toNat_eq hlt (n := 10) (by decide) h)),
      fun h => hq (Char.toNat_inj.mp (ofNat_toNat_eq hlt (n := 34) (by decide) h))⟩
  · have h128 := hall b hb
    refine ⟨?_, ?_, ?_⟩ <;> rintro rfl <;> exact absurd h128 (by decide)

theorem literalBytes_head {c : Char} (hr : c ≠ '\r') (hn : c ≠ '\n') (hq : c ≠ '"') :
    ∃ b bs, literalBytes c = b :: bs ∧ b ≠ 34 ∧ (b = 0 → c = Char.ofNat 0) ∧ (b = 92 → c = '\\') ∧
      (b < 128 → bs = []) := by
  rw [literalBytes_plain hr hn hq]
  rcases encodeChar_cases c with ⟨hlt, henc⟩ | ⟨-, hne, hall⟩
  · refine ⟨_, [], henc, ?_, ?_, ?_, fun _ => rfl⟩
    · exact fun h => hq (Char.toNat_inj.mp (ofNat_toNat_eq hlt (n := 34) (by decide) h))
    · exact fun h => Char.toNat_inj.mp (ofNat_toNat_eq hlt (n := 0) (by decide) h)
    · exact fun h => Char.toNat_inj.mp (ofNat_toNat_eq hlt (n := 92) (by decide) h)
  · obtain ⟨b, bs, hbs⟩ := exists_cons_of_ne_nil hne
    have h128 := hall b (by rw [hbs]; exact mem_cons_self ..)
    refine ⟨b, bs, hbs, ?_, ?_, ?_, fun hlt => absurd (UInt8.lt_of_lt_of_le hlt h128) (UInt8.lt_irrefl _)⟩
    all_goals
      rintro rfl
      exact absurd h128 (by decide)

/-! ### The parser -/

theorem literalLoop_char {c : Char} (hback : c ≠ '\\') (hnul : c ≠ Char.ofNat 0) (fuel : ℕ) (rest : Text)
    (rule : List Element) :
    literalLoop (fuel + 1) (literalBytes c ++ rest) rule = literalLoop fuel rest (rule ++ [⟨.char, c.toNat⟩]) := by
  by_cases hr : c = '\r'
  · subst hr
    rfl
  by_cases hn : c = '\n'
  · subst hn
    rfl
  by_cases hq : c = '"'
  · subst hq
    rfl
  obtain ⟨b, bs, hbytes, hb34, hb0, hb92, -⟩ := literalBytes_head hr hn hq
  have hdecode : decodeChar (b :: (bs ++ rest)) = (c.toNat, rest) := by
    rw [← cons_append, ← hbytes, literalBytes_plain hr hn hq, decodeChar_utf8]
  have hchar : parseChar (b :: (bs ++ rest)) = .ok (c.toNat, rest) := by
    rw [parseChar]
    show (if b = 92 then _ else if b ≠ 0 then _ else _) = _
    rw [if_neg fun h => hback (hb92 h), if_pos fun h => hnul (hb0 h), hdecode]
  rw [hbytes, cons_append, literalLoop]
  show (if b = 34 then _ else if b = 0 then _ else _) = _
  rw [if_neg hb34, if_neg fun h => hnul (hb0 h), hchar]
  rfl

/-- **A literal without backslashes is read as the code points of its text.** -/
theorem literalLoop_plain {s : List Char} (hback : '\\' ∉ s) (hnul : Char.ofNat 0 ∉ s) {fuel : ℕ}
    (hfuel : s.length < fuel) (rest : Text) (rule : List Element) :
    literalLoop fuel (s.flatMap literalBytes ++ 34 :: rest) rule
      = .ok (34 :: rest, rule ++ s.map fun c => ⟨.char, c.toNat⟩) := by
  induction s generalizing fuel rule with
  | nil =>
    obtain ⟨fuel, rfl⟩ := Nat.exists_eq_succ_of_ne_zero (Nat.ne_of_gt hfuel)
    rw [map_nil, append_nil]
    rfl
  | cons c s ih =>
    obtain ⟨fuel, rfl⟩ := Nat.exists_eq_succ_of_ne_zero (Nat.ne_of_gt (Nat.lt_of_le_of_lt (Nat.zero_le _) hfuel))
    rw [mem_cons, not_or] at hback hnul
    rw [flatMap_cons, append_assoc, literalLoop_char (Ne.symm hback.1) (Ne.symm hnul.1),
      ih hback.2 hnul.2 (Nat.lt_of_succ_lt_succ hfuel), map_cons, append_assoc, singleton_append]

/-! ### Backslashes -/

def literalText (s : List Char) : Text := s.flatMap literalBytes ++ [34]

theorem literalText_cons (c : Char) (s : List Char) :
    (∃ x, literalText (c :: s) = 92 :: x :: literalText s ∧
      (c = '\r' ∧ x = 114 ∨ c = '\n' ∧ x = 110 ∨ c = '"' ∧ x = 34)) ∨
    (∃ b bs, literalText (c :: s) = b :: (bs ++ literalText s) ∧ b ≠ 34 ∧ (b = 92 → c = '\\') ∧ (b < 128 → bs = [])) := by
  rw [literalText, flatMap_cons, append_assoc]
  by_cases hr : c = '\r'
  · subst hr
    exact .inl ⟨114, rfl, .inl ⟨rfl, rfl⟩⟩
  by_cases hn : c = '\n'
  · subst hn
    exact .inl ⟨110, rfl, .inr (.inl ⟨rfl, rfl⟩)⟩
  by_cases hq : c = '"'
  · subst hq
    exact .inl ⟨34, rfl, .inr (.inr ⟨rfl, rfl⟩)⟩
  obtain ⟨b, bs, hbytes, hb34, -, hb92, hlt⟩ := literalBytes_head hr hn hq
  exact .inr ⟨b, bs, by rw [hbytes]; rfl, hb34, hb92, hlt⟩

theorem hexLoop_literalText {n value r : ℕ} {s : List Char} {pos : Text}
    (h : hexLoop n (literalText s) value = some (r, pos)) : ∃ s', pos = literalText s' ∧ s'.length + n = s.length := by
  induction n generalizing s value with
  | zero =>
    obtain ⟨-, rfl⟩ := Prod.mk.inj (Option.some.inj h)
    exact ⟨s, rfl, rfl⟩
  | succ n ih =>
    rw [hexLoop] at h
    cases s with
    | nil => cases h
    | cons c s =>
      rcases literalText_cons c s with ⟨x, htext, -⟩ | ⟨b, bs, htext, -, -, hlt⟩
      · rw [htext] at h
        cases h
      · rw [htext] at h
        cases hd : hexDigit b with
        | none =>
          have hc : Text.cur (b :: (bs ++ literalText s)) = b := rfl
          rw [hc, hd] at h
          cases h
        | some d =>
          have hc : Text.cur (b :: (bs ++ literalText s)) = b := rfl
          rw [hc, hd] at h
          have hb : b < 128 := by
            rw [hexDigit] at hd
            split_ifs at hd with h1 h2 h3
            · exact UInt8.lt_of_le_of_lt h1.2 (by decide)
            · exact UInt8.lt_of_le_of_lt h2.2 (by decide)
            · exact UInt8.lt_of_le_of_lt h3.2 (by decide)
          rw [hlt hb] at h
          obtain ⟨s', hpos, hlen⟩ := ih h
          exact ⟨s', hpos, by rw [length_cons]; omega⟩

theorem parseChar_backslash {s : List Char} {r : ℕ} {pos : Text}
    (h : parseChar (92 :: literalText s) = .ok (r, pos)) :
    pos = [] ∨ (∃ s', pos = literalText s' ∧ s'.length < s.length) ∨
      ∃ c x s', s = c :: s' ∧ r = 92 ∧ pos = x :: literalText s' ∧
        (c = '\r' ∧ x = 114 ∨ c = '\n' ∧ x = 110 ∨ c = '"' ∧ x = 34) := by
  rw [parseChar] at h
  cases s with
  | nil =>
    obtain ⟨-, rfl⟩ := Prod.mk.inj (Except.ok.inj h)
    exact .inl rfl
  | cons c s =>
    rcases literalText_cons c s with ⟨x, htext, hx⟩ | ⟨b, bs, htext, -, -, hlt⟩
    · rw [htext] at h
      obtain ⟨rfl, rfl⟩ := Prod.mk.inj (Except.ok.inj h)
      exact .inr (.inr ⟨c, x, s, rfl, rfl, rfl, hx⟩)
    · rw [htext] at h
      have hshort : b < 128 → ∀ pos', pos' = (92 :: b :: (bs ++ literalText s)).drop 2 →
          pos' = literalText s := by
        rintro hb pos' rfl
        rw [hlt hb]
        rfl
      have hhex : ∀ n, b < 128 → parseHex ((92 :: b :: (bs ++ literalText s)).drop 2) n = .ok (r, pos) →
          ∃ s', pos = literalText s' ∧ s'.length < (c :: s).length := by
        intro n hb hp
        rw [hshort hb _ rfl, parseHex] at hp
        split at hp
        · rename_i hloop
          obtain rfl := Except.ok.inj hp
          obtain ⟨s', hs', hlen⟩ := hexLoop_literalText hloop
          exact ⟨s', hs', by rw [length_cons]; omega⟩
        · cases hp
      change (if (92 : UInt8) = 92 then
        if b = 120 then _ else if b = 117 then _ else if b = 85 then _ else if b = 116 then _ else
        if b = 114 then _ else if b = 110 then _ else if b = 92 ∨ b = 34 ∨ b = 91 ∨ b = 93 then _ else _ else _) = _ at h
      rw [if_pos rfl] at h
      have hdone : ∀ v : ℕ, b < 128 →
          (Except.ok (v, (92 :: b :: (bs ++ literalText s)).drop 2) : Except ParseStop (ℕ × Text)) = .ok (r, pos) →
          ∃ s', pos = literalText s' ∧ s'.length < (c :: s).length := by
        intro v hb hv
        have hpos := (Prod.mk.inj (Except.ok.inj hv)).2
        exact ⟨s, hshort hb _ hpos.symm, Nat.lt_succ_self _⟩
      split_ifs at h with h1 h2 h3 h4 h5 h6 h7
      · exact .inr (.inl (hhex 2 (by rw [h1]; decide) h))
      · exact .inr (.inl (hhex 4 (by rw [h2]; decide) h))
      · exact .inr (.inl (hhex 8 (by rw [h3]; decide) h))
      · exact .inr (.inl (hdone _ (by rw [h4]; decide) h))
      · exact .inr (.inl (hdone _ (by rw [h5]; decide) h))
      · exact .inr (.inl (hdone _ (by rw [h6]; decide) h))
      · refine .inr (.inl (hdone _ ?_ h))
        rcases h7 with h7 | h7 | h7 | h7 <;> rw [h7] <;> decide
      · cases h

theorem literalLoop_count {fuel : ℕ} {s : List Char} {rule rule' : List Element}
    (h : literalLoop fuel (literalText s) rule = .ok ([34], rule')) :
    ∃ e : List ℕ, rule' = rule ++ e.map (fun v => ⟨.char, v⟩) ∧ e.length ≤ s.length ∧
      ('\\' ∈ s → e ≠ s.map Char.toNat) := by
  induction fuel using Nat.strong_induction_on generalizing s rule with
  | _ fuel ih =>
  cases fuel with
  | zero => cases h
  | succ fuel =>
    cases s with
    | nil =>
      obtain ⟨-, rfl⟩ := Prod.mk.inj (Except.ok.inj h)
      exact ⟨[], by simp, Nat.le_refl _, by simp⟩
    | cons c s =>
      by_cases hback : c = '\\'
      · subst hback
        change (do
          let charPair ← parseChar (92 :: literalText s)
          literalLoop fuel charPair.2 (rule ++ [(⟨.char, charPair.1⟩ : Element)])) = _ at h
        cases hp : parseChar (92 :: literalText s) with
        | error e =>
          rw [hp] at h
          cases h
        | ok r =>
          obtain ⟨v, pos⟩ := r
          rw [hp] at h
          change literalLoop fuel pos (rule ++ [⟨.char, v⟩]) = _ at h
          rcases parseChar_backslash hp with rfl | ⟨s', rfl, hlen⟩ | ⟨d, x, s', rfl, rfl, rfl, hx⟩
          · cases fuel <;> cases h
          · obtain ⟨e, he, hle, -⟩ := ih fuel (Nat.lt_succ_self _) h
            refine ⟨v :: e, by rw [he, map_cons, append_assoc, singleton_append], ?_, fun _ heq => ?_⟩
            · rw [length_cons, length_cons]
              omega
            · have hlength := congrArg List.length heq
              rw [length_cons, length_map, length_cons] at hlength
              omega
          · have hgo : ∀ y : Char, y ≠ '\\' → y ≠ Char.ofNat 0 → literalBytes y = [x] → y ≠ d →
                ∃ e : List ℕ, rule' = rule ++ e.map (fun v => ⟨.char, v⟩) ∧ e.length ≤ ('\\' :: d :: s').length ∧
                  ('\\' ∈ '\\' :: d :: s' → e ≠ ('\\' :: d :: s').map Char.toNat) := by
              intro y hyback hynul hyx hyd
              cases fuel with
              | zero => cases h
              | succ fuel =>
                have htext : x :: literalText s' = literalBytes y ++ literalText s' := by rw [hyx, singleton_append]
                rw [htext, literalLoop_char hyback hynul] at h
                obtain ⟨e, he, hle, -⟩ := ih fuel (by omega) h
                refine ⟨92 :: y.toNat :: e, by simp [he], by simpa using hle, fun _ heq => ?_⟩
                have htail := (List.cons.inj heq).2
                exact hyd (Char.toNat_inj.mp (List.cons.inj htail).1)
            rcases hx with ⟨rfl, rfl⟩ | ⟨rfl, rfl⟩ | ⟨rfl, rfl⟩
            · exact hgo 'r' (by decide) (by decide) rfl (by decide)
            · exact hgo 'n' (by decide) (by decide) rfl (by decide)
            · -- the quotation mark ends the literal too early
              cases fuel with
              | zero => cases h
              | succ fuel =>
                have hpos := (Prod.mk.inj (Except.ok.inj h)).1
                have htail := (List.cons.inj hpos).2
                rw [literalText] at htail
                exact (append_ne_nil_of_right_ne_nil _ (cons_ne_nil _ _) htail).elim
      · by_cases hnul : c = Char.ofNat 0
        · subst hnul
          cases h
        · have htext : literalText (c :: s) = literalBytes c ++ literalText s := by
            rw [literalText, flatMap_cons, append_assoc]
            rfl
          rw [htext, literalLoop_char hback hnul] at h
          obtain ⟨e, he, hle, hne⟩ := ih fuel (Nat.lt_succ_self _) h
          refine ⟨c.toNat :: e, by simp [he], by simpa using hle, fun hmem heq => ?_⟩
          rcases mem_cons.mp hmem with hc | hmem
          · exact hback hc.symm
          · exact hne hmem (List.cons.inj heq).2

/-! ### The grammar of a literal -/

def charSymbols (l : List ℕ) : List GrammarSymbol := l.map fun v => .chars (.oneOf [(v, v)])

def literalRule (l : List ℕ) : List Element := (l.map fun v => ⟨.char, v⟩) ++ [⟨.endOfRule, 0⟩]

theorem symsOf_literalRule (l : List ℕ) : symsOf (literalRule l) = charSymbols l := by
  induction l with
  | nil => rfl
  | cons v l ih =>
    have hclass : classOf ⟨.char, v⟩ (literalRule l) = .oneOf [(v, v)] := by
      cases l <;> rfl
    show GrammarSymbol.chars (classOf ⟨.char, v⟩ (literalRule l)) :: symsOf (literalRule l) = _
    rw [hclass, ih]
    rfl

theorem altStarts_literalRule (l : List ℕ) : altStarts (literalRule l) = [0] := by
  have hnone : ∀ i, altsFrom (literalRule l) i = [] := by
    induction l with
    | nil => exact fun i => rfl
    | cons v l ih => exact fun i => ih (i + 1)
  rw [altStarts, hnone]

theorem consumes_charSymbols {rules : Rules} {l w : List ℕ} :
    Leftmost.Consumes (Produces rules) ((charSymbols l).map Sum.inr) w [] ↔ w = l := by
  induction l generalizing w with
  | nil =>
    constructor
    · intro h
      cases h
      rfl
    · rintro rfl
      exact .stop _
  | cons v l ih =>
    constructor
    · intro h
      cases h with
      | expand hprod hd =>
        cases hprod with
        | @chars _ c hc =>
          have hcv : c = v := by
            simp only [CharClass.mem, CharClass.inRanges, any_cons, any_nil, Bool.or_false,
              decide_eq_true_iff] at hc
            omega
          cases hd with
          | read _ hd => rw [hcv, ih.mp hd]
    · rintro rfl
      have hmem : (CharClass.oneOf [(v, v)]).mem v = true := by simp [CharClass.mem, CharClass.inRanges]
      exact .expand (Produces.chars hmem) (.read v (ih.mpr rfl))

/-- **The rule of a literal derives the literal and nothing else.** -/
theorem derives_literalRule (l w : List ℕ) :
    Leftmost.Derives (Produces [literalRule l]) [Sum.inr (.rule 0)] (w.map Sum.inl) ↔ w = l := by
  rw [Leftmost.derives_iff_consumes]
  constructor
  · intro h
    cases h with
    | expand hprod hd =>
      cases hprod with
      | @rule _ i hr hi =>
        change i ∈ altStarts (literalRule l) at hi
        rw [altStarts_literalRule, mem_singleton] at hi
        subst hi
        change Leftmost.Consumes _ ((symsOf (literalRule l)).map Sum.inr ++ []) w [] at hd
        rw [symsOf_literalRule, append_nil] at hd
        exact (consumes_charSymbols).mp hd
  · rintro rfl
    refine .expand (Produces.rule (i := 0) (by simp) ?_) ?_
    · exact mem_cons_self ..
    · show Leftmost.Consumes _ ((symsOf (literalRule w)).map Sum.inr ++ []) w []
      rw [symsOf_literalRule, append_nil]
      exact (consumes_charSymbols).mpr rfl

def rootName : Text := [114, 111, 111, 116]

/-- The grammar whose root is the literal: `root ::= ` and the literal. -/
def literalGrammar (literal : Text) : Text := rootName ++ [32, 58, 58, 61, 32] ++ literal

def literalParser (l : List ℕ) : Parser := ⟨[(rootName, 0)], [literalRule l]⟩

theorem validate_literalRule (l : List ℕ) : validateRule (literalParser l) (literalRule l) = .ok () := by
  have helements : ∀ es : List Element, (∀ e ∈ es, e.type ≠ .ruleRef) →
      es.forM (validateElement (literalParser l)) = .ok () := by
    intro es hes
    induction es with
    | nil => rfl
    | cons e es ih =>
      have he : validateElement (literalParser l) e = .ok () := by
        rw [validateElement, if_neg fun hc => hes e (mem_cons_self ..) hc.1]
      show (validateElement (literalParser l) e >>= fun _ => es.forM (validateElement (literalParser l))) = _
      rw [he]
      exact ih fun a ha => hes a (mem_cons_of_mem _ ha)
  rw [validateRule, if_neg (by simp [literalRule])]
  refine helements _ fun e he => ?_
  rw [literalRule, mem_append, mem_map, mem_singleton] at he
  rcases he with ⟨v, -, rfl⟩ | rfl
  · exact fun hc => by cases hc
  · exact fun hc => by cases hc

section

variable {body : Text} {l : List ℕ} {fuel : ℕ}
  (h : literalLoop (fuel + 1) (body ++ [34]) [] = .ok ([34], l.map fun v => ⟨.char, v⟩))

include h

theorem parseAlternates_literal :
    parseAlternates rootName (fuel + 3) false (34 :: (body ++ [34])) 0 ⟨[(rootName, 0)], []⟩
      = .ok ([], literalParser l) := by
  have hsequence : sequenceLoop (parseAlternates rootName (fuel + 2) true) rootName false (fuel + 2)
      (34 :: (body ++ [34])) [] 0 ⟨[(rootName, 0)], []⟩
      = .ok ([], l.map (fun v => ⟨.char, v⟩), ⟨[(rootName, 0)], []⟩) := by
    rw [sequenceLoop]
    show Bind.bind (literalLoop (fuel + 1) (body ++ [34]) []) _ = _
    rw [h]
    rfl
  rw [parseAlternates]
  show Bind.bind (sequenceLoop (parseAlternates rootName (fuel + 2) true) rootName false (fuel + 2)
    (34 :: (body ++ [34])) [] 0 _) _ = _
  rw [hsequence]
  rfl

theorem rulesLoop_literal :
    rulesLoop (fuel + 4) (literalGrammar (34 :: (body ++ [34]))) ⟨[], []⟩ = .ok (literalParser l) := by
  have hrule : parseRule (fuel + 3) (literalGrammar (34 :: (body ++ [34]))) ⟨[], []⟩ = .ok ([], literalParser l) := by
    rw [parseRule]
    show Bind.bind (parseAlternates rootName (fuel + 3) false (34 :: (body ++ [34])) 0 ⟨[(rootName, 0)], []⟩) _ = _
    rw [parseAlternates_literal h]
    rfl
  rw [rulesLoop]
  show Bind.bind (parseRule (fuel + 3) (literalGrammar (34 :: (body ++ [34]))) ⟨[], []⟩) _ = _
  rw [hrule]
  rfl

theorem parse_literalGrammar : parse (fuel + 4) (literalGrammar (34 :: (body ++ [34]))) = .ok (literalParser l) := by
  rw [parse]
  show (do
    let st ← rulesLoop (fuel + 4) (literalGrammar (34 :: (body ++ [34]))) ⟨[], []⟩
    st.rules.forM (validateRule st)
    return st) = _
  rw [rulesLoop_literal h]
  show ((validateRule (literalParser l) (literalRule l) >>= fun _ => pure PUnit.unit) >>= fun _ => pure (literalParser l)) = _
  rw [validate_literalRule]
  rfl

end

/-! ### Constants -/

/-- **The literal of a value is exact**: the parser reads it, wherever it stands, as the code points of the text of the
value, and the grammar of the literal derives this text only. -/
structure ExactLiteral (v : Json) : Prop where
  sequence : ∀ rest rule, ∃ F, ∀ fuel ≥ F,
    literalLoop fuel ((generateConstantRule v).tail ++ rest) rule
      = .ok (34 :: rest, rule ++ (v.dump false).map fun c => ⟨.char, c.toNat⟩)
  language : ∃ F, ∀ fuel ≥ F, ∃ st, parse fuel (literalGrammar (generateConstantRule v)) = .ok st ∧
    ∀ w, Leftmost.Derives (Produces st.rules) [Sum.inr (.rule 0)] (w.map Sum.inl) ↔ w = (v.dump false).map Char.toNat

theorem generateConstantRule_eq (v : Json) : generateConstantRule v = 34 :: literalText (v.dump false) := by
  rw [generateConstantRule, formatLiteral, utf8, flatMap_assoc]
  rfl

theorem ExactLiteral.no_backslash {v : Json} (h : ExactLiteral v) : '\\' ∉ v.dump false := by
  intro hmem
  obtain ⟨F, hF⟩ := h.sequence [] []
  have hloop := hF F (Nat.le_refl F)
  rw [generateConstantRule_eq, tail_cons, append_nil] at hloop
  obtain ⟨e, he, -, hne⟩ := literalLoop_count hloop
  rw [nil_append, nil_append] at he
  have hvalues := congrArg (List.map Element.value) he
  simp only [map_map, Function.comp_def, map_id'] at hvalues
  exact hne hmem hvalues.symm

/-- **The literal of a value is exact when no string of the value needs an escape.** -/
theorem constant_exact_iff (v : Json) :
    ExactLiteral v ↔ ∀ s ∈ v.strings, ∀ c ∈ s, ¬ Json.needsEscape c := by
  have hback : (∀ s ∈ v.strings, ∀ c ∈ s, ¬ Json.needsEscape c) ↔ '\\' ∉ v.dump false := by
    rw [Json.backslash_mem_dump_iff]
    push Not
    rfl
  rw [hback]
  constructor
  · exact ExactLiteral.no_backslash
  · intro hnot
    have hnul := Json.nul_notMem_dump false v
    refine ⟨fun rest rule => ⟨(v.dump false).length + 1, fun fuel hfuel => ?_⟩, ?_⟩
    · rw [generateConstantRule_eq, tail_cons, literalText, append_assoc, singleton_append]
      exact literalLoop_plain hnot hnul hfuel rest rule
    · refine ⟨(v.dump false).length + 4, fun fuel hfuel => ?_⟩
      obtain ⟨fuel, rfl⟩ : ∃ n, fuel = n + 4 := ⟨fuel - 4, by omega⟩
      have hloop := @literalLoop_plain (v.dump false) hnot hnul (fuel + 1) (by omega) [] []
      rw [generateConstantRule_eq]
      refine ⟨_, parse_literalGrammar (l := (v.dump false).map Char.toNat) ?_, fun w => derives_literalRule _ w⟩
      rw [hloop, map_map]
      rfl

/-- The string `a\b` is dumped with two backslashes, which are read as one. -/
theorem backslash_not_exact : ¬ ExactLiteral (.string ['a', '\\', 'b']) :=
  fun h => h.no_backslash (by decide)

end Schema
