import LlamaRafaelia.Integrity.WitnessQ4
import LlamaRafaelia.Json.Decode
import LlamaRafaelia.Lib.Utf8

/-!
# The records of the bitstack log

`bs_event` writes one line into the log: a JSON object with the time, a tag, a code and a message, and behind them the
CRC of the object without it.  `json_escape` escapes `\`, `"`, `\n`, `\r` and `\t`, and writes every other byte as
it is.

* `decode_recordText` - **the reader sees the members, unless a control character stands in the tag or in the message**;
* `bs_event_faithful_iff` - **a record is faithful exactly when the only bytes below 32 are tabs and line ends**.
-/

namespace Integrity

open List Json

/-! ### The log -/

def bytesOf (text : List Char) : List UInt8 := text.flatMap String.utf8EncodeChar

/-- `std::to_string`. -/
def decimal (n : ℤ) : List Char := if n < 0 then '-' :: Nat.toDigits 10 n.natAbs else Nat.toDigits 10 n.natAbs

/-- `json_escape`, for one byte. -/
def escapeByte (b : UInt8) : List UInt8 :=
  if b = 92 then [92, 92]
  else if b = 34 then [92, 34]
  else if b = 10 then [92, 110]
  else if b = 13 then [92, 114]
  else if b = 9 then [92, 116]
  else [b]

/-- `json_escape`; a null pointer is `none`, and a text ends before its first zero byte. -/
def jsonEscape : Option (List UInt8) → List UInt8
  | none => []
  | some value => (value.takeWhile (· ≠ 0)).flatMap escapeByte

/-- `payload`. -/
def payload (epochMs : ℤ) (tag : List UInt8) (code : ℤ) (msg : Option (List UInt8)) : List UInt8 :=
  bytesOf ['\x7b', '"', 't', 's', '"', ':'] ++ bytesOf (decimal epochMs)
    ++ bytesOf [',', '"', 't', 'a', 'g', '"', ':', '"'] ++ jsonEscape (some tag) ++ bytesOf ['"']
    ++ bytesOf [',', '"', 'c', 'o', 'd', 'e', '"', ':'] ++ bytesOf (decimal code)
    ++ bytesOf [',', '"', 'm', 's', 'g', '"', ':', '"'] ++ jsonEscape (some (msg.getD [])) ++ bytesOf ['"', '\x7d']

/-- `record`. -/
def recordOf (payload : List UInt8) : List UInt8 :=
  payload.take (payload.length - 1) ++ bytesOf [',', '"', 'c', 'r', 'c', '3', '2', 'c', '"', ':']
    ++ bytesOf (decimal (crc32cCompute payload).toNat) ++ bytesOf ['\x7d']

/-- `bs_event`: what it appends to the file.  `opens` says whether `fopen` succeeds. -/
def bsEvent (path : List UInt8) (opens : Bool) (epochMs : ℤ) (tag : Option (List UInt8)) (code : ℤ)
    (msg : Option (List UInt8)) : List UInt8 :=
  match tag with
  | none => []
  | some tag =>
    if path = [] then []
    else if opens then recordOf (payload epochMs tag code msg) ++ [10]
    else []

/-! ### A reader of the log -/

def lastMember (record : List UInt8) : List UInt8 := (record.reverse.takeWhile (· ≠ 44)).reverse

def withoutLastMember (record : List UInt8) : List UInt8 := (record.reverse.dropWhile (· ≠ 44)).tail.reverse ++ [125]

/-- What a reader of the log relies on. -/
structure FaithfulRecord (tag msg record : List UInt8) : Prop where
  line : 10 ∉ record
  json : ∃ members s t, decodeBytes record = some (.object members) ∧
    members.lookup ['t', 'a', 'g'] = some (.string s) ∧ bytesOf s = tag ∧
    members.lookup ['m', 's', 'g'] = some (.string t) ∧ bytesOf t = msg
  crc : lastMember record = bytesOf ['"', 'c', 'r', 'c', '3', '2', 'c', '"', ':'] ++
    bytesOf (decimal (crc32cCompute (withoutLastMember record)).toNat) ++ bytesOf ['\x7d']

/-! ### Bytes and characters -/

theorem bytesOf_append (s t : List Char) : bytesOf (s ++ t) = bytesOf s ++ bytesOf t := flatMap_append

theorem byte_mem_bytesOf {c : Char} (hc : c.toNat < 128) (s : List Char) :
    UInt8.ofNat c.toNat ∈ bytesOf s ↔ c ∈ s := by
  have hbyte : (UInt8.ofNat c.toNat).toNat = c.toNat := Utf8.toNat_byte (by omega)
  rw [bytesOf, mem_flatMap]
  constructor
  · rintro ⟨d, hd, hmem⟩
    rcases Utf8.encodeChar_cases d with ⟨hlt, henc⟩ | ⟨-, -, hall⟩
    · rw [henc, mem_singleton] at hmem
      have heq := congrArg UInt8.toNat hmem
      rw [hbyte, Utf8.toNat_byte (by omega)] at heq
      rwa [Char.toNat_inj.mp heq]
    · have h128 := hall _ hmem
      rw [UInt8.le_iff_toNat_le, hbyte] at h128
      exact absurd h128 (Nat.not_le.mpr hc)
  · intro h
    rcases Utf8.encodeChar_cases c with ⟨-, henc⟩ | ⟨hle, -, -⟩
    · exact ⟨c, h, by rw [henc]; exact mem_singleton_self _⟩
    · exact absurd hle (Nat.not_le.mpr hc)

theorem flatMap_escapeByte_high {l : List UInt8} (h : ∀ b ∈ l, 128 ≤ b) : l.flatMap escapeByte = l := by
  induction l with
  | nil => rfl
  | cons b l ih =>
    have hb := h b (mem_cons_self ..)
    have hne : ∀ n : UInt8, n < 128 → b ≠ n := by
      rintro n hn rfl
      exact UInt8.lt_irrefl _ (UInt8.lt_of_lt_of_le hn hb)
    rw [flatMap_cons, ih fun a ha => h a (mem_cons_of_mem _ ha), escapeByte, if_neg (hne _ (by decide)),
      if_neg (hne _ (by decide)), if_neg (hne _ (by decide)), if_neg (hne _ (by decide)), if_neg (hne _ (by decide))]
    rfl

theorem escapeByte_char (c : Char) :
    (String.utf8EncodeChar c).flatMap escapeByte = bytesOf (minimalEscape c) := by
  rcases Utf8.encodeChar_cases c with ⟨hlt, henc⟩ | ⟨hle, -, hall⟩
  · by_cases h1 : c = '\\'
    · subst h1
      rfl
    by_cases h2 : c = '"'
    · subst h2
      rfl
    by_cases h3 : c = '\n'
    · subst h3
      rfl
    by_cases h4 : c = '\r'
    · subst h4
      rfl
    by_cases h5 : c = '\t'
    · subst h5
      rfl
    have hne : ∀ d : Char, d.toNat < 128 → c ≠ d → UInt8.ofNat c.toNat ≠ UInt8.ofNat d.toNat := by
      intro d hd hcd heq
      have hnat := congrArg UInt8.toNat heq
      rw [Utf8.toNat_byte (by omega), Utf8.toNat_byte (by omega)] at hnat
      exact hcd (Char.toNat_inj.mp hnat)
    have hbyte : escapeByte (UInt8.ofNat c.toNat) = [UInt8.ofNat c.toNat] := by
      have e1 : UInt8.ofNat c.toNat ≠ 92 := hne '\\' (by decide) h1
      have e2 : UInt8.ofNat c.toNat ≠ 34 := hne '"' (by decide) h2
      have e3 : UInt8.ofNat c.toNat ≠ 10 := hne '\n' (by decide) h3
      have e4 : UInt8.ofNat c.toNat ≠ 13 := hne '\r' (by decide) h4
      have e5 : UInt8.ofNat c.toNat ≠ 9 := hne '\t' (by decide) h5
      rw [escapeByte, if_neg e1, if_neg e2, if_neg e3, if_neg e4, if_neg e5]
    rw [minimalEscape, if_neg h1, if_neg h2, if_neg h3, if_neg h4, if_neg h5, bytesOf, flatMap_singleton, henc,
      flatMap_singleton, hbyte]
  · have hne : ∀ d : Char, d.toNat < 128 → c ≠ d := by
      rintro d hd rfl
      exact absurd hle (Nat.not_le.mpr hd)
    rw [flatMap_escapeByte_high hall, minimalEscape, if_neg (hne _ (by decide)), if_neg (hne _ (by decide)),
      if_neg (hne _ (by decide)), if_neg (hne _ (by decide)), if_neg (hne _ (by decide)), bytesOf,
      flatMap_singleton]

theorem jsonEscape_bytesOf {s : List Char} (h : 0 ∉ bytesOf s) :
    jsonEscape (some (bytesOf s)) = bytesOf (s.flatMap minimalEscape) := by
  have hwhole : (bytesOf s).takeWhile (· ≠ 0) = bytesOf s := by
    rw [takeWhile_eq_self_iff]
    intro b hb
    rw [decide_eq_true_eq]
    rintro rfl
    exact h hb
  have hescape : (bytesOf s).flatMap escapeByte = bytesOf (s.flatMap minimalEscape) := by
    clear h hwhole
    induction s with
    | nil => rfl
    | cons c s ih =>
      have hcons : bytesOf (c :: s) = String.utf8EncodeChar c ++ bytesOf s := flatMap_cons
      rw [hcons, flatMap_append, ih, escapeByte_char, flatMap_cons, bytesOf_append]
  show ((bytesOf s).takeWhile (· ≠ 0)).flatMap escapeByte = _
  rw [hwhole, hescape]

/-! ### Numbers -/

theorem toDigits_shape (n : ℕ) :
    ∃ c l, Nat.toDigits 10 n = c :: l ∧ c.isDigit = true ∧ l.all Char.isDigit = true ∧
      (c = '0' → l = []) := by
  have hdigit : ∀ k < 10, (Nat.digitChar k).isDigit = true := by decide
  induction n using Nat.strong_induction_on with
  | _ n ih =>
    rw [Nat.toDigits_eq_if (by decide)]
    split_ifs with h
    · exact ⟨_, [], rfl, hdigit n h, rfl, fun _ => rfl⟩
    · obtain ⟨c, l, hcl, hc, hl, h0⟩ := ih (n / 10) (Nat.div_lt_self (by omega) (by decide))
      refine ⟨c, l ++ [Nat.digitChar (n % 10)], by rw [hcl]; rfl, hc, ?_, fun hc0 => ?_⟩
      · rw [all_append, hl, all_cons, hdigit _ (Nat.mod_lt _ (by decide))]
        rfl
      · -- the number in front has at least one digit that is not zero
        rw [h0 hc0, hc0] at hcl
        have hval : Nat.ofDigitChars 10 (Nat.toDigits 10 (n / 10)) 0 = n / 10 := Nat.ofDigitChars_ten_toDigits
        rw [hcl] at hval
        have : n / 10 = 0 := hval.symm
        omega

theorem isUnsigned_toDigits (n : ℕ) : isUnsigned (Nat.toDigits 10 n) = true := by
  obtain ⟨c, l, hcl, hc, hl, h0⟩ := toDigits_shape n
  have hdrop : l.dropWhile Char.isDigit = [] := by
    rw [dropWhile_eq_nil_iff]
    exact all_eq_true.mp hl
  rw [hcl, isUnsigned]
  split_ifs with hc0
  · rw [h0 hc0]
    rfl
  · rw [hc, hdrop]
    rfl

theorem isNumber_decimal (n : ℤ) : isNumber (decimal n) = true := by
  rw [decimal]
  split_ifs with h
  · exact isUnsigned_toDigits _
  · obtain ⟨c, l, hcl, hc, -, -⟩ := toDigits_shape n.natAbs
    have hnum := isUnsigned_toDigits n.natAbs
    rw [hcl] at hnum ⊢
    unfold isNumber
    split
    · rename_i heq
      rw [(List.cons.inj heq).1] at hc
      exact absurd hc (by decide)
    · exact hnum

theorem decimal_chars (n : ℤ) : ∀ c ∈ decimal n, c.isDigit = true ∨ c = '-' := by
  have hdigits : ∀ c ∈ Nat.toDigits 10 n.natAbs, c.isDigit = true :=
    fun c hc => Nat.isDigit_of_mem_toDigits (by decide) (by decide) hc
  intro c hc
  rw [decimal] at hc
  split_ifs at hc with h
  · rcases mem_cons.mp hc with rfl | hc
    · exact .inr rfl
    · exact .inl (hdigits c hc)
  · exact .inl (hdigits c hc)

def decimalText (n : ℤ) : NumberText :=
  ⟨decimal n, fun c hc => by
    rcases decimal_chars n c hc with h | rfl
    · simp [isNumberChar, h]
    · rfl⟩

theorem value_decimal (n : ℤ) {d : Char} (hd : isNumberChar d = false) (rest : List Char) (fuel : ℕ) :
    value (fuel + 1) (decimal n ++ d :: rest) = some (.number (decimalText n), d :: rest) :=
  @value_number (decimalText n) (isNumber_decimal n) d hd rest fuel

/-! ### The text of a record -/

section

variable (epochMs code : ℤ) (s t : List Char)

def payloadText : List Char :=
  ['\x7b', '"', 't', 's', '"', ':'] ++ (decimal epochMs
    ++ ',' :: (['"', 't', 'a', 'g', '"', ':', '"'] ++ (s.flatMap minimalEscape
    ++ '"' :: (',' :: (['"', 'c', 'o', 'd', 'e', '"', ':'] ++ (decimal code
    ++ ',' :: (['"', 'm', 's', 'g', '"', ':', '"'] ++ (t.flatMap minimalEscape ++ ['"']))))))))

def recordText (crc32c : ℤ) : List Char :=
  payloadText epochMs code s t
    ++ ',' :: (['"', 'c', 'r', 'c', '3', '2', 'c', '"', ':'] ++ (decimal crc32c ++ ['\x7d']))

theorem payload_eq (hs : 0 ∉ bytesOf s) (ht : 0 ∉ bytesOf t) :
    payload epochMs (bytesOf s) code (some (bytesOf t)) =
      bytesOf (payloadText epochMs code s t) ++ bytesOf ['\x7d'] := by
  have hmsg : (some (bytesOf t)).getD [] = bytesOf t := rfl
  rw [payload, hmsg, jsonEscape_bytesOf hs, jsonEscape_bytesOf ht]
  simp only [← bytesOf_append, payloadText, append_assoc, cons_append, nil_append]

theorem recordOf_payload (hs : 0 ∉ bytesOf s) (ht : 0 ∉ bytesOf t) :
    recordOf (payload epochMs (bytesOf s) code (some (bytesOf t))) =
      bytesOf (recordText epochMs code s t
        (crc32cCompute (bytesOf (payloadText epochMs code s t) ++ bytesOf ['\x7d'])).toNat) := by
  have htake : ∀ l : List UInt8, (l ++ bytesOf ['\x7d']).take ((l ++ bytesOf ['\x7d']).length - 1) = l := by
    intro l
    have hlen : (l ++ bytesOf ['\x7d']).length - 1 = l.length := by
      rw [length_append]
      rfl
    rw [hlen, take_left]
  rw [recordOf, payload_eq epochMs code s t hs ht, htake]
  simp only [← bytesOf_append, recordText, append_assoc, cons_append, nil_append]

def recordMembers (crc32c : ℤ) : List (List Char × Json) :=
  [(['t', 's'], .number (decimalText epochMs)), (['t', 'a', 'g'], .string s),
    (['c', 'o', 'd', 'e'], .number (decimalText code)), (['m', 's', 'g'], .string t),
    (['c', 'r', 'c', '3', '2', 'c'], .number (decimalText crc32c))]

variable {epochMs code s t}

theorem member_decimal {key : List Char} (hkey : key.any rawControl = false) (n : ℤ) {d : Char}
    (hd : isNumberChar d = false) (rest : List Char) (fuel : ℕ) :
    member (value (fuel + 1)) ('"' :: (key.flatMap minimalEscape ++ '"' :: ':' :: (decimal n ++ d :: rest))) =
      some ((key, .number (decimalText n)), d :: rest) := by
  rw [member_eq _ hkey, value_decimal n hd]
  rfl

theorem member_string {key : List Char} (hkey : key.any rawControl = false) (u rest : List Char) (fuel : ℕ) :
    member (value (fuel + 1)) ('"' :: (key.flatMap minimalEscape ++ '"' :: ':' :: '"' ::
        (u.flatMap minimalEscape ++ '"' :: rest))) =
      if u.any rawControl = true then none else some ((key, .string u), rest) := by
  rw [member_eq _ hkey, value_string]
  cases u.any rawControl <;> rfl

theorem decode_recordText (crc32c : ℤ) :
    decode (recordText epochMs code s t crc32c) =
      if s.any rawControl = true ∨ t.any rawControl = true then none
      else some (.object (recordMembers epochMs code s t crc32c)) := by
  -- the text from each member on
  obtain ⟨text5, h5⟩ : ∃ l, l = '"' :: (['c', 'r', 'c', '3', '2', 'c'].flatMap minimalEscape ++
    '"' :: ':' :: (decimal crc32c ++ ['\x7d'])) := ⟨_, rfl⟩
  obtain ⟨text4, h4⟩ : ∃ l, l = '"' :: (['m', 's', 'g'].flatMap minimalEscape ++
    '"' :: ':' :: '"' :: (t.flatMap minimalEscape ++ '"' :: ',' :: text5)) := ⟨_, rfl⟩
  obtain ⟨text3, h3⟩ : ∃ l, l = '"' :: (['c', 'o', 'd', 'e'].flatMap minimalEscape ++
    '"' :: ':' :: (decimal code ++ ',' :: text4)) := ⟨_, rfl⟩
  obtain ⟨text2, h2⟩ : ∃ l, l = '"' :: (['t', 'a', 'g'].flatMap minimalEscape ++
    '"' :: ':' :: '"' :: (s.flatMap minimalEscape ++ '"' :: ',' :: text3)) := ⟨_, rfl⟩
  obtain ⟨text1, h1⟩ : ∃ l, l = '"' :: (['t', 's'].flatMap minimalEscape ++
    '"' :: ':' :: (decimal epochMs ++ ',' :: text2)) := ⟨_, rfl⟩
  have htext : recordText epochMs code s t crc32c = '\x7b' :: text1 := by
    rw [h1, h2, h3, h4, h5, recordText, payloadText]
    simp only [append_assoc, cons_append, nil_append]
    rfl
  obtain ⟨rest1, hrest1⟩ : ∃ l, text1 = '"' :: l := ⟨_, h1⟩
  -- there is fuel for the five members
  obtain ⟨fuel, hfuel⟩ : ∃ n, rest1.length = n + 4 := by
    refine ⟨rest1.length - 4, ?_⟩
    rw [hrest1] at h1
    rw [(List.cons.inj h1).2]
    simp only [length_append, length_cons]
    have hkey : (['t', 's'].flatMap minimalEscape).length = 2 := rfl
    omega
  have hdecode : decode ('\x7b' :: text1) =
      ((items (member (value (fuel + 5))) '\x7d' (fuel + 5) text1).map fun r => (Json.object r.1, r.2)) >>=
        fun r => if skipSpace r.2 = [] then some r.1 else none := by
    rw [hrest1]
    show ((bracketed (member (value (rest1.length + 1))) '\x7d' ('"' :: rest1)).map _ >>= _) = _
    rw [hfuel]
    show ((items _ _ (rest1.length + 1) _).map _ >>= _) = _
    rw [hfuel]
  have k1 : (['t', 's'] : List Char).any rawControl = false := rfl
  have k2 : (['t', 'a', 'g'] : List Char).any rawControl = false := rfl
  have k3 : (['c', 'o', 'd', 'e'] : List Char).any rawControl = false := rfl
  have k4 : (['m', 's', 'g'] : List Char).any rawControl = false := rfl
  have k5 : (['c', 'r', 'c', '3', '2', 'c'] : List Char).any rawControl = false := rfl
  have m1 := member_decimal k1 epochMs (d := ',') rfl text2 (fuel + 4)
  have m2 := member_string k2 s (',' :: text3) (fuel + 4)
  have m3 := member_decimal k3 code (d := ',') rfl text4 (fuel + 4)
  have m4 := member_string k4 t (',' :: text5) (fuel + 4)
  have m5 := member_decimal k5 crc32c (d := '\x7d') rfl [] (fuel + 4)
  rw [← h1] at m1
  rw [← h2] at m2
  rw [← h3] at m3
  rw [← h4] at m4
  rw [← h5] at m5
  rw [htext, hdecode, items_cons m1]
  by_cases hs : s.any rawControl = true
  · rw [if_pos hs] at m2
    rw [items_none m2, if_pos (.inl hs)]
    rfl
  rw [if_neg hs] at m2
  rw [items_cons m2, items_cons m3]
  by_cases ht : t.any rawControl = true
  · rw [if_pos ht] at m4
    rw [items_none m4, if_pos (.inr ht)]
    rfl
  rw [if_neg ht] at m4
  rw [items_cons m4, items_last (by decide) rfl m5, if_neg (not_or.mpr ⟨hs, ht⟩)]
  rfl

end

/-! ### Lines and checksums -/

theorem newline_notMem_minimalEscape (s : List Char) : '\n' ∉ s.flatMap minimalEscape := by
  rw [mem_flatMap]
  rintro ⟨c, -, hc⟩
  rw [minimalEscape] at hc
  split_ifs at hc with h1 h2 h3 h4 h5
  · exact absurd hc (by decide)
  · exact absurd hc (by decide)
  · exact absurd hc (by decide)
  · exact absurd hc (by decide)
  · exact absurd hc (by decide)
  · exact h3 (mem_singleton.mp hc).symm

theorem notMem_decimal {c : Char} (hdigit : c.isDigit = false) (hminus : c ≠ '-') (n : ℤ) : c ∉ decimal n := by
  intro hc
  rcases decimal_chars n c hc with h | h
  · rw [h] at hdigit
    cases hdigit
  · exact hminus h

theorem record_line (epochMs code : ℤ) (s t : List Char) (crc32c : ℤ) :
    10 ∉ bytesOf (recordText epochMs code s t crc32c) := by
  have hdecimal : ∀ n, '\n' ∉ decimal n := notMem_decimal (by decide) (by decide)
  have hchar : '\n' ∉ recordText epochMs code s t crc32c := by
    simp only [recordText, payloadText, mem_append, mem_cons, not_mem_nil, hdecimal,
      newline_notMem_minimalEscape, or_false, false_or]
    decide
  exact fun h => hchar ((byte_mem_bytesOf (c := '\n') (by decide) _).mp h)

theorem lastMember_comma {l tail : List UInt8} (h : 44 ∉ tail) :
    lastMember (l ++ 44 :: tail) = tail ∧ withoutLastMember (l ++ 44 :: tail) = l ++ [125] := by
  have hrev : (l ++ 44 :: tail).reverse = tail.reverse ++ 44 :: l.reverse := by
    rw [reverse_append, reverse_cons, append_assoc, singleton_append]
  have hall : ∀ b ∈ tail.reverse, decide (b ≠ 44) = true := by
    intro b hb
    rw [decide_eq_true_eq]
    rintro rfl
    exact h (mem_reverse.mp hb)
  rw [lastMember, withoutLastMember, hrev, takeWhile_append_of_pos hall, dropWhile_append_of_pos hall]
  constructor
  · show (tail.reverse ++ []).reverse = tail
    rw [append_nil, reverse_reverse]
  · show l.reverse.reverse ++ [125] = _
    rw [reverse_reverse]

theorem record_crc (epochMs code : ℤ) (s t : List Char) :
    let record := bytesOf (recordText epochMs code s t
      (crc32cCompute (bytesOf (payloadText epochMs code s t) ++ bytesOf ['\x7d'])).toNat)
    lastMember record = bytesOf ['"', 'c', 'r', 'c', '3', '2', 'c', '"', ':'] ++
      bytesOf (decimal (crc32cCompute (withoutLastMember record)).toNat) ++ bytesOf ['\x7d'] := by
  intro record
  obtain ⟨tail, htail⟩ : ∃ l, l = ['"', 'c', 'r', 'c', '3', '2', 'c', '"', ':'] ++
    (decimal (crc32cCompute (bytesOf (payloadText epochMs code s t) ++ bytesOf ['\x7d'])).toNat ++ ['\x7d']) :=
    ⟨_, rfl⟩
  have hrecord : record = bytesOf (payloadText epochMs code s t) ++ 44 :: bytesOf tail := by
    show bytesOf (recordText ..) = _
    rw [recordText, ← htail, bytesOf_append]
    rfl
  have hcomma : 44 ∉ bytesOf tail := by
    have hdecimal : ∀ n, ',' ∉ decimal n := notMem_decimal (by decide) (by decide)
    have hchar : ',' ∉ tail := by
      rw [htail]
      simp only [mem_append, mem_cons, not_mem_nil, hdecimal, or_false, false_or]
      decide
    exact fun h => hchar ((byte_mem_bytesOf (c := ',') (by decide) _).mp h)
  have hlast := lastMember_comma (l := bytesOf (payloadText epochMs code s t)) hcomma
  rw [hrecord, hlast.1, hlast.2, htail, bytesOf_append, bytesOf_append, append_assoc]
  rfl

/-! ### Faithful records -/

theorem any_rawControl_iff (s : List Char) :
    s.any rawControl = false ↔ ∀ b ∈ bytesOf s, b < 32 → b = 9 ∨ b = 10 ∨ b = 13 := by
  constructor
  · intro h b hb hlt
    obtain ⟨c, hc, hmem⟩ := mem_flatMap.mp hb
    rcases Utf8.encodeChar_cases c with ⟨h128, henc⟩ | ⟨-, -, hall⟩
    · rw [henc, mem_singleton] at hmem
      have hraw : rawControl c = false := by
        cases hraw : rawControl c with
        | false => rfl
        | true => rw [any_eq_true.mpr ⟨c, hc, hraw⟩] at h; cases h
      have hsmall : c.toNat < 0x20 := by
        rw [hmem, UInt8.lt_iff_toNat_lt, Utf8.toNat_byte (by omega)] at hlt
        exact hlt
      rw [hmem]
      by_cases h1 : c = '\n'
      · exact .inr (.inl (by rw [h1]; rfl))
      by_cases h2 : c = '\r'
      · exact .inr (.inr (by rw [h2]; rfl))
      by_cases h3 : c = '\t'
      · exact .inl (by rw [h3]; rfl)
      rw [rawControl, bne_iff_ne.mpr h1, bne_iff_ne.mpr h2, bne_iff_ne.mpr h3, decide_eq_true hsmall] at hraw
      cases hraw
    · exact absurd (UInt8.lt_of_le_of_lt (hall b hmem) hlt) (by decide)
  · intro h
    rw [any_eq_false]
    intro c hc hraw
    simp only [rawControl, Bool.and_eq_true, decide_eq_true_eq] at hraw
    obtain ⟨⟨⟨hlt, h1⟩, h2⟩, h3⟩ := hraw
    have hbyte : (UInt8.ofNat c.toNat).toNat = c.toNat := Utf8.toNat_byte (by omega)
    have hb := h _ ((byte_mem_bytesOf (by omega) s).mpr hc) (by
      rw [UInt8.lt_iff_toNat_lt, hbyte]
      exact hlt)
    have hnat : ∀ {d : Char} {n : UInt8}, n.toNat = d.toNat → UInt8.ofNat c.toNat = n → c = d := by
      rintro d n hn heq
      rw [← heq, hbyte] at hn
      exact Char.toNat_inj.mp hn
    rcases hb with heq | heq | heq
    · exact bne_iff_ne.mp h3 (hnat rfl heq)
    · exact bne_iff_ne.mp h1 (hnat rfl heq)
    · exact bne_iff_ne.mp h2 (hnat rfl heq)

theorem bsEvent_eq {path : List UInt8} (hpath : path ≠ []) (epochMs code : ℤ) (tag msg : List UInt8) :
    bsEvent path true epochMs (some tag) code (some msg) = recordOf (payload epochMs tag code (some msg)) ++ [10] := by
  show (if path = [] then _ else _) = _
  rw [if_neg hpath, if_pos rfl]

theorem record_faithful_iff {path : List UInt8} (hpath : path ≠ []) (epochMs code : ℤ) {s t : List Char}
    (hs : 0 ∉ bytesOf s) (ht : 0 ∉ bytesOf t) :
    (∃ record, bsEvent path true epochMs (some (bytesOf s)) code (some (bytesOf t)) = record ++ [10] ∧
        FaithfulRecord (bytesOf s) (bytesOf t) record) ↔
      s.any rawControl = false ∧ t.any rawControl = false := by
  obtain ⟨crc32c, hcrc⟩ : ∃ n : ℤ, n =
    (crc32cCompute (bytesOf (payloadText epochMs code s t) ++ bytesOf ['\x7d'])).toNat := ⟨_, rfl⟩
  have hevent : bsEvent path true epochMs (some (bytesOf s)) code (some (bytesOf t)) =
      bytesOf (recordText epochMs code s t crc32c) ++ [10] := by
    rw [bsEvent_eq hpath, recordOf_payload epochMs code s t hs ht, hcrc]
  have hdecode : decodeBytes (bytesOf (recordText epochMs code s t crc32c)) = _ :=
    (decodeBytes_utf8 _).trans (decode_recordText crc32c)
  rw [hevent]
  constructor
  · rintro ⟨record, hrecord, -, ⟨members, s', t', hjson, -⟩, -⟩
    rw [append_cancel_right hrecord] at hdecode
    rw [hjson] at hdecode
    by_cases hraw : s.any rawControl = true ∨ t.any rawControl = true
    · rw [if_pos hraw] at hdecode
      cases hdecode
    · obtain ⟨hs', ht'⟩ := not_or.mp hraw
      exact ⟨Bool.eq_false_iff.mpr hs', Bool.eq_false_iff.mpr ht'⟩
  · rintro ⟨hs', ht'⟩
    rw [if_neg (by rw [hs', ht']; decide)] at hdecode
    refine ⟨_, rfl, record_line epochMs code s t crc32c, ⟨_, s, t, hdecode, rfl, rfl, rfl, rfl⟩, ?_⟩
    rw [hcrc]
    exact record_crc epochMs code s t

/-- **A record is faithful exactly when the only bytes below 32 are tabs and line ends.** -/
theorem bs_event_faithful_iff {path : List UInt8} (hpath : path ≠ []) (epochMs code : ℤ) {tag msg : List UInt8}
    (htag : Utf8.Valid tag) (hmsg : Utf8.Valid msg) (htag0 : 0 ∉ tag) (hmsg0 : 0 ∉ msg) :
    (∃ record, bsEvent path true epochMs (some tag) code (some msg) = record ++ [10] ∧
        FaithfulRecord tag msg record) ↔
      ∀ b ∈ tag ++ msg, b < 32 → b = 9 ∨ b = 10 ∨ b = 13 := by
  obtain ⟨s, rfl⟩ := htag
  obtain ⟨t, rfl⟩ := hmsg
  have hiff := record_faithful_iff hpath epochMs code htag0 hmsg0
  rw [any_rawControl_iff, any_rawControl_iff, ← forall_mem_append] at hiff
  exact hiff

/-- A message with a quotation mark, a tab and a line end. -/
theorem bs_event_faithful_lines :
    ∃ record, bsEvent [108, 111, 103] true 0 (some [116]) 0 (some [34, 9, 10]) = record ++ [10] ∧
      FaithfulRecord [116] [34, 9, 10] record :=
  (bs_event_faithful_iff (by decide) 0 0 ⟨['t'], rfl⟩ ⟨['"', '\t', '\n'], rfl⟩ (by decide)
    (by decide)).mpr (by decide +kernel)

/-- The record of a message with the control character 1 is not JSON. -/
theorem control_character_not_json :
    ¬ ∃ record, bsEvent [108, 111, 103] true 0 (some [116]) 0 (some [1]) = record ++ [10] ∧
      FaithfulRecord [116] [1] record := by
  intro h
  have htexts := (record_faithful_iff (by decide) 0 0 (s := ['t']) (t := [Char.ofNat 1])
    (by decide) (by decide)).mp h
  exact absurd htexts.2 (by decide)

end Integrity
