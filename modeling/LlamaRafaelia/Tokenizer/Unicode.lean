import Mathlib.Data.Nat.Notation
import Mathlib.Data.List.Basic
import Mathlib.Tactic.Common
import Mathlib.Order.Basic
import Mathlib.Algebra.Order.Group.Nat
import Mathlib.Algebra.GroupWithZero.Nat

/-!
# UTF-8 in the tokenizers

`unicode_cpts_from_utf8` decodes any byte string: where no sequence starts it puts the replacement character.  It only
looks at the form of a sequence, and four bytes may encode more than `0x10FFFF`, for which `unicode_cpt_to_utf8`
throws.

* **`decode_exact`** — the code points are at most `0x10FFFF` and nothing escapes from the splitting exactly if the
  text has no such four bytes; and decoding what was encoded gives the code points back.
-/

namespace Unicode

open List

/-! ### Decoding -/

/-- `unicode_len_utf8`. -/
def lenUtf8 (src : UInt8) : ℕ := [1, 1, 1, 1, 1, 1, 1, 1, 1, 1, 1, 1, 2, 2, 3, 4].getD (src.toNat / 16) 0

theorem lenUtf8_pos (b : UInt8) : 0 < lenUtf8 b := by
  have hnibble : b.toNat / 16 < 16 := by
    have := b.toNat_lt
    omega
  have hall : ∀ k < 16, 0 < [1, 1, 1, 1, 1, 1, 1, 1, 1, 1, 1, 1, 2, 2, 3, 4].getD k 0 := by decide
  exact hall _ hnibble

/-- `(b & 0xc0) == 0x80`. -/
def isCont (b : UInt8) : Bool := 128 ≤ b.toNat ∧ b.toNat < 192

/-- `unicode_cpt_from_utf8` at the first byte: the code point and the number of bytes; `none` is
`std::invalid_argument`. -/
def cptFromUtf8 : List UInt8 → Option (ℕ × ℕ)
  | [] => none
  | b0 :: bs =>
    if b0.toNat < 128 then some (b0.toNat, 1)
    else if b0.toNat < 192 then none
    else if b0.toNat < 224 then
      match bs with
      | b1 :: _ => if isCont b1 then some (b0.toNat % 32 * 64 + b1.toNat % 64, 2) else none
      | _ => none
    else if b0.toNat < 240 then
      match bs with
      | b1 :: b2 :: _ =>
        if isCont b1 ∧ isCont b2 then some (b0.toNat % 16 * 4096 + b1.toNat % 64 * 64 + b2.toNat % 64, 3) else none
      | _ => none
    else if b0.toNat < 248 then
      match bs with
      | b1 :: b2 :: b3 :: _ =>
        if isCont b1 ∧ isCont b2 ∧ isCont b3 then
          some (b0.toNat % 8 * 262144 + b1.toNat % 64 * 4096 + b2.toNat % 64 * 64 + b3.toNat % 64, 4)
        else none
      | _ => none
    else none

/-- The loop of `unicode_cpts_from_utf8`.  Every round takes a byte, so there are at most `fuel` of them. -/
def cptsLoop : ℕ → List UInt8 → List ℕ
  | 0, _ => []
  | _ + 1, [] => []
  | fuel + 1, b :: bs =>
    match cptFromUtf8 (b :: bs) with
    | some (cpt, n) => cpt :: cptsLoop fuel ((b :: bs).drop n)
    -- silently ignore invalid UTF-8 input
    | none => 0xFFFD :: cptsLoop fuel bs

/-- `unicode_cpts_from_utf8`. -/
def cptsFromUtf8 (utf8 : List UInt8) : List ℕ := cptsLoop utf8.length utf8

/-! ### Encoding -/

/-- What the functions below throw. -/
inductive Throw where
  | invalidArgument
  | runtimeError
  deriving DecidableEq, Repr

/-- `unicode_cpt_to_utf8`. -/
def cptToUtf8 (cpt : ℕ) : Except Throw (List UInt8) :=
  if cpt ≤ 0x7f then .ok [UInt8.ofNat cpt]
  else if cpt ≤ 0x7ff then .ok [UInt8.ofNat (0xc0 + cpt / 64 % 32), UInt8.ofNat (0x80 + cpt % 64)]
  else if cpt ≤ 0xffff then
    .ok [UInt8.ofNat (0xe0 + cpt / 4096 % 16), UInt8.ofNat (0x80 + cpt / 64 % 64), UInt8.ofNat (0x80 + cpt % 64)]
  else if cpt ≤ 0x10ffff then
    .ok [UInt8.ofNat (0xf0 + cpt / 262144 % 8), UInt8.ofNat (0x80 + cpt / 4096 % 64),
      UInt8.ofNat (0x80 + cpt / 64 % 64), UInt8.ofNat (0x80 + cpt % 64)]
  else .error .invalidArgument

/-- `unicode_cpts_to_utf8`. -/
def cptsToUtf8 (cpts : List ℕ) : Except Throw (List UInt8) :=
  cpts.foldlM (fun result cpt => do
    let enc ← cptToUtf8 cpt
    return result ++ enc) []

/-- A byte whose character `unicode_byte_to_utf8_map` keeps. -/
def isPrintable (ch : ℕ) : Bool := (0x21 ≤ ch ∧ ch ≤ 0x7E) ∨ (0xA1 ≤ ch ∧ ch ≤ 0xAC) ∨ (0xAE ≤ ch ∧ ch ≤ 0xFF)

/-- The code point that stands for a byte: its own, or the next one from 256 on. -/
def byteToCpt (byte : ℕ) : ℕ :=
  if isPrintable byte then byte else 256 + ((List.range byte).filter fun ch => ¬ isPrintable ch).length

/-- `unicode_byte_to_utf8`. -/
def byteToUtf8 (byte : UInt8) : Except Throw (List UInt8) := cptToUtf8 (byteToCpt byte.toNat)

/-! ### Splitting -/

/-- How the text is cut for one regular expression (`unicode_regex_split_custom` and `unicode_regex_split_stl`): from
the lengths of the parts so far to those of their parts.  `none` is an error of the regular expression. -/
structure Splitter where
  split : String → List ℕ → List ℕ → Option (List ℕ)

/-- The loop of `unicode_regex_split` over the regular expressions. -/
def splitLoop (sp : Splitter) (cpts : List ℕ) : List String → List ℕ → Except Throw (List ℕ)
  | [], offsets => .ok offsets
  | regex :: regexes, offsets =>
    match sp.split regex cpts offsets with
    | some offsets' => splitLoop sp cpts regexes offsets'
    | none => .error .runtimeError

/-- The last loop of `unicode_regex_split`: the words, from code point `start` on. -/
def wordsLoop (cpts : List ℕ) : List ℕ → ℕ → Except Throw (List (List UInt8))
  | [], _ => .ok []
  | offset :: offsets, start => do
    let word ← cptsToUtf8 ((cpts.drop start).take offset)
    let words ← wordsLoop cpts offsets (start + offset)
    return word :: words

/-- `unicode_byte_encoding_process` of a word. -/
def encodeWord (word : List UInt8) : Except Throw (List UInt8) := do
  let textUtf ← cptsToUtf8 (cptsFromUtf8 word)
  textUtf.foldlM (fun encoded c => do
    let enc ← byteToUtf8 c
    return encoded ++ enc) []

/-- `unicode_regex_split`. -/
def regexSplit (sp : Splitter) (text : List UInt8) (regexes : List String) : Except Throw (List (List UInt8)) := do
  let cpts := cptsFromUtf8 text
  let offsets ← splitLoop sp cpts regexes [cpts.length]
  let words ← wordsLoop cpts offsets 0
  words.mapM encodeWord

/-! ### The decoder -/

/-- Four bytes that have the form of a sequence and encode more than `0x10FFFF`. -/
def beyondAt : List UInt8 → Bool
  | b0 :: b1 :: b2 :: b3 :: _ =>
    (b0.toNat = 0xF4 ∧ 0x90 ≤ b1.toNat ∨ 0xF5 ≤ b0.toNat ∧ b0.toNat ≤ 0xF7) ∧ isCont b1 ∧ isCont b2 ∧ isCont b3
  | _ => false

theorem cptFromUtf8_spec {b0 : UInt8} {bs : List UInt8} {c n : ℕ} (h : cptFromUtf8 (b0 :: bs) = some (c, n)) :
    ∃ m, n = m + 1 ∧ (∀ b ∈ bs.take m, isCont b = true) ∧ (0x10FFFF < c → beyondAt (b0 :: bs) = true) := by
  unfold cptFromUtf8 at h
  dsimp only at h
  split at h
  · obtain ⟨rfl, rfl⟩ := Prod.mk.inj (Option.some.inj h)
    exact ⟨0, rfl, by simp, fun hc => by omega⟩
  split at h
  · cases h
  split at h
  · split at h
    · split at h
      · next hcont =>
        obtain ⟨rfl, rfl⟩ := Prod.mk.inj (Option.some.inj h)
        exact ⟨1, rfl, by simpa using hcont, fun hc => by omega⟩
      · cases h
    · cases h
  split at h
  · split at h
    · split at h
      · next hcont =>
        obtain ⟨rfl, rfl⟩ := Prod.mk.inj (Option.some.inj h)
        exact ⟨2, rfl, by simpa using hcont, fun hc => by omega⟩
      · cases h
    · cases h
  split at h
  · split at h
    · next b1 b2 b3 rest =>
      split at h
      · next hcont =>
        obtain ⟨rfl, rfl⟩ := Prod.mk.inj (Option.some.inj h)
        refine ⟨3, rfl, by simpa using hcont, fun hc => ?_⟩
        have hb1 : 128 ≤ b1.toNat ∧ b1.toNat < 192 := by simpa [isCont] using hcont.1
        simp only [beyondAt, hcont.1, hcont.2.1, hcont.2.2, and_true, decide_eq_true_eq]
        omega
      · cases h
    · cases h
  · cases h

theorem cptFromUtf8_beyond {bs : List UInt8} (h : beyondAt bs = true) :
    ∃ c, cptFromUtf8 bs = some (c, 4) ∧ 0x10FFFF < c := by
  match bs, h with
  | b0 :: b1 :: b2 :: b3 :: rest, h =>
    simp only [beyondAt, decide_eq_true_eq] at h
    obtain ⟨hlead, h1, h2, h3⟩ := h
    have hb1 : 128 ≤ b1.toNat ∧ b1.toNat < 192 := by simpa [isCont] using h1
    refine ⟨b0.toNat % 8 * 262144 + b1.toNat % 64 * 4096 + b2.toNat % 64 * 64 + b3.toNat % 64, ?_, by omega⟩
    simp only [cptFromUtf8, h1, h2, h3, and_self, if_true]
    rw [if_neg (by omega), if_neg (by omega), if_neg (by omega), if_neg (by omega), if_pos (by omega)]

theorem cptsLoop_fuel {fuel : ℕ} {bs : List UInt8} (h : bs.length ≤ fuel) : cptsLoop fuel bs = cptsFromUtf8 bs := by
  unfold cptsFromUtf8
  induction hn : bs.length using Nat.strong_induction_on generalizing fuel bs with
  | _ n ih =>
    cases bs with
    | nil =>
      subst hn
      cases fuel <;> rfl
    | cons b bs =>
      obtain ⟨fuel, rfl⟩ := Nat.exists_eq_add_of_le' (le_trans (by simp) h : 1 ≤ fuel)
      subst hn
      simp only [length_cons] at h ih ⊢
      rw [cptsLoop, cptsLoop]
      cases hdec : cptFromUtf8 (b :: bs) with
      | none =>
        dsimp only
        rw [ih bs.length (by omega) (by omega) rfl]
      | some r =>
        obtain ⟨m, hm, -⟩ := cptFromUtf8_spec hdec
        have hlen : ((b :: bs).drop r.2).length ≤ bs.length := by
          rw [length_drop, length_cons]
          omega
        dsimp only
        rw [ih _ (by omega) (by omega) rfl, ih _ (by omega) hlen rfl]

theorem cptsFromUtf8_cons (b : UInt8) (bs : List UInt8) :
    cptsFromUtf8 (b :: bs) = match cptFromUtf8 (b :: bs) with
      | some (cpt, n) => cpt :: cptsFromUtf8 ((b :: bs).drop n)
      | none => 0xFFFD :: cptsFromUtf8 bs := by
  conv_lhs => rw [cptsFromUtf8, length_cons, cptsLoop]
  cases hdec : cptFromUtf8 (b :: bs) with
  | none => rw [cptsLoop_fuel le_rfl]
  | some r =>
    obtain ⟨m, hm, -⟩ := cptFromUtf8_spec hdec
    have hlen : ((b :: bs).drop r.2).length ≤ bs.length := by
      rw [length_drop, length_cons]
      omega
    dsimp only
    rw [cptsLoop_fuel hlen]

theorem beyondAt_not_cont {b : UInt8} {bs : List UInt8} (h : beyondAt (b :: bs) = true) : isCont b = false := by
  match bs, h with
  | b1 :: b2 :: b3 :: rest, h =>
    simp only [beyondAt, decide_eq_true_eq] at h
    simp only [isCont, decide_eq_false_iff_not]
    omega

theorem exists_beyond_iff (bs : List UInt8) :
    (∃ c ∈ cptsFromUtf8 bs, 0x10FFFF < c) ↔ ∃ i, beyondAt (bs.drop i) = true := by
  induction hn : bs.length using Nat.strong_induction_on generalizing bs with
  | _ n ih =>
    cases bs with
    | nil => simp [cptsFromUtf8, cptsLoop, beyondAt]
    | cons b bs =>
      subst hn
      rw [cptsFromUtf8_cons]
      cases hdec : cptFromUtf8 (b :: bs) with
      | none =>
        have hhead : beyondAt (b :: bs) = false := by
          by_contra hb
          obtain ⟨c, hc, -⟩ := cptFromUtf8_beyond (Bool.eq_true_of_not_eq_false hb)
          rw [hdec] at hc
          cases hc
        have hrest := ih bs.length (by simp) bs rfl
        simp only [mem_cons, exists_eq_or_imp, hrest]
        constructor
        · rintro (hc | ⟨i, hi⟩)
          · omega
          · exact ⟨i + 1, hi⟩
        · rintro ⟨i, hi⟩
          cases i with
          | zero => exact absurd hi (by rw [drop_zero, hhead]; decide)
          | succ i => exact Or.inr ⟨i, hi⟩
      | some r =>
        obtain ⟨m, hm, hcont, hlarge⟩ := cptFromUtf8_spec hdec
        have hlen : ((b :: bs).drop r.2).length < (b :: bs).length := by
          rw [length_drop, length_cons]
          omega
        have hrest := ih _ hlen ((b :: bs).drop r.2) rfl
        simp only [mem_cons, exists_eq_or_imp, hrest]
        constructor
        · rintro (hc | ⟨i, hi⟩)
          · exact ⟨0, hlarge hc⟩
          · exact ⟨r.2 + i, by rw [← drop_drop]; exact hi⟩
        · rintro ⟨i, hi⟩
          -- the four bytes start here, or not before the next sequence
          cases i with
          | zero =>
            obtain ⟨c, hc, hbig⟩ := cptFromUtf8_beyond hi
            rw [drop_zero, hdec] at hc
            rw [Option.some.inj hc]
            exact Or.inl hbig
          | succ i =>
            have hge : m ≤ i := by
              by_contra hlt
              rw [drop_succ_cons] at hi
              cases hdrop : bs.drop i with
              | nil =>
                rw [hdrop] at hi
                cases hi
              | cons b' bs' =>
                rw [hdrop] at hi
                have hmem : b' ∈ bs.take m := by
                  have hget : bs[i]? = some b' := by rw [← head?_drop, hdrop]; rfl
                  rw [mem_iff_getElem?]
                  exact ⟨i, by rw [getElem?_take_of_lt (by omega), hget]⟩
                exact absurd (hcont b' hmem) (by rw [beyondAt_not_cont hi]; decide)
            refine Or.inr ⟨i - m, ?_⟩
            rw [drop_drop, hm, show m + 1 + (i - m) = i + 1 by omega]
            exact hi

/-! ### The encoder -/

theorem cptToUtf8_spec {c : ℕ} (h : c ≤ 0x10FFFF) :
    ∃ enc, cptToUtf8 c = .ok enc ∧ ∀ rest, cptFromUtf8 (enc ++ rest) = some (c, enc.length) := by
  have hbyte : ∀ n, n < 256 → (UInt8.ofNat n).toNat = n := fun n hn => UInt8.toNat_ofNat_of_lt' hn
  have hcont : ∀ n, isCont (UInt8.ofNat (0x80 + n % 64)) = true := by
    intro n
    simp only [isCont, hbyte (0x80 + n % 64) (by omega), decide_eq_true_eq]
    omega
  unfold cptToUtf8
  split
  · refine ⟨_, rfl, fun rest => ?_⟩
    simp only [cons_append, nil_append, cptFromUtf8, length_cons, length_nil]
    rw [hbyte c (by omega), if_pos (by omega)]
  split
  · refine ⟨_, rfl, fun rest => ?_⟩
    simp only [cons_append, nil_append, cptFromUtf8, length_cons, length_nil, hcont, if_true]
    rw [hbyte (0xc0 + c / 64 % 32) (by omega), hbyte (0x80 + c % 64) (by omega), if_neg (by omega), if_neg (by omega),
      if_pos (by omega), Option.some.injEq, Prod.mk.injEq]
    omega
  split
  · refine ⟨_, rfl, fun rest => ?_⟩
    simp only [cons_append, nil_append, cptFromUtf8, length_cons, length_nil, hcont, if_true,
      and_self]
    rw [hbyte (0xe0 + c / 4096 % 16) (by omega), hbyte (0x80 + c / 64 % 64) (by omega),
      hbyte (0x80 + c % 64) (by omega), if_neg (by omega), if_neg (by omega), if_neg (by omega), if_pos (by omega),
      Option.some.injEq, Prod.mk.injEq]
    omega
  · refine ⟨_, rfl, fun rest => ?_⟩
    simp only [cons_append, nil_append, cptFromUtf8, length_cons, length_nil, hcont, if_true,
      and_self]
    rw [hbyte (0xf0 + c / 262144 % 8) (by omega), hbyte (0x80 + c / 4096 % 64) (by omega),
      hbyte (0x80 + c / 64 % 64) (by omega), hbyte (0x80 + c % 64) (by omega), if_neg (by omega), if_neg (by omega),
      if_neg (by omega), if_neg (by omega), if_pos (by omega), Option.some.injEq, Prod.mk.injEq]
    omega

def encoding (cpt : ℕ) : List UInt8 :=
  match cptToUtf8 cpt with
  | .ok enc => enc
  | .error _ => []

theorem cptToUtf8_eq {c : ℕ} (h : c ≤ 0x10FFFF) : cptToUtf8 c = .ok (encoding c) := by
  obtain ⟨enc, henc, -⟩ := cptToUtf8_spec h
  rw [encoding, henc]

theorem cptFromUtf8_encoding {c : ℕ} (h : c ≤ 0x10FFFF) (rest : List UInt8) :
    cptFromUtf8 (encoding c ++ rest) = some (c, (encoding c).length) := by
  obtain ⟨enc, henc, hdec⟩ := cptToUtf8_spec h
  rw [encoding, henc]
  exact hdec rest

theorem foldlM_append {α : Type} {f : α → Except Throw (List UInt8)} {g : α → List UInt8} {l : List α}
    (h : ∀ x ∈ l, f x = .ok (g x)) (acc : List UInt8) :
    l.foldlM (fun result x => do
      let enc ← f x
      return result ++ enc) acc = .ok (acc ++ l.flatMap g) := by
  induction l generalizing acc with
  | nil =>
    rw [flatMap_nil, append_nil]
    rfl
  | cons x l ih =>
    rw [foldlM_cons, h x mem_cons_self]
    show l.foldlM _ (acc ++ g x) = _
    rw [ih (fun y hy => h y (mem_cons_of_mem x hy)), flatMap_cons, append_assoc]

theorem cptsToUtf8_eq {cpts : List ℕ} (h : ∀ c ∈ cpts, c ≤ 0x10FFFF) :
    cptsToUtf8 cpts = .ok (cpts.flatMap encoding) := by
  rw [cptsToUtf8, foldlM_append fun c hc => cptToUtf8_eq (h c hc), nil_append]

theorem cptsFromUtf8_encoding {cpts : List ℕ} (h : ∀ c ∈ cpts, c ≤ 0x10FFFF) :
    cptsFromUtf8 (cpts.flatMap encoding) = cpts := by
  induction cpts with
  | nil => rfl
  | cons c cpts ih =>
    have hdec := cptFromUtf8_encoding (h c mem_cons_self) (cpts.flatMap encoding)
    rw [flatMap_cons]
    cases henc : encoding c with
    | nil =>
      -- an encoding has at least one byte
      rw [henc, nil_append] at hdec
      cases hbytes : cpts.flatMap encoding with
      | nil => rw [hbytes] at hdec; cases hdec
      | cons b bs =>
        rw [hbytes] at hdec
        obtain ⟨m, hm, -⟩ := cptFromUtf8_spec hdec
        cases hm
    | cons b bs =>
      rw [henc, cons_append] at hdec
      rw [cons_append, cptsFromUtf8_cons, hdec]
      dsimp only
      rw [← cons_append, drop_left, ih fun x hx => h x (mem_cons_of_mem c hx)]

/-! ### The words -/

theorem byteToCpt_le (byte : UInt8) : byteToCpt byte.toNat ≤ 0x10FFFF := by
  have hbyte := byte.toNat_lt
  unfold byteToCpt
  split
  · omega
  · have hlen := length_filter_le (fun ch => decide (¬ isPrintable ch = true)) (List.range byte.toNat)
    rw [length_range] at hlen
    omega

def byteEncoding (bytes : List UInt8) : List UInt8 := bytes.flatMap fun b => encoding (byteToCpt b.toNat)

theorem encodeWord_eq {cpts : List ℕ} (h : ∀ c ∈ cpts, c ≤ 0x10FFFF) :
    encodeWord (cpts.flatMap encoding) = .ok (byteEncoding (cpts.flatMap encoding)) := by
  unfold encodeWord
  rw [cptsFromUtf8_encoding h, cptsToUtf8_eq h]
  have hbytes : ∀ b ∈ cpts.flatMap encoding, byteToUtf8 b = .ok (encoding (byteToCpt b.toNat)) := fun b _ =>
    cptToUtf8_eq (byteToCpt_le b)
  show (cpts.flatMap encoding).foldlM _ [] = _
  rw [foldlM_append hbytes, nil_append]
  rfl

def chunks {α : Type} : List α → List ℕ → List (List α)
  | _, [] => []
  | l, n :: ns => l.take n :: chunks (l.drop n) ns

theorem mem_chunks {α : Type} {l : List α} {ns : List ℕ} {chunk : List α} (h : chunk ∈ chunks l ns) {x : α}
    (hx : x ∈ chunk) : x ∈ l := by
  induction ns generalizing l with
  | nil => cases h
  | cons n ns ih =>
    rcases mem_cons.mp h with rfl | h
    · exact mem_of_mem_take hx
    · exact mem_of_mem_drop (ih h)

theorem wordsLoop_eq {cpts : List ℕ} (h : ∀ c ∈ cpts, c ≤ 0x10FFFF) (offsets : List ℕ) (start : ℕ) :
    wordsLoop cpts offsets start = .ok ((chunks (cpts.drop start) offsets).map fun chunk => chunk.flatMap encoding) := by
  induction offsets generalizing start with
  | nil => rfl
  | cons offset offsets ih =>
    rw [wordsLoop, cptsToUtf8_eq fun c hc => h c (mem_of_mem_drop (mem_of_mem_take hc)), ih]
    rw [chunks, drop_drop]
    rfl

theorem mapM_eq {α β ε : Type} {f : α → Except ε β} {g : α → β} {l : List α} (h : ∀ x ∈ l, f x = .ok (g x)) :
    l.mapM f = .ok (l.map g) := by
  induction l with
  | nil => rfl
  | cons x l ih =>
    rw [mapM_cons, h x mem_cons_self, ih fun y hy => h y (mem_cons_of_mem x hy)]
    rfl

/-- **The words of a text** without such four bytes: its code points, cut and encoded. -/
theorem regexSplit_eq {text : List UInt8} (h : ∀ c ∈ cptsFromUtf8 text, c ≤ 0x10FFFF) (sp : Splitter)
    (regexes : List String) :
    regexSplit sp text regexes = (splitLoop sp (cptsFromUtf8 text) regexes [(cptsFromUtf8 text).length]).map
      fun offsets => (chunks (cptsFromUtf8 text) offsets).map fun chunk => byteEncoding (chunk.flatMap encoding) := by
  unfold regexSplit
  dsimp only
  cases hsplit : splitLoop sp (cptsFromUtf8 text) regexes [(cptsFromUtf8 text).length] with
  | error e => rfl
  | ok offsets =>
    show (wordsLoop (cptsFromUtf8 text) offsets 0 >>= fun words => words.mapM encodeWord) = _
    rw [wordsLoop_eq h, drop_zero]
    show ((chunks (cptsFromUtf8 text) offsets).map fun chunk => chunk.flatMap encoding).mapM encodeWord = _
    have hwords : ∀ chunk ∈ chunks (cptsFromUtf8 text) offsets, (encodeWord ∘ fun chunk => chunk.flatMap encoding) chunk
        = .ok (byteEncoding (chunk.flatMap encoding)) := fun chunk hchunk =>
      encodeWord_eq fun c hc => h c (mem_chunks hchunk hc)
    rw [mapM_map, mapM_eq hwords]
    rfl

theorem splitLoop_ne_invalid (sp : Splitter) (cpts : List ℕ) (regexes : List String) (offsets : List ℕ) :
    splitLoop sp cpts regexes offsets ≠ .error .invalidArgument := by
  induction regexes generalizing offsets with
  | nil => simp [splitLoop]
  | cons regex regexes ih =>
    rw [splitLoop]
    split
    · exact ih _
    · simp

/-- **What the decoder keeps in bounds.**  The code points are at most `0x10FFFF`, and no `std::invalid_argument`
escapes from the splitting, exactly if no four bytes of the text are `F4 90..BF` or `F5..F7 80..BF` and two
continuation bytes.  Decoding encoded code points always gives them back. -/
theorem decode_exact (text : List UInt8) :
    ((∀ c ∈ cptsFromUtf8 text, c ≤ 0x10FFFF) ∧
        (∀ sp regexes, regexSplit sp text regexes ≠ .error .invalidArgument) ↔
      ¬ ∃ i, beyondAt (text.drop i) = true) ∧
      ∀ cpts : List ℕ, (∀ c ∈ cpts, c ≤ 0x10FFFF) →
        ∃ utf8, cptsToUtf8 cpts = .ok utf8 ∧ cptsFromUtf8 utf8 = cpts := by
  refine ⟨?_, fun cpts h => ⟨_, cptsToUtf8_eq h, cptsFromUtf8_encoding h⟩⟩
  rw [← exists_beyond_iff]
  constructor
  · rintro ⟨hle, -⟩ ⟨c, hc, hbig⟩
    exact absurd (hle c hc) (not_le.mpr hbig)
  · intro hno
    have hle : ∀ c ∈ cptsFromUtf8 text, c ≤ 0x10FFFF := fun c hc => not_lt.mp fun hbig => hno ⟨c, hc, hbig⟩
    refine ⟨hle, fun sp regexes => ?_⟩
    rw [regexSplit_eq hle]
    have hloop := splitLoop_ne_invalid sp (cptsFromUtf8 text) regexes [(cptsFromUtf8 text).length]
    cases hsplit : splitLoop sp (cptsFromUtf8 text) regexes [(cptsFromUtf8 text).length] with
    | error e =>
      rw [hsplit] at hloop
      simpa [Except.map] using hloop
    | ok offsets => simp [Except.map]

theorem decode_exact_euro : ∃ utf8, cptsToUtf8 [0x20AC] = .ok utf8 ∧ cptsFromUtf8 utf8 = [0x20AC] :=
  (decode_exact []).2 [0x20AC] (by decide)

def wholeSplitter : Splitter := ⟨fun _ _ offsets => some offsets⟩

/-- `F4 90 80 80` decodes to `0x110000`, and splitting it throws. -/
theorem beyond_escapes : cptsFromUtf8 [0xF4, 0x90, 0x80, 0x80] = [0x110000] ∧
    regexSplit wholeSplitter [0xF4, 0x90, 0x80, 0x80] [] = .error .invalidArgument := by
  constructor
  · decide
  · decide

end Unicode
