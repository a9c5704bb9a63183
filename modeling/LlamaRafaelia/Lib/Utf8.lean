import Mathlib.Data.List.Infix
import Mathlib.Tactic.Common
import Mathlib.Tactic.SplitIfs

/-!
# Texts that are cut inside a character

A text is `Valid` if it is the UTF-8 encoding of some characters.  A prefix of it is a valid text and behind that perhaps a
`Partial` character: a first byte with fewer bytes behind it than it asks for.

* `Utf8.exists_part` - **a prefix of a valid text** is a valid text and at most one partial character.
-/

namespace Utf8

open List

def Valid (bs : List UInt8) : Prop := ∃ s : List Char, bs = s.flatMap String.utf8EncodeChar

/-- How many bytes the character has that begins with the byte; zero for a byte with which none begins. -/
def width (b : UInt8) : ℕ :=
  if b.toNat < 128 then 1
  else if b.toNat / 32 = 6 then 2
  else if b.toNat / 16 = 14 then 3
  else if b.toNat / 8 = 30 then 4
  else 0

def Tail (b : UInt8) : Prop := b.toNat / 64 = 2

def Partial (part : List UInt8) : Prop :=
  ∃ b bs, part = b :: bs ∧ (∀ x ∈ bs, Tail x) ∧ bs.length + 1 < width b

/-- The longest valid prefix. -/
structure WholeChars (v t : List UInt8) : Prop where
  isPrefix : v <+: t
  valid : Valid v
  longest : ∀ v', v' <+: t → Valid v' → v'.length ≤ v.length

theorem Valid.nil : Valid [] := ⟨[], rfl⟩

theorem Valid.append {v w : List UInt8} (hv : Valid v) (hw : Valid w) : Valid (v ++ w) := by
  obtain ⟨s, rfl⟩ := hv
  obtain ⟨s', rfl⟩ := hw
  exact ⟨s ++ s', (flatMap_append).symm⟩

theorem valid_encodeChar (c : Char) : Valid (String.utf8EncodeChar c) := ⟨[c], by rw [flatMap_singleton]⟩

theorem width_tail {b : UInt8} (h : Tail b) : width b = 0 := by
  rw [Tail] at h
  rw [width, if_neg (by omega), if_neg (by omega), if_neg (by omega), if_neg (by omega)]

theorem toNat_byte {n : ℕ} (h : n < 256) : (UInt8.ofNat n).toNat = n := by
  rw [UInt8.toNat_ofNat', Nat.mod_eq_of_lt h]

theorem le_byte {n : ℕ} (h : n < 256) (h' : 128 ≤ n) : 128 ≤ UInt8.ofNat n := by
  rw [UInt8.le_iff_toNat_le, toNat_byte h]
  exact h'

theorem encodeChar_cases (c : Char) :
    (c.toNat < 128 ∧ String.utf8EncodeChar c = [UInt8.ofNat c.toNat]) ∨
      (128 ≤ c.toNat ∧ String.utf8EncodeChar c ≠ [] ∧ ∀ b ∈ String.utf8EncodeChar c, 128 ≤ b) := by
  have hval : c.val.toNat = c.toNat := rfl
  rw [String.utf8EncodeChar]
  rw [hval]
  split_ifs with h1 h2 h3
  · exact .inl ⟨by omega, rfl⟩
  all_goals
    refine .inr ⟨by omega, cons_ne_nil _ _, fun b hb => ?_⟩
    simp only [mem_cons, not_mem_nil, or_false] at hb
  · rcases hb with rfl | rfl <;> exact le_byte (by omega) (by omega)
  · rcases hb with rfl | rfl | rfl <;> exact le_byte (by omega) (by omega)
  · rcases hb with rfl | rfl | rfl | rfl <;> exact le_byte (by omega) (by omega)

theorem tail_byte (n : ℕ) : Tail (UInt8.ofNat (n % 64 + 0x80)) := by
  rw [Tail, toNat_byte (by omega)]
  omega

theorem encodeChar_shape (c : Char) :
    ∃ b bs, String.utf8EncodeChar c = b :: bs ∧ width b = bs.length + 1 ∧ ∀ x ∈ bs, Tail x := by
  have hmax : c.val.toNat < 0x110000 := by
    obtain h | h := c.valid
    · exact Nat.lt_trans h (by decide)
    · exact h.2
  rw [String.utf8EncodeChar]
  split_ifs with h1 h2 h3
  · refine ⟨_, _, rfl, ?_, by simp⟩
    rw [width, toNat_byte (by omega), if_pos (by omega)]
    rfl
  · refine ⟨_, _, rfl, ?_, forall_mem_singleton.mpr (tail_byte _)⟩
    rw [width, toNat_byte (by omega), if_neg (by omega), if_pos (by omega)]
    rfl
  · refine ⟨_, _, rfl, ?_, forall_mem_cons.mpr ⟨tail_byte _, forall_mem_singleton.mpr (tail_byte _)⟩⟩
    rw [width, toNat_byte (by omega), if_neg (by omega), if_neg (by omega), if_pos (by omega)]
    rfl
  · refine ⟨_, _, rfl, ?_, forall_mem_cons.mpr ⟨tail_byte _, forall_mem_cons.mpr ⟨tail_byte _,
      forall_mem_singleton.mpr (tail_byte _)⟩⟩⟩
    rw [width, toNat_byte (by omega), if_neg (by omega), if_neg (by omega), if_neg (by omega), if_pos (by omega)]
    rfl

theorem partial_of_part {c : Char} {part : List UInt8} (h : part <+: String.utf8EncodeChar c) (hne : part ≠ [])
    (hcut : part.length < (String.utf8EncodeChar c).length) : Partial part := by
  obtain ⟨b, bs, henc, hwidth, htail⟩ := encodeChar_shape c
  rw [henc] at h hcut
  cases part with
  | nil => exact absurd rfl hne
  | cons x part =>
    obtain ⟨rfl, hpart⟩ := cons_prefix_cons.mp h
    refine ⟨x, part, rfl, fun y hy => htail y (hpart.subset hy), ?_⟩
    rw [length_cons, length_cons] at hcut
    omega

theorem exists_part {t text : List UInt8} (htext : Valid text) (h : t <+: text) :
    ∃ v part, t = v ++ part ∧ Valid v ∧ (part = [] ∨ Partial part) := by
  obtain ⟨s, rfl⟩ := htext
  induction s generalizing t with
  | nil =>
    rw [flatMap_nil, prefix_nil] at h
    exact ⟨[], [], h, Valid.nil, Or.inl rfl⟩
  | cons c s ih =>
    rw [flatMap_cons] at h
    by_cases hlen : t.length < (String.utf8EncodeChar c).length
    · have hpart : t <+: String.utf8EncodeChar c :=
        prefix_of_prefix_length_le h (prefix_append _ _) (Nat.le_of_lt hlen)
      refine ⟨[], t, rfl, Valid.nil, ?_⟩
      by_cases hne : t = []
      · exact Or.inl hne
      · exact Or.inr (partial_of_part hpart hne hlen)
    · have hchar : String.utf8EncodeChar c <+: t :=
        prefix_of_prefix_length_le (prefix_append _ _) h (Nat.le_of_not_lt hlen)
      obtain ⟨t', rfl⟩ := hchar
      obtain ⟨v, part, rfl, hv, hpart⟩ := ih ((prefix_append_right_inj _).mp h)
      exact ⟨String.utf8EncodeChar c ++ v, part, (append_assoc _ _ _).symm, (valid_encodeChar c).append hv, hpart⟩

/-- **In a valid text no byte asks for more bytes than there are from it on.** -/
theorem width_le {v w : List UInt8} {b : UInt8} (h : Valid (v ++ b :: w)) : width b ≤ w.length + 1 := by
  obtain ⟨s, hs⟩ := h
  induction s generalizing v with
  | nil => cases v <;> cases hs
  | cons c s ih =>
    obtain ⟨x, xs, henc, hwidth, htail⟩ := encodeChar_shape c
    rw [flatMap_cons, henc] at hs
    cases v with
    | nil =>
      -- The byte is the first one of the character.
      obtain ⟨rfl, hw⟩ := cons.inj hs
      have hlen := congrArg length hw
      rw [append_eq, length_append] at hlen
      omega
    | cons y v =>
      obtain ⟨rfl, hrest⟩ := cons.inj hs
      obtain ⟨m, hm, hrest'⟩ | ⟨m, hm, hrest'⟩ := append_eq_append_iff.mp hrest
      · -- The byte is a tail byte of the character, or the next character begins with it.
        cases m with
        | nil =>
          rw [nil_append] at hrest'
          exact ih (v := []) hrest'
        | cons z m =>
          obtain ⟨rfl, -⟩ := cons.inj hrest'
          rw [width_tail (htail b (by rw [hm]; simp))]
          omega
      · exact ih hrest'.symm

theorem Partial.not_valid {part : List UInt8} (h : Partial part) (v : List UInt8) : ¬ Valid (v ++ part) := by
  obtain ⟨b, bs, rfl, -, hwidth⟩ := h
  intro hvalid
  have := width_le hvalid
  omega

theorem wholeChars_self {v : List UInt8} (h : Valid v) : WholeChars v v where
  isPrefix := prefix_refl v
  valid := h
  longest _ hprefix _ := hprefix.length_le

end Utf8
