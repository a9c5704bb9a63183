import Mathlib.Data.List.GetD
import LlamaRafaelia.Tokenizer.Vocab

/-!
# The RWKV tokenizer

`llm_tokenizer_rwkv_session::tokenize` follows the text through a trie and goes on behind the last complete token.  
When there is none, the call never returns; when a token goes on with a zero byte where the text ends, the way leads
over the end of the string.

* **`rwkv_iff`** - the call returns such tokens exactly when the text `Matches`: wherever it stands, no token begins with
  the next byte, or one matches and none goes on over the end.
-/

namespace Tokenizer

open List

/-- The variables of `llama_unescape_rwkv_token`. -/
structure UnescapeState where
  output : List UInt8
  escaping : Bool
  hexRemaining : ℕ
  hexAcc : UInt8

/-- One character of `llama_unescape_rwkv_token`; `char` is signed. -/
def unescapeStep (s : UnescapeState) (c : UInt8) : UnescapeState :=
  -- parsing a hex code
  if s.hexRemaining ≠ 0 then
    let value := if 0x61 ≤ c.toNat ∧ c.toNat < 0x80 then c - 0x61 + 10 else c - 0x30
    let hexAcc := s.hexAcc * 16 + value
    if s.hexRemaining - 1 = 0 then { s with output := s.output ++ [hexAcc], hexRemaining := 0, hexAcc := 0 }
    else { s with hexRemaining := s.hexRemaining - 1, hexAcc := hexAcc }
  else if s.escaping then
    let s := { s with escaping := false }
    if c = 0x74 then { s with output := s.output ++ [0x09] }
    else if c = 0x6E then { s with output := s.output ++ [0x0A] }
    else if c = 0x72 then { s with output := s.output ++ [0x0D] }
    else if c = 0x78 then { s with hexRemaining := 2 }
    else { s with output := s.output ++ [c] }
  else if c = 0x5C then { s with escaping := true }
  else { s with output := s.output ++ [c] }

/-- `llama_unescape_rwkv_token`. -/
def unescapeRwkvToken (escaped : List UInt8) : List UInt8 :=
  (escaped.foldl unescapeStep { output := [], escaping := false, hexRemaining := 0, hexAcc := 0 }).output

/-- What `llm_tokenizer_rwkv` inserts into the trie: the text of each token with its id. -/
def rwkvEntries (texts : List (List UInt8)) : List (List UInt8 × ℕ) :=
  texts.zipIdx.map fun entry => (unescapeRwkvToken entry.1, entry.2)

/-- How the loops below fail to return: a read over the end of the string, or too little fuel. -/
inductive RwkvFault where
  | overrun
  | fuel
  deriving DecidableEq, Repr

/-- `text[i]`, with the zero byte behind the last character. -/
def readChar (text : List UInt8) (i : ℕ) : Except RwkvFault UInt8 :=
  match (text ++ [0])[i]? with
  | some c => .ok c
  | none => .error .overrun

/-- `while (node != NULL)`: the id of the last complete token on the way, and the position behind it. -/
def scan (text : List UInt8) : ℕ → NaiveTrie → ℕ → ℕ → ℕ → Except RwkvFault (ℕ × ℕ)
  | 0, _, _, _, _ => .error .fuel
  | fuel + 1, node, position, tokenId, tokenLength => do
    let found := match node.value with
      | some id => (id, position + 1)
      | none => (tokenId, tokenLength)
    let c ← readChar text (position + 1)
    match node.traverse c with
    | some child => scan text fuel child (position + 1) found.1 found.2
    | none => return found

/-- The loop of `llm_tokenizer_rwkv_session::tokenize`. -/
def rwkvLoop (trie : NaiveTrie) (unk : ℕ) (text : List UInt8) : ℕ → ℕ → List ℕ → Except RwkvFault (List ℕ)
  | 0, _, _ => .error .fuel
  | fuel + 1, position, output =>
    if h : position < text.length then
      match trie.traverse text[position] with
      | none => rwkvLoop trie unk text fuel (position + 1) (output ++ [unk])
      | some node => do
        -- a way has at most as many letters as the text and its end
        let found ← scan text (text.length + 2) node position 0 0
        rwkvLoop trie unk text fuel found.2 (output ++ [found.1])
    else .ok output

/-! ### What the tokens say of the text -/

/-- The word is a longest entry that the text begins with. -/
structure LongestEntry (entries : List (List UInt8 × ℕ)) (text w : List UInt8) : Prop where
  ne_nil : w ≠ []
  begins : w <+: text
  mem : ∃ e ∈ entries, e.1 = w
  longest : ∀ e ∈ entries, e.1 <+: text → e.1.length ≤ w.length

/-- The tokens stand for consecutive pieces of the text: a longest entry, or one byte. -/
inductive Pieces (entries : List (List UInt8 × ℕ)) (unk : ℕ) : List UInt8 → List ℕ → Prop
  | nil : Pieces entries unk [] []
  | entry {w rest : List UInt8} {id : ℕ} {ids : List ℕ} (longest : LongestEntry entries (w ++ rest) w)
      (mem : (w, id) ∈ entries) (more : Pieces entries unk rest ids) : Pieces entries unk (w ++ rest) (id :: ids)
  | unknown {c : UInt8} {rest : List UInt8} {ids : List ℕ} (more : Pieces entries unk rest ids) :
      Pieces entries unk (c :: rest) (unk :: ids)

/-- Going from longest entry to longest entry, and over bytes that begin no entry, some entry matches wherever the next
byte begins one, and then no entry begins with the rest of the text and a zero byte. -/
inductive Matches (entries : List (List UInt8 × ℕ)) : List UInt8 → Prop
  | nil : Matches entries []
  | unknown {c : UInt8} {rest : List UInt8} (begins : ∀ e ∈ entries, ¬ [c] <+: e.1) (more : Matches entries rest) :
      Matches entries (c :: rest)
  | entry {w rest : List UInt8} (longest : LongestEntry entries (w ++ rest) w)
      (ends : ∀ e ∈ entries, ¬ w ++ rest ++ [0] <+: e.1) (more : Matches entries rest) : Matches entries (w ++ rest)

/-! ### One way through the trie -/

section Way

variable {entries : List (List UInt8 × ℕ)} {text rest : List UInt8} {trie node : NaiveTrie} {p d id len : ℕ}

/-- What is recorded after `d` letters of `rest`, which begins at the position `p`. -/
def Recorded (trie : NaiveTrie) (rest : List UInt8) (p d id len : ℕ) : Prop :=
  (len = 0 ∧ ∀ l, 1 ≤ l → l ≤ d → trie.entry (rest.take l) = none)
    ∨ ∃ l, 1 ≤ l ∧ l ≤ d ∧ len = p + l ∧ trie.entry (rest.take l) = some id
      ∧ ∀ k, l < k → k ≤ d → trie.entry (rest.take k) = none

theorem Recorded.step (h : Recorded trie rest p d id len) (hwalk : trie.walk (rest.take (d + 1)) = some node) :
    Recorded trie rest p (d + 1) (match node.value with | some id => (id, p + d + 1) | none => (id, len)).1
      (match node.value with | some id => (id, p + d + 1) | none => (id, len)).2 := by
  have hentry : trie.entry (rest.take (d + 1)) = node.value := by
    rw [Trie.entry, hwalk]
    rfl
  cases hvalue : node.value with
  | some v =>
    rw [hvalue] at hentry
    exact Or.inr ⟨d + 1, by omega, Nat.le_refl _, rfl, hentry, fun k hk hle => by omega⟩
  | none =>
    rw [hvalue] at hentry
    have hlast : ∀ {k : ℕ}, k ≤ d + 1 → (k ≤ d → trie.entry (rest.take k) = none) → trie.entry (rest.take k) = none := by
      intro k hk hbefore
      rcases Nat.lt_or_eq_of_le hk with hlt | rfl
      · exact hbefore (Nat.le_of_lt_succ hlt)
      · exact hentry
    rcases h with ⟨hlen, hall⟩ | ⟨l, hone, hle, hlen, hfound, hall⟩
    · exact Or.inl ⟨hlen, fun l hl hle => hlast hle (hall l hl)⟩
    · exact Or.inr ⟨l, hone, by omega, hlen, hfound, fun k hk hle' => hlast hle' (hall k hk)⟩

theorem Recorded.finish (h : Recorded trie rest p d id len) (hend : ¬ trie.Begins (rest.take (d + 1)))
    (hle : d ≤ rest.length) : Recorded trie rest p rest.length id len := by
  have hbeyond : ∀ {k : ℕ}, d < k → trie.entry (rest.take k) = none := by
    intro k hk
    cases hentry : trie.entry (rest.take k) with
    | none => rfl
    | some v =>
      refine absurd ((Trie.begins_of_entry hentry).of_isPrefix ?_) hend
      rw [← Nat.min_eq_left (show d + 1 ≤ k by omega), ← take_take]
      exact List.take_prefix _ _
  have hlast : ∀ {k : ℕ}, (k ≤ d → trie.entry (rest.take k) = none) → trie.entry (rest.take k) = none := by
    intro k hbefore
    rcases Nat.lt_or_ge d k with hgt | hle'
    · exact hbeyond hgt
    · exact hbefore hle'
  rcases h with ⟨hlen, hall⟩ | ⟨l, hone, hl, hlen, hfound, hall⟩
  · exact Or.inl ⟨hlen, fun l hl _ => hlast (hall l hl)⟩
  · exact Or.inr ⟨l, hone, hl.trans hle, hlen, hfound, fun k hk _ => hlast (hall k hk)⟩

theorem readChar_rest (before rest : List UInt8) {i : ℕ} (hi : i ≤ rest.length) :
    readChar (before ++ rest) (before.length + i) = .ok ((rest ++ [0]).getD i 0) := by
  have hlt : i < (rest ++ [0]).length := by
    rw [length_append, length_singleton]
    omega
  rw [readChar, append_assoc, getElem?_append_right (by omega), Nat.add_sub_cancel_left,
    getElem?_eq_getElem hlt, getD_eq_getElem _ _ hlt]

theorem readChar_beyond {i : ℕ} (hi : text.length < i) : readChar text i = .error .overrun := by
  have hnone : (text ++ [0])[i]? = none := by
    refine getElem?_eq_none ?_
    rw [length_append, length_singleton]
    omega
  rw [readChar, hnone]

theorem scan_succ {fuel position : ℕ} {c : UInt8} (hread : readChar text (position + 1) = .ok c) :
    scan text (fuel + 1) node position id len
      = match node.traverse c with
        | some child => scan text fuel child (position + 1)
          (match node.value with | some id => (id, position + 1) | none => (id, len)).1
          (match node.value with | some id => (id, position + 1) | none => (id, len)).2
        | none => .ok (match node.value with | some id => (id, position + 1) | none => (id, len)) := by
  rw [scan, hread]
  rfl

/-- **One way through the trie**: it leads over the end exactly when the rest and a zero byte begin an entry, and else
what is recorded is the longest entry that the rest begins with, if there is one. -/
theorem scan_spec {fuel : ℕ} (before : List UInt8) (hd : d + 1 ≤ rest.length)
    (hwalk : trie.walk (rest.take (d + 1)) = some node) (hrec : Recorded trie rest before.length d id len)
    (hfuel : rest.length < fuel + d) :
    (trie.Begins (rest ++ [0]) ∧ scan (before ++ rest) fuel node (before.length + d) id len = .error .overrun)
      ∨ (¬ trie.Begins (rest ++ [0]) ∧ ∃ id' len', scan (before ++ rest) fuel node (before.length + d) id len = .ok (id', len')
        ∧ Recorded trie rest before.length rest.length id' len') := by
  obtain ⟨fuel, rfl⟩ : ∃ k, fuel = k + 1 + 1 := ⟨fuel - 2, by omega⟩
  induction hk : rest.length - (d + 1) generalizing fuel d node id len with
  | zero =>
    have hd' : d + 1 = rest.length := by omega
    have hread : readChar (before ++ rest) (before.length + d + 1) = _ := readChar_rest before rest (Nat.le_of_eq hd')
    have hzero : (rest ++ [0]).getD (d + 1) 0 = 0 := by rw [hd', getD_append_right _ _ _ _ (Nat.le_refl _), Nat.sub_self]; rfl
    have hrec' := hrec.step hwalk
    rw [hd', take_length] at hwalk
    have hnext : trie.walk (rest ++ [0]) = node.traverse 0 := Trie.walk_concat hwalk 0
    rw [scan_succ hread, hzero]
    cases hchild : node.traverse 0 with
    | none =>
      refine Or.inr ⟨fun hbegins => ?_, _, _, rfl, hd' ▸ hrec'⟩
      rw [Trie.Begins, hnext, hchild] at hbegins
      cases hbegins
    | some child =>
      refine Or.inl ⟨?_, ?_⟩
      · rw [Trie.Begins, hnext, hchild]
        rfl
      · have hbeyond : readChar (before ++ rest) (before.length + d + 1 + 1) = .error .overrun := by
          refine readChar_beyond ?_
          rw [length_append]
          omega
        show scan (before ++ rest) (fuel + 1) child (before.length + d + 1) _ _ = _
        rw [scan, hbeyond]
        rfl
  | succ k ih =>
    have hlt : d + 1 < rest.length := by omega
    have hread : readChar (before ++ rest) (before.length + d + 1) = _ := readChar_rest before rest (Nat.le_of_lt hlt)
    have hchar : (rest ++ [0]).getD (d + 1) 0 = rest[d + 1] := by
      rw [getD_append _ _ _ _ hlt, getD_eq_getElem _ _ hlt]
    have hrec' := hrec.step hwalk
    have htake : rest.take (d + 1 + 1) = rest.take (d + 1) ++ [rest[d + 1]] := take_succ_eq_append_getElem hlt
    have hnext : trie.walk (rest.take (d + 1 + 1)) = node.traverse rest[d + 1] := by
      rw [htake]
      exact Trie.walk_concat hwalk _
    rw [scan_succ hread, hchar]
    cases hchild : node.traverse rest[d + 1] with
    | none =>
      have hstop : ¬ trie.Begins (rest.take (d + 1 + 1)) := by
        rw [Trie.Begins, hnext, hchild]
        exact Bool.noConfusion
      refine Or.inr ⟨fun hbegins => hstop (hbegins.of_isPrefix ?_), _, _, rfl, hrec'.finish hstop hd⟩
      exact (List.take_prefix _ rest).trans (List.prefix_append rest [0])
    | some child =>
      obtain ⟨fuel, rfl⟩ : ∃ k, fuel = k + 1 := ⟨fuel - 1, by omega⟩
      rw [hchild] at hnext
      exact ih hlt hnext hrec' fuel (by omega) (by omega)

theorem Recorded.longest (h : Recorded (Trie.ofEntries entries) rest p rest.length id len) :
    (len = 0 ∧ ∀ e ∈ entries, e.1 ≠ [] → ¬ e.1 <+: rest)
      ∨ ∃ w, len = p + w.length ∧ LongestEntry entries rest w ∧ (w, id) ∈ entries := by
  have hentry : ∀ e ∈ entries, e.1 <+: rest → ((Trie.ofEntries entries).entry (rest.take e.1.length)).isSome := by
    intro e he hle
    rw [← List.prefix_iff_eq_take.mp hle]
    exact (Trie.entry_isSome_iff).mpr ⟨e, he, rfl⟩
  rcases h with ⟨hlen, hall⟩ | ⟨l, hone, hl, hlen, hfound, hall⟩
  · refine Or.inl ⟨hlen, fun e he hne hle => ?_⟩
    have hsome := hentry e he hle
    rw [hall e.1.length (length_pos_iff.mpr hne) hle.length_le] at hsome
    cases hsome
  · have hw : (rest.take l).length = l := by
      rw [length_take]
      omega
    have hmem := Trie.mem_of_entry hfound
    refine Or.inr ⟨rest.take l, by rw [hw]; exact hlen, ⟨?_, List.take_prefix l rest, ⟨_, hmem, rfl⟩, fun e he hle => ?_⟩, hmem⟩
    · exact length_pos_iff.mp (by omega)
    · rw [hw]
      refine Nat.le_of_not_lt fun hlt => ?_
      have hsome := hentry e he hle
      rw [hall e.1.length hlt hle.length_le] at hsome
      cases hsome

theorem traverse_eq_none_iff {c : UInt8} :
    (Trie.ofEntries entries : NaiveTrie).traverse c = none ↔ ∀ e ∈ entries, ¬ [c] <+: e.1 := by
  have hwalk : (Trie.ofEntries entries).walk [c] = (Trie.ofEntries entries).traverse c := by
    show ((Trie.ofEntries entries).traverse c).bind some = _
    exact Option.bind_fun_some _
  have hbegins : (Trie.ofEntries entries).Begins [c] ↔ ∃ e ∈ entries, [c] <+: e.1 := by
    rw [Trie.begins_ofEntries]
    exact ⟨fun h => h.elim (fun hnil => absurd hnil (cons_ne_nil _ _)) id, Or.inr⟩
  rw [← Option.not_isSome_iff_eq_none, ← hwalk]
  show ¬ (Trie.ofEntries entries).Begins [c] ↔ _
  simp only [hbegins, not_exists, not_and]

theorem rwkvLoop_cases (entries : List (List UInt8 × ℕ)) (unk : ℕ) (before : List UInt8) (c : UInt8) (rest : List UInt8)
    (fuel : ℕ) (output : List ℕ) :
    ((∀ e ∈ entries, ¬ [c] <+: e.1) ∧
      rwkvLoop (Trie.ofEntries entries) unk (before ++ c :: rest) (fuel + 1) before.length output
        = rwkvLoop (Trie.ofEntries entries) unk (before ++ c :: rest) fuel (before.length + 1) (output ++ [unk]))
    ∨ (∃ e ∈ entries, c :: rest ++ [0] <+: e.1) ∧
      rwkvLoop (Trie.ofEntries entries) unk (before ++ c :: rest) (fuel + 1) before.length output = .error .overrun
    ∨ (∃ e ∈ entries, [c] <+: e.1) ∧ (∀ e ∈ entries, e.1 ≠ [] → ¬ e.1 <+: c :: rest) ∧
      (∃ id, rwkvLoop (Trie.ofEntries entries) unk (before ++ c :: rest) (fuel + 1) before.length output
        = rwkvLoop (Trie.ofEntries entries) unk (before ++ c :: rest) fuel 0 (output ++ [id]))
    ∨ (∀ e ∈ entries, ¬ c :: rest ++ [0] <+: e.1) ∧ ∃ w id, LongestEntry entries (c :: rest) w ∧ (w, id) ∈ entries ∧
      rwkvLoop (Trie.ofEntries entries) unk (before ++ c :: rest) (fuel + 1) before.length output
        = rwkvLoop (Trie.ofEntries entries) unk (before ++ c :: rest) fuel (before.length + w.length) (output ++ [id]) := by
  have hlt : before.length < (before ++ c :: rest).length := by
    rw [length_append, length_cons]
    omega
  have hchar : (before ++ c :: rest)[before.length] = c := by
    rw [getElem_append_right (Nat.le_refl _)]
    simp
  have hstep : ∀ result, (match (Trie.ofEntries entries : NaiveTrie).traverse c with
      | none => rwkvLoop (Trie.ofEntries entries) unk (before ++ c :: rest) fuel (before.length + 1) (output ++ [unk])
      | some node => (do
        let found ← scan (before ++ c :: rest) ((before ++ c :: rest).length + 2) node before.length 0 0
        rwkvLoop (Trie.ofEntries entries) unk (before ++ c :: rest) fuel found.2 (output ++ [found.1]))) = result →
      rwkvLoop (Trie.ofEntries entries) unk (before ++ c :: rest) (fuel + 1) before.length output = result := by
    intro result hresult
    rw [rwkvLoop, dif_pos hlt, hchar]
    exact hresult
  cases hnode : (Trie.ofEntries entries : NaiveTrie).traverse c with
  | none =>
    rw [hnode] at hstep
    exact Or.inl ⟨(traverse_eq_none_iff).mp hnode, hstep _ rfl⟩
  | some node =>
    rw [hnode] at hstep
    have hbegin : ∃ e ∈ entries, [c] <+: e.1 := by
      by_contra hnone
      have hnull := (traverse_eq_none_iff).mpr fun e he hle => hnone ⟨e, he, hle⟩
      rw [hnode] at hnull
      cases hnull
    have hwalk : (Trie.ofEntries entries).walk ((c :: rest).take (0 + 1)) = some node := by
      show ((Trie.ofEntries entries).traverse c).bind some = _
      rw [hnode]
      rfl
    have hempty : Recorded (Trie.ofEntries entries) (c :: rest) before.length 0 0 0 :=
      Or.inl ⟨rfl, fun l hone hzero => by omega⟩
    have hbegins : (Trie.ofEntries entries : NaiveTrie).Begins (c :: rest ++ [0]) ↔ ∃ e ∈ entries, c :: rest ++ [0] <+: e.1 := by
      rw [Trie.begins_ofEntries]
      exact ⟨fun h => h.elim (fun hnil => absurd hnil (cons_ne_nil _ _)) id, Or.inr⟩
    have hfuel : (c :: rest).length < (before ++ c :: rest).length + 2 + 0 := by
      rw [length_append]
      omega
    rcases scan_spec before (Nat.succ_le_succ (Nat.zero_le rest.length)) hwalk hempty hfuel with
      ⟨hover, hscan⟩ | ⟨hends, id, len, hscan, hrec⟩
    · refine Or.inr (Or.inl ⟨hbegins.mp hover, hstep _ ?_⟩)
      show Except.bind (scan _ _ node (before.length + 0) 0 0) _ = _
      rw [hscan]
      rfl
    · have hloop : rwkvLoop (Trie.ofEntries entries) unk (before ++ c :: rest) (fuel + 1) before.length output
          = rwkvLoop (Trie.ofEntries entries) unk (before ++ c :: rest) fuel len (output ++ [id]) := by
        refine hstep _ ?_
        show Except.bind (scan _ _ node (before.length + 0) 0 0) _ = _
        rw [hscan]
        rfl
      rcases hrec.longest with ⟨rfl, hnone⟩ | ⟨w, rfl, hlongest, hmem⟩
      · exact Or.inr (Or.inr (Or.inl ⟨hbegin, hnone, id, hloop⟩))
      · refine Or.inr (Or.inr (Or.inr ⟨fun e he hle => hends (hbegins.mpr ⟨e, he, hle⟩), w, id, hlongest, hmem, hloop⟩))

end Way

/-! ### The whole text -/

section Text

variable {entries : List (List UInt8 × ℕ)} {text : List UInt8} {unk : ℕ}

theorem LongestEntry.head {c : UInt8} {rest w : List UInt8} (h : LongestEntry entries (c :: rest) w) :
    ∃ e ∈ entries, [c] <+: e.1 := by
  obtain ⟨e, he, rfl⟩ := h.mem
  refine ⟨e, he, ?_⟩
  have hne := h.ne_nil
  have hle := h.begins
  cases hword : e.1 with
  | nil => exact absurd hword hne
  | cons d w =>
    rw [hword, List.cons_prefix_cons] at hle
    rw [hle.1]
    exact ⟨w, rfl⟩

theorem LongestEntry.unique {rest w w' : List UInt8} (h : LongestEntry entries rest w) (h' : LongestEntry entries rest w') :
    w = w' := by
  obtain ⟨e, he, hw⟩ := h.mem
  obtain ⟨e', he', hw'⟩ := h'.mem
  have hle := h'.longest e he (hw ▸ h.begins)
  have hge := h.longest e' he' (hw' ▸ h'.begins)
  rw [hw] at hle
  rw [hw'] at hge
  exact (List.prefix_of_prefix_length_le h.begins h'.begins hle).eq_of_length (Nat.le_antisymm hle hge)

theorem Matches.runs {rest : List UInt8} (h : Matches entries rest) (unk : ℕ) (before : List UInt8) {fuel : ℕ}
    (hfuel : rest.length < fuel) (output : List ℕ) :
    ∃ ids, rwkvLoop (Trie.ofEntries entries) unk (before ++ rest) fuel before.length output = .ok (output ++ ids)
      ∧ Pieces entries unk rest ids := by
  induction h generalizing before fuel output with
  | nil =>
    obtain ⟨fuel, rfl⟩ : ∃ k, fuel = k + 1 := ⟨fuel - 1, by omega⟩
    refine ⟨[], ?_, .nil⟩
    rw [rwkvLoop, dif_neg (by rw [append_nil]; omega), append_nil]
  | @unknown c rest hbegins _ ih =>
    obtain ⟨fuel, rfl⟩ : ∃ k, fuel = k + 1 := ⟨fuel - 1, by omega⟩
    rw [length_cons] at hfuel
    rcases rwkvLoop_cases entries unk before c rest fuel output with ⟨_, hloop⟩ | hover | hnone | hfound
    · obtain ⟨ids, hrun, hpieces⟩ := ih (before ++ [c]) (Nat.lt_of_succ_lt_succ hfuel) (output ++ [unk])
      refine ⟨unk :: ids, ?_, .unknown hpieces⟩
      rw [length_append, length_singleton, ← append_cons, ← append_cons] at hrun
      rw [hloop, hrun]
    · obtain ⟨⟨e, he, hle⟩, _⟩ := hover
      exact absurd (List.IsPrefix.trans ⟨rest ++ [0], rfl⟩ hle) (hbegins e he)
    · obtain ⟨⟨e, he, hle⟩, _⟩ := hnone
      exact absurd hle (hbegins e he)
    · obtain ⟨_, w, id, hlongest, _⟩ := hfound
      obtain ⟨e, he, hle⟩ := hlongest.head
      exact absurd hle (hbegins e he)
  | @entry w rest hlongest hends _ ih =>
    obtain ⟨fuel, rfl⟩ : ∃ k, fuel = k + 1 := ⟨fuel - 1, by omega⟩
    obtain ⟨c, w, rfl⟩ := exists_cons_of_ne_nil hlongest.ne_nil
    rcases rwkvLoop_cases entries unk before c (w ++ rest) fuel output with hunknown | hover | hnone | hfound
    · obtain ⟨e, he, hle⟩ := hlongest.head
      exact absurd hle (hunknown.1 e he)
    · obtain ⟨⟨e, he, hle⟩, _⟩ := hover
      exact absurd hle (hends e he)
    · obtain ⟨e, he, heq⟩ := hlongest.mem
      exact absurd (heq ▸ hlongest.begins) (hnone.2.1 e he (heq ▸ hlongest.ne_nil))
    · obtain ⟨_, w', id, hlongest', hmem, hloop⟩ := hfound
      obtain rfl := hlongest.unique hlongest'
      rw [length_append, length_cons] at hfuel
      have hless : rest.length < fuel := by omega
      obtain ⟨ids, hrun, hpieces⟩ := ih (before ++ c :: w) hless (output ++ [id])
      refine ⟨id :: ids, ?_, .entry hlongest hmem hpieces⟩
      rw [length_append, append_assoc, ← append_cons] at hrun
      exact hloop.trans hrun

theorem matches_of_ok {fuel : ℕ} {before rest : List UInt8} {output ids : List ℕ} (htext : text = before ++ rest)
    (h : rwkvLoop (Trie.ofEntries entries) unk text fuel before.length output = .ok ids) :
    Matches entries rest ∨ Matches entries text := by
  induction fuel generalizing before rest output with
  | zero => cases h
  | succ fuel ih =>
    cases rest with
    | nil => exact Or.inl .nil
    | cons c rest =>
      rw [htext] at h
      rcases rwkvLoop_cases entries unk before c rest fuel output with ⟨hbegins, hloop⟩ | hover | hnone | hfound
      · rw [hloop, ← htext] at h
        have hmore : text = (before ++ [c]) ++ rest := by rw [htext, append_assoc]; rfl
        have hpos : before.length + 1 = (before ++ [c]).length := by rw [length_append, length_singleton]
        rw [hpos] at h
        exact (ih hmore h).imp_left (.unknown hbegins)
      · rw [hover.2] at h
        cases h
      · obtain ⟨_, _, id, hloop⟩ := hnone
        rw [hloop, ← htext] at h
        exact Or.inr (or_self_iff.mp (ih (nil_append text).symm h))
      · obtain ⟨hends, w, id, hlongest, _, hloop⟩ := hfound
        obtain ⟨more, hmore⟩ := hlongest.begins
        rw [hloop, ← htext] at h
        have hsplit : text = (before ++ w) ++ more := by rw [htext, append_assoc, hmore]
        rw [← length_append] at h
        rw [← hmore] at hlongest hends ⊢
        exact (ih hsplit h).imp_left (.entry hlongest hends)

/-- **The RWKV tokenizer** returns, without a read over the end of the text, tokens that stand for consecutive pieces of it
exactly when the text matches. -/
theorem rwkv_iff (texts : List (List UInt8)) (unk : ℕ) (text : List UInt8) :
    (∃ fuel ids, rwkvLoop (Trie.ofEntries (rwkvEntries texts)) unk text fuel 0 [] = .ok ids
      ∧ Pieces (rwkvEntries texts) unk text ids) ↔ Matches (rwkvEntries texts) text := by
  constructor
  · intro ⟨fuel, ids, hrun, _⟩
    exact (matches_of_ok (nil_append text).symm hrun).elim id id
  · intro h
    obtain ⟨ids, hrun, hpieces⟩ := h.runs unk [] (Nat.lt_succ_self _) []
    exact ⟨_, ids, hrun, hpieces⟩

/-- The only token is `abc`, and the text is `abx`. -/
theorem rwkv_abx : ¬ ∃ fuel ids, rwkvLoop (Trie.ofEntries (rwkvEntries [[0x61, 0x62, 0x63]])) 1 [0x61, 0x62, 0x78] fuel 0 []
    = .ok ids ∧ Pieces (rwkvEntries [[0x61, 0x62, 0x63]]) 1 [0x61, 0x62, 0x78] ids := by
  intro ⟨fuel, ids, hrun, _⟩
  have hmatches : Matches (rwkvEntries [[0x61, 0x62, 0x63]]) [0x61, 0x62, 0x78] :=
    (matches_of_ok (nil_append _).symm hrun).elim id id
  generalize htext : ([0x61, 0x62, 0x78] : List UInt8) = text at hmatches
  cases hmatches with
  | nil => cases htext
  | unknown begins more =>
    obtain ⟨rfl, rfl⟩ := List.cons.inj htext
    exact begins ([0x61, 0x62, 0x63], 0) (by decide) (by decide)
  | entry longest ends more =>
    obtain ⟨e, he, rfl⟩ := longest.mem
    have hle := longest.begins
    rw [← htext] at hle
    have hall : ∀ e ∈ rwkvEntries [[0x61, 0x62, 0x63]], ¬ e.1 <+: [0x61, 0x62, 0x78] := by decide
    exact hall e he hle

end Text

end Tokenizer
