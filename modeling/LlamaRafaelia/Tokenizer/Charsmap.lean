import Mathlib.Data.Nat.Bitwise
import LlamaRafaelia.Tokenizer.Vocab

/-!
# The normalizer of the UGM tokenizer

A precompiled map of characters: an XOR-compressed compact double array, and the replacements as C strings.  A read
outside of the array or of the map is an `overrun`; an exception is a `throws`.

* **`charsmap_safe_iff`** - no input makes the normalizer read outside exactly when the map is `WellFormed`.
-/

namespace Tokenizer

open List Except

/-- How a call fails: an exception, or a read outside of the map. -/
inductive NormalizeFault where
  | throws
  | overrun
  deriving DecidableEq, Repr

/-- `xcda_array` with its size, and `prefix_replacements`. -/
structure Charsmap where
  xcda : List ℕ
  replacements : List UInt8
  deriving DecidableEq, Repr

/-- A `uint32_t` in the blob. -/
def blobWord (blob : List UInt8) (i : ℕ) : ℕ :=
  (blob.getD i 0).toNat + 256 * (blob.getD (i + 1) 0).toNat + 65536 * (blob.getD (i + 2) 0).toNat
    + 16777216 * (blob.getD (i + 3) 0).toNat

/-- What the constructor of `llm_tokenizer_ugm` makes of `precompiled_charsmap`.  With fewer than four bytes it throws
whatever it reads behind them. -/
def charsmapOf (blob : List UInt8) : Except NormalizeFault Charsmap :=
  if 0 < blob.length then
    let xcdaBlobSize := blobWord blob 0
    if blob.length ≤ xcdaBlobSize + 4 then .error .throws
    else
      .ok
        { xcda := (List.range (xcdaBlobSize / 4)).map fun i => blobWord blob (4 + 4 * i)
          replacements := blob.drop (4 + xcdaBlobSize) }
  else .ok { xcda := [], replacements := [] }

/-- What `normalize_prefix` reads of `llm_tokenizer_ugm`: the map and the user-defined tokens. -/
structure UgmNormalizer where
  map : Charsmap
  userDefined : List (List UInt8)

/-- `user_defined_token_matcher`. -/
def UgmNormalizer.matcher (T : UgmNormalizer) : NaiveTrie := Trie.ofEntries (T.userDefined.map fun text => (text, 0))

/-! ### `xcda_array_view` -/

/-- `get_base` of a packed entry. -/
def baseOf (packed : ℕ) : ℕ := (packed >>> 10) <<< ((packed &&& 2 ^ 9) >>> 6)

/-- `get_lcheck` of a packed entry. -/
def lcheckOf (packed : ℕ) : ℕ := packed &&& (2 ^ 31 ||| 0xff)

/-- `get_leaf` of a packed entry. -/
def leafOf (packed : ℕ) : Bool := (packed >>> 8) &&& 1 ≠ 0

/-- `get_value` of a packed entry. -/
def valueOf (packed : ℕ) : ℕ := packed &&& (2 ^ 31 - 1)

/-- `get_node`. -/
def getNode (xcda : List ℕ) (index : ℕ) : Except NormalizeFault ℕ :=
  -- index > xcda_array_size
  if xcda.length < index then .error .throws
  else
    match xcda[index]? with
    | some packed => .ok packed
    | none => .error .overrun

/-- The loop that walks through the array along the input; `best` is `longest_prefix_length` and
`longest_prefix_offset`, and `k` is the number of bytes before the rest of the input. -/
def walkLoop (xcda : List ℕ) : List UInt8 → ℕ → ℕ → ℕ × ℕ → Except NormalizeFault (ℕ × ℕ)
  | [], _, _, best => .ok best
  | c :: rest, k, nodeIndex, best =>
    if c = 0 then .ok best
    else do
      let nodeIndex := nodeIndex ^^^ c.toNat
      let packed ← getNode xcda nodeIndex
      -- not a child of the previous node
      if lcheckOf packed ≠ c.toNat then return best
      let nodeIndex := nodeIndex ^^^ baseOf packed
      if leafOf packed then do
        let packed ← getNode xcda nodeIndex
        walkLoop xcda rest (k + 1) nodeIndex (k + 1, valueOf packed)
      else walkLoop xcda rest (k + 1) nodeIndex best

def longestMatch (map : Charsmap) (rest : List UInt8) : Except NormalizeFault (ℕ × ℕ) :=
  if 0 < map.xcda.length then do
    let packed ← getNode map.xcda 0
    walkLoop map.xcda rest 0 (baseOf packed) (0, 0)
  else .ok (0, 0)

def replacementAt (map : Charsmap) (offset : ℕ) : Except NormalizeFault (List UInt8) :=
  if map.replacements.length ≤ offset then .error .throws
  else if 0 ∈ map.replacements.drop offset then .ok ((map.replacements.drop offset).takeWhile fun b => b ≠ 0)
  else .error .overrun

/-- `normalization_result`. -/
structure NormalizationResult where
  normalized : List UInt8
  consumedInput : ℕ
  deriving DecidableEq, Repr

def UgmNormalizer.userDefinedMatch (T : UgmNormalizer) (input : List UInt8) (inputOffset : ℕ) : ℕ :=
  T.matcher.longest (input.drop inputOffset) 0

/-- `normalize_prefix`. -/
def normalizePrefix (T : UgmNormalizer) (input : List UInt8) (inputOffset : ℕ) :
    Except NormalizeFault NormalizationResult :=
  if inputOffset = input.length then .ok ⟨[], 0⟩
  else
    let rest := input.drop inputOffset
    let matched := T.userDefinedMatch input inputOffset
    if 0 < matched then .ok ⟨rest.take matched, matched⟩
    else do
      let best ← longestMatch T.map rest
      if 0 < best.1 then do
        let replacement ← replacementAt T.map best.2
        return ⟨replacement, best.1⟩
      else
        match Unicode.cptFromUtf8 rest with
        | some (_, n) => return ⟨rest.take n, n⟩
        | none => return ⟨[0xEF, 0xBF, 0xBD], 1⟩

/-! ### `normalize` -/

/-- The flags of the vocabulary that `normalize` reads. -/
structure NormalizeOptions where
  escapeWhitespaces : Bool
  treatWhitespaceAsSuffix : Bool
  addSpacePrefix : Bool
  removeExtraWhitespaces : Bool

/-- `space`. -/
def NormalizeOptions.space (o : NormalizeOptions) : List UInt8 := if o.escapeWhitespaces then [0xE2, 0x96, 0x81] else [0x20]

/-- The variables of `normalize`. -/
structure NormalizeState where
  normalized : List UInt8
  isSpacePrepended : Bool
  processingNonWs : Bool

def normalizeChar (o : NormalizeOptions) (s : NormalizeState) (c : UInt8) : NormalizeState :=
  let shallPrependSpace := !o.treatWhitespaceAsSuffix && o.addSpacePrefix
  let shallMergeSpaces := o.removeExtraWhitespaces
  if c ≠ 0x20 then
    if !s.processingNonWs && ((shallPrependSpace && !s.isSpacePrepended) || shallMergeSpaces) then
      { normalized := s.normalized ++ o.space ++ [c], isSpacePrepended := true, processingNonWs := true }
    else { s with normalized := s.normalized ++ [c], processingNonWs := true }
  else
    { s with normalized := if shallMergeSpaces then s.normalized else s.normalized ++ o.space, processingNonWs := false }

/-- The loop of `normalize`; `none` when the fuel is used up. -/
def normalizeLoop (T : UgmNormalizer) (o : NormalizeOptions) (input : List UInt8) :
    ℕ → ℕ → NormalizeState → Option (Except NormalizeFault NormalizeState)
  | 0, _, _ => none
  | fuel + 1, inputOffset, s =>
    if inputOffset < input.length then
      match normalizePrefix T input inputOffset with
      | .error fault => some (.error fault)
      | .ok result =>
        normalizeLoop T o input fuel (inputOffset + result.consumedInput) (result.normalized.foldl (normalizeChar o) s)
    else some (.ok s)

/-- `normalize`; every round takes a byte. -/
def normalize (T : UgmNormalizer) (o : NormalizeOptions) (input : List UInt8) : Option (Except NormalizeFault (List UInt8)) :=
  (normalizeLoop T o input (input.length + 1) 0 ⟨[], false, false⟩).map fun outcome => outcome.map fun s =>
    if o.treatWhitespaceAsSuffix && o.addSpacePrefix then s.normalized ++ o.space else s.normalized

/-! ### The match of user-defined tokens -/

section Match

variable {T : UgmNormalizer} {keys : List (List UInt8)} {text : List UInt8}

/-- A length is 0, or the length of the longest key that the text begins with. -/
def LongestKey (keys : List (List UInt8)) (text : List UInt8) (l : ℕ) : Prop :=
  l ≠ 0 → text.take l ∈ keys ∧ ∀ k ∈ keys, k <+: text → k.length ≤ l

def BypassesTokensOnly (T : UgmNormalizer) (input : List UInt8) (inputOffset : ℕ) : Prop :=
  ∀ result, normalizePrefix T input inputOffset = .ok result → 0 < T.userDefinedMatch input inputOffset →
    (input.drop inputOffset).take result.consumedInput ∈ T.userDefined

def Shared (keys : List (List UInt8)) (text p : List UInt8) : Prop := p <+: text ∧ ∃ k ∈ keys, p <+: k

/-- The longest beginning that the text shares with a key, if not empty, is a key. -/
def SharesKeys (keys : List (List UInt8)) (text : List UInt8) : Prop :=
  ∀ p, Shared keys text p → (∀ q, Shared keys text q → q.length ≤ p.length) → p = [] ∨ p ∈ keys

theorem begins_matcher {w : List UInt8} : T.matcher.Begins w ↔ w = [] ∨ ∃ k ∈ T.userDefined, w <+: k := by
  rw [UgmNormalizer.matcher, Trie.begins_ofEntries]
  simp only [mem_map, exists_exists_and_eq_and]

theorem longest_matcher (T : UgmNormalizer) (text : List UInt8) :
    T.matcher.longest text 0 ≤ text.length
      ∧ (T.matcher.longest text 0 ≠ 0 → Shared T.userDefined text (text.take (T.matcher.longest text 0)))
      ∧ ∀ p, Shared T.userDefined text p → p.length ≤ T.matcher.longest text 0 := by
  obtain ⟨⟨hle, hbegins⟩, hmax⟩ := T.matcher.longest_isGreatest text
  refine ⟨hle, fun hne => ⟨List.take_prefix _ _, ?_⟩, fun p hp => hmax ⟨hp.1.length_le, ?_⟩⟩
  · refine ((begins_matcher).mp hbegins).elim (fun hnil => absurd ?_ hne) id
    have hlen := congrArg List.length hnil
    rw [length_take, Nat.min_eq_left hle] at hlen
    exact hlen
  · rw [← List.prefix_iff_eq_take.mp hp.1]
    exact (begins_matcher).mpr (Or.inr hp.2)

theorem normalizePrefix_of_match {input : List UInt8} {inputOffset : ℕ} (h : 0 < T.userDefinedMatch input inputOffset) :
    normalizePrefix T input inputOffset
      = .ok ⟨(input.drop inputOffset).take (T.userDefinedMatch input inputOffset), T.userDefinedMatch input inputOffset⟩ := by
  have hne : ¬ inputOffset = input.length := by
    rintro rfl
    rw [UgmNormalizer.userDefinedMatch, drop_length] at h
    exact Nat.lt_irrefl 0 h
  rw [normalizePrefix, if_neg hne]
  exact if_pos h

theorem longestKey_iff (T : UgmNormalizer) (text : List UInt8) :
    LongestKey T.userDefined text (T.matcher.longest text 0) ↔ SharesKeys T.userDefined text := by
  obtain ⟨hle, hshared, hmax⟩ := longest_matcher T text
  have hlen : (text.take (T.matcher.longest text 0)).length = T.matcher.longest text 0 := by
    rw [length_take, Nat.min_eq_left hle]
  constructor
  · intro h p hp hlongest
    by_cases hzero : T.matcher.longest text 0 = 0
    · refine Or.inl (length_eq_zero_iff.mp ?_)
      have hple := hmax p hp
      omega
    · -- the longest shared beginning is the match
      have hge := hlongest _ (hshared hzero)
      have heq : p = text.take (T.matcher.longest text 0) := by
        rw [List.prefix_iff_eq_take.mp hp.1]
        have hple := hmax p hp
        rw [hlen] at hge
        exact congrArg (text.take ·) (Nat.le_antisymm hple hge)
      exact Or.inr (heq ▸ (h hzero).1)
  · intro h hne
    refine ⟨(h _ (hshared hne) fun q hq => ?_).elim (fun hnil => absurd ?_ hne) id, fun k hk hkle => ?_⟩
    · rw [hlen]
      exact hmax q hq
    · rw [← hlen, hnil]
      rfl
    · exact hmax k ⟨hkle, k, hk, List.prefix_refl k⟩

/-- **The match of user-defined tokens**: it is 0 or the longest token that the input goes on with, and the map is passed by
for complete tokens only, exactly when the longest beginning that the rest of the input shares with a token is empty or a
token. -/
theorem longest_key_iff (T : UgmNormalizer) (input : List UInt8) (inputOffset : ℕ) :
    (LongestKey T.userDefined (input.drop inputOffset) (T.userDefinedMatch input inputOffset)
      ∧ BypassesTokensOnly T input inputOffset) ↔ SharesKeys T.userDefined (input.drop inputOffset) := by
  rw [← longestKey_iff, UgmNormalizer.userDefinedMatch]
  refine ⟨And.left, fun h => ⟨h, fun result hrun hpos => ?_⟩⟩
  rw [normalizePrefix_of_match hpos] at hrun
  obtain rfl := ok.inj hrun
  exact (h (Nat.ne_of_gt hpos)).1

/-- The only token is `abc`, and the text is `abx`. -/
theorem longest_key_abx :
    ¬ (LongestKey [[0x61, 0x62, 0x63]] [0x61, 0x62, 0x78]
        ((⟨⟨[], []⟩, [[0x61, 0x62, 0x63]]⟩ : UgmNormalizer).userDefinedMatch [0x61, 0x62, 0x78] 0)
      ∧ BypassesTokensOnly ⟨⟨[], []⟩, [[0x61, 0x62, 0x63]]⟩ [0x61, 0x62, 0x78] 0) := by
  intro h
  have hmatch : (⟨⟨[], []⟩, [[0x61, 0x62, 0x63]]⟩ : UgmNormalizer).userDefinedMatch [0x61, 0x62, 0x78] 0 = 2 := by decide
  have hkey := (h.1 (by rw [hmatch]; decide)).1
  rw [hmatch] at hkey
  exact absurd hkey (by decide)

end Match

/-! ### The nodes of the array -/

section Reads

variable {T : UgmNormalizer} {xcda : List ℕ} {w rest : List UInt8} {node packed k : ℕ} {c : UInt8} {best : ℕ × ℕ}

/-- The walk goes on with the byte; the first byte begins no user-defined token. -/
def Enters (T : UgmNormalizer) (w : List UInt8) (c : UInt8) : Prop :=
  c ≠ 0 ∧ (w = [] → ∀ key ∈ T.userDefined, ¬ [c] <+: key)

/-- The entry `packed` is the child of the node along the byte. -/
def Child (xcda : List ℕ) (node : ℕ) (c : UInt8) (packed : ℕ) : Prop :=
  xcda[node ^^^ c.toNat]? = some packed ∧ lcheckOf packed = c.toNat

/-- The bytes lead through the array to a node. -/
inductive Reaches (T : UgmNormalizer) : List UInt8 → ℕ → Prop
  | root {packed : ℕ} (entry : T.map.xcda[0]? = some packed) : Reaches T [] (baseOf packed)
  | step {w : List UInt8} {node packed : ℕ} {c : UInt8} (before : Reaches T w node) (enters : Enters T w c)
      (child : Child T.map.xcda node c packed)
      (leaf : leafOf packed = true → node ^^^ c.toNat ^^^ baseOf packed < T.map.xcda.length) :
      Reaches T (w ++ [c]) (node ^^^ c.toNat ^^^ baseOf packed)

/-- A map that leads out of itself for no input: neither an edge nor a leaf leads to the index behind the array, and the
replacements that leaves lead to end in the map. -/
structure WellFormed (T : UgmNormalizer) : Prop where
  edge : ∀ w node c, Reaches T w node → Enters T w c → node ^^^ c.toNat ≠ T.map.xcda.length
  leaf : ∀ w node c packed, Reaches T w node → Enters T w c → Child T.map.xcda node c packed → leafOf packed = true →
    node ^^^ c.toNat ^^^ baseOf packed ≠ T.map.xcda.length
  string : ∀ w node c packed value, Reaches T w node → Enters T w c → Child T.map.xcda node c packed →
    leafOf packed = true → T.map.xcda[node ^^^ c.toNat ^^^ baseOf packed]? = some value →
    valueOf value < T.map.replacements.length → 0 ∈ T.map.replacements.drop (valueOf value)

/-- What the normalizer keeps to for every input: it reads inside, it consumes a byte, and it comes to an end. -/
structure Safe (T : UgmNormalizer) : Prop where
  reads : ∀ input inputOffset, inputOffset ≤ input.length → normalizePrefix T input inputOffset ≠ .error .overrun
  consumes : ∀ input inputOffset result, inputOffset < input.length → normalizePrefix T input inputOffset = .ok result →
    1 ≤ result.consumedInput
  terminates : ∀ o input, ∃ outcome, normalize T o input = some outcome

theorem getNode_some {i : ℕ} (h : xcda[i]? = some packed) : getNode xcda i = .ok packed := by
  obtain ⟨hlt, _⟩ := List.getElem?_eq_some_iff.mp h
  rw [getNode, if_neg (by omega), h]

theorem getNode_length (xcda : List ℕ) : getNode xcda xcda.length = .error .overrun := by
  rw [getNode, if_neg (Nat.lt_irrefl _), getElem?_eq_none (Nat.le_refl _)]

theorem getNode_cases (xcda : List ℕ) (i : ℕ) :
    (xcda.length < i ∧ getNode xcda i = .error .throws) ∨ (i = xcda.length ∧ getNode xcda i = .error .overrun)
      ∨ ∃ packed, xcda[i]? = some packed ∧ getNode xcda i = .ok packed := by
  rcases Nat.lt_trichotomy i xcda.length with hlt | rfl | hgt
  · exact Or.inr (Or.inr ⟨xcda[i], getElem?_eq_getElem hlt, getNode_some (getElem?_eq_getElem hlt)⟩)
  · exact Or.inr (Or.inl ⟨rfl, getNode_length xcda⟩)
  · exact Or.inl ⟨hgt, if_pos hgt⟩

theorem walkLoop_child (hc : c ≠ 0) (h : Child xcda node c packed) :
    walkLoop xcda (c :: rest) k node best
      = if leafOf packed then (getNode xcda (node ^^^ c.toNat ^^^ baseOf packed)).bind fun value =>
          walkLoop xcda rest (k + 1) (node ^^^ c.toNat ^^^ baseOf packed) (k + 1, valueOf value)
        else walkLoop xcda rest (k + 1) (node ^^^ c.toNat ^^^ baseOf packed) best := by
  rw [walkLoop, if_neg hc]
  show bind (getNode xcda (node ^^^ c.toNat)) _ = _
  rw [getNode_some h.1]
  show (if lcheckOf packed ≠ c.toNat then _ else _) = _
  rw [if_neg (not_not.mpr h.2)]
  rfl

theorem Reaches.head (h : Reaches T w node) {c : UInt8} {w' : List UInt8} (hw : w = c :: w') :
    ∀ key ∈ T.userDefined, ¬ [c] <+: key := by
  induction h generalizing c w' with
  | root _ => cases hw
  | @step w node packed d before enters _ _ ih =>
    cases w with
    | nil =>
      obtain ⟨rfl, _⟩ := List.cons.inj hw
      exact enters.2 rfl
    | cons e w =>
      obtain ⟨rfl, _⟩ := List.cons.inj hw
      exact ih rfl

theorem Reaches.walk (h : Reaches T w node) (rest : List UInt8) :
    ∃ best, longestMatch T.map (w ++ rest) = walkLoop T.map.xcda rest w.length node best := by
  induction h generalizing rest with
  | root entry =>
    obtain ⟨hlt, _⟩ := List.getElem?_eq_some_iff.mp entry
    refine ⟨(0, 0), ?_⟩
    rw [longestMatch, if_pos hlt, getNode_some entry]
    rfl
  | @step w node packed c _ enters child leaf ih =>
    obtain ⟨best, hbest⟩ := ih (c :: rest)
    rw [← append_cons, hbest, walkLoop_child enters.1 child, length_append, length_singleton]
    cases hleaf : leafOf packed with
    | true =>
      have hlt := leaf hleaf
      refine ⟨(w.length + 1, valueOf T.map.xcda[node ^^^ c.toNat ^^^ baseOf packed]), ?_⟩
      rw [if_pos rfl, getNode_some (getElem?_eq_getElem hlt)]
      rfl
    | false => exact ⟨best, if_neg (by decide)⟩

theorem normalizePrefix_of_walk {input : List UInt8} {inputOffset : ℕ} (hlt : inputOffset < input.length)
    (hmatch : T.userDefinedMatch input inputOffset = 0) :
    normalizePrefix T input inputOffset
      = (longestMatch T.map (input.drop inputOffset)).bind fun best =>
          if 0 < best.1 then (replacementAt T.map best.2).bind fun replacement => .ok ⟨replacement, best.1⟩
          else match Unicode.cptFromUtf8 (input.drop inputOffset) with
            | some (_, n) => .ok ⟨(input.drop inputOffset).take n, n⟩
            | none => .ok ⟨[0xEF, 0xBF, 0xBD], 1⟩ := by
  rw [normalizePrefix, if_neg (Nat.ne_of_lt hlt), hmatch]
  rfl

theorem userDefinedMatch_eq_zero {input : List UInt8} {inputOffset : ℕ} (hrest : input.drop inputOffset = c :: rest)
    (h : ∀ key ∈ T.userDefined, ¬ [c] <+: key) : T.userDefinedMatch input inputOffset = 0 := by
  rw [UgmNormalizer.userDefinedMatch, hrest]
  obtain ⟨_, hshared, _⟩ := longest_matcher T (c :: rest)
  by_contra hne
  obtain ⟨key, hkey, hle⟩ := (hshared hne).2
  obtain ⟨l, hl⟩ := Nat.exists_eq_succ_of_ne_zero hne
  rw [hl, take_succ_cons] at hle
  exact h key hkey (List.IsPrefix.trans ⟨rest.take l, rfl⟩ hle)

theorem walkLoop_cases (xcda : List ℕ) (c : UInt8) (rest : List UInt8) (k node : ℕ) (best : ℕ × ℕ) :
    walkLoop xcda (c :: rest) k node best = .ok best ∨ walkLoop xcda (c :: rest) k node best = .error .throws
      ∨ c ≠ 0 ∧ (node ^^^ c.toNat = xcda.length ∨ ∃ packed, Child xcda node c packed) := by
  by_cases hc : c = 0
  · exact Or.inl (by rw [walkLoop, if_pos hc])
  · have hstep : walkLoop xcda (c :: rest) k node best = bind (getNode xcda (node ^^^ c.toNat)) fun packed =>
        if lcheckOf packed ≠ c.toNat then .ok best
        else if leafOf packed then (getNode xcda (node ^^^ c.toNat ^^^ baseOf packed)).bind fun value =>
          walkLoop xcda rest (k + 1) (node ^^^ c.toNat ^^^ baseOf packed) (k + 1, valueOf value)
        else walkLoop xcda rest (k + 1) (node ^^^ c.toNat ^^^ baseOf packed) best := by
      rw [walkLoop, if_neg hc]
      rfl
    rw [hstep]
    rcases getNode_cases xcda (node ^^^ c.toNat) with ⟨_, hthrows⟩ | ⟨hlen, _⟩ | ⟨packed, hget, hok⟩
    · rw [hthrows]
      exact Or.inr (Or.inl rfl)
    · exact Or.inr (Or.inr ⟨hc, Or.inl hlen⟩)
    · by_cases hcheck : lcheckOf packed = c.toNat
      · exact Or.inr (Or.inr ⟨hc, Or.inr ⟨packed, hget, hcheck⟩⟩)
      · rw [hok]
        exact Or.inl (if_pos hcheck)

def Ends (T : UgmNormalizer) (best : ℕ × ℕ) : Prop :=
  0 < best.1 → best.2 < T.map.replacements.length → 0 ∈ T.map.replacements.drop best.2

theorem WellFormed.walk (hwf : WellFormed T) (hreach : Reaches T w node)
    (hfirst : w = [] → ∀ c rest', rest = c :: rest' → ∀ key ∈ T.userDefined, ¬ [c] <+: key) (hbest : Ends T best) :
    walkLoop T.map.xcda rest w.length node best = .error .throws
      ∨ ∃ best', walkLoop T.map.xcda rest w.length node best = .ok best' ∧ Ends T best' := by
  induction rest generalizing w node best with
  | nil => exact Or.inr ⟨best, rfl, hbest⟩
  | cons c rest ih =>
    rcases walkLoop_cases T.map.xcda c rest w.length node best with hok | hthrows | ⟨hc, hlen | ⟨packed, hchild⟩⟩
    · exact Or.inr ⟨best, hok, hbest⟩
    · exact Or.inl hthrows
    · exact absurd hlen (hwf.edge w node c hreach ⟨hc, fun hw => hfirst hw c rest rfl⟩)
    · have henters : Enters T w c := ⟨hc, fun hw => hfirst hw c rest rfl⟩
      have hnext : w ++ [c] = [] → ∀ d rest', rest = d :: rest' → ∀ key ∈ T.userDefined, ¬ [d] <+: key :=
        fun hnil => absurd hnil (append_ne_nil_of_right_ne_nil w (cons_ne_nil c []))
      have hlength : w.length + 1 = (w ++ [c]).length := by rw [length_append, length_singleton]
      rw [walkLoop_child hc hchild]
      cases hleaf : leafOf packed with
      | true =>
        rw [if_pos rfl]
        rcases getNode_cases T.map.xcda (node ^^^ c.toNat ^^^ baseOf packed) with ⟨_, hthrows⟩ | ⟨hlen, _⟩ | ⟨value, hget, hok⟩
        · rw [hthrows]
          exact Or.inl rfl
        · exact absurd hlen (hwf.leaf w node c packed hreach henters hchild hleaf)
        · rw [hok]
          show walkLoop T.map.xcda rest (w.length + 1) _ (w.length + 1, valueOf value) = _ ∨ ∃ best',
            walkLoop T.map.xcda rest (w.length + 1) _ (w.length + 1, valueOf value) = _ ∧ _
          have hreach' := hreach.step henters hchild fun _ => (List.getElem?_eq_some_iff.mp hget).1
          rw [hlength]
          exact ih hreach' hnext fun _ hlt => hwf.string w node c packed value hreach henters hchild hleaf hget hlt
      | false =>
        rw [if_neg (by decide), hlength]
        exact ih (hreach.step henters hchild fun htrue => absurd htrue (by rw [hleaf]; decide)) hnext hbest

def finish (T : UgmNormalizer) (rest : List UInt8) (best : ℕ × ℕ) : Except NormalizeFault NormalizationResult :=
  if 0 < best.1 then (replacementAt T.map best.2).bind fun replacement => .ok ⟨replacement, best.1⟩
  else match Unicode.cptFromUtf8 rest with
    | some (_, n) => .ok ⟨rest.take n, n⟩
    | none => .ok ⟨[0xEF, 0xBF, 0xBD], 1⟩

theorem finish_ne_overrun (h : Ends T best) (rest : List UInt8) : finish T rest best ≠ .error .overrun := by
  rw [finish]
  split
  next hpos =>
    rw [replacementAt]
    split
    · exact fun hcontra => nomatch hcontra
    next hlt =>
      rw [if_pos (h hpos (Nat.lt_of_not_le hlt))]
      exact fun hcontra => nomatch hcontra
  · split <;> exact fun hcontra => nomatch hcontra

theorem first_of_match_zero (hmatch : T.matcher.longest (c :: rest) 0 = 0) : ∀ key ∈ T.userDefined, ¬ [c] <+: key := by
  intro key hkey hle
  obtain ⟨_, _, hmax⟩ := longest_matcher T (c :: rest)
  have hone := hmax [c] ⟨⟨rest, rfl⟩, key, hkey, hle⟩
  rw [hmatch, length_singleton] at hone
  exact absurd hone (Nat.not_succ_le_zero 0)

theorem WellFormed.reads (hwf : WellFormed T) {input : List UInt8} {inputOffset : ℕ} (hle : inputOffset ≤ input.length) :
    normalizePrefix T input inputOffset ≠ .error .overrun := by
  rcases Nat.lt_or_eq_of_le hle with hlt | rfl
  · rcases Nat.eq_zero_or_pos (T.userDefinedMatch input inputOffset) with hzero | hpos
    · rw [normalizePrefix_of_walk hlt hzero]
      show bind (longestMatch T.map (input.drop inputOffset)) (finish T (input.drop inputOffset)) ≠ _
      have hnone : Ends T (0, 0) := fun hpos => absurd hpos (Nat.lt_irrefl 0)
      rw [longestMatch]
      split
      next hsize =>
        have hroot : T.map.xcda[0]? = some T.map.xcda[0] := getElem?_eq_getElem hsize
        have hfirst : ([] : List UInt8) = [] → ∀ c rest', input.drop inputOffset = c :: rest' →
            ∀ key ∈ T.userDefined, ¬ [c] <+: key := by
          intro _ c rest' hrest
          rw [UgmNormalizer.userDefinedMatch, hrest] at hzero
          exact first_of_match_zero hzero
        rw [getNode_some hroot]
        show bind (walkLoop T.map.xcda (input.drop inputOffset) ([] : List UInt8).length _ (0, 0)) _ ≠ _
        rcases hwf.walk (.root hroot) hfirst hnone with hthrows | ⟨best', hok, hends⟩
        · rw [hthrows]
          exact fun hcontra => nomatch hcontra
        · rw [hok]
          exact finish_ne_overrun hends _
      next => exact finish_ne_overrun hnone _
    · rw [normalizePrefix_of_match hpos]
      exact fun hcontra => nomatch hcontra
  · rw [normalizePrefix, if_pos rfl]
    exact fun hcontra => nomatch hcontra

theorem Reaches.normalize (h : Reaches T w node) (henters : Enters T w c) :
    ∃ best, normalizePrefix T (w ++ [c]) 0
      = (walkLoop T.map.xcda [c] w.length node best).bind (finish T (w ++ [c])) := by
  obtain ⟨best, hbest⟩ := h.walk [c]
  have hlt : 0 < (w ++ [c]).length := by
    rw [length_append, length_singleton]
    omega
  have hmatch : T.userDefinedMatch (w ++ [c]) 0 = 0 := by
    cases hw : w with
    | nil => exact userDefinedMatch_eq_zero rfl (henters.2 hw)
    | cons d w' => exact userDefinedMatch_eq_zero rfl (h.head hw)
  refine ⟨best, ?_⟩
  rw [normalizePrefix_of_walk hlt hmatch, drop_zero, hbest]
  rfl

theorem wellFormed_of_reads (hreads : ∀ input, normalizePrefix T input 0 ≠ .error .overrun) : WellFormed T := by
  refine ⟨fun w node c h henters hlen => ?_, fun w node c packed h henters hchild hleaf hlen => ?_,
    fun w node c packed value h henters hchild hleaf hvalue hlt => ?_⟩
  · obtain ⟨best, hbest⟩ := h.normalize henters
    refine hreads _ (hbest.trans ?_)
    rw [walkLoop, if_neg henters.1]
    show bind (bind (getNode T.map.xcda (node ^^^ c.toNat)) _) _ = _
    rw [hlen, getNode_length]
    rfl
  · obtain ⟨best, hbest⟩ := h.normalize henters
    refine hreads _ (hbest.trans ?_)
    rw [walkLoop_child henters.1 hchild, if_pos hleaf, hlen, getNode_length]
    rfl
  · obtain ⟨best, hbest⟩ := h.normalize henters
    by_contra hnul
    refine hreads _ (hbest.trans ?_)
    rw [walkLoop_child henters.1 hchild, if_pos hleaf, getNode_some hvalue]
    show finish T (w ++ [c]) (w.length + 1, valueOf value) = _
    rw [finish, if_pos (Nat.succ_pos _), replacementAt, if_neg (Nat.not_le_of_lt hlt), if_neg hnul]
    rfl

/-! ### Progress -/

theorem normalizePrefix_consumes {input : List UInt8} {inputOffset : ℕ} {result : NormalizationResult}
    (hlt : inputOffset < input.length) (h : normalizePrefix T input inputOffset = .ok result) : 1 ≤ result.consumedInput := by
  rcases Nat.eq_zero_or_pos (T.userDefinedMatch input inputOffset) with hzero | hpos
  · rw [normalizePrefix_of_walk hlt hzero] at h
    cases hmatch : longestMatch T.map (input.drop inputOffset) with
    | error fault =>
      rw [hmatch] at h
      cases h
    | ok best =>
      rw [hmatch] at h
      have hfinish : finish T (input.drop inputOffset) best = .ok result := h
      rw [finish] at hfinish
      split at hfinish
      next hbest =>
        cases hreplacement : replacementAt T.map best.2 with
        | error fault =>
          rw [hreplacement] at hfinish
          cases hfinish
        | ok replacement =>
          rw [hreplacement] at hfinish
          obtain rfl := ok.inj hfinish
          exact hbest
      next =>
        rw [drop_eq_getElem_cons hlt] at hfinish
        split at hfinish
        next cpt n hcpt =>
          obtain ⟨m, rfl, _⟩ := Unicode.cptFromUtf8_spec hcpt
          obtain rfl := ok.inj hfinish
          exact Nat.succ_pos m
        next =>
          obtain rfl := ok.inj hfinish
          exact Nat.le_refl 1
  · rw [normalizePrefix_of_match hpos] at h
    obtain rfl := ok.inj h
    exact hpos

theorem normalizeLoop_isSome (o : NormalizeOptions) {input : List UInt8} {fuel inputOffset : ℕ}
    (hfuel : input.length < fuel + inputOffset) (hpos : 0 < fuel) (s : NormalizeState) :
    ∃ outcome, normalizeLoop T o input fuel inputOffset s = some outcome := by
  induction fuel generalizing inputOffset s with
  | zero => exact absurd hpos (Nat.lt_irrefl 0)
  | succ fuel ih =>
    rw [normalizeLoop]
    split
    next hlt =>
      cases hresult : normalizePrefix T input inputOffset with
      | error fault => exact ⟨_, rfl⟩
      | ok result =>
        have hone := normalizePrefix_consumes hlt hresult
        exact ih (by omega) (by omega) _
    next => exact ⟨_, rfl⟩

end Reads

/-- **The normalizer is safe exactly for well-formed maps**, among those that the constructor accepts. -/
theorem charsmap_safe_iff (blob : List UInt8) (userDefined : List (List UInt8)) :
    (∀ map, charsmapOf blob = .ok map → Safe ⟨map, userDefined⟩)
      ↔ ∀ map, charsmapOf blob = .ok map → WellFormed ⟨map, userDefined⟩ := by
  refine forall_congr' fun map => imp_congr_right fun _ => ⟨fun h => ?_, fun h => ⟨?_, ?_, ?_⟩⟩
  · exact wellFormed_of_reads fun input => h.reads input 0 (Nat.zero_le _)
  · exact fun input inputOffset hle => h.reads hle
  · exact fun input inputOffset result hlt hrun => normalizePrefix_consumes hlt hrun
  · intro o input
    obtain ⟨outcome, hloop⟩ := normalizeLoop_isSome (T := ⟨map, userDefined⟩) o
      (Nat.lt_of_lt_of_eq (Nat.lt_succ_self input.length) (Nat.add_zero _).symm) (Nat.succ_pos _) ⟨[], false, false⟩
    exact ⟨_, congrArg (Option.map _) hloop⟩

/-- A map with one entry, whose base is 0: the byte 1 leads to the index behind it. -/
theorem not_safe_one_entry :
    ¬ ∀ map, charsmapOf [4, 0, 0, 0, 0, 0, 0, 0, 0] = .ok map → Safe ⟨map, []⟩ := by
  intro h
  have hmap : charsmapOf [4, 0, 0, 0, 0, 0, 0, 0, 0] = .ok ⟨[0], [0]⟩ := by decide
  have hread : normalizePrefix ⟨⟨[0], [0]⟩, []⟩ [1] 0 = .error .overrun := by decide
  exact (h _ hmap).reads [1] 0 (by decide) hread

end Tokenizer
