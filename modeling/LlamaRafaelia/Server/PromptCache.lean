import LlamaRafaelia.Lib.Steps
import LlamaRafaelia.Ngram.File
import LlamaRafaelia.Server.Tokens
import Mathlib.Data.List.ModifyLast

/-!
# The prompt cache of the server

Before a slot gets a task, `get_available_slot` saves the state of the slot in the prompt cache, looks there for a
prompt that is closer to the one of the task, and trims the cache.

* `PromptState.Consistent` - **what should hold**: the tokens of a slot are those of its sequence in memory, and the data
  of a cached prompt is the state of its tokens;
* `PromptState.always_consistent_iff` - the same for **runs**.
-/

namespace Server

open List NgramCache

/-- A state as `llama_state_seq_get_data_ext` writes it and `llama_state_seq_set_data_ext` reads it. -/
structure StateIO where
  write : List Token → List UInt8
  read : List UInt8 → Option (List Token)

/-- The float arithmetic of the cache: quotients, their order, `0.25f`, and the two limits that are computed with it. -/
structure Floats (F : Type) where
  ratio : ℕ → ℕ → F
  lt : F → F → Bool
  quarter : F
  reducedLimit : ℕ → ℕ
  fittingTokens : ℕ → ℕ → ℕ → ℕ

/-- `llama_state_seq_set_data_ext`: the sequence of the slot is the one of the data, or it is left empty. -/
def setData (io : StateIO) (data : List UInt8) (restored : Bool) : Bool × List Token :=
  match restored, io.read data with
  | true, some tokens => (true, tokens)
  | _, _ => (false, [])

/-- `server_prompt`.  Of a checkpoint only the data counts here. -/
structure Prompt where
  tokens : List Token
  data : List UInt8
  checkpoints : List (List UInt8)
deriving DecidableEq

/-- `get_common_prefix` of two texts. -/
def getCommonPrefix : List Token → List Token → ℕ
  | a :: as, b :: bs => if a = b then getCommonPrefix as bs + 1 else 0
  | _, _ => 0

namespace Prompt

def size (p : Prompt) : ℕ := p.data.length + (p.checkpoints.map List.length).sum

def nTokens (p : Prompt) : ℕ := p.tokens.length

end Prompt

/-- `server_prompt_cache`; a limit of zero is none. -/
structure PromptCache where
  states : List Prompt
  limitSize : ℕ
  limitTokens : ℕ
deriving DecidableEq

/-- A slot with its prompt, and its sequence in memory. -/
structure PromptSlot where
  prompt : Prompt
  mem : List Token
deriving DecidableEq

variable {F : Type} (fl : Floats F) (io : StateIO)

namespace PromptCache

def size (states : List Prompt) : ℕ := (states.map Prompt.size).sum

def nTokens (states : List Prompt) : ℕ := (states.map Prompt.nTokens).sum

def dropOldest (exceeds : List Prompt → Bool) : List Prompt → List Prompt
  | s :: t :: states => if exceeds (s :: t :: states) then dropOldest exceeds (t :: states) else s :: t :: states
  | states => states

/-- `update`. -/
def update (cache : PromptCache) : PromptCache :=
  let bySize :=
    if 0 < cache.limitSize then dropOldest (fun l => cache.limitSize < size l) cache.states else cache.states
  let limitTokensCur :=
    if 0 < cache.limitSize then
      max cache.limitTokens (fl.fittingTokens cache.limitSize (size bySize) (nTokens bySize))
    else cache.limitTokens
  { cache with
    states := if 0 < cache.limitTokens then dropOldest (fun l => limitTokensCur < nTokens l) bySize else bySize }

/-- `alloc`: whether there is a new state at the end of the list, with room for the data. -/
def alloc (cache : PromptCache) (prompt : Prompt) (stateSize : ℕ) (allocated : Bool) : Bool × PromptCache :=
  if cache.states.any fun s => getCommonPrefix s.tokens prompt.tokens = prompt.tokens.length then (false, cache)
  else
    let states := cache.states.filter fun s => getCommonPrefix s.tokens prompt.tokens ≠ s.tokens.length
    if allocated then
      let cur : Prompt :=
        { tokens := prompt.tokens, data := List.replicate stateSize 0, checkpoints := prompt.checkpoints }
      (true, { cache with states := states ++ [cur] })
    else (false, update fl { cache with states := states, limitSize := fl.reducedLimit (size states) })

/-- The best entry so far, with its place in the list, and how good it is. -/
structure Best (F : Type) where
  entry : Option (Prompt × ℕ)
  fKeep : F
  sim : F

def consider (tokensNew : List Token) (best : Best F) (it : Prompt × ℕ) : Best F :=
  let lcpCur := getCommonPrefix it.1.tokens tokensNew
  let fKeepCur := fl.ratio lcpCur it.1.tokens.length
  let simCur := fl.ratio lcpCur tokensNew.length
  if fl.lt fKeepCur fl.quarter then best
  else if fl.lt best.fKeep fKeepCur && fl.lt best.sim simCur then { entry := some it, fKeep := fKeepCur, sim := simCur }
  else best

/-- The cached prompt that is closer to the new tokens than the prompt of the slot. -/
def findBetter (cache : PromptCache) (prompt : Prompt) (tokensNew : List Token) : Option (Prompt × ℕ) :=
  let lcpBest := getCommonPrefix prompt.tokens tokensNew
  let best : Best F :=
    { entry := none, fKeep := fl.ratio lcpBest prompt.tokens.length, sim := fl.ratio lcpBest tokensNew.length }
  (cache.states.zipIdx.foldl (consider fl tokensNew) best).entry

/-- `load`, with the slot whose sequence the state is read into. -/
def load (cache : PromptCache) (slot : PromptSlot) (tokensNew : List Token) (restored : Bool) :
    Bool × PromptSlot × PromptCache :=
  match cache.findBetter fl slot.prompt tokensNew with
  | none => (true, slot, cache)
  | some (entry, i) =>
    match setData io entry.data restored with
    | (false, mem) => (false, { slot with mem := mem }, cache)
    | (true, mem) =>
      (true, { prompt := { entry with data := [] }, mem := mem }, { cache with states := cache.states.eraseIdx i })

end PromptCache

/-- `prompt_save`. -/
def PromptSlot.promptSave (slot : PromptSlot) (cache : PromptCache) (allocated : Bool) : PromptCache :=
  match cache.alloc fl slot.prompt (io.write slot.mem).length allocated with
  | (false, cache) => cache
  | (true, cache) => { cache with states := cache.states.modifyLast fun cur => { cur with data := io.write slot.mem } }

/-- The slots and the cache. -/
structure PromptState where
  slots : List PromptSlot
  cache : PromptCache
deriving DecidableEq

/-- A call on the cache, with the outcome of the allocation or of the restore. -/
inductive PromptOp where
  | promptSave (i : ℕ) (allocated : Bool)
  | promptLoad (i : ℕ) (tokensNew : List Token) (restored : Bool)
  | update
deriving DecidableEq

namespace PromptState

/-- The slot of a call; `get_available_slot` makes none for a slot without tokens. -/
def slot (st : PromptState) (i : ℕ) : Option PromptSlot := (st.slots[i]?).filter fun s => s.prompt.tokens ≠ []

def step (st : PromptState) : PromptOp → PromptState
  | .promptSave i allocated =>
    match st.slot i with
    | none => st
    | some s => { st with cache := s.promptSave fl io st.cache allocated }
  | .promptLoad i tokensNew restored =>
    match st.slot i with
    | none => st
    | some s =>
      let (_, s, cache) := st.cache.load fl io s tokensNew restored
      { slots := st.slots.set i s, cache := cache }
  | .update => { st with cache := st.cache.update fl }

def run (st : PromptState) (ops : List PromptOp) : PromptState := ops.foldl (step fl io) st

/-- The three copies agree. -/
structure Consistent (st : PromptState) : Prop where
  slots : ∀ s ∈ st.slots, s.prompt.tokens = s.mem
  cache : ∀ p ∈ st.cache.states, p.data = io.write p.tokens

def Good (st : PromptState) : PromptOp → Prop
  | .promptLoad i tokensNew false => ∀ s ∈ st.slot i, st.cache.findBetter fl s.prompt tokensNew = none
  | .promptLoad _ _ true | .promptSave _ _ | .update => True

end PromptState

/-! ### The entries of the cache -/

namespace PromptCache

theorem mem_of_mem_dropOldest {exceeds : List Prompt → Bool} {p : Prompt} {l : List Prompt} (h : p ∈ dropOldest exceeds l) :
    p ∈ l := by
  fun_induction dropOldest exceeds l with
  | case1 s t states hover ih => exact mem_cons_of_mem _ (ih h)
  | case2 s t states hover => exact h
  | case3 states hshort => exact h

theorem mem_of_mem_update {cache : PromptCache} {p : Prompt} (h : p ∈ (cache.update fl).states) : p ∈ cache.states := by
  have hsize : ∀ q ∈ (if 0 < cache.limitSize then dropOldest (fun l => cache.limitSize < size l) cache.states
      else cache.states), q ∈ cache.states := by
    intro q hq
    split at hq
    · exact mem_of_mem_dropOldest hq
    · exact hq
  simp only [update] at h
  split at h
  · exact hsize p (mem_of_mem_dropOldest h)
  · exact hsize p h

theorem findBetter_mem {cache : PromptCache} {prompt : Prompt} {tokensNew : List Token} {entry : Prompt} {i : ℕ}
    (h : cache.findBetter fl prompt tokensNew = some (entry, i)) : entry ∈ cache.states := by
  have hfold : ∀ (l : List (Prompt × ℕ)) (best : Best F) (it : Prompt × ℕ),
      (l.foldl (consider fl tokensNew) best).entry = some it → best.entry = some it ∨ it ∈ l := by
    intro l
    induction l with
    | nil => exact fun best it hbest => Or.inl hbest
    | cons x l ih =>
      intro best it hbest
      obtain hfirst | hmem := ih (consider fl tokensNew best x) it hbest
      · simp only [consider] at hfirst
        split at hfirst
        · exact Or.inl hfirst
        · split at hfirst
          · exact Or.inr (Option.some.inj hfirst ▸ mem_cons_self)
          · exact Or.inl hfirst
      · exact Or.inr (mem_cons_of_mem _ hmem)
  obtain hnone | hmem := hfold _ _ _ h
  · cases hnone
  · exact fst_mem_of_mem_zipIdx hmem

end PromptCache

namespace PromptState

/-! ### One call -/

theorem mem_of_slot {st : PromptState} {i : ℕ} {s : PromptSlot} (h : st.slot i = some s) :
    s ∈ st.slots ∧ s.prompt.tokens ≠ [] := by
  rw [slot, Option.filter_eq_some_iff, decide_eq_true_eq] at h
  exact ⟨mem_of_getElem? h.1, h.2⟩

/-- **Saving.**  The new entry gets the state of the slot, whose tokens are those of its sequence. -/
theorem promptSave_data {cache : PromptCache} (hcache : ∀ p ∈ cache.states, p.data = io.write p.tokens) {s : PromptSlot}
    (hs : s.prompt.tokens = s.mem) (allocated : Bool) :
    ∀ p ∈ (s.promptSave fl io cache allocated).states, p.data = io.write p.tokens := by
  intro p hp
  simp only [PromptSlot.promptSave, PromptCache.alloc] at hp
  split at hp
  · next cache' halloc =>
    split at halloc
    · cases halloc
      exact hcache p hp
    · split at halloc
      · cases halloc
      · cases halloc
        exact hcache p (mem_filter.mp (PromptCache.mem_of_mem_update fl hp)).1
  · next cache' halloc =>
    split at halloc
    · cases halloc
    · split at halloc
      · cases halloc
        rw [modifyLast_concat, mem_append, mem_singleton] at hp
        obtain hold | rfl := hp
        · exact hcache p (mem_filter.mp hold).1
        · rw [← hs]
      · cases halloc

theorem getElem?_of_slot {st : PromptState} {i : ℕ} {s : PromptSlot} (h : st.slot i = some s) : st.slots[i]? = some s :=
  (Option.filter_eq_some_iff.mp h).1

theorem Consistent.set {st : PromptState} (h : st.Consistent io) (i : ℕ) {s : PromptSlot} (hs : s.prompt.tokens = s.mem)
    {cache : PromptCache} (hcache : ∀ p ∈ cache.states, p ∈ st.cache.states) :
    Consistent io { slots := st.slots.set i s, cache := cache } where
  slots x hx := by
    obtain hold | rfl := mem_or_eq_of_mem_set hx
    · exact h.slots x hold
    · exact hs
  cache p hp := h.cache p (hcache p hp)

/-- **Loading a better prompt.**  A restore that fails leaves the tokens of a sequence that is gone. -/
theorem load_consistent_iff (hio : ∀ t, io.read (io.write t) = some t) {st : PromptState} (h : st.Consistent io)
    {i : ℕ} {tokensNew : List Token} {restored : Bool} {s : PromptSlot} (hslot : st.slot i = some s) {entry : Prompt}
    {j : ℕ} (hfind : st.cache.findBetter fl s.prompt tokensNew = some (entry, j)) :
    (st.step fl io (.promptLoad i tokensNew restored)).Consistent io ↔ restored = true := by
  have hread : io.read entry.data = some entry.tokens := by
    rw [h.cache entry (PromptCache.findBetter_mem fl hfind)]
    exact hio entry.tokens
  cases restored with
  | true =>
    refine iff_of_true ?_ rfl
    simp only [step, hslot, PromptCache.load, hfind, setData, hread]
    exact h.set io i rfl fun p hp => mem_of_mem_eraseIdx hp
  | false =>
    refine iff_of_false ?_ Bool.false_ne_true
    simp only [step, hslot, PromptCache.load, hfind, setData]
    intro hcons
    obtain ⟨hi, -⟩ := List.getElem?_eq_some_iff.mp (getElem?_of_slot hslot)
    exact (mem_of_slot hslot).2 (hcons.slots { s with mem := [] } (mem_set hi _))

/-- **One call.**  It keeps the copies in step exactly when it is no restore that fails. -/
theorem consistent_step_iff (hio : ∀ t, io.read (io.write t) = some t) {st : PromptState} (h : st.Consistent io)
    (op : PromptOp) : (st.step fl io op).Consistent io ↔ st.Good fl op := by
  cases op with
  | promptSave i allocated =>
    refine iff_of_true ?_ trivial
    rw [step]
    cases hslot : st.slot i with
    | none => exact h
    | some s =>
      have hs : s.prompt.tokens = s.mem := h.slots s (mem_of_slot hslot).1
      exact { slots := h.slots, cache := promptSave_data fl io h.cache hs allocated }
  | promptLoad i tokensNew restored =>
    cases hslot : st.slot i with
    | none =>
      refine iff_of_true ?_ ?_
      · rw [step, hslot]
        exact h
      · cases restored with
        | true => trivial
        | false =>
          intro s hs
          rw [hslot] at hs
          cases hs
    | some s =>
      have hgood : st.Good fl (.promptLoad i tokensNew restored) ↔
          restored = true ∨ st.cache.findBetter fl s.prompt tokensNew = none := by
        cases restored <;> simp [Good, hslot]
      rw [hgood]
      cases hfind : st.cache.findBetter fl s.prompt tokensNew with
      | none =>
        refine iff_of_true ?_ (Or.inr rfl)
        simp only [step, hslot, PromptCache.load, hfind]
        exact h.set io i (h.slots s (mem_of_slot hslot).1) fun p hp => hp
      | some best =>
        rw [load_consistent_iff fl io hio h hslot hfind]
        simp
  | update =>
    refine iff_of_true ?_ trivial
    exact { slots := h.slots, cache := fun p hp => h.cache p (PromptCache.mem_of_mem_update fl hp) }

/-! ### Runs -/

/-- **The three copies agree after every call exactly when no restore fails.** -/
theorem always_consistent_iff (hio : ∀ t, io.read (io.write t) = some t) {st : PromptState} (h : st.Consistent io)
    (ops : List PromptOp) :
    (∀ k, (run fl io st (ops.take k)).Consistent io) ↔
      ∀ k op, ops[k]? = some op → (run fl io st (ops.take k)).Good fl op :=
  Steps.foldl_always_iff (P := Consistent io) (fun _ op hs => consistent_step_iff fl io hio hs op) h ops

def quotients : Floats (ℕ × ℕ) where
  ratio a b := (a, b)
  lt p q := 0 < p.2 && 0 < q.2 && p.1 * q.2 < q.1 * p.2
  quarter := (1, 4)
  reducedLimit n := max 1 (2 * n / 5)
  fittingTokens limit size n := if size ≤ max 1 n then limit else limit * max 1 n / size

def readTokens : ℕ → List UInt8 → Option (List Token)
  | _, [] => some []
  | 0, _ => none
  | fuel + 1, bs => (readInt32 bs).bind fun p => (readTokens fuel p.2).map (p.1 :: ·)

def tokenState : StateIO where
  write tokens := tokens.flatMap int32Bytes
  read data := readTokens data.length data

theorem readTokens_flatMap {tokens : List Token} {fuel : ℕ} (hfuel : tokens.length ≤ fuel) :
    readTokens fuel (tokens.flatMap int32Bytes) = some tokens := by
  induction tokens generalizing fuel with
  | nil => cases fuel <;> rfl
  | cons x tokens ih =>
    obtain ⟨fuel, rfl⟩ : ∃ n, fuel = n + 1 := ⟨fuel - 1, by rw [length_cons] at hfuel; omega⟩
    have hread := readInt32_append x (tokens.flatMap int32Bytes)
    have hrest := ih (Nat.le_of_succ_le_succ hfuel)
    rw [flatMap_cons, readTokens, hread, Option.bind_some, hrest, Option.map_some]
    intro hnil
    rw [hnil] at hread
    cases hread

theorem tokenState_read_write (tokens : List Token) : tokenState.read (tokenState.write tokens) = some tokens := by
  refine readTokens_flatMap ?_
  show tokens.length ≤ (tokens.flatMap int32Bytes).length
  induction tokens with
  | nil => exact Nat.le_refl _
  | cons x tokens ih =>
    have hlen : (int32Bytes x).length = 4 := leBytes_length 4 _
    rw [flatMap_cons, length_append, length_cons, hlen]
    omega

def twoSlots : PromptState where
  slots := [{ prompt := { tokens := [1, 2, 3], data := [], checkpoints := [] }, mem := [1, 2, 3] },
    { prompt := { tokens := [7, 8], data := [], checkpoints := [] }, mem := [7, 8] }]
  cache := { states := [], limitSize := 1024, limitTokens := 100 }

theorem twoSlots_consistent : twoSlots.Consistent tokenState where
  slots := by decide
  cache := nofun

/-- The second slot is saved and the first one restores that text. -/
theorem always_consistent_iff_restored :
    let ops : List PromptOp :=
      [.promptSave 1 true, .promptLoad 1 [1, 2] true, .update, .promptSave 0 true, .promptLoad 0 [7, 8, 9] true, .update]
    (∀ k, (run quotients tokenState twoSlots (ops.take k)).Consistent tokenState) ∧
      (run quotients tokenState twoSlots ops).slots.map PromptSlot.mem = [[7, 8], [7, 8]] := by
  intro ops
  have hgood : ∀ k op, ops[k]? = some op → (run quotients tokenState twoSlots (ops.take k)).Good quotients op := by
    have hops : ∀ op ∈ ops, ∀ st : PromptState, st.Good quotients op := by simp [ops, Good]
    exact fun k op hop => hops op (mem_of_getElem? hop) _
  refine ⟨(always_consistent_iff quotients tokenState tokenState_read_write twoSlots_consistent ops).mpr hgood, ?_⟩
  decide

/-- **A failed restore.**  The first slot keeps its three tokens, and its sequence is empty. -/
theorem failed_restore_keeps_tokens :
    let st := run quotients tokenState twoSlots
      [.promptSave 1 true, .promptLoad 1 [1, 2] true, .update, .promptSave 0 true, .promptLoad 0 [7, 8, 9] false]
    st.slots.map (fun s => (s.prompt.tokens, s.mem)) = [([1, 2, 3], []), ([7, 8], [7, 8])] ∧
      ¬ st.Consistent tokenState := by
  intro st
  have hslots : st.slots.map (fun s => (s.prompt.tokens, s.mem)) = [([1, 2, 3], []), ([7, 8], [7, 8])] := by decide
  refine ⟨hslots, fun hcons => ?_⟩
  have hmem : (([1, 2, 3], []) : List Token × List Token) ∈ st.slots.map fun s => (s.prompt.tokens, s.mem) := by
    rw [hslots]
    exact mem_cons_self
  obtain ⟨s, hs, heq⟩ := mem_map.mp hmem
  have htokens := hcons.slots s hs
  rw [(Prod.mk.inj heq).1, (Prod.mk.inj heq).2] at htokens
  cases htokens

end PromptState

end Server
