import LlamaRafaelia.Lib.Layout
import LlamaRafaelia.Lib.Steps
import Mathlib.Data.List.DropRight

/-!
# Drafting with a second model

`common_speculative_gen_draft` brings the tokens that the draft model has seen, and its memory, to the new prompt: it
finds the part that the prompt begins with, cuts the rest, decodes what is missing, and then drafts token by token.

* `Conforms` - **what a call should do**: memory and list agree, positions stay in the context, the draft is short
  enough, and the list contains the end of the prompt and the last token;
* `calls_conform_iff` - the same for **runs**.
-/

namespace Speculative

open List Layout

/-- `llama_token`. -/
abbrev Token := Int32

/-- `common_speculative`, with the memory of sequence 0 of `ctx_dft`. -/
structure CommonSpeculative where
  promptDft : List Token
  mem : Multiset (ℤ × Token)

/-- The sizes of the draft context: `llama_n_ctx` and `llama_n_batch`. -/
structure Context where
  nCtx : ℕ
  nBatch : ℕ

/-- The arguments of a call.  `samples` is not data of the program: the best candidate that the draft model gives at each
step, and whether its probability is below `p_min`. -/
structure Call (ctx : Context) where
  nDraft : ℤ
  nReuse : ℤ
  prompt : List Token
  idLast : Token
  samples : ℕ → Token × Bool
  nDraft_lt : nDraft < ctx.nCtx

variable {ctx : Context}

/-! ### The search for what can be reused -/

def matchLength : List Token → List Token → ℕ
  | a :: as, b :: bs => if a = b then matchLength as bs + 1 else 0
  | _, _ => 0

namespace Call

def promptSpace (call : Call ctx) : ℤ := ctx.nCtx - call.nDraft

/-- `i_start`. -/
def iStart (call : Call ctx) : ℕ := (max 0 ((call.prompt.length : ℤ) - call.promptSpace)).toNat

/-- The prompt from `i_start` on. -/
def window (call : Call ctx) : List Token := call.prompt.drop call.iStart

def accepts (call : Call ctx) (cur : ℕ) : Bool :=
  decide (call.nReuse ≤ cur) || decide ((call.prompt.length : ℤ) ≤ call.promptSpace)

end Call

/-- One turn of the outer loop, on `reuse_i` and `reuse_n`. -/
def tryReuse (call : Call ctx) (promptDft : List Token) (reuse : ℕ × ℕ) (i : ℕ) : ℕ × ℕ :=
  let cur := matchLength call.window (promptDft.drop i)
  if call.accepts cur && decide (reuse.2 < cur) then (i, cur) else reuse

/-- `reuse_i` and `reuse_n`. -/
def findReuse (call : Call ctx) (promptDft : List Token) : ℕ × ℕ :=
  (List.range promptDft.length).foldl (tryReuse call promptDft) (0, 0)

/-! ### One call -/

/-- `llama_decode` of a batch.  `common_batch_add` fails an assertion when the batch is full. -/
def decode (ctx : Context) (mem : Multiset (ℤ × Token)) (batch : List (ℤ × Token)) : Option (Multiset (ℤ × Token)) :=
  if batch.length ≤ ctx.nBatch then some (mem + batch) else none

def passBack (nDraft : ℤ) : List Token → List Token → List Token
  | result, [] => result
  | result, t :: rest =>
    if nDraft ≤ (result ++ [t]).length then result ++ [t] else passBack nDraft (result ++ [t]) rest

/-- An old draft is passed back: the remembered token behind the match is `id_last`. -/
def PassesBack (call : Call ctx) (spec : CommonSpeculative) : Prop :=
  (findReuse call spec.promptDft).2 ≠ 0 ∧
    spec.promptDft[(findReuse call spec.promptDft).1 + (findReuse call spec.promptDft).2]? = some call.idLast

instance (call : Call ctx) (spec : CommonSpeculative) : Decidable (PassesBack call spec) :=
  inferInstanceAs (Decidable ((findReuse call spec.promptDft).2 ≠ 0 ∧
    spec.promptDft[(findReuse call spec.promptDft).1 + (findReuse call spec.promptDft).2]? = some call.idLast))

def cutFront (spec : CommonSpeculative) (reuseI : ℕ) : CommonSpeculative :=
  if 0 < reuseI then
    { promptDft := spec.promptDft.drop reuseI
      mem := shift reuseI (-1) (-reuseI) (remove 0 reuseI spec.mem) }
  else spec

def cutBack (spec : CommonSpeculative) (reuseN : ℕ) : CommonSpeculative :=
  if reuseN < spec.promptDft.length then
    { promptDft := spec.promptDft.take reuseN, mem := remove reuseN (-1) spec.mem }
  else spec

def keepMatch (spec : CommonSpeculative) (reuse : ℕ × ℕ) : CommonSpeculative :=
  if reuse.2 = 0 then { promptDft := [], mem := 0 } else cutBack (cutFront spec reuse.1) reuse.2

/-- The batch of the new tokens of the prompt; an empty one is not decoded. -/
def evalPrompt (ctx : Context) (spec : CommonSpeculative) (tokens : List Token) (reuseN : ℕ) : Option CommonSpeculative :=
  let batch := tokens.zipIdx.map fun p => (((reuseN + p.2 : ℕ) : ℤ), p.1)
  let mem := if 0 < batch.length then decode ctx spec.mem batch else some spec.mem
  mem.map fun mem => { promptDft := spec.promptDft ++ tokens, mem := mem }

def evalToken (ctx : Context) (spec : CommonSpeculative) (id : Token) (pos : ℤ) : Option CommonSpeculative :=
  (decode ctx spec.mem [(pos, id)]).map fun mem => { promptDft := spec.promptDft ++ [id], mem := mem }

/-- The drafting loop, `n` turns from the `i`-th on. -/
def draftLoop (call : Call ctx) (nPast : ℕ) : ℕ → ℕ → List Token → CommonSpeculative → Option (List Token × CommonSpeculative)
  | 0, _, result, spec => some (result, spec)
  | n + 1, i, result, spec =>
    let id := (call.samples i).1
    if call.nDraft ≤ (result ++ [id]).length then some (result ++ [id], spec)
    else if (call.samples i).2 then some (result ++ [id], spec)
    else (evalToken ctx spec id (nPast + i + 1)).bind fun spec => draftLoop call nPast n (i + 1) (result ++ [id]) spec

/-- `common_speculative_gen_draft` in a compatible vocabulary; `none` when an assertion fails. -/
def genDraft (call : Call ctx) (spec : CommonSpeculative) : Option (List Token × CommonSpeculative) :=
  let reuse := findReuse call spec.promptDft
  if PassesBack call spec then some (passBack call.nDraft [] (spec.promptDft.drop (reuse.1 + reuse.2 + 1)), spec)
  else do
    let spec ← evalPrompt ctx (keepMatch spec reuse) (call.window.drop reuse.2) reuse.2
    let nPast := spec.promptDft.length
    let spec ← evalToken ctx spec call.idLast nPast
    draftLoop call nPast call.nDraft.toNat 0 [] spec

def run (calls : List (Call ctx)) : Option CommonSpeculative :=
  Steps.run (fun spec call => (genDraft call spec).map Prod.snd) { promptDft := [], mem := 0 } calls

/-! ### What a call should do -/

/-- The memory holds the remembered tokens at their positions, inside the context. -/
structure Synced (ctx : Context) (spec : CommonSpeculative) : Prop where
  mem : spec.mem = layout 0 spec.promptDft
  positions : ∀ p ∈ spec.mem, p.1 < ctx.nCtx

/-- The result and the state after a call are as they should be. -/
structure Conforms (call : Call ctx) (result : List Token) (spec : CommonSpeculative) : Prop extends Synced ctx spec where
  short : (result.length : ℤ) ≤ call.nDraft
  contains : call.prompt.rtake call.promptSpace.toNat ++ [call.idLast] <:+: spec.promptDft

/-- The condition on a call: an old draft is passed back only if it continues the whole prompt, and when no token is to be
drafted, none is passed back and the last token still has its place. -/
def Good (call : Call ctx) (spec : CommonSpeculative) : Prop :=
  0 ≤ call.nDraft ∧
    (PassesBack call spec → (findReuse call spec.promptDft).2 = call.window.length ∧
      (call.nDraft = 0 →
        spec.promptDft.length = (findReuse call spec.promptDft).1 + (findReuse call spec.promptDft).2 + 1)) ∧
    (¬ PassesBack call spec → call.nDraft = 0 → call.prompt.length < ctx.nCtx)

/-! ### The search -/

theorem matchLength_le_left (as bs : List Token) : matchLength as bs ≤ as.length := by
  fun_induction matchLength as bs with
  | case1 a as bs ih =>
    rw [length_cons]
    omega
  | case2 => exact Nat.zero_le _
  | case3 => exact Nat.zero_le _

theorem take_matchLength (as bs : List Token) : bs.take (matchLength as bs) = as.take (matchLength as bs) := by
  fun_induction matchLength as bs with
  | case1 a as bs ih => rw [take_succ_cons, take_succ_cons, ih]
  | case2 => rfl
  | case3 => rfl

theorem matchLength_append (as bs : List Token) : matchLength as (as ++ bs) = as.length := by
  induction as with
  | nil => cases bs <;> rfl
  | cons a as ih => rw [cons_append, matchLength, if_pos rfl, ih, length_cons]

/-- What is known of `reuse_i` and `reuse_n` after `n` turns: they are a match that is accepted, and the longest one. -/
structure Found (call : Call ctx) (promptDft : List Token) (n : ℕ) (reuse : ℕ × ℕ) : Prop where
  accepted : reuse.2 ≠ 0 → call.accepts reuse.2 = true
  matched : reuse.2 ≠ 0 → reuse.2 = matchLength call.window (promptDft.drop reuse.1)
  longest : ∀ i < n, call.accepts (matchLength call.window (promptDft.drop i)) = true →
    matchLength call.window (promptDft.drop i) ≤ reuse.2

theorem Found.tryReuse {call : Call ctx} {promptDft : List Token} {n : ℕ} {reuse : ℕ × ℕ}
    (h : Found call promptDft n reuse) : Found call promptDft (n + 1) (tryReuse call promptDft reuse n) := by
  rw [Speculative.tryReuse]
  split
  · next hbetter =>
    rw [Bool.and_eq_true, decide_eq_true_eq] at hbetter
    refine { accepted := fun _ => hbetter.1, matched := fun _ => rfl, longest := fun i hi haccepts => ?_ }
    obtain hold | rfl := Nat.lt_succ_iff_lt_or_eq.mp hi
    · exact Nat.le_of_lt (Nat.lt_of_le_of_lt (h.longest i hold haccepts) hbetter.2)
    · exact Nat.le_refl _
  · next hworse =>
    refine { accepted := h.accepted, matched := h.matched, longest := fun i hi haccepts => ?_ }
    obtain hold | rfl := Nat.lt_succ_iff_lt_or_eq.mp hi
    · exact h.longest i hold haccepts
    · rw [Bool.and_eq_true, decide_eq_true_eq] at hworse
      exact Nat.le_of_not_lt fun hlt => hworse ⟨haccepts, hlt⟩

theorem found (call : Call ctx) (promptDft : List Token) :
    Found call promptDft promptDft.length (findReuse call promptDft) := by
  have hfold : ∀ n, Found call promptDft n ((List.range n).foldl (tryReuse call promptDft) (0, 0)) := by
    intro n
    induction n with
    | zero => exact { accepted := fun h => absurd rfl h, matched := fun h => absurd rfl h, longest := nofun }
    | succ n ih =>
      rw [range_succ, foldl_append]
      exact ih.tryReuse
  exact hfold promptDft.length

theorem Found.bound {call : Call ctx} {promptDft : List Token} {n : ℕ} {reuse : ℕ × ℕ} (h : Found call promptDft n reuse)
    (hpos : reuse.2 ≠ 0) : reuse.1 + reuse.2 ≤ promptDft.length ∧ reuse.2 ≤ call.window.length := by
  have hmatched := h.matched hpos
  have htake := congrArg List.length (take_matchLength call.window (promptDft.drop reuse.1))
  have hleft := matchLength_le_left call.window (promptDft.drop reuse.1)
  rw [length_take, length_take, length_drop] at htake
  omega

theorem Found.take {call : Call ctx} {promptDft : List Token} {n : ℕ} {reuse : ℕ × ℕ} (h : Found call promptDft n reuse)
    (hpos : reuse.2 ≠ 0) : (promptDft.drop reuse.1).take reuse.2 = call.window.take reuse.2 := by
  rw [h.matched hpos]
  exact take_matchLength _ _

theorem window_eq (call : Call ctx) : call.window = call.prompt.rtake call.promptSpace.toNat := by
  rw [Call.window, List.rtake, Call.iStart]
  congr 1
  have := call.nDraft_lt
  rw [Call.promptSpace]
  omega

theorem window_length (call : Call ctx) : (call.window.length : ℤ) = min (call.prompt.length : ℤ) call.promptSpace := by
  have := call.nDraft_lt
  rw [Call.window, length_drop, Call.iStart, Call.promptSpace]
  omega

/-! ### The list and the memory -/

def home (l : List Token) : CommonSpeculative where
  promptDft := l
  mem := layout 0 l

theorem Synced.eq_home {spec : CommonSpeculative} (h : Synced ctx spec) : spec = home spec.promptDft := by
  rw [home, ← h.mem]

theorem synced_home_iff {l : List Token} : Synced ctx (home l) ↔ l.length ≤ ctx.nCtx := by
  constructor
  · intro h
    by_cases hnil : l = []
    · rw [hnil]
      exact Nat.zero_le _
    · obtain ⟨p, hp, hlast⟩ := mem_layout_last hnil
      have := h.positions p hp
      omega
  · intro hlen
    refine { mem := rfl, positions := fun p hp => ?_ }
    have := (bounds_of_mem_layout hp).2
    omega

theorem cutFront_home {l : List Token} {i : ℕ} (hi : i ≤ l.length) : cutFront (home l) i = home (l.drop i) := by
  rw [cutFront]
  split
  · have hlen : (l.take i).length = i := by rw [length_take]; omega
    have hremove := remove_first (l.take i) (l.drop i)
    rw [take_append_drop, hlen] at hremove
    rw [home, home, hremove, shift_layout, Int.add_right_neg]
  · next hzero =>
    rw [Nat.eq_zero_of_not_pos hzero, drop_zero]

theorem cutBack_home (l : List Token) (n : ℕ) : cutBack (home l) n = home (l.take n) := by
  rw [cutBack]
  split
  · next hn =>
    have hlen : (l.take n).length = n := by
      rw [length_take]
      exact Nat.min_eq_left (Nat.le_of_lt hn)
    have hremove := remove_last (l.take n) (l.drop n)
    rw [take_append_drop, hlen] at hremove
    rw [home, home, hremove]
  · next hn =>
    have hlen : l.length ≤ n := Nat.le_of_not_lt hn
    rw [take_of_length_le hlen]

theorem keepMatch_home (call : Call ctx) (l : List Token) :
    keepMatch (home l) (findReuse call l) = home (call.window.take (findReuse call l).2) := by
  have hfound := found call l
  rw [keepMatch]
  split
  · next hzero =>
    rw [hzero, take_zero]
    rfl
  · next hpos =>
    have hle : (findReuse call l).1 ≤ l.length := by
      have := (hfound.bound hpos).1
      omega
    rw [cutFront_home hle, cutBack_home, hfound.take hpos]

theorem layout_zipIdx (tokens : List Token) (start : ℕ) :
    ((tokens.zipIdx.map fun p => (((start + p.2 : ℕ) : ℤ), p.1) : List (ℤ × Token)) : Multiset (ℤ × Token)) =
      layout start tokens := by
  have hfrom : ∀ k, ((tokens.zipIdx k).map fun p => (((start + p.2 : ℕ) : ℤ), p.1) : List (ℤ × Token)) =
      (layout ((start + k : ℕ) : ℤ) tokens : Multiset (ℤ × Token)) := by
    induction tokens with
    | nil => exact fun k => rfl
    | cons t tokens ih =>
      intro k
      rw [zipIdx_cons, map_cons, ← Multiset.cons_coe, ih, layout]
      rfl
  exact hfrom 0

theorem decode_eq {mem mem' : Multiset (ℤ × Token)} {batch : List (ℤ × Token)} (h : decode ctx mem batch = some mem') :
    mem' = mem + batch := by
  rw [decode] at h
  split at h
  · exact (Option.some.inj h).symm
  · cases h

theorem evalPrompt_home {l tokens : List Token} {spec : CommonSpeculative}
    (h : evalPrompt ctx (home l) tokens l.length = some spec) : spec = home (l ++ tokens) := by
  obtain ⟨mem, hmem, hspec⟩ := Option.map_eq_some_iff.mp h
  have hall : mem = layout 0 l + layout l.length tokens := by
    rw [← layout_zipIdx]
    split at hmem
    · exact decode_eq hmem
    · next hempty =>
      have hnil : tokens = [] := by
        rw [length_map, length_zipIdx] at hempty
        exact eq_nil_of_length_eq_zero (Nat.eq_zero_of_not_pos hempty)
      rw [← Option.some.inj hmem, hnil]
      exact (Multiset.add_zero _).symm
  rw [← hspec, hall]
  refine congrArg (CommonSpeculative.mk (l ++ tokens)) ?_
  rw [layout_append, Int.zero_add]

theorem evalToken_home {l : List Token} {id : Token} {spec : CommonSpeculative}
    (h : evalToken ctx (home l) id l.length = some spec) : spec = home (l ++ [id]) := by
  obtain ⟨mem, hmem, hspec⟩ := Option.map_eq_some_iff.mp h
  rw [← hspec, decode_eq hmem]
  exact congrArg (CommonSpeculative.mk (l ++ [id])) (layout_concat l id).symm

/-- **The drafting loop.**  The induction is on the turns that are left; `n` of them can still lengthen the result, and the
last one of these decodes nothing. -/
theorem draftLoop_home {call : Call ctx} {nPast n i : ℕ} {result result' l : List Token} {spec' : CommonSpeculative}
    (h : draftLoop call nPast n i result (home l) = some (result', spec')) (hl : l.length = nPast + i + 1)
    (hn : (result.length : ℤ) + n = call.nDraft) :
    (result'.length : ℤ) ≤ call.nDraft ∧ ∃ drafted, spec' = home (l ++ drafted) ∧ drafted.length ≤ n - 1 := by
  induction n generalizing i result l with
  | zero =>
    cases h
    exact ⟨by omega, [], by rw [append_nil], Nat.zero_le _⟩
  | succ n ih =>
    have hlen : (result ++ [(call.samples i).1]).length = result.length + 1 := by
      rw [length_append, length_singleton]
    have hstop : ((result ++ [(call.samples i).1]).length : ℤ) ≤ call.nDraft ∧
        ∃ drafted, home l = home (l ++ drafted) ∧ drafted.length ≤ n + 1 - 1 :=
      ⟨by omega, [], by rw [append_nil], Nat.zero_le _⟩
    rw [draftLoop] at h
    split at h
    · cases h
      exact hstop
    · next hmore =>
      split at h
      · cases h
        exact hstop
      · obtain ⟨spec, heval, hrest⟩ := Option.bind_eq_some_iff.mp h
        have hpos : ((nPast : ℤ) + i + 1) = l.length := by omega
        rw [hpos] at heval
        rw [evalToken_home heval] at hrest
        have hl' : (l ++ [(call.samples i).1]).length = nPast + (i + 1) + 1 := by
          rw [length_append, length_singleton]
          omega
        obtain ⟨hshort, drafted, hspec, hdrafted⟩ := ih hrest hl' (by omega)
        refine ⟨hshort, (call.samples i).1 :: drafted, ?_, ?_⟩
        · rw [hspec, append_assoc, singleton_append]
        · rw [length_cons]
          omega

/-! ### One call -/

theorem length_passBack {nDraft : ℤ} {result rest : List Token} (h : (result.length : ℤ) < nDraft) :
    ((passBack nDraft result rest).length : ℤ) ≤ nDraft := by
  induction rest generalizing result with
  | nil => exact Int.le_of_lt h
  | cons t rest ih =>
    have hlen : (result ++ [t]).length = result.length + 1 := by rw [length_append, length_singleton]
    rw [passBack]
    split
    · omega
    · next hmore => exact ih (Int.not_le.mp hmore)

/-- **Passing back.**  The remembered list contains the end of the prompt and the last token only if all of that end was
matched: elsewhere it would be a longer match. -/
theorem passesBack_contains_iff {call : Call ctx} {spec : CommonSpeculative} (h : PassesBack call spec) :
    call.window ++ [call.idLast] <:+: spec.promptDft ↔ (findReuse call spec.promptDft).2 = call.window.length := by
  have hfound := found call spec.promptDft
  obtain ⟨hpos, hlast⟩ := h
  obtain ⟨hbound, hle⟩ := hfound.bound hpos
  constructor
  · rintro ⟨s, t, heq⟩
    have hdrop : spec.promptDft.drop s.length = call.window ++ ([call.idLast] ++ t) := by
      rw [← heq, append_assoc, append_assoc, drop_left]
    have hlen : s.length < spec.promptDft.length := by
      rw [← heq]
      simp only [length_append, length_singleton]
      omega
    have hmatch : matchLength call.window (spec.promptDft.drop s.length) = call.window.length := by
      rw [hdrop]
      exact matchLength_append _ _
    have haccepts : call.accepts call.window.length = true := by
      have hsmaller := hfound.accepted hpos
      rw [Call.accepts, Bool.or_eq_true, decide_eq_true_eq, decide_eq_true_eq] at hsmaller ⊢
      omega
    have hlongest := hfound.longest s.length hlen
    rw [hmatch] at hlongest
    exact Nat.le_antisymm hle (hlongest haccepts)
  · intro hfull
    have htake := hfound.take hpos
    rw [hfull, take_length] at htake
    refine ⟨spec.promptDft.take (findReuse call spec.promptDft).1,
      spec.promptDft.drop ((findReuse call spec.promptDft).1 + call.window.length + 1), ?_⟩
    rw [hfull] at hlast
    obtain ⟨hi, hget⟩ := List.getElem?_eq_some_iff.mp hlast
    have hback := drop_eq_getElem_cons hi
    rw [hget] at hback
    have hmiddle : spec.promptDft.drop (findReuse call spec.promptDft).1 = call.window ++
        spec.promptDft.drop ((findReuse call spec.promptDft).1 + call.window.length) := by
      conv_lhs => rw [← take_append_drop call.window.length (spec.promptDft.drop _), htake, drop_drop]
    rw [append_assoc, append_assoc, singleton_append, ← hback, ← hmiddle, take_append_drop]

theorem passBack_short_iff {call : Call ctx} (hnonneg : 0 ≤ call.nDraft) {l : List Token} {i : ℕ} (hi : i < l.length) :
    ((passBack call.nDraft [] (l.drop (i + 1))).length : ℤ) ≤ call.nDraft ↔ (call.nDraft = 0 → l.length = i + 1) := by
  by_cases hzero : call.nDraft = 0
  · rw [hzero]
    cases hrest : l.drop (i + 1) with
    | nil =>
      have hlen := drop_eq_nil_iff.mp hrest
      exact iff_of_true (Int.le_refl _) fun _ => by omega
    | cons t rest =>
      have hlen := congrArg List.length hrest
      rw [length_drop, length_cons] at hlen
      refine iff_of_false ?_ fun h => ?_
      · rw [passBack, if_pos (by simp)]
        simp
      · have := h rfl
        omega
  · have hpos : (([] : List Token).length : ℤ) < call.nDraft := by
      rw [length_nil]
      omega
    exact iff_of_true (length_passBack hpos) fun h => absurd h hzero

theorem genDraft_home {call : Call ctx} {l result : List Token} {spec' : CommonSpeculative}
    (hnew : ¬ PassesBack call (home l)) (hnonneg : 0 ≤ call.nDraft)
    (h : genDraft call (home l) = some (result, spec')) :
    (result.length : ℤ) ≤ call.nDraft ∧
      ∃ drafted, spec' = home (call.window ++ [call.idLast] ++ drafted) ∧ drafted.length ≤ call.nDraft.toNat - 1 := by
  have hfound : Found call l l.length (findReuse call l) := found call l
  have hlen : (call.window.take (findReuse call l).2).length = (findReuse call l).2 := by
    rw [length_take]
    by_cases hzero : (findReuse call l).2 = 0
    · omega
    · exact Nat.min_eq_left (hfound.bound hzero).2
  rw [genDraft, if_neg hnew] at h
  obtain ⟨spec₁, hprompt, h⟩ := Option.bind_eq_some_iff.mp h
  obtain ⟨spec₂, htoken, h⟩ := Option.bind_eq_some_iff.mp h
  have hkeep : keepMatch (home l) (findReuse call l) = home (call.window.take (findReuse call l).2) :=
    keepMatch_home call l
  have heval : spec₁ = home call.window := by
    have hprompt' : evalPrompt ctx (home (call.window.take (findReuse call l).2))
        (call.window.drop (findReuse call l).2) (call.window.take (findReuse call l).2).length = some spec₁ := by
      rw [← hkeep, hlen]
      exact hprompt
    rw [evalPrompt_home hprompt', take_append_drop]
  rw [heval] at htoken h
  rw [evalToken_home htoken] at h
  refine draftLoop_home h ?_ ?_
  · rw [length_append, length_singleton]
    rfl
  · rw [length_nil]
    omega

/-- **One call.**  From a state in which list and memory agree, the result and the new state are as they should be exactly
when the condition holds. -/
theorem conforms_iff {call : Call ctx} {spec spec' : CommonSpeculative} {result : List Token} (h : Synced ctx spec)
    (hgen : genDraft call spec = some (result, spec')) : Conforms call result spec' ↔ Good call spec := by
  by_cases hnonneg : 0 ≤ call.nDraft
  swap
  · refine iff_of_false (fun hconf => hnonneg ?_) fun hgood => hnonneg hgood.1
    have := hconf.short
    omega
  by_cases hback : PassesBack call spec
  · have hgood : Good call spec ↔ (findReuse call spec.promptDft).2 = call.window.length ∧ (call.nDraft = 0 →
        spec.promptDft.length = (findReuse call spec.promptDft).1 + (findReuse call spec.promptDft).2 + 1) :=
      ⟨fun hgood => hgood.2.1 hback, fun hgood => ⟨hnonneg, fun _ => hgood, fun hnew => absurd hback hnew⟩⟩
    have hi := (List.getElem?_eq_some_iff.mp hback.2).1
    rw [genDraft, if_pos hback] at hgen
    cases hgen
    rw [hgood, ← passesBack_contains_iff hback, ← passBack_short_iff hnonneg hi, window_eq]
    exact ⟨fun hconf => ⟨hconf.contains, hconf.short⟩,
      fun hboth => { toSynced := h, short := hboth.2, contains := hboth.1 }⟩
  · have hgood : Good call spec ↔ (call.nDraft = 0 → call.prompt.length < ctx.nCtx) :=
      ⟨fun hgood => hgood.2.2 hback, fun hgood => ⟨hnonneg, fun hold => absurd hold hback, fun _ => hgood⟩⟩
    rw [h.eq_home] at hback hgen
    obtain ⟨hshort, drafted, rfl, hdrafted⟩ := genDraft_home hback hnonneg hgen
    have hwindow := window_length call
    have hsynced : Synced ctx (home (call.window ++ [call.idLast] ++ drafted)) ↔
        (call.nDraft = 0 → call.prompt.length < ctx.nCtx) := by
      rw [synced_home_iff, length_append, length_append, length_singleton]
      rw [Call.promptSpace] at hwindow
      omega
    rw [hgood, ← hsynced]
    refine ⟨fun hconf => hconf.toSynced, fun hs => { toSynced := hs, short := hshort, contains := ?_ }⟩
    rw [← window_eq]
    exact List.IsPrefix.isInfix (List.prefix_append _ _)

/-! ### Runs -/

theorem synced_empty : Synced ctx { promptDft := [], mem := 0 } where
  mem := rfl
  positions := nofun

/-- **Runs.**  Every call of a run does what it should exactly when each of them meets the condition. -/
theorem calls_conform_iff (calls : List (Call ctx)) :
    (∀ k spec, run (calls.take k) = some spec → Synced ctx spec ∧ ∀ call, calls[k]? = some call →
      ∀ result spec', genDraft call spec = some (result, spec') → Conforms call result spec') ↔
      ∀ k call, calls[k]? = some call → ∀ spec, run (calls.take k) = some spec → genDraft call spec ≠ none →
        Good call spec := by
  refine Steps.run_iff _ ?_ ?_ synced_empty calls
  · intro spec call hs
    cases hgen : genDraft call spec with
    | none => exact iff_of_true nofun fun hne => absurd rfl hne
    | some out =>
      constructor
      · exact fun hconf _ => (conforms_iff hs hgen).mp (hconf out.1 out.2 rfl)
      · intro hgood result spec' heq
        cases heq
        exact (conforms_iff hs hgen).mpr (hgood nofun)
  · intro spec call spec' hs hgood hstep
    obtain ⟨out, hgen, rfl⟩ := Option.map_eq_some_iff.mp hstep
    exact ((conforms_iff hs hgen).mpr (hgood (by rw [hgen]; nofun))).toSynced

/-- **A draft for another prompt.**  After a call for `[1, 2]` and `3` the draft model has seen `[1, 2, 3, 4]`; the call for
`[1, 2, 9]` and `3` passes back `4`, and the list does not contain `[1, 2, 9, 3]`. -/
theorem partial_match_passes_back :
    let ctx : Context := { nCtx := 16, nBatch := 16 }
    let samples : ℕ → Token × Bool := fun i => (if i = 0 then 4 else 5, false)
    let first : Call ctx :=
      { nDraft := 2, nReuse := 1, prompt := [1, 2], idLast := 3, samples := samples, nDraft_lt := by decide }
    let second : Call ctx := { first with prompt := [1, 2, 9] }
    ∃ spec, run [first] = some spec ∧ ∃ spec', genDraft second spec = some ([4], spec') ∧
      spec'.promptDft = [1, 2, 3, 4] ∧ ¬ Conforms second [4] spec' := by
  intro ctx samples first second
  refine ⟨_, rfl, _, rfl, rfl, fun hconf => ?_⟩
  have hnot : ¬ second.prompt.rtake second.promptSpace.toNat ++ [second.idLast] <:+: [1, 2, 3, 4] := by decide
  exact hnot hconf.contains

end Speculative
