import LlamaRafaelia.Lib.Steps
import LlamaRafaelia.Server.Tokens

/-!
# Programs with several token lists

A program makes token lists, pushes tokens, chunks and other lists onto them, cuts them and clears them.

* `run_conforms_iff` - **the claims of `server_tokens` about itself hold in a run exactly when it makes good cuts and
  appends lists without media only**.
-/

namespace Server

open ServerTokens

/-- A call on the `i`-th list. -/
inductive Op where
  | new (hasMtmd : Bool)
  | pushToken (i : ℕ) (tok : Token)
  | pushChunk (i : ℕ) (chunk : Chunk)
  | append (i j : ℕ)
  | keepFirst (i n : ℕ)
  | clear (i : ℕ)

/-- A call on the `i`-th list; without it there is nothing to do. -/
def onList (ss : List ServerTokens) (i : ℕ) (call : ServerTokens → Outcome) : Option (List ServerTokens) :=
  match ss[i]? with
  | none => some ss
  | some s => (call s).state.map fun s' => ss.set i s'

/-- One call, with `fuel` turns for the loop over media.  A list is appended to another one. -/
def Op.apply (fuel : ℕ) (ss : List ServerTokens) : Op → Option (List ServerTokens)
  | .new hasMtmd => some (ss ++ [.new hasMtmd])
  | .pushToken i tok => onList ss i fun s => s.pushToken tok
  | .pushChunk i chunk => onList ss i fun s => s.pushChunk chunk
  | .append i j =>
    match ss[j]? with
    | none => some ss
    | some other => if i = j then some ss else onList ss i fun s => s.append fuel other
  | .keepFirst i n => onList ss i fun s => s.keepFirst n
  | .clear i => onList ss i fun s => .ok s.clear

def run (fuel : ℕ) (ops : List Op) : Option (List ServerTokens) := Steps.run (Op.apply fuel) [] ops

def Op.Conforms (fuel : ℕ) (ss : List ServerTokens) : Op → Prop
  | .append i j => i ≠ j → ∀ s other, ss[i]? = some s → ss[j]? = some other → s.AppendConforms fuel other
  | .keepFirst i n => ∀ s, ss[i]? = some s → s.KeepConforms n
  | _ => True

/-- The calls that do: cuts that are not taken for others, and appending lists without media. -/
def Op.Good (ss : List ServerTokens) : Op → Prop
  | .append i j => i ≠ j → ∀ s other, ss[i]? = some s → ss[j]? = some other → s.AppendGood other
  | .keepFirst i n => ∀ s, ss[i]? = some s → s.KeepGood n
  | _ => True

def AllDescribe (ss : List ServerTokens) : Prop := ∀ s ∈ ss, s.Describes

theorem conforms_iff_good {fuel : ℕ} {ss : List ServerTokens} (h : AllDescribe ss) (op : Op) :
    op.Conforms fuel ss ↔ op.Good ss := by
  cases op with
  | append i j =>
    refine forall_congr' fun _ => forall_congr' fun s => forall_congr' fun other => ?_
    exact forall_congr' fun _ => forall_congr' fun hj => append_conforms_iff fuel s (h other (List.mem_of_getElem? hj))
  | keepFirst i n =>
    exact forall_congr' fun s => forall_congr' fun hi => keepFirst_conforms_iff (h s (List.mem_of_getElem? hi)) n
  | _ => exact Iff.rfl

theorem onList_describe {ss ss' : List ServerTokens} {i : ℕ} {call : ServerTokens → Outcome} (h : AllDescribe ss)
    (hcall : ∀ s s', ss[i]? = some s → (call s).state = some s' → s'.Describes) (hss' : onList ss i call = some ss') :
    AllDescribe ss' := by
  rw [onList] at hss'
  split at hss'
  · exact Option.some.inj hss' ▸ h
  · next s hi =>
    rw [Option.map_eq_some_iff] at hss'
    obtain ⟨s', hs', rfl⟩ := hss'
    intro t ht
    rcases List.mem_or_eq_of_mem_set ht with hmem | rfl
    · exact h t hmem
    · exact hcall s t hi hs'

theorem apply_describe {fuel : ℕ} {ss ss' : List ServerTokens} (h : AllDescribe ss) {op : Op} (hgood : op.Good ss)
    (hss' : op.apply fuel ss = some ss') : AllDescribe ss' := by
  have hof : ∀ {i : ℕ} {s : ServerTokens}, ss[i]? = some s → s.Describes := fun hi => h _ (List.mem_of_getElem? hi)
  cases op with
  | new hasMtmd =>
    obtain rfl := Option.some.inj hss'
    intro s hs
    rcases List.mem_append.mp hs with hmem | hmem
    · exact h s hmem
    · exact List.mem_singleton.mp hmem ▸ new_describes hasMtmd
  | pushToken i tok => exact onList_describe h (fun s s' hi hs' => pushToken_describes (hof hi) hs') hss'
  | pushChunk i chunk => exact onList_describe h (fun s s' hi hs' => pushChunk_describes (hof hi) hs') hss'
  | append i j =>
    rw [Op.apply] at hss'
    split at hss'
    · exact Option.some.inj hss' ▸ h
    · split at hss'
      · exact Option.some.inj hss' ▸ h
      · exact onList_describe h (fun s s' hi hs' => append_describes (hof hi) hs') hss'
  | keepFirst i n => exact onList_describe h (fun s s' hi hs' => keepFirst_describes (hof hi) (hgood s hi) hs') hss'
  | clear i =>
    refine onList_describe h (fun s s' _ hs' => ?_) hss'
    exact Option.some.inj hs' ▸ clear_describes s

/-- **Runs of `server_tokens`.**  In every state of a run the maps describe the tokens, `keep_first` cuts where it
should and nowhere else, and appending ends with the one list behind the other, if and only if the run makes only good
cuts and appends only lists without media. -/
theorem run_conforms_iff (fuel : ℕ) (ops : List Op) :
    (∀ k ss, run fuel (ops.take k) = some ss →
      AllDescribe ss ∧ ∀ op, ops[k]? = some op → op.Conforms fuel ss) ↔
    ∀ k op, ops[k]? = some op → ∀ ss, run fuel (ops.take k) = some ss → op.Good ss :=
  Steps.run_iff (Op.apply fuel) (fun _ op h => conforms_iff_good h op)
    (fun _ _ _ h hgood hss' => apply_describe h hgood hss') (fun _ hs => absurd hs List.not_mem_nil) ops

def twoImages : List Op :=
  [.new true, .pushChunk 0 (.media ⟨"img0", 2⟩), .pushChunk 0 (.media ⟨"img1", 1⟩)]

def emptyChunk : List Op := [.new true, .new true, .pushChunk 1 (.media ⟨"none", 0⟩)]

/-- **Where the code goes wrong.**  A cut behind the first token of an image is made, and the map still has the whole
image; a cut between two images is refused; appending a list with an image throws; and appending a list whose only
chunk is empty never ends. -/
theorem keepFirst_cuts_image :
    ((run 0 twoImages).map fun ss => ss.map fun s => ((s.keepFirst 1).state.map fun s' =>
        (s'.tokens, (s'.mapIdxToMedia.lookup 0).map (·.nTokens)))) = some [some ([-1], some 2)] ∧
      ((run 0 twoImages).map fun ss => ss.map fun s => decide (s.keepFirst 2 = .throw "Chunk not found" s)) =
        some [true] ∧
      ((run 0 twoImages).map fun ss => ss.map fun s =>
        decide ((ServerTokens.new true).append 0 s = .throw "Invalid token" (.new true))) = some [true] ∧
      (∀ fuel, ((run 0 emptyChunk).bind fun ss => ss[1]?).map ((ServerTokens.new true).append fuel) =
        some .running) ∧
      ¬ ∀ (fuel : ℕ) (ops : List Op), ∀ k ss, run fuel (ops.take k) = some ss →
        AllDescribe ss ∧ ∀ op, ops[k]? = some op → op.Conforms fuel ss := by
  refine ⟨by decide, by decide, by decide, fun fuel => ?_, fun h => ?_⟩
  · have hother : (run 0 emptyChunk).bind (fun ss => ss[1]?) =
        some { hasMtmd := true, mapIdxToMedia := (∅ : Finmap fun _ : ℕ => Media).insert 0 ⟨"none", 0⟩, tokens := [] } := by
      decide
    rw [hother]
    exact congrArg some (copyMedia_some 0 (0, ⟨"none", 0⟩) fuel (.new true))
  · have hcut : (run 0 (twoImages ++ [.keepFirst 0 1])).map (fun ss => ss.map fun s =>
        (s.tokens.length, (s.mapIdxToMedia.lookup 0).map (·.nTokens))) = some [(1, some 2)] := by decide
    obtain ⟨ss, hrun, hval⟩ := Option.map_eq_some_iff.mp hcut
    have hdescribe := (h 0 (twoImages ++ [Op.keepFirst 0 1]) 4 ss hrun).1
    have hmem : (1, some 2) ∈ ss.map fun s => (s.tokens.length, (s.mapIdxToMedia.lookup 0).map (·.nTokens)) := by
      rw [hval]
      exact List.mem_singleton_self _
    obtain ⟨s, hs, hpair⟩ := List.mem_map.mp hmem
    rw [Prod.mk.injEq, Option.map_eq_some_iff] at hpair
    obtain ⟨hlen, c, hc, hn⟩ := hpair
    have := (hdescribe s hs).inside 0 c hc
    omega

end Server
