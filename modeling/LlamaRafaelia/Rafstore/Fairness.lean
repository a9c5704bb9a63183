import Mathlib.Data.Nat.Count
import Mathlib.Order.Interval.Finset.Nat
import LlamaRafaelia.Rafstore.Scheduler

/-!
# The weights of the scheduler, and how often a layer is served

`raf_hd_scheduler_next` writes the weights of the layers into a table of 64 entries, and reads one entry for each layer
that it looks at.  With more layers than entries it reads what it has not written, so the call is here a fallible one.

* **`serves_iff`** - the calls serve all layers, reading only what they wrote, exactly when there are at most 64.
-/

namespace Rafstore

open List Linked Nat

/-- A read of an entry of `weights` that was not written. -/
inductive WeightFault where
  | uninitialised
  deriving DecidableEq, Repr

/-- The entries of `weights[64]` that the first loop writes. -/
def weightTable (layers : List Layer) : List ℕ := (layers.take 64).map fun l => schedulerWeight l.frequency

/-- `weights[i]`. -/
def readWeight (weights : List ℕ) (i : ℕ) : Except WeightFault ℕ :=
  match weights[i]? with
  | some w => .ok w
  | none => .error .uninitialised

/-- The loop of `raf_hd_scheduler_next` that looks for a layer, from the layer `i` on. -/
def pickTable (weights : List ℕ) (target : ℕ) : ℕ → ℕ → List Layer → Except WeightFault (Option ℕ)
  | _, _, [] => .ok none
  | i, cumulative, l :: layers => do
    let w ← readWeight weights i
    if target < cumulative + w ∧ 0 < l.queue.count then .ok (some i)
    else pickTable weights target (i + 1) (cumulative + w) layers

/-- `raf_hd_scheduler_next`. -/
def schedulerNextTable (s : Scheduler) : Except WeightFault (Scheduler × Option ℕ) :=
  if s.layers.length = 0 then .ok (s, none)
  else
    let tick := (s.tick + 1) % 2 ^ 64
    let weights := weightTable s.layers
    let totalWeight := weights.sum
    if totalWeight = 0 then .ok ({ s with tick := tick }, none)
    else do
      let found ← pickTable weights (tick % totalWeight) 0 0 s.layers
      match found with
      | some i => return ({ s with tick := tick }, some i)
      -- any layer with events
      | none => return ({ s with tick := tick }, s.layers.findIdx? fun l => decide (0 < l.queue.count))

namespace Scheduler

/-- `total_weight`. -/
def totalWeight (s : Scheduler) : ℕ := (weightTable s.layers).sum

def fill (s : Scheduler) (q : ℕ → Fifo ℕ) : Scheduler :=
  { s with layers := s.layers.mapIdx fun i l => { l with queue := q i } }

/-- Consecutive calls; before the call number `k` the queues become `q k`. -/
def calls (q : ℕ → ℕ → Fifo ℕ) (s : Scheduler) : ℕ → Except WeightFault (Scheduler × List (Option ℕ))
  | 0 => .ok (s, [])
  | k + 1 => do
    let (s, results) ← calls q s k
    let (s, result) ← schedulerNextTable (s.fill (q k))
    return (s, results ++ [result])

/-- What the calls are for: whatever is queued, a call returns a layer that has an event, or none when there is none; and
in as many calls as the total weight, a layer that has an event each time is returned as often as its weight says. -/
structure Serves (s : Scheduler) : Prop where
  call : ∀ q : ℕ → Fifo ℕ, ∃ s' result, schedulerNextTable (s.fill q) = .ok (s', result)
    ∧ (result = none ↔ ∀ i < s.layers.length, (q i).count = 0)
    ∧ ∀ i, result = some i → i < s.layers.length ∧ 0 < (q i).count
  window : ∀ q : ℕ → ℕ → Fifo ℕ, ∃ s' results, s.calls q s.totalWeight = .ok (s', results)
    ∧ ∀ j l, s.layers[j]? = some l → (∀ k < s.totalWeight, 0 < (q k j).count) →
      schedulerWeight l.frequency ≤ results.count (some j)

/-! ### The table -/

variable {s : Scheduler} {layers : List Layer} {target cumulative i j : ℕ}

theorem weightTable_get (hsmall : layers.length ≤ 64) (i : ℕ) :
    (weightTable layers)[i]? = layers[i]?.map fun l => schedulerWeight l.frequency := by
  rw [weightTable, take_of_length_le hsmall, getElem?_map]

theorem pickTable_eq (hsmall : layers.length ≤ 64) (target cumulative i : ℕ) :
    pickTable (weightTable layers) target i cumulative (layers.drop i)
      = .ok (pickWeighted target i cumulative (layers.drop i)) := by
  generalize hrest : layers.drop i = rest
  induction rest generalizing i cumulative with
  | nil => rfl
  | cons l rest ih =>
    have hget : layers[i]? = some l := by
      have hhead : (layers.drop i)[0]? = some l := by rw [hrest, getElem?_cons_zero]
      rwa [getElem?_drop] at hhead
    have htail : layers.drop (i + 1) = rest := by rw [← drop_drop, hrest, drop_one, tail_cons]
    have hread : readWeight (weightTable layers) i = .ok (schedulerWeight l.frequency) := by
      rw [readWeight, weightTable_get hsmall, hget]
      rfl
    rw [pickTable, hread, pickWeighted]
    show (if target < cumulative + schedulerWeight l.frequency ∧ 0 < l.queue.count then _ else _) = _
    split
    · rfl
    · exact ih _ _ htail

theorem pickTable_fault (hlarge : 64 < layers.length) (hempty : ∀ l ∈ layers, l.queue.count = 0) (target cumulative : ℕ)
    {i : ℕ} (hi : i ≤ 64) : pickTable (weightTable layers) target i cumulative (layers.drop i) = .error .uninitialised := by
  induction hk : 64 - i generalizing i cumulative with
  | zero =>
    have heq : i = 64 := by omega
    have hread : readWeight (weightTable layers) i = .error .uninitialised := by
      rw [readWeight, weightTable, getElem?_eq_none (by rw [length_map, length_take]; omega)]
    rw [drop_eq_getElem_cons (by omega), pickTable, hread]
    rfl
  | succ k ih =>
    have hlt : i < layers.length := by omega
    have hread : readWeight (weightTable layers) i = .ok (schedulerWeight layers[i].frequency) := by
      rw [readWeight, weightTable, getElem?_map, getElem?_take_of_lt (by omega), getElem?_eq_getElem hlt]
      rfl
    rw [drop_eq_getElem_cons hlt, pickTable, hread]
    show (if target < cumulative + schedulerWeight layers[i].frequency ∧ 0 < layers[i].queue.count then _ else _) = _
    rw [if_neg (by rw [hempty _ (getElem_mem hlt)]; omega)]
    exact ih _ (by omega) (by omega)

theorem schedulerWeight_pos (freq : ℕ) : 0 < schedulerWeight freq := by
  rw [schedulerWeight]
  split
  · decide
  · split
    · decide
    · split
      · decide
      · split <;> decide

theorem totalWeight_pos (hpos : 0 < s.layers.length) : 0 < s.totalWeight := by
  obtain ⟨l, layers, hlayers⟩ := exists_cons_of_length_pos hpos
  rw [totalWeight, weightTable, hlayers, take_succ_cons, map_cons, sum_cons]
  have hweight := schedulerWeight_pos l.frequency
  omega

theorem schedulerNextTable_eq (hsmall : s.layers.length ≤ 64) : schedulerNextTable s = .ok (schedulerNext s) := by
  rw [schedulerNextTable, schedulerNext]
  split
  · rfl
  next hne =>
    have htotal : (weightTable s.layers).sum = (s.layers.map fun l => schedulerWeight l.frequency).sum := by
      rw [weightTable, take_of_length_le hsmall]
    have hpos : ¬ (weightTable s.layers).sum = 0 := Nat.ne_of_gt (totalWeight_pos (Nat.pos_of_ne_zero hne))
    have hpick := pickTable_eq hsmall ((s.tick + 1) % 2 ^ 64 % (weightTable s.layers).sum) 0 0
    rw [drop_zero] at hpick
    dsimp only
    rw [if_neg hpos, hpick, htotal]
    cases pickWeighted ((s.tick + 1) % 2 ^ 64 % (s.layers.map fun l => schedulerWeight l.frequency).sum) 0 0 s.layers with
    | some i => rfl
    | none => rfl

/-! ### One call -/

theorem pickWeighted_hit {l : Layer} (hget : layers[j]? = some l) (hpos : 0 < l.queue.count)
    (hlow : cumulative + ((layers.take j).map fun l => schedulerWeight l.frequency).sum ≤ target)
    (hhigh : target < cumulative + ((layers.take j).map fun l => schedulerWeight l.frequency).sum
      + schedulerWeight l.frequency) :
    pickWeighted target i cumulative layers = some (i + j) := by
  induction layers generalizing i j cumulative with
  | nil => cases hget
  | cons first layers ih =>
    cases j with
    | zero =>
      obtain rfl : first = l := Option.some.inj hget
      rw [pickWeighted, if_pos ⟨by simpa using hhigh, hpos⟩]
      rfl
    | succ j =>
      rw [take_succ_cons, map_cons, sum_cons, ← add_assoc] at hlow hhigh
      rw [pickWeighted, if_neg fun hall => by have := hall.1; omega, ih hget hlow hhigh]
      exact congrArg some (by omega)

theorem fill_get (s : Scheduler) (q : ℕ → Fifo ℕ) (i : ℕ) :
    (s.fill q).layers[i]? = s.layers[i]?.map fun l => { l with queue := q i } := by
  show (s.layers.mapIdx fun i l => { l with queue := q i })[i]? = _
  rw [getElem?_mapIdx]

theorem fill_length (s : Scheduler) (q : ℕ → Fifo ℕ) : (s.fill q).layers.length = s.layers.length := length_mapIdx

theorem fill_queue {q : ℕ → Fifo ℕ} {l : Layer} (h : (s.fill q).layers[i]? = some l) :
    i < s.layers.length ∧ l.queue = q i := by
  rw [fill_get] at h
  obtain ⟨l', hl', rfl⟩ := Option.map_eq_some_iff.mp h
  exact ⟨(List.getElem?_eq_some_iff.mp hl').1, rfl⟩

theorem schedulerNext_eq_none_iff : (schedulerNext s).2 = none ↔ ∀ l ∈ s.layers, l.queue.count = 0 := by
  constructor
  · intro hnone l hl
    rw [schedulerNext] at hnone
    split at hnone
    next hzero =>
      rw [length_eq_zero_iff.mp hzero] at hl
      cases hl
    next =>
      dsimp only at hnone
      split at hnone
      · cases hnone
      · have hall := findIdx?_eq_none_iff.mp hnone l hl
        exact Nat.eq_zero_of_not_pos (of_decide_eq_false hall)
  · intro hempty
    cases hnext : (schedulerNext s).2 with
    | none => rfl
    | some i =>
      obtain ⟨l, hget, hpos⟩ := schedulerNext_spec hnext
      have hzero := hempty l (mem_of_getElem? hget)
      omega

theorem fill_empty_iff {q : ℕ → Fifo ℕ} :
    (∀ l ∈ (s.fill q).layers, l.queue.count = 0) ↔ ∀ i < s.layers.length, (q i).count = 0 := by
  constructor
  · intro h i hi
    have hget : (s.fill q).layers[i]? = some { s.layers[i] with queue := q i } := by
      rw [fill_get, getElem?_eq_getElem hi]
      rfl
    exact h _ (mem_of_getElem? hget)
  · intro h l hl
    obtain ⟨i, hget⟩ := mem_iff_getElem?.mp hl
    obtain ⟨hi, hqueue⟩ := fill_queue hget
    rw [hqueue]
    exact h i hi

/-! ### A window of calls -/

/-- **In as many consecutive ticks as the total weight each residue comes up once.** -/
theorem count_residues {W lo w : ℕ} (hfit : lo + w ≤ W) (t : ℕ) :
    count (fun k => lo ≤ (t + k) % W ∧ (t + k) % W < lo + w) W = w := by
  induction t with
  | zero =>
    have hfilter : (Finset.range W).filter (fun k => lo ≤ (0 + k) % W ∧ (0 + k) % W < lo + w) = Finset.Ico lo (lo + w) := by
      ext k
      rw [Finset.mem_filter, Finset.mem_range, Finset.mem_Ico, zero_add]
      constructor
      · intro ⟨hlt, hin⟩
        rwa [mod_eq_of_lt hlt] at hin
      · intro hin
        have hlt : k < W := by omega
        exact ⟨hlt, by rwa [mod_eq_of_lt hlt]⟩
    rw [Nat.count_eq_card_filter_range, hfilter, Nat.card_Ico, Nat.add_sub_cancel_left]
  | succ t ih =>
    -- One tick further, the first one goes and comes back at the end.
    have hfirst := count_succ' (fun k => lo ≤ (t + k) % W ∧ (t + k) % W < lo + w) W
    have hlast := count_succ (fun k => lo ≤ (t + k) % W ∧ (t + k) % W < lo + w) W
    have hback : (t + W) % W = (t + 0) % W := add_mod_right t W
    rw [hfirst, hback] at hlast
    have hshift : (fun k => lo ≤ (t + 1 + k) % W ∧ (t + 1 + k) % W < lo + w)
        = fun k => lo ≤ (t + (k + 1)) % W ∧ (t + (k + 1)) % W < lo + w := by
      funext k
      rw [add_right_comm t 1 k, add_assoc t k 1]
    simp only [hshift]
    omega

def weights (s : Scheduler) : List ℕ := s.layers.map fun l => schedulerWeight l.frequency

theorem weights_fill (s : Scheduler) (q : ℕ → Fifo ℕ) : (s.fill q).weights = s.weights := by
  refine ext_getElem? fun i => ?_
  rw [weights, weights, getElem?_map, getElem?_map, fill_get, Option.map_map]
  rfl

theorem totalWeight_eq (hsmall : s.layers.length ≤ 64) : s.totalWeight = s.weights.sum := by
  rw [totalWeight, weightTable, take_of_length_le hsmall, weights]

theorem interval_le {l : Layer} (hget : s.layers[j]? = some l) :
    (s.weights.take j).sum + schedulerWeight l.frequency ≤ s.weights.sum := by
  have hweight : s.weights[j]? = some (schedulerWeight l.frequency) := by
    rw [weights, getElem?_map, hget]
    rfl
  obtain ⟨hlt, heq⟩ := List.getElem?_eq_some_iff.mp hweight
  have hsplit := congrArg List.sum (take_append_drop j s.weights)
  rw [drop_eq_getElem_cons hlt, List.sum_append_nat, sum_cons, heq] at hsplit
  omega

theorem schedulerNext_fst_eq (hpos : 0 < s.layers.length) :
    (schedulerNext s).1 = { s with tick := (s.tick + 1) % 2 ^ 64 } := by
  rw [schedulerNext, if_neg (ne_of_gt hpos)]
  dsimp only
  split <;> rfl

theorem schedulerNext_hit {l : Layer} (hget : s.layers[j]? = some l) (hcount : 0 < l.queue.count)
    (htick : s.tick + 1 < 2 ^ 64) (hlow : (s.weights.take j).sum ≤ (s.tick + 1) % s.weights.sum)
    (hhigh : (s.tick + 1) % s.weights.sum < (s.weights.take j).sum + schedulerWeight l.frequency) :
    (schedulerNext s).2 = some j := by
  have hpos : ¬ s.layers.length = 0 := by
    have hlt := (List.getElem?_eq_some_iff.mp hget).1
    omega
  rw [weights, ← map_take] at hlow hhigh
  have hpick : pickWeighted ((s.tick + 1) % (s.layers.map fun l => schedulerWeight l.frequency).sum) 0 0 s.layers
      = some (0 + j) := pickWeighted_hit hget hcount (by rwa [zero_add]) (by rwa [zero_add])
  rw [schedulerNext, if_neg hpos]
  dsimp only
  rw [mod_eq_of_lt htick, hpick, zero_add]

/-- **A run of calls**: the tick goes up by one each time, and a layer that always has an event is returned at least
whenever the tick falls into its interval. -/
theorem calls_spec (hsmall : s.layers.length ≤ 64) (hpos : 0 < s.layers.length) (q : ℕ → ℕ → Fifo ℕ) {k : ℕ}
    (hwrap : s.tick + k < 2 ^ 64) :
    ∃ s' results, s.calls q k = .ok (s', results) ∧ s'.tick = s.tick + k ∧ s'.weights = s.weights
      ∧ ∀ j l, s.layers[j]? = some l → (∀ m < k, 0 < (q m j).count) →
        count (fun m => (s.weights.take j).sum ≤ (s.tick + 1 + m) % s.weights.sum
          ∧ (s.tick + 1 + m) % s.weights.sum < (s.weights.take j).sum + schedulerWeight l.frequency) k
          ≤ results.count (some j) := by
  induction k with
  | zero => exact ⟨s, [], rfl, rfl, rfl, fun j l _ _ => zero_le _⟩
  | succ k ih =>
    obtain ⟨u, results, hrun, htick, hweights, hcount⟩ := ih (by omega)
    have hlen : (u.fill (q k)).layers.length = s.layers.length := by
      rw [fill_length, ← length_map (fun l => schedulerWeight l.frequency)]
      show u.weights.length = _
      rw [hweights, weights, length_map]
    have hfilled : (u.fill (q k)).weights = s.weights := (weights_fill u (q k)).trans hweights
    have hfst := schedulerNext_fst_eq (s := u.fill (q k)) (by omega)
    have hticks : (u.fill (q k)).tick = s.tick + k := htick
    rw [hticks, mod_eq_of_lt (by omega)] at hfst
    refine ⟨(schedulerNext (u.fill (q k))).1, results ++ [(schedulerNext (u.fill (q k))).2], ?_, ?_, ?_, ?_⟩
    · rw [calls, hrun]
      show Except.bind (schedulerNextTable (u.fill (q k))) _ = _
      rw [schedulerNextTable_eq (by omega)]
      rfl
    · rw [hfst]
      exact add_assoc s.tick k 1
    · rw [hfst]
      exact hfilled
    · intro j l hget hqueued
      have hbefore := hcount j l hget fun m hm => hqueued m (lt_succ_of_lt hm)
      rw [count_succ, count_append]
      split
      next hin =>
        have hlayer : s.weights[j]? = some (schedulerWeight l.frequency) := by
          rw [weights, getElem?_map, hget]
          rfl
        rw [← hweights, weights, getElem?_map] at hlayer
        obtain ⟨l', hget', hweight'⟩ := Option.map_eq_some_iff.mp hlayer
        have hgets : (u.fill (q k)).layers[j]? = some { l' with queue := q k j } := by
          rw [fill_get, hget']
          rfl
        have hhit := schedulerNext_hit hgets (hqueued k (lt_succ_self k)) (by omega)
          (by rw [hfilled, hticks, add_right_comm]; exact hin.1)
          (by rw [hfilled, hticks, add_right_comm]; show _ < _ + schedulerWeight l'.frequency; rw [hweight']; exact hin.2)
        rw [hhit, count_singleton_self]
        exact Nat.add_le_add_right hbefore 1
      next => exact hbefore.trans (le_add_right _ _)

theorem not_serves (hlarge : 64 < s.layers.length) : ¬ s.Serves := by
  intro h
  obtain ⟨s', result, hrun, _⟩ := h.call fun _ => Fifo.empty
  have hlen : (s.fill fun _ => Fifo.empty).layers.length = s.layers.length := fill_length s _
  have hempty : ∀ l ∈ (s.fill fun _ => Fifo.empty).layers, l.queue.count = 0 := (fill_empty_iff).mpr fun _ _ => rfl
  have hfault := pickTable_fault (by omega) hempty
    (((s.fill fun _ => Fifo.empty).tick + 1) % 2 ^ 64 % (weightTable (s.fill fun _ => Fifo.empty).layers).sum) 0
    (zero_le 64)
  have htotal : ¬ (weightTable (s.fill fun _ => Fifo.empty).layers).sum = 0 :=
    ne_of_gt (totalWeight_pos (by omega))
  rw [drop_zero] at hfault
  rw [schedulerNextTable, if_neg (by omega)] at hrun
  dsimp only at hrun
  rw [if_neg htotal, hfault] at hrun
  cases hrun

/-- **The scheduler serves all layers exactly when it has at most 64**, in windows in which the tick does not come back
to 0. -/
theorem serves_iff {s : Scheduler} (hwrap : s.tick + s.totalWeight < 2 ^ 64) : s.Serves ↔ s.layers.length ≤ 64 := by
  constructor
  · exact fun h => Nat.le_of_not_lt fun hlarge => not_serves hlarge h
  · intro hsmall
    refine ⟨fun q => ?_, fun q => ?_⟩
    · have hfilled : (s.fill q).layers.length ≤ 64 := (fill_length s q).trans_le hsmall
      refine ⟨_, _, schedulerNextTable_eq hfilled, (schedulerNext_eq_none_iff).trans fill_empty_iff, fun i hi => ?_⟩
      obtain ⟨l, hget, hpos⟩ := schedulerNext_spec hi
      obtain ⟨hlt, hqueue⟩ := fill_queue hget
      exact ⟨hlt, hqueue ▸ hpos⟩
    · rcases Nat.eq_zero_or_pos s.layers.length with hzero | hpos
      · have htotal : s.totalWeight = 0 := by
          rw [totalWeight, length_eq_zero_iff.mp hzero]
          rfl
        rw [htotal]
        refine ⟨s, [], rfl, fun j l hget _ => ?_⟩
        rw [length_eq_zero_iff.mp hzero] at hget
        cases hget
      · obtain ⟨s', results, hrun, _, _, hcount⟩ := calls_spec hsmall hpos q hwrap
        refine ⟨s', results, hrun, fun j l hget hqueued => ?_⟩
        have hserved := hcount j l hget hqueued
        rw [totalWeight_eq hsmall] at hserved
        calc schedulerWeight l.frequency
            = count (fun m => (s.weights.take j).sum ≤ (s.tick + 1 + m) % s.weights.sum
                ∧ (s.tick + 1 + m) % s.weights.sum < (s.weights.take j).sum + schedulerWeight l.frequency)
                s.weights.sum := (count_residues (interval_le hget) (s.tick + 1)).symm
          _ ≤ results.count (some j) := hserved

def withLayers (n frequency : ℕ) : Scheduler := (List.range n).foldl (fun s _ => schedulerAddLayer s [] frequency) schedulerInit

theorem serves_two_layers : (withLayers 2 1000).Serves ↔ (withLayers 2 1000).layers.length ≤ 64 :=
  serves_iff (by decide)

/-- One layer too many. -/
theorem not_serves_withLayers : ¬ (withLayers 65 100).Serves := not_serves (by decide)

end Scheduler

end Rafstore
