import LlamaRafaelia.Lib.OnePass
import LlamaRafaelia.Server.Tokens
import Mathlib.Algebra.Order.Ring.Unbundled.Rat
import Mathlib.Tactic.IntervalCases

/-!
# The invocation sequence of an adapter

An aLoRA adapter is active from the last occurrence of its invocation sequence in the prompt on.  
`launch_slot_with_task` looks for it from the end in one pass: the token that did not match is not compared with the
end of the sequence.

* `launchAlora_iff` - **the adapter is started where it should exactly when the tokens behind the last occurrence are made
  of near misses**.
-/

namespace Server

open List Search

/-! ### The functions -/

/-- `common_adapter_lora_info`: the scale, and the invocation tokens of the adapter. -/
structure AdapterLoraInfo where
  scale : ℚ
  invocationTokens : List Token
deriving DecidableEq

/-- `lora_get_enabled_ids`. -/
def loraGetEnabledIds (loras : List AdapterLoraInfo) : List ℕ :=
  (loras.zipIdx.filter fun x => decide (0 < x.1.scale)).map Prod.snd

/-- The loop of `lora_all_alora`. -/
def loraAllAloraLoop : List AdapterLoraInfo → Bool → Bool
  | [], foundAlora => foundAlora
  | lora :: loras, foundAlora =>
    if lora.scale ≠ 0 then
      if lora.invocationTokens.length = 0 then false else loraAllAloraLoop loras true
    else loraAllAloraLoop loras foundAlora

/-- `lora_all_alora`. -/
def loraAllAlora (loras : List AdapterLoraInfo) : Bool := loraAllAloraLoop loras false

/-- The scan backwards through the prompt, with `i` tokens left and `matchIdx` the next token to find. -/
def aloraScan (tokens invocationTokens : List Token) : ℕ → ℕ → Option ℕ
  | 0, _ => none
  | i + 1, matchIdx =>
    if tokens[i]? = invocationTokens[matchIdx]? then
      if matchIdx = 0 then some i else aloraScan tokens invocationTokens i (matchIdx - 1)
    else aloraScan tokens invocationTokens i (invocationTokens.length - 1)

/-- What a slot knows of its adapters. -/
structure AloraSlot where
  lora : List AdapterLoraInfo
  aloraInvocationStart : ℤ
deriving DecidableEq

/-- The part of `launch_slot_with_task` that deals with aLoRA adapters. -/
def launchAlora (slot : AloraSlot) (tokens : List Token) : Except String AloraSlot :=
  if loraAllAlora slot.lora then
    match loraGetEnabledIds slot.lora with
    | [id] =>
      let invocationTokens := (slot.lora[id]?.map (·.invocationTokens)).getD []
      let start := (aloraScan tokens invocationTokens tokens.length (invocationTokens.length - 1)).getD tokens.length
      if start = tokens.length then .ok { slot with lora := slot.lora.modify id fun lora => { lora with scale := 0 } }
      else .ok { slot with aloraInvocationStart := start }
    | _ => .error "Cannot run multiple aLoRAs in a single request"
  else .ok slot

/-! ### The scan -/

variable {tokens seq w : List Token} {s : ℕ}

/-- **The scan is a one-pass matcher** on the prompt read backwards. -/
theorem aloraScan_eq (tokens seq : List Token) {i q : ℕ} (hi : i ≤ tokens.length) (hq : q < seq.length) :
    aloraScan tokens seq i (seq.length - 1 - q) = OnePass.scan seq.reverse q (tokens.take i).reverse := by
  induction i generalizing q with
  | zero => rfl
  | succ i ih =>
    have htoken : tokens[i]? = some tokens[i] := getElem?_eq_getElem hi
    have hnext : seq.reverse[q]? = seq[seq.length - 1 - q]? := getElem?_reverse hq
    rw [← take_append_getElem hi, reverse_concat, OnePass.scan, aloraScan, htoken, hnext,
      length_reverse, length_reverse]
    by_cases hmatch : seq[seq.length - 1 - q]? = some tokens[i]
    · rw [if_pos hmatch, if_pos hmatch.symm]
      by_cases hlast : q + 1 = seq.length
      · rw [if_pos hlast, if_pos (by omega), length_take, Nat.min_eq_left (by omega)]
      · rw [if_neg hlast, if_neg (by omega), ← ih (by omega) (by omega), Nat.sub_sub (seq.length - 1)]
    · rw [if_neg hmatch, if_neg (fun h => hmatch h.symm), ← ih (by omega) (by omega), Nat.sub_zero]

/-- A part of the prompt that the scan goes over: the last `k` tokens of the sequence, and in front of them another token
than in the sequence. -/
def NearMiss (seq w : List Token) : Prop :=
  ∃ k c, k < seq.length ∧ seq[seq.length - 1 - k]? ≠ some c ∧ w = c :: seq.drop (seq.length - k)

theorem miss_reverse : OnePass.Miss seq.reverse w.reverse ↔ NearMiss seq w := by
  have hword : ∀ k c, w.reverse = seq.reverse.take k ++ [c] ↔ w = c :: seq.drop (seq.length - k) := by
    intro k c
    rw [take_reverse, ← reverse_cons, reverse_inj]
  constructor
  · rintro ⟨k, c, hk, hc, hw⟩
    rw [length_reverse] at hk
    rw [getElem?_reverse hk] at hc
    exact ⟨k, c, hk, hc, (hword k c).mp hw⟩
  · rintro ⟨k, c, hk, hc, hw⟩
    refine ⟨k, c, by rwa [length_reverse], ?_, (hword k c).mpr hw⟩
    rwa [getElem?_reverse hk]

theorem misses_reverse (l : List Token) :
    (∃ blocks : List (List Token), (∀ w ∈ blocks, OnePass.Miss seq.reverse w) ∧ l.reverse = blocks.flatten) ↔
      ∃ blocks : List (List Token), (∀ w ∈ blocks, NearMiss seq w) ∧ l = blocks.flatten := by
  constructor
  · rintro ⟨blocks, hblocks, hl⟩
    refine ⟨(blocks.map List.reverse).reverse, ?_, ?_⟩
    · intro w hw
      rw [mem_reverse, mem_map] at hw
      obtain ⟨v, hv, rfl⟩ := hw
      rw [← miss_reverse, reverse_reverse]
      exact hblocks v hv
    · rw [← reverse_flatten, ← hl, reverse_reverse]
  · rintro ⟨blocks, hblocks, rfl⟩
    refine ⟨(blocks.map List.reverse).reverse, ?_, by rw [reverse_flatten]⟩
    intro w hw
    rw [mem_reverse, mem_map] at hw
    obtain ⟨v, hv, rfl⟩ := hw
    exact (miss_reverse).mpr (hblocks v hv)

/-- **The scan finds the last occurrence exactly when the tokens behind it are made of near misses.** -/
theorem aloraScan_last_iff (hseq : seq ≠ []) (hs : IsGreatest {i | At tokens seq i} s) :
    aloraScan tokens seq tokens.length (seq.length - 1) = some s ↔
      ∃ blocks : List (List Token), (∀ w ∈ blocks, NearMiss seq w) ∧ tokens.drop (s + seq.length) = blocks.flatten := by
  have hend := At.le hs.1 hseq
  have hscan := aloraScan_eq tokens seq (Nat.le_refl _) (length_pos_iff.mpr hseq)
  rw [Nat.sub_zero, take_length] at hscan
  have hfirst := OnePass.scan_first_iff (by simpa using hseq) (isLeast_reverse hseq hs)
  have hstart : tokens.reverse.length - (tokens.length - (s + seq.length) + seq.reverse.length) = s := by
    simp only [length_reverse]
    omega
  rw [hstart, take_reverse, Nat.sub_sub_self hend, misses_reverse] at hfirst
  rw [hscan, hfirst]

theorem aloraScan_none (hseq : seq ≠ []) (h : ∀ i, ¬ At tokens seq i) :
    aloraScan tokens seq tokens.length (seq.length - 1) = none := by
  have hscan := aloraScan_eq tokens seq (Nat.le_refl _) (length_pos_iff.mpr hseq)
  rw [Nat.sub_zero, take_length] at hscan
  rw [hscan]
  refine OnePass.scan_none (by simpa using hseq) fun i hi => ?_
  have hback := at_reverse (by simpa using hseq) hi
  simp only [reverse_reverse] at hback
  exact h _ hback

theorem aloraScan_lt {i matchIdx : ℕ} (h : aloraScan tokens seq i matchIdx = some s) : s < i := by
  induction i generalizing matchIdx with
  | zero => cases h
  | succ i ih =>
    rw [aloraScan] at h
    split at h
    · split at h
      · cases h
        exact Nat.lt_succ_self s
      · exact (ih h).trans (Nat.lt_succ_self i)
    · exact (ih h).trans (Nat.lt_succ_self i)

/-! ### The adapter -/

theorem invocation_ne_nil_loop {loras : List AdapterLoraInfo} {foundAlora : Bool}
    (h : loraAllAloraLoop loras foundAlora = true) : ∀ lora ∈ loras, lora.scale ≠ 0 → lora.invocationTokens ≠ [] := by
  induction loras generalizing foundAlora with
  | nil =>
    intro lora hlora
    cases hlora
  | cons first loras ih =>
    rw [loraAllAloraLoop] at h
    intro lora hlora hscale
    rcases mem_cons.mp hlora with rfl | hlora
    · rw [if_pos hscale] at h
      split at h
      · cases h
      · rename_i hlength
        exact fun hnil => hlength (congrArg List.length hnil)
    · split at h
      · split at h
        · cases h
        · exact ih h lora hlora hscale
      · exact ih h lora hlora hscale

theorem scale_pos_of_enabled {loras : List AdapterLoraInfo} {id : ℕ} {lora : AdapterLoraInfo}
    (h : id ∈ loraGetEnabledIds loras) (hlora : loras[id]? = some lora) : 0 < lora.scale := by
  rw [loraGetEnabledIds, mem_map] at h
  obtain ⟨⟨other, k⟩, hmem, rfl⟩ := h
  rw [mem_filter, mem_zipIdx_iff_getElem?] at hmem
  rw [hmem.1] at hlora
  exact Option.some.inj hlora ▸ of_decide_eq_true hmem.2

/-- **What should come out**: the start of the last occurrence, or an adapter that is switched off. -/
structure Launched (slot slot' : AloraSlot) (tokens : List Token) (id : ℕ) (seq : List Token) : Prop where
  found : ∀ s, IsGreatest {i | At tokens seq i} s → slot'.aloraInvocationStart = s ∧ slot'.lora = slot.lora
  absent : (∀ i, ¬ At tokens seq i) → slot'.aloraInvocationStart = slot.aloraInvocationStart ∧
    slot'.lora = slot.lora.modify id fun lora => { lora with scale := 0 }

/-- **When the adapter is started where it should be.** -/
theorem launchAlora_iff (slot : AloraSlot) (tokens : List Token) (id : ℕ) (lora : AdapterLoraInfo)
    (hall : loraAllAlora slot.lora = true) (henabled : loraGetEnabledIds slot.lora = [id])
    (hlora : slot.lora[id]? = some lora) (hreset : slot.aloraInvocationStart = -1) :
    (∃ slot', launchAlora slot tokens = .ok slot' ∧ Launched slot slot' tokens id lora.invocationTokens) ↔
      ∀ s, IsGreatest {i | At tokens lora.invocationTokens i} s →
        ∃ blocks : List (List Token), (∀ w ∈ blocks, NearMiss lora.invocationTokens w) ∧
          tokens.drop (s + lora.invocationTokens.length) = blocks.flatten := by
  have hscale : lora.scale ≠ 0 :=
    (scale_pos_of_enabled (by rw [henabled]; exact mem_singleton_self id) hlora).ne'
  have hseq : lora.invocationTokens ≠ [] := invocation_ne_nil_loop hall lora (mem_of_getElem? hlora) hscale
  set seq := lora.invocationTokens with hdef
  have hlaunch : launchAlora slot tokens = (aloraScan tokens seq tokens.length (seq.length - 1)).elim
      (.ok { slot with lora := slot.lora.modify id fun lora => { lora with scale := 0 } })
      fun s => .ok { slot with aloraInvocationStart := s } := by
    rw [launchAlora, if_pos hall, henabled]
    simp only [hlora, Option.map_some, Option.getD_some, ← hdef]
    cases hscan : aloraScan tokens seq tokens.length (seq.length - 1) with
    | none => rw [Option.getD_none, if_pos rfl, Option.elim_none]
    | some s => rw [Option.getD_some, if_neg (Nat.ne_of_lt (aloraScan_lt hscan)), Option.elim_some]
  constructor
  · rintro ⟨slot', hslot', hgood⟩ s hs
    rw [← aloraScan_last_iff hseq hs]
    have hstart := (hgood.found s hs).1
    rw [hlaunch] at hslot'
    cases hscan : aloraScan tokens seq tokens.length (seq.length - 1) with
    | none =>
      rw [hscan] at hslot'
      cases hslot'
      rw [hreset] at hstart
      exact absurd hstart (by omega)
    | some s' =>
      rw [hscan] at hslot'
      cases hslot'
      exact congrArg some (Int.natCast_inj.mp hstart)
  · intro hcond
    by_cases hoccurs : ∃ i, At tokens seq i
    · obtain ⟨i, hi⟩ := hoccurs
      have hgreatest : ∃ s, IsGreatest {i | At tokens seq i} s := by
        have hbound : ∀ i, At tokens seq i → i ≤ tokens.length := fun i hi => by
          have := At.le hi hseq
          omega
        classical
        exact ⟨_, Nat.findGreatest_spec (P := fun i => At tokens seq i) (hbound i hi) hi,
          fun j hj => Nat.le_findGreatest (hbound j hj) hj⟩
      obtain ⟨s, hs⟩ := hgreatest
      have hscan := (aloraScan_last_iff hseq hs).mpr (hcond s hs)
      rw [hlaunch, hscan]
      refine ⟨_, rfl, ?_, fun h => absurd hi (h i)⟩
      intro s' hs'
      rw [hs.unique hs']
      exact ⟨rfl, rfl⟩
    · rw [not_exists] at hoccurs
      rw [hlaunch, aloraScan_none hseq hoccurs]
      exact ⟨_, rfl, fun s hs => absurd hs.1 (hoccurs s), fun _ => ⟨rfl, rfl⟩⟩

def pairSlot : AloraSlot := ⟨[⟨1, [1, 2]⟩], -1⟩

/-- The last occurrence in 1, 2, 3, 2 has 3, 2 behind it, which is a near miss. -/
theorem launchAlora_miss : ∃ slot', launchAlora pairSlot [1, 2, 3, 2] = .ok slot' ∧
    Launched pairSlot slot' [1, 2, 3, 2] 0 [1, 2] := by
  refine (launchAlora_iff pairSlot [1, 2, 3, 2] 0 ⟨1, [1, 2]⟩ rfl rfl rfl rfl).mpr fun s hs => ?_
  have hzero : s = 0 := by
    have hend : s + 2 ≤ 4 := At.le hs.1 (by simp)
    have hlast : s ≤ 2 := by omega
    have hat : [1, 2] <+: ([1, 2, 3, 2] : List Token).drop s := hs.1
    interval_cases s <;> first | rfl | exact absurd hat (by decide)
  subst hzero
  refine ⟨[[3, 2]], ?_, rfl⟩
  intro w hw
  rw [mem_singleton.mp hw]
  exact ⟨1, 3, by decide, by decide, rfl⟩

/-- **The prompt 1, 2, 2**: the first 2 is taken for the end of a match that fails, and the sequence is missed. -/
theorem launchAlora_missed : launchAlora pairSlot [1, 2, 2] = .ok ⟨[⟨0, [1, 2]⟩], -1⟩ ∧
    IsGreatest {i | At ([1, 2, 2] : List Token) [1, 2] i} 0 := by
  refine ⟨rfl, List.prefix_append [1, 2] [2], fun i hi => ?_⟩
  have hend : i + 2 ≤ 3 := At.le hi (by simp)
  have hlast : i ≤ 1 := by omega
  have hat : [1, 2] <+: ([1, 2, 2] : List Token).drop i := hi
  interval_cases i
  · rfl
  · exact absurd hat (by decide)

end Server
