import LlamaRafaelia.Baremetal.Distance

/-!
# Solving by flips

`raf_bitstack_solve_iterative` tests every eighth bit on a copy and flips the one that reduces the distance to the
target most, or else a bit that the state's hash names.  Whether the target is reached is only looked at before each
flip.

* `solveStep_reaches_iff` - **which flip reaches the target**;
* `solve_iterative_faithful_iff` - **the solver tells the truth exactly when its last flip does not reach the target**,
  and the counters do not wrap.
-/

namespace Baremetal

open List Nat

/-! ### The solver -/

namespace BitstackState

/-- `best_layer`, `best_pos` and `best_new_distance`. -/
structure Best where
  layer : ℕ
  pos : ℕ
  newDistance : ℕ

/-- The positions that an iteration tests: every eighth bit of each layer. -/
def samples (s : BitstackState) : List (ℕ × ℕ) :=
  (List.range s.numLayers).flatMap fun layer => (List.range (s.bitsPerLayer / 8)).map fun k => (layer, 8 * k)

/-- The test of one position.  `cloned` says whether there is memory for the copy. -/
def testFlip (s target : BitstackState) (cloned : ℕ × ℕ → Bool) (best : Best) (p : ℕ × ℕ) : Best :=
  if cloned p then
    let newDistance := (s.flipSingle p.1 p.2).2.calcDistance target
    if newDistance < best.newDistance then ⟨p.1, p.2, newDistance⟩ else best
  else best

def findBest (s target : BitstackState) (cloned : ℕ × ℕ → Bool) (currentDistance : ℕ) : Best :=
  s.samples.foldl (s.testFlip target cloned) ⟨0, 0, currentDistance⟩

/-- `rand_layer` and `rand_pos`. -/
def randFlip (s : BitstackState) : ℕ × ℕ :=
  ((s.stateHash >>> 8).toNat % s.numLayers, (s.stateHash >>> 16).toNat % s.bitsPerLayer)

def solveStep (s target : BitstackState) (cloned : ℕ × ℕ → Bool) : BitstackState :=
  let currentDistance := s.calcDistance target
  let best := s.findBest target cloned currentDistance
  if best.newDistance < currentDistance then (s.flipSingle best.layer best.pos).2
  else (s.flipSingle s.randFlip.1 s.randFlip.2).2

/-- What the solver gives back: the `int` that it returns, the state that it leaves, and how many flips it has
applied. -/
structure Solution where
  returned : ℤ
  final : BitstackState
  flips : ℕ

/-- The loop; `fuel` is what is left of `max_iterations`, and `cloned i` is about iteration `i`. -/
def solveLoop (target : BitstackState) (cloned : ℕ → ℕ × ℕ → Bool) : ℕ → ℕ → BitstackState → Solution
  | 0, iteration, s => ⟨-1, s, iteration⟩
  | fuel + 1, iteration, s =>
    if s.calcDistance target = 0 then ⟨(iteration : ℤ).bmod (2 ^ 32), s, iteration⟩
    else solveLoop target cloned fuel (iteration + 1) (s.solveStep target (cloned iteration))

/-- `raf_bitstack_solve_iterative`. -/
def solveIterative (s target : BitstackState) (maxIterations : ℕ) (cloned : ℕ → ℕ × ℕ → Bool) : Solution :=
  if s.numLayers ≠ target.numLayers ∨ s.bitsPerLayer ≠ target.bitsPerLayer then ⟨-1, s, 0⟩
  else solveLoop target cloned maxIterations 0 s

/-- The number of each iteration of the loop, and the state at its beginning. -/
def solveIterations (target : BitstackState) (cloned : ℕ → ℕ × ℕ → Bool) :
    ℕ → ℕ → BitstackState → List (ℕ × BitstackState)
  | 0, _, _ => []
  | fuel + 1, iteration, s =>
    (iteration, s) :: if s.calcDistance target = 0 then []
      else solveIterations target cloned fuel (iteration + 1) (s.solveStep target (cloned iteration))

/-! ### What the solver promises -/

/-- What a caller relies on. -/
structure SolvesFaithfully (s target : BitstackState) (solution : Solution) : Prop where
  distance : ∀ t u, SameShape s t → SameShape s u → t.calcDistance u = hamming t u
  distance_zero : ∀ t u, SameShape s t → SameShape s u → (t.calcDistance u = 0 ↔ t.layers = u.layers)
  distance_comm : ∀ t u, SameShape s t → SameShape s u → t.calcDistance u = u.calcDistance t
  distance_triangle : ∀ t u v, SameShape s t → SameShape s u → SameShape s v →
    t.calcDistance v ≤ t.calcDistance u + u.calcDistance v
  success : 0 ≤ solution.returned ↔ solution.final.layers = target.layers
  flips : 0 ≤ solution.returned → solution.returned = solution.flips

/-- An iteration does not find the target too late for an `int`, and is not the last one with a flip that reaches it:
the one bit that differs is neither among the tested ones nor the one that the hash names. -/
structure HonestStep (target : BitstackState) (maxIterations : ℕ) (cloned : ℕ → ℕ × ℕ → Bool) (c : ℕ × BitstackState) :
    Prop where
  int_range : c.2.layers = target.layers → c.1 < 2 ^ 31
  last_flip : c.1 + 1 = maxIterations → ∀ p : ℕ × ℕ, p.1 < c.2.numLayers → p.2 < c.2.bitsPerLayer →
    (c.2.flip p.1 p.2).layers = target.layers → ¬ (p.2 % 8 = 0 ∧ cloned c.1 p = true) ∧ p ≠ c.2.randFlip

/-! ### The best flip -/

section

variable {s target : BitstackState} {cloned : ℕ × ℕ → Bool}

theorem mem_samples {s : BitstackState} {p : ℕ × ℕ} :
    p ∈ s.samples ↔ p.1 < s.numLayers ∧ p.2 < s.bitsPerLayer ∧ p.2 % 8 = 0 := by
  have hwhole := s.bitsPerLayer_whole
  rw [samples, mem_flatMap]
  constructor
  · rintro ⟨layer, hlayer, hp⟩
    obtain ⟨k, hk, rfl⟩ := mem_map.mp hp
    have hk' := List.mem_range.mp hk
    exact ⟨List.mem_range.mp hlayer, by show 8 * k < _; omega, by show 8 * k % 8 = 0; omega⟩
  · rintro ⟨hlayer, hpos, hmod⟩
    refine ⟨p.1, List.mem_range.mpr hlayer, mem_map.mpr ⟨p.2 / 8, List.mem_range.mpr (by omega), ?_⟩⟩
    have h8 : 8 * (p.2 / 8) = p.2 := by omega
    rw [h8]

theorem testFlip_foldl (s target : BitstackState) (cloned : ℕ × ℕ → Bool) (l : List (ℕ × ℕ)) (best : Best) :
    (∀ p ∈ l, cloned p = true →
        (l.foldl (s.testFlip target cloned) best).newDistance ≤ (s.flipSingle p.1 p.2).2.calcDistance target) ∧
      (l.foldl (s.testFlip target cloned) best).newDistance ≤ best.newDistance ∧
      (l.foldl (s.testFlip target cloned) best = best ∨
        ∃ p ∈ l, cloned p = true ∧
          l.foldl (s.testFlip target cloned) best = ⟨p.1, p.2, (s.flipSingle p.1 p.2).2.calcDistance target⟩) := by
  induction l generalizing best with
  | nil => exact ⟨fun _ hp => absurd hp not_mem_nil, le_refl _, Or.inl rfl⟩
  | cons p l ih =>
    obtain ⟨hall, hle, hwhich⟩ := ih (s.testFlip target cloned best p)
    have hstep : (s.testFlip target cloned best p).newDistance ≤ best.newDistance ∧
        (cloned p = true →
          (s.testFlip target cloned best p).newDistance ≤ (s.flipSingle p.1 p.2).2.calcDistance target) ∧
        (s.testFlip target cloned best p = best ∨ cloned p = true ∧
          s.testFlip target cloned best p = ⟨p.1, p.2, (s.flipSingle p.1 p.2).2.calcDistance target⟩) := by
      have hdef : s.testFlip target cloned best p =
          if cloned p = true then
            if (s.flipSingle p.1 p.2).2.calcDistance target < best.newDistance then
              ⟨p.1, p.2, (s.flipSingle p.1 p.2).2.calcDistance target⟩
            else best
          else best := rfl
      rw [hdef]
      split_ifs with hc hlt
      · exact ⟨hlt.le, fun _ => le_refl _, .inr ⟨hc, rfl⟩⟩
      · exact ⟨le_refl _, fun _ => not_lt.mp hlt, .inl rfl⟩
      · exact ⟨le_refl _, fun h => absurd h hc, .inl rfl⟩
    rw [foldl_cons]
    refine ⟨fun q hq hcloned => ?_, hle.trans hstep.1, ?_⟩
    · rcases mem_cons.mp hq with rfl | hq
      · exact hle.trans (hstep.2.1 hcloned)
      · exact hall q hq hcloned
    · rcases hwhich with heq | ⟨q, hq, heq⟩
      · rcases hstep.2.2 with hsame | ⟨hcloned, hnew⟩
        · exact .inl (heq.trans hsame)
        · exact .inr ⟨p, mem_cons_self .., hcloned, heq.trans hnew⟩
      · exact .inr ⟨q, mem_cons_of_mem _ hq, heq⟩

theorem randFlip_lt (s : BitstackState) : s.randFlip.1 < s.numLayers ∧ s.randFlip.2 < s.bitsPerLayer :=
  ⟨mod_lt _ s.numLayers_pos, mod_lt _ s.bitsPerLayer_pos⟩

theorem solveStep_eq (s target : BitstackState) (cloned : ℕ × ℕ → Bool) :
    ∃ p : ℕ × ℕ, p.1 < s.numLayers ∧ p.2 < s.bitsPerLayer ∧ s.solveStep target cloned = s.flip p.1 p.2 := by
  have hrand := s.randFlip_lt
  obtain ⟨-, -, hwhich⟩ := testFlip_foldl s target cloned s.samples
    ⟨0, 0, s.calcDistance target⟩
  rw [solveStep]
  split_ifs with hlt
  · rcases hwhich with heq | ⟨p, hp, -, heq⟩
    · rw [findBest, heq] at hlt
      exact absurd hlt (lt_irrefl _)
    · obtain ⟨h1, h2, -⟩ := (mem_samples).mp hp
      refine ⟨p, h1, h2, ?_⟩
      rw [findBest, heq, s.flipSingle_eq h1 h2]
  · exact ⟨s.randFlip, hrand.1, hrand.2, by rw [s.flipSingle_eq hrand.1 hrand.2]⟩

theorem hamming_le_one (hshape : SameShape s target) {p : ℕ × ℕ} (hlayer : p.1 < s.numLayers)
    (hpos : p.2 < s.bitsPerLayer) (h : (s.flip p.1 p.2).layers = target.layers) : hamming s target ≤ 1 := by
  have hbit : ∀ i : Fin s.numLayers × Fin s.bitsPerLayer,
      s.bit i.1 i.2 ≠ target.bit i.1 i.2 → i.1 = p.1 ∧ i.2 = p.2 := by
    intro i hne
    have htarget : target.bit i.1 i.2 = (s.flip p.1 p.2).bit i.1 i.2 := by
      simp only [bit, qwordIdx, ← h, ← hshape.2, flip_bitsPerLayer]
    rw [htarget, s.bit_flip hlayer hpos i.1.isLt i.2.isLt] at hne
    by_contra hi
    exact hne (by rw [decide_eq_false hi, Bool.xor_false])
  refine Finset.card_le_one.mpr fun i hi j hj => ?_
  obtain ⟨hi1, hi2⟩ := hbit i (Finset.mem_filter.mp hi).2
  obtain ⟨hj1, hj2⟩ := hbit j (Finset.mem_filter.mp hj).2
  exact Prod.ext (Fin.ext (hi1.trans hj1.symm)) (Fin.ext (hi2.trans hj2.symm))

/-- **Which flip reaches the target**: one of a bit that is tested, or of the bit that the hash names. -/
theorem solveStep_reaches_iff (cloned : ℕ × ℕ → Bool) (hshape : SameShape s target) (hfew : s.numLayers * s.bitsPerLayer < 2 ^ 64)
    (hne : s.layers ≠ target.layers) :
    (s.solveStep target cloned).layers = target.layers ↔
      ∃ p : ℕ × ℕ, p.1 < s.numLayers ∧ p.2 < s.bitsPerLayer ∧ (s.flip p.1 p.2).layers = target.layers ∧
        (p.2 % 8 = 0 ∧ cloned p = true ∨ p = s.randFlip) := by
  have hdist : ∀ t, SameShape s t → (t.calcDistance target = 0 ↔ t.layers = target.layers) := by
    intro t ht
    rw [(calcDistance_hamming_iff s).mpr hfew t target ht hshape,
      hamming_eq_zero ⟨ht.1.symm.trans hshape.1, ht.2.symm.trans hshape.2⟩]
  have hrand := s.randFlip_lt
  have hcurrent : s.calcDistance target ≠ 0 := fun h => hne ((hdist s ⟨rfl, rfl⟩).mp h)
  obtain ⟨hall, -, hwhich⟩ := testFlip_foldl s target cloned s.samples
    ⟨0, 0, s.calcDistance target⟩
  have hfind : s.samples.foldl (s.testFlip target cloned) ⟨0, 0, s.calcDistance target⟩ =
      s.findBest target cloned (s.calcDistance target) := rfl
  rw [hfind] at hall hwhich
  rw [solveStep]
  split_ifs with hlt
  · -- a tested flip is the best one
    rcases hwhich with heq | ⟨p, hp, hcloned, heq⟩
    · rw [heq] at hlt
      exact absurd hlt (lt_irrefl _)
    obtain ⟨hp1, hp2, hp3⟩ := (mem_samples).mp hp
    rw [heq] at hlt ⊢
    show (s.flipSingle p.1 p.2).2.layers = _ ↔ _
    rw [s.flipSingle_eq hp1 hp2] at hlt ⊢
    constructor
    · exact fun h => ⟨p, hp1, hp2, h, .inl ⟨hp3, hcloned⟩⟩
    · rintro ⟨q, hq1, hq2, hq, -⟩
      have hone := hamming_le_one hshape hq1 hq2 hq
      rw [← (calcDistance_hamming_iff s).mpr hfew s target ⟨rfl, rfl⟩ hshape] at hone
      exact (hdist (s.flip p.1 p.2) ⟨rfl, rfl⟩).mp (lt_one_iff.mp (hlt.trans_le hone))
  · rw [s.flipSingle_eq hrand.1 hrand.2]
    constructor
    · exact fun h => ⟨s.randFlip, hrand.1, hrand.2, h, .inr rfl⟩
    · rintro ⟨q, hq1, hq2, hq, ⟨hq3, hcloned⟩ | rfl⟩
      · -- a tested flip that reaches the target is better than none
        have hbest := hall q ((mem_samples).mpr ⟨hq1, hq2, hq3⟩) hcloned
        rw [s.flipSingle_eq hq1 hq2, (hdist (s.flip q.1 q.2) ⟨rfl, rfl⟩).mpr hq] at hbest
        omega
      · exact hq

end

theorem flip_layers_ne (s : BitstackState) {layer pos : ℕ} (hlayer : layer < s.numLayers)
    (hpos : pos < s.bitsPerLayer) : (s.flip layer pos).layers ≠ s.layers := by
  intro h
  have hbit : (s.flip layer pos).bit layer pos = s.bit layer pos := by
    simp only [bit, qwordIdx, h, flip_bitsPerLayer]
  rw [s.bit_flip hlayer hpos hlayer hpos, decide_eq_true ⟨rfl, rfl⟩] at hbit
  cases hb : s.bit layer pos <;> rw [hb] at hbit <;> cases hbit

/-! ### Runs -/

section

variable {target : BitstackState} {cloned : ℕ → ℕ × ℕ → Bool} {maxIterations : ℕ}

theorem bmod_faithful_iff (n : ℕ) :
    0 ≤ (n : ℤ).bmod (2 ^ 32) ∧ (n : ℤ).bmod (2 ^ 32) = n ↔ n < 2 ^ 31 := by
  rw [Int.bmod_def]
  omega

theorem solveLoop_faithful_iff {fuel iteration : ℕ} {s : BitstackState} (hshape : SameShape s target)
    (hfew : s.numLayers * s.bitsPerLayer < 2 ^ 64) (hmax : iteration + fuel = maxIterations) :
    ((0 ≤ (solveLoop target cloned fuel iteration s).returned ↔
          (solveLoop target cloned fuel iteration s).final.layers = target.layers) ∧
        (0 ≤ (solveLoop target cloned fuel iteration s).returned →
          (solveLoop target cloned fuel iteration s).returned = (solveLoop target cloned fuel iteration s).flips)) ↔
      (fuel = 0 → s.layers ≠ target.layers) ∧
        ∀ c ∈ solveIterations target cloned fuel iteration s, HonestStep target maxIterations cloned c := by
  induction fuel generalizing iteration s with
  | zero =>
    have hnone : (∀ c ∈ solveIterations target cloned 0 iteration s, HonestStep target maxIterations cloned c) :=
      fun c hc => absurd hc not_mem_nil
    show ((0 ≤ (-1 : ℤ) ↔ s.layers = target.layers) ∧ (0 ≤ (-1 : ℤ) → _)) ↔ _
    constructor
    · exact fun h => ⟨fun _ heq => absurd (h.1.mpr heq) (by decide), hnone⟩
    · intro h
      exact ⟨⟨fun h' => absurd h' (by decide), fun heq => absurd heq (h.1 rfl)⟩, fun h' => absurd h' (by decide)⟩
  | succ fuel ih =>
    have hzero : s.calcDistance target = 0 ↔ s.layers = target.layers := by
      rw [(calcDistance_hamming_iff s).mpr hfew s target ⟨rfl, rfl⟩ hshape, hamming_eq_zero hshape]
    rw [solveLoop, solveIterations]
    by_cases hdone : s.calcDistance target = 0
    · -- the target is reached, and the number of the iteration is returned
      have heq := hzero.mp hdone
      have hint := bmod_faithful_iff iteration
      obtain ⟨r, hr⟩ : ∃ r, r = (iteration : ℤ).bmod (2 ^ 32) := ⟨_, rfl⟩
      rw [if_pos hdone, if_pos hdone, forall_mem_singleton, ← hr]
      rw [← hr] at hint
      constructor
      · intro ⟨h1, h2⟩
        have h0 := h1.mpr heq
        refine ⟨fun h => absurd h (succ_ne_zero fuel), fun _ => hint.mp ⟨h0, h2 h0⟩, fun _ p hp1 hp2 hp => ?_⟩
        exact absurd (hp.trans heq.symm) (flip_layers_ne s hp1 hp2)
      · intro ⟨_, h⟩
        obtain ⟨h1, h2⟩ := hint.mpr (h.int_range heq)
        exact ⟨⟨fun _ => heq, fun _ => h1⟩, fun _ => h2⟩
    · have hne : s.layers ≠ target.layers := fun h => hdone (hzero.mpr h)
      obtain ⟨p, -, -, hstep⟩ := solveStep_eq s target (cloned iteration)
      obtain ⟨next, hnext⟩ : ∃ t, t = s.solveStep target (cloned iteration) := ⟨_, rfl⟩
      have hshape' : SameShape next target := by
        rw [hnext, hstep]
        exact hshape
      have hfew' : next.numLayers * next.bitsPerLayer < 2 ^ 64 := by
        rw [hnext, hstep]
        exact hfew
      have hreach := solveStep_reaches_iff (cloned iteration) hshape hfew hne
      rw [← hnext] at hreach
      rw [if_neg hdone, if_neg hdone, forall_mem_cons, ← hnext, ih hshape' hfew' (by omega)]
      have hhead : HonestStep target maxIterations cloned (iteration, s) ↔
          (fuel = 0 → next.layers ≠ target.layers) := by
        constructor
        · intro h hfuel hnext
          obtain ⟨q, hq1, hq2, hq, hwhich⟩ := hreach.mp hnext
          obtain ⟨h1, h2⟩ := h.last_flip (by omega) q hq1 hq2 hq
          exact hwhich.elim h1 h2
        · intro h
          refine ⟨fun heq => absurd heq hne, fun hlast q hq1 hq2 hq => ?_⟩
          have hmiss := h (by omega)
          exact not_or.mp fun hwhich => hmiss (hreach.mpr ⟨q, hq1, hq2, hq, hwhich⟩)
      rw [hhead]
      exact ⟨fun h => ⟨fun h0 => absurd h0 (succ_ne_zero fuel), h⟩, fun h => h.2⟩

end

/-! ### The solver -/

theorem distance_laws {s : BitstackState}
    (h : ∀ t u, SameShape s t → SameShape s u → t.calcDistance u = hamming t u) :
    (∀ t u, SameShape s t → SameShape s u → (t.calcDistance u = 0 ↔ t.layers = u.layers)) ∧
      (∀ t u, SameShape s t → SameShape s u → t.calcDistance u = u.calcDistance t) ∧
      ∀ t u v, SameShape s t → SameShape s u → SameShape s v →
        t.calcDistance v ≤ t.calcDistance u + u.calcDistance v := by
  have hshape : ∀ {t u}, SameShape s t → SameShape s u → SameShape t u :=
    fun ht hu => ⟨ht.1.symm.trans hu.1, ht.2.symm.trans hu.2⟩
  refine ⟨fun t u ht hu => ?_, fun t u ht hu => ?_, fun t u v ht hu hv => ?_⟩
  · rw [h t u ht hu, hamming_eq_zero (hshape ht hu)]
  · rw [h t u ht hu, h u t hu ht, hamming_comm (hshape ht hu)]
  · rw [h t v ht hv, h t u ht hu, h u v hu hv]
    exact hamming_triangle (hshape ht hu)

/-- **The solver tells the truth exactly when its last flip does not reach the target**, and the counters do not
wrap. -/
theorem solve_iterative_faithful_iff {s target : BitstackState} (hshape : SameShape s target) (maxIterations : ℕ)
    (cloned : ℕ → ℕ × ℕ → Bool) :
    SolvesFaithfully s target (s.solveIterative target maxIterations cloned) ↔
      s.numLayers * s.bitsPerLayer < 2 ^ 64 ∧ (maxIterations = 0 → s.layers ≠ target.layers) ∧
        ∀ c ∈ solveIterations target cloned maxIterations 0 s, HonestStep target maxIterations cloned c := by
  have hrun : s.solveIterative target maxIterations cloned = solveLoop target cloned maxIterations 0 s := by
    rw [solveIterative, if_neg (by rw [hshape.1, hshape.2]; simp)]
  rw [hrun]
  constructor
  · intro h
    have hfew := (calcDistance_hamming_iff s).mp h.distance
    exact ⟨hfew, (solveLoop_faithful_iff hshape hfew (zero_add _)).mp ⟨h.success, h.flips⟩⟩
  · intro ⟨hfew, h⟩
    have hdist := (calcDistance_hamming_iff s).mpr hfew
    obtain ⟨hzero, hcomm, htriangle⟩ := distance_laws hdist
    obtain ⟨hsuccess, hflips⟩ := (solveLoop_faithful_iff hshape hfew (zero_add _)).mpr h
    exact ⟨hdist, hzero, hcomm, htriangle, hsuccess, hflips⟩

def oneWord : BitstackState := zeroLayers 1 (by decide)

/-- One bit away from the target, and three iterations. -/
theorem solve_iterative_faithful_bit :
    SolvesFaithfully oneWord (oneWord.flip 0 0) (oneWord.solveIterative (oneWord.flip 0 0) 3 fun _ _ => true) := by
  have hearly : ∀ c ∈ solveIterations (oneWord.flip 0 0) (fun _ _ => true) 3 0 oneWord, c.1 < 2 := by
    decide +kernel
  have hshape : SameShape oneWord (oneWord.flip 0 0) := ⟨rfl, rfl⟩
  have hfew : oneWord.numLayers * oneWord.bitsPerLayer < 2 ^ 64 := by decide
  refine (solve_iterative_faithful_iff hshape 3 fun _ _ => true).mpr ⟨hfew, fun h => absurd h (by decide), ?_⟩
  intro c hc
  have hlt := hearly c hc
  exact ⟨fun _ => by omega, fun hlast => by omega⟩

/-- One bit away from the target, and one iteration: the target is reached, and the solver says that it is not. -/
theorem last_flip_unnoticed :
    ¬ SolvesFaithfully oneWord (oneWord.flip 0 0)
      (oneWord.solveIterative (oneWord.flip 0 0) 1 fun _ _ => true) := by
  intro h
  have hreached : (oneWord.solveIterative (oneWord.flip 0 0) 1 fun _ _ => true).final.layers =
      (oneWord.flip 0 0).layers := by
    decide +kernel
  have hreturned : (oneWord.solveIterative (oneWord.flip 0 0) 1 fun _ _ => true).returned = -1 := by
    decide +kernel
  have hnonneg := h.success.mpr hreached
  rw [hreturned] at hnonneg
  exact absurd hnonneg (by decide)

end BitstackState

end Baremetal
