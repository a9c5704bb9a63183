import LlamaRafaelia.Lib.CountMap
import LlamaRafaelia.Sampling.RingBuffer

/-!
# The penalties sampler and its clones

The sampler counts how often each token occurs among the last `penalty_last_n` accepted ones.  The counts are kept in
a hash map, patched on every accept, beside a ring buffer that says which token falls out of the window.

* `clone_counts_iff` - **a clone has the counts of its original only when there are none**: the ring buffer
  is copied and the map is not.
-/

namespace Sampling

open List CountMap

/-- `llama_token`. -/
abbrev Token := Int32

/-! ### Counts in an `int` -/

/-- `m[k] += d` with a 32-bit `int`: a missing entry starts at zero. -/
def addCount (m : CountMap Token) (k : Token) (d : ℤ) : CountMap Token :=
  m.insert k (Int.bmod ((m.lookup k).getD 0 + d) (2 ^ 32))

/-- `m[k]--`, and the entry is erased when it is zero. -/
def dropCount (m : CountMap Token) (k : Token) : CountMap Token :=
  let m := addCount m k (-1)
  if (m.lookup k).getD 0 = 0 then m.erase k else m

theorem lookup_addCount_self (m : CountMap Token) (k : Token) (d : ℤ) :
    (addCount m k d).lookup k = some (Int.bmod ((m.lookup k).getD 0 + d) (2 ^ 32)) :=
  Finmap.lookup_insert _

theorem lookup_addCount_ne {m : CountMap Token} {k j : Token} (h : j ≠ k) (d : ℤ) :
    (addCount m k d).lookup j = m.lookup j :=
  Finmap.lookup_insert_of_ne _ h

theorem lookup_dropCount_ne {m : CountMap Token} {k j : Token} (h : j ≠ k) :
    (dropCount m k).lookup j = m.lookup j := by
  rw [dropCount]
  split
  · rw [Finmap.lookup_erase_ne h, lookup_addCount_ne h]
  · exact lookup_addCount_ne h _

theorem tracks_addCount {m : CountMap Token} {f g : Token → ℕ} {k : Token} (h : Tracks m f)
    (hlt : f k + 1 < 2 ^ 31) (hk : g k = f k + 1) (hne : ∀ j, j ≠ k → g j = f j) : Tracks (addCount m k 1) g := by
  have hval : (m.lookup k).getD 0 = (f k : ℤ) := h.getD_lookup k
  have hinc : addCount m k 1 = CountMap.inc m k := by
    rw [addCount, CountMap.inc, hval, Int.bmod_eq_of_le (by omega) (by omega)]
  rw [hinc]
  exact h.inc hk hne

theorem tracks_dropCount {m : CountMap Token} {f g : Token → ℕ} {k : Token} (h : Tracks m f)
    (hlt : f k < 2 ^ 31) (hk : f k = g k + 1) (hne : ∀ j, j ≠ k → g j = f j) : Tracks (dropCount m k) g := by
  have hval : (m.lookup k).getD 0 = (g k : ℤ) + 1 := by
    rw [h.getD_lookup k, hk]
    push_cast
    rfl
  have hnew : (addCount m k (-1)).lookup k = some (g k : ℤ) := by
    rw [lookup_addCount_self, hval, Int.add_neg_cancel_right, Int.bmod_eq_of_le (by omega) (by omega)]
  intro j
  by_cases hj : j = k
  · subst hj
    simp only [dropCount, hnew, Option.getD_some, Int.natCast_eq_zero]
    split
    · exact Finmap.lookup_erase _ _
    · exact hnew
  · rw [lookup_dropCount_ne hj, h j, hne j hj]

theorem tracks_dropCount_addCount {m : CountMap Token} {f : Token → ℕ} {k : Token} (h : Tracks m f)
    (hpos : 0 < f k) (hlt : f k < 2 ^ 31) : Tracks (dropCount (addCount m k 1) k) f := by
  have hback : (addCount (addCount m k 1) k (-1)).lookup k = some (f k : ℤ) := by
    rw [lookup_addCount_self, lookup_addCount_self, h.getD_lookup k, Option.getD_some, Int.bmod_add_bmod,
      Int.add_neg_cancel_right, Int.bmod_eq_of_le (by omega) (by omega)]
  have hne : ¬ ((f k : ℤ) = 0) := by omega
  intro j
  by_cases hj : j = k
  · subst hj
    simp only [dropCount, hback, Option.getD_some, if_neg hne]
    rw [if_neg hpos.ne']
  · rw [lookup_dropCount_ne hj, lookup_addCount_ne hj, h j]

/-! ### The sampler -/

/-- `llama_sampler_penalties`.  The weights matter for `apply` only through the test whether they are all neutral. -/
structure Penalties where
  penalty_last_n : ℤ
  neutral : Bool
  prev : RingBuffer Token
  token_count : CountMap Token
deriving DecidableEq

/-- `llama_sampler_init_penalties`. -/
def Penalties.init (penalty_last_n : ℤ) (neutral : Bool) : Penalties where
  penalty_last_n := max penalty_last_n 0
  neutral := neutral
  prev := .new (max penalty_last_n 0).toNat
  token_count := ∅

namespace Penalties

/-- The counts of `llama_sampler_penalties_accept` before the token goes into the ring buffer. -/
def patch (ctx : Penalties) (token : Token) : Except String (CountMap Token) :=
  let counted := addCount ctx.token_count token 1
  -- a full ring buffer is about to lose its oldest token
  if ctx.penalty_last_n.toNat ≤ ctx.prev.size then do
    let old ← ctx.prev.front
    .ok (dropCount counted old)
  else .ok counted

/-- `llama_sampler_penalties_accept`. -/
def accept (ctx : Penalties) (token : Token) : Except String Penalties :=
  if ctx.penalty_last_n = 0 then .ok ctx
  else do
    let token_count ← ctx.patch token
    let prev ← ctx.prev.push_back token
    .ok { ctx with prev := prev, token_count := token_count }

/-- `llama_sampler_penalties_reset`. -/
def reset (ctx : Penalties) : Penalties := { ctx with prev := ctx.prev.clear, token_count := ∅ }

/-- `llama_sampler_penalties_clone`: a new sampler with the same parameters, into which the ring buffer is copied. -/
def clone (ctx : Penalties) : Penalties := { init ctx.penalty_last_n ctx.neutral with prev := ctx.prev }

/-- The count by which `llama_sampler_penalties_apply` penalises a candidate, if it does. -/
def count (ctx : Penalties) (id : Token) : Option ℤ :=
  if ctx.penalty_last_n = 0 ∨ ctx.neutral then none else ctx.token_count.lookup id

/-! ### Exact counts -/

/-- After the tokens `l` the map holds exactly the counts of the last `n` of them. -/
def Counts (n : ℕ) (l : List Token) (m : CountMap Token) : Prop := Tracks m fun t => (l.rtake n).count t

/-- What the sampler keeps besides the counts, in every run: its window is in the ring buffer. -/
structure Windowed (n : ℕ) (l : List Token) (ctx : Penalties) : Prop where
  last_n : ctx.penalty_last_n = n
  capacity : ctx.prev.capacity = n
  prev : ctx.prev.Holds (l.rtake n)

theorem init_windowed (last_n : ℤ) (neutral : Bool) : Windowed (max last_n 0).toNat [] (init last_n neutral) where
  last_n := (Int.toNat_of_nonneg (le_max_right _ _)).symm
  capacity := rfl
  prev := by
    rw [rtake_nil]
    exact RingBuffer.new_holds _

theorem init_counts (n : ℕ) (last_n : ℤ) (neutral : Bool) : Counts n [] (init last_n neutral).token_count := by
  refine (tracks_empty).congr fun t => ?_
  rw [rtake_nil, count_nil]

theorem Windowed.reset {n : ℕ} {l : List Token} {ctx : Penalties} (h : Windowed n l ctx) :
    Windowed n [] ctx.reset where
  last_n := h.last_n
  capacity := h.capacity
  prev := by
    rw [rtake_nil]
    exact h.prev.clear

theorem reset_counts (n : ℕ) (ctx : Penalties) : Counts n [] ctx.reset.token_count := init_counts n 0 false

theorem Windowed.clone {n : ℕ} {l : List Token} {ctx : Penalties} (h : Windowed n l ctx) :
    Windowed n l ctx.clone where
  last_n := by
    show max ctx.penalty_last_n 0 = n
    rw [h.last_n]
    exact max_eq_left (Int.natCast_nonneg n)
  capacity := h.capacity
  prev := h.prev

theorem clone_counts_iff (n : ℕ) (l : List Token) (ctx : Penalties) :
    Counts n l ctx.clone.token_count ↔ l.rtake n = [] := by
  constructor
  · intro h
    rw [eq_nil_iff_forall_not_mem]
    intro t ht
    have hsome : ((∅ : CountMap Token).lookup t).isSome := h.lookup_isSome.mpr (count_pos_iff.mpr ht)
    rw [Finmap.lookup_empty] at hsome
    cases hsome
  · intro h
    refine (tracks_empty).congr fun t => ?_
    rw [h, count_nil]

theorem window_concat (n : ℕ) (l : List Token) (t : Token) :
    (l.rtake n ++ [t]).rtake n = (l ++ [t]).rtake n := by
  cases n with
  | zero => rw [rtake_zero, rtake_zero]
  | succ n =>
    have htake : (l.rtake (n + 1)).rtake n = l.rtake n := by
      simp only [rtake_eq_reverse_take_reverse, reverse_reverse, take_take]
      rw [Nat.min_eq_left (Nat.le_succ n)]
    rw [rtake_concat_succ, rtake_concat_succ, htake]

/-- **The map is patched right when the window is full**: the new token is counted, the oldest one no more. -/
theorem counts_full {m : CountMap Token} {old t : Token} {rest : List Token}
    (h : Tracks m fun j => (old :: rest).count j) (hlt : rest.length + 1 < 2 ^ 31) :
    Tracks (dropCount (addCount m t 1) old) fun j => (rest ++ [t]).count j := by
  by_cases ht : t = old
  · subst ht
    have hle : (t :: rest).count t ≤ rest.length + 1 := count_le_length
    have hsame := tracks_dropCount_addCount (k := t) h (by rw [count_cons_self]; omega) (by omega)
    refine hsame.congr fun j => ?_
    rw [count_append, count_cons, count_singleton]
  · have hle : rest.count t ≤ rest.length := count_le_length
    have hle' : rest.count old ≤ rest.length := count_le_length
    have hadd : Tracks (addCount m t 1) fun j => (old :: rest ++ [t]).count j := by
      apply tracks_addCount h
      · rw [count_cons_of_ne (Ne.symm ht)]
        omega
      · rw [count_append, count_singleton_self]
      · intro j hj
        rw [count_append, count_singleton, if_neg (by simpa using Ne.symm hj), Nat.add_zero]
    apply tracks_dropCount hadd
    · rw [cons_append, count_cons_self, count_append, count_singleton,
        if_neg (by simpa using ht)]
      omega
    · rw [cons_append, count_cons_self]
    · intro j hj
      rw [cons_append, count_cons_of_ne (Ne.symm hj)]

theorem counts_short {m : CountMap Token} {t : Token} {w : List Token} (h : Tracks m fun j => w.count j)
    (hlt : w.length + 1 < 2 ^ 31) : Tracks (addCount m t 1) fun j => (w ++ [t]).count j := by
  have hle : w.count t ≤ w.length := count_le_length
  apply tracks_addCount h
  · omega
  · rw [count_append, count_singleton_self]
  · intro j hj
    rw [count_append, count_singleton, if_neg (by simpa using Ne.symm hj), Nat.add_zero]

theorem Windowed.patch {n : ℕ} {l : List Token} {ctx : Penalties} (h : Windowed n l ctx) (hn : 0 < n)
    (hlt : n < 2 ^ 31) (t : Token) :
    ∃ m, ctx.patch t = .ok m ∧ (Counts n l ctx.token_count → Counts n (l ++ [t]) m) := by
  have hlen := h.prev.le
  rw [h.capacity] at hlen
  rw [Penalties.patch, RingBuffer.size, h.last_n, Int.toNat_natCast, h.prev.sz]
  by_cases hfull : n ≤ (l.rtake n).length
  · obtain ⟨old, rest, hw⟩ := exists_cons_of_length_pos (Nat.lt_of_lt_of_le hn hfull)
    have hfront : ctx.prev.front = .ok old := (hw ▸ h.prev).front
    rw [hw, length_cons] at hfull hlen
    rw [hw, length_cons, if_pos hfull, hfront]
    refine ⟨_, rfl, fun hcounts => ?_⟩
    have hnew : (l ++ [t]).rtake n = rest ++ [t] := by
      rw [← window_concat, hw, List.rtake, length_append, length_cons, length_singleton]
      rw [show rest.length + 1 + 1 - n = 1 from by omega, cons_append, drop_one, tail_cons]
    rw [Counts, hw] at hcounts
    rw [Counts, hnew]
    exact counts_full hcounts (by omega)
  · rw [if_neg hfull]
    refine ⟨_, rfl, fun hcounts => ?_⟩
    have hnew : (l ++ [t]).rtake n = l.rtake n ++ [t] := by
      rw [← window_concat, List.rtake, length_append, length_singleton,
        Nat.sub_eq_zero_of_le (by omega), drop_zero]
    rw [Counts, hnew]
    exact counts_short hcounts (by omega)

/-- **Accepting a token** never fails, moves the window on and keeps exact counts exact. -/
theorem Windowed.accept {n : ℕ} {l : List Token} {ctx : Penalties} (h : Windowed n l ctx) (hlt : n < 2 ^ 31)
    (t : Token) :
    ∃ ctx', ctx.accept t = .ok ctx' ∧ Windowed n (l ++ [t]) ctx' ∧ ctx'.neutral = ctx.neutral ∧
      (Counts n l ctx.token_count → Counts n (l ++ [t]) ctx'.token_count) := by
  by_cases hn : n = 0
  · subst hn
    have hz : ctx.penalty_last_n = 0 := h.last_n
    refine ⟨ctx, if_pos hz, ⟨h.last_n, h.capacity, ?_⟩, rfl, ?_⟩
    · rw [rtake_zero, ← rtake_zero (l := l)]
      exact h.prev
    · simp only [Counts, rtake_zero, imp_self]
  · have hz : ctx.penalty_last_n ≠ 0 := by
      rw [h.last_n]
      exact_mod_cast hn
    obtain ⟨m, hm, hcounts⟩ := h.patch (Nat.pos_of_ne_zero hn) hlt t
    obtain ⟨hpush, hholds⟩ := h.prev.push (by rw [h.capacity]; exact Nat.pos_of_ne_zero hn) t
    rw [h.capacity, window_concat] at hholds
    refine ⟨{ ctx with prev := ctx.prev.pushed t, token_count := m }, ?_, ⟨h.last_n, h.capacity, hholds⟩, rfl,
      hcounts⟩
    rw [Penalties.accept, if_neg hz, hm, hpush]
    rfl

end Penalties

/-! ### Runs -/

/-- A sampler beside the tokens that it accepted since its last reset; a copy takes them over. -/
structure Instance where
  smpl : Penalties
  accepted : List Token
deriving DecidableEq

/-- The operations on a family of samplers: a copy is put behind the others. -/
inductive Op where
  | accept (i : ℕ) (token : Token)
  | reset (i : ℕ)
  | clone (i : ℕ)
deriving DecidableEq

/-- One operation.  Without an `i`-th sampler there is nothing to do. -/
def Op.apply (ss : List Instance) : Op → Except String (List Instance)
  | .accept i token =>
    match ss[i]? with
    | none => .ok ss
    | some s => do
      let smpl ← s.smpl.accept token
      .ok (ss.set i { smpl := smpl, accepted := s.accepted ++ [token] })
  | .reset i =>
    match ss[i]? with
    | none => .ok ss
    | some s => .ok (ss.set i { smpl := s.smpl.reset, accepted := [] })
  | .clone i =>
    match ss[i]? with
    | none => .ok ss
    | some s => .ok (ss ++ [{ smpl := s.smpl.clone, accepted := s.accepted }])

/-- The run of a list of operations, which begins with one new sampler. -/
def run (last_n : Int32) (neutral : Bool) (ops : List Op) : Except String (List Instance) :=
  ops.foldlM Op.apply [{ smpl := .init last_n.toInt neutral, accepted := [] }]

/-- The length of the window: `std::max(penalty_last_n, 0)`. -/
def windowLength (last_n : Int32) : ℕ := (max last_n.toInt 0).toNat

/-- The counts of every sampler are exactly those of its window, and samplers that accepted the same tokens since
their reset penalise the same candidates by the same counts. -/
structure Exact (last_n : Int32) (ss : List Instance) : Prop where
  counts : ∀ s ∈ ss, Penalties.Counts (windowLength last_n) s.accepted s.smpl.token_count
  agree : ∀ s ∈ ss, ∀ s' ∈ ss, s.accepted = s'.accepted → ∀ id, s.smpl.count id = s'.smpl.count id

def Sound (last_n : Int32) (neutral : Bool) (ss : List Instance) : Prop :=
  ∀ s ∈ ss, s.smpl.Windowed (windowLength last_n) s.accepted ∧ s.smpl.neutral = neutral

theorem windowLength_lt (last_n : Int32) : windowLength last_n < 2 ^ 31 := by
  have := last_n.toInt_lt
  rw [windowLength]
  omega

theorem exact_of_counts {last_n : Int32} {neutral : Bool} {ss : List Instance} (hs : Sound last_n neutral ss)
    (h : ∀ s ∈ ss, Penalties.Counts (windowLength last_n) s.accepted s.smpl.token_count) : Exact last_n ss := by
  refine ⟨h, fun s hmem s' hmem' heq id => ?_⟩
  obtain ⟨hwin, hneutral⟩ := hs s hmem
  obtain ⟨hwin', hneutral'⟩ := hs s' hmem'
  have hmap : s.smpl.token_count = s'.smpl.token_count := (h s hmem).unique (heq ▸ h s' hmem')
  rw [Penalties.count, Penalties.count, hwin.last_n, hwin'.last_n, hneutral, hneutral', hmap]

def Op.ClonesEmpty (last_n : Int32) (ss : List Instance) : Op → Prop
  | .clone i => ∀ s, ss[i]? = some s → last_n.toInt ≤ 0 ∨ s.accepted = []
  | _ => True

theorem window_eq_nil_iff (last_n : Int32) (l : List Token) :
    l.rtake (windowLength last_n) = [] ↔ last_n.toInt ≤ 0 ∨ l = [] := by
  rw [List.rtake, drop_eq_nil_iff, windowLength, ← length_eq_zero_iff]
  omega

theorem Op.clonesEmpty_of_none {last_n : Int32} {ss : List Instance} {i : ℕ} (h : ss[i]? = none) :
    (Op.clone i).ClonesEmpty last_n ss := by
  intro s hs
  rw [h] at hs
  cases hs

theorem forall_mem_set {α : Type} {P : α → Prop} {l : List α} {x : α} (i : ℕ) (h : ∀ y ∈ l, P y) (hx : P x) :
    ∀ y ∈ l.set i x, P y := by
  intro y hy
  rcases mem_or_eq_of_mem_set hy with hmem | rfl
  · exact h y hmem
  · exact hx

/-- **One operation** never fails and keeps what holds of every sampler; it keeps exact counts exactly when it makes no
copy of a window that is not empty. -/
theorem Op.apply_sound {last_n : Int32} {neutral : Bool} {ss : List Instance} (hs : Sound last_n neutral ss)
    (op : Op) : ∃ ss', op.apply ss = .ok ss' ∧ Sound last_n neutral ss' ∧
      (Exact last_n ss → (Exact last_n ss' ↔ op.ClonesEmpty last_n ss)) := by
  cases op with
  | accept i token =>
    cases hi : ss[i]? with
    | none => exact ⟨ss, by rw [Op.apply, hi], hs, fun h => iff_of_true h trivial⟩
    | some s =>
      have hmem := mem_of_getElem? hi
      obtain ⟨hwin, hneutral⟩ := hs s hmem
      obtain ⟨smpl, haccept, hwin', hneutral', hcounts⟩ := hwin.accept (windowLength_lt last_n) token
      have hs' : Sound last_n neutral (ss.set i { smpl := smpl, accepted := s.accepted ++ [token] }) :=
        forall_mem_set i hs ⟨hwin', hneutral'.trans hneutral⟩
      refine ⟨_, by rw [Op.apply, hi]; simp only [haccept]; rfl, hs', fun h => iff_of_true ?_ trivial⟩
      exact exact_of_counts hs' (forall_mem_set i h.counts (hcounts (h.counts s hmem)))
  | reset i =>
    cases hi : ss[i]? with
    | none => exact ⟨ss, by rw [Op.apply, hi], hs, fun h => iff_of_true h trivial⟩
    | some s =>
      obtain ⟨hwin, hneutral⟩ := hs s (mem_of_getElem? hi)
      have hs' : Sound last_n neutral (ss.set i { smpl := s.smpl.reset, accepted := [] }) :=
        forall_mem_set i hs ⟨hwin.reset, hneutral⟩
      refine ⟨_, by rw [Op.apply, hi], hs', fun h => iff_of_true ?_ trivial⟩
      exact exact_of_counts hs' (forall_mem_set i h.counts (Penalties.reset_counts _ _))
  | clone i =>
    cases hi : ss[i]? with
    | none => exact ⟨ss, by rw [Op.apply, hi], hs, fun h => iff_of_true h (clonesEmpty_of_none hi)⟩
    | some s =>
      obtain ⟨hwin, hneutral⟩ := hs s (mem_of_getElem? hi)
      have hs' : Sound last_n neutral (ss ++ [{ smpl := s.smpl.clone, accepted := s.accepted }]) := by
        intro s' hs'
        rcases mem_append.mp hs' with hmem | hmem
        · exact hs s' hmem
        · rw [mem_singleton.mp hmem]
          exact ⟨hwin.clone, hneutral⟩
      refine ⟨_, by rw [Op.apply, hi], hs', fun h => ?_⟩
      -- the copy has an empty map, so everything hangs on its window
      have hcopy := Penalties.clone_counts_iff (windowLength last_n) s.accepted s.smpl
      rw [window_eq_nil_iff] at hcopy
      constructor
      · intro h' s' hs'
        rw [hi, Option.some.injEq] at hs'
        subst hs'
        exact hcopy.mp (h'.counts _ (mem_append_right _ (mem_singleton_self _)))
      · intro hempty
        apply exact_of_counts hs'
        intro s' hmem'
        rcases mem_append.mp hmem' with hmem | hmem
        · exact h.counts s' hmem
        · rw [mem_singleton.mp hmem]
          exact hcopy.mpr (hempty s hi)

theorem start_sound (last_n : Int32) (neutral : Bool) :
    Sound last_n neutral [{ smpl := .init last_n.toInt neutral, accepted := [] }] := by
  intro s hs
  rw [mem_singleton.mp hs]
  exact ⟨Penalties.init_windowed _ _, rfl⟩

theorem start_exact (last_n : Int32) (neutral : Bool) :
    Exact last_n [{ smpl := .init last_n.toInt neutral, accepted := [] }] := by
  apply exact_of_counts (start_sound last_n neutral)
  intro s hs
  rw [mem_singleton.mp hs]
  exact Penalties.init_counts _ _ _

theorem run_concat {last_n : Int32} {neutral : Bool} {ops : List Op} {ss : List Instance}
    (h : run last_n neutral ops = .ok ss) (op : Op) : run last_n neutral (ops ++ [op]) = op.apply ss := by
  rw [run, List.foldlM_append, ← run, h]
  show (op.apply ss >>= fun ss' => .ok ss') = op.apply ss
  cases op.apply ss <;> rfl

/-- A run never fails, and what holds of every sampler holds at its end. -/
theorem ring_run_sound (last_n : Int32) (neutral : Bool) (ops : List Op) :
    ∃ ss, run last_n neutral ops = .ok ss ∧ Sound last_n neutral ss := by
  induction ops using List.reverseRecOn with
  | nil => exact ⟨_, rfl, start_sound last_n neutral⟩
  | append_singleton ops op ih =>
    obtain ⟨ss, hrun, hs⟩ := ih
    obtain ⟨ss', happly, hs', -⟩ := op.apply_sound hs
    exact ⟨ss', (run_concat hrun op).trans happly, hs'⟩

/-- **The counts stay right exactly in the runs that copy empty windows only.**  After every part of the run each
sampler has the counts of its last `penalty_last_n` tokens, and samplers with the same tokens penalise alike, if and
only if every clone was made when `penalty_last_n` is not positive or when its original had accepted nothing since its
reset. -/
theorem exact_iff_clones_empty (last_n : Int32) (neutral : Bool) (ops : List Op) :
    (∀ k ≤ ops.length, ∃ ss, run last_n neutral (ops.take k) = .ok ss ∧ Exact last_n ss) ↔
      ∀ k op, ops[k]? = some op → ∀ ss, run last_n neutral (ops.take k) = .ok ss → op.ClonesEmpty last_n ss := by
  have hstep : ∀ k op ss, ops[k]? = some op → run last_n neutral (ops.take k) = .ok ss →
      run last_n neutral (ops.take (k + 1)) = op.apply ss := by
    intro k op ss hop hrun
    rw [take_add_one, hop]
    exact run_concat hrun op
  have hsound : ∀ k ss, run last_n neutral (ops.take k) = .ok ss → Sound last_n neutral ss := by
    intro k ss hrun
    obtain ⟨ss', hrun', hs⟩ := ring_run_sound last_n neutral (ops.take k)
    rwa [← Except.ok.inj (hrun'.symm.trans hrun)]
  constructor
  · intro h k op hop ss hrun
    have hk := (List.getElem?_eq_some_iff.mp hop).1
    obtain ⟨ss₀, hrun₀, hexact⟩ := h k hk.le
    rw [hrun, Except.ok.injEq] at hrun₀
    subst hrun₀
    obtain ⟨ss₁, hrun₁, hexact₁⟩ := h (k + 1) hk
    obtain ⟨ss', happly, -, hiff⟩ := op.apply_sound (hsound k ss hrun)
    rw [hstep k op ss hop hrun, happly, Except.ok.injEq] at hrun₁
    exact (hiff hexact).mp (hrun₁ ▸ hexact₁)
  · intro h k
    induction k with
    | zero => exact fun _ => ⟨_, rfl, start_exact last_n neutral⟩
    | succ k ih =>
      intro hk
      obtain ⟨ss, hrun, hexact⟩ := ih (Nat.le_of_succ_le hk)
      have hop : ops[k]? = some ops[k] := getElem?_eq_getElem hk
      obtain ⟨ss', happly, -, hiff⟩ := (ops[k]).apply_sound (hsound k ss hrun)
      refine ⟨ss', (hstep k _ ss hop hrun).trans happly, (hiff hexact).mpr (h k _ hop ss hrun)⟩

/-- A window of one token, copied when it holds the token 5.  The copy then accepts 7, and the entry of 5 that it never
had goes below zero. -/
def copied : List Op := [.accept 0 5, .clone 0, .accept 1 7]

/-- **The clone does not count its window**: it holds 5 and counts nothing, and after the next token it counts 5 with
minus one. -/
theorem clone_forgets_counts :
    (run 1 false (copied.take 2)).map (·.map fun s => (s.accepted, s.smpl.count 5)) =
        .ok [([5], some 1), ([5], none)] ∧
      (run 1 false copied).map (·.map fun s => (s.accepted, s.smpl.count 5, s.smpl.count 7)) =
        .ok [([5], some 1, none), ([5, 7], some (-1), some 1)] ∧
      ¬ ∀ (last_n : Int32) (neutral : Bool) (ops : List Op), ∀ k ≤ ops.length,
        ∃ ss, run last_n neutral (ops.take k) = .ok ss ∧ Exact last_n ss := by
  have hforgets : (run 1 false (copied.take 2)).map (·.map fun s => (s.accepted, s.smpl.count 5)) =
      .ok [([5], some 1), ([5], none)] := by decide
  refine ⟨hforgets, by decide, fun h => ?_⟩
  obtain ⟨ss, hrun, hexact⟩ := h 1 false copied 2 (by decide)
  rw [hrun] at hforgets
  have hmap : (ss.map fun s => (s.accepted, s.smpl.count 5)) = [([5], some 1), ([5], none)] :=
    Except.ok.inj hforgets
  have horig : ([5], some 1) ∈ ss.map fun s => (s.accepted, s.smpl.count 5) := by simp [hmap]
  have hcopy : ([5], none) ∈ ss.map fun s => (s.accepted, s.smpl.count 5) := by simp [hmap]
  obtain ⟨s, hs, hval⟩ := mem_map.mp horig
  obtain ⟨s', hs', hval'⟩ := mem_map.mp hcopy
  rw [Prod.mk.injEq] at hval hval'
  have hagree := hexact.agree s hs s' hs' (hval.1.trans hval'.1.symm) 5
  rw [hval.2, hval'.2] at hagree
  cases hagree

end Sampling
