import LlamaRafaelia.Kv.StateWrite
import Mathlib.Tactic.NormNum

/-!
# Reading back what was written

Each read takes from the buffer what the matching write put there and leaves the following bytes alone.
-/

namespace KvCache

open List Checked KvCells Fallible

variable {kp : KvParams} {st src : KvCache} {c : KvCells}

/-! ### Numbers -/

theorem read_append {l : List UInt8} {n : ℕ} (hl : l.length = n) (rest : List UInt8) :
    (read n).run ⟨st, l ++ rest⟩ = (.ok l, ⟨st, rest⟩) := by
  have hlen : ¬ (l ++ rest).length < n := by
    rw [length_append]
    omega
  rw [read, run_bind_ok (run_get _)]
  simp only [hlen, if_false]
  rw [run_bind_ok (run_set _ _), run_pure, take_left' hl, drop_left' hl]

theorem readU32_u32 {n : ℕ} (h : n < 2 ^ 32) (rest : List UInt8) :
    readU32.run ⟨st, u32 n ++ rest⟩ = (.ok n, ⟨st, rest⟩) := by
  rw [readU32, u32, run_bind_ok (read_append (leBytes_length 4 n) rest), run_pure,
    leNat_leBytes_of_lt (lt_of_lt_of_eq h (by norm_num))]

theorem readU64_u64 {n : ℕ} (h : n < 2 ^ 64) (rest : List UInt8) :
    readU64.run ⟨st, u64 n ++ rest⟩ = (.ok n, ⟨st, rest⟩) := by
  rw [readU64, u64, run_bind_ok (read_append (leBytes_length 8 n) rest), run_pure,
    leNat_leBytes_of_lt (lt_of_lt_of_eq h (by norm_num))]

theorem bmod_emod {z : ℤ} (hlo : -2147483648 ≤ z) (hhi : z ≤ llamaPosMax) {m : ℕ} (hm : m = 4294967296) :
    Int.bmod (z % 4294967296) m = z := by
  have hmax : llamaPosMax = 2147483647 := rfl
  rw [Int.bmod_def, hm]
  split <;> omega

theorem int32_emod {z : ℤ} (hlo : -2147483648 ≤ z) (hhi : z ≤ llamaPosMax) :
    int32 (z % 2 ^ 32).toNat = z := by
  have hpow : (2 : ℤ) ^ 32 = 4294967296 := by norm_num
  have hnn : 0 ≤ z % 4294967296 := Int.emod_nonneg z (by decide)
  have hcast : (((z % 4294967296).toNat : ℕ) : ℤ) = z % 4294967296 := Int.toNat_of_nonneg hnn
  rw [hpow]
  unfold int32
  rw [hcast]
  exact bmod_emod hlo hhi (by norm_num)

theorem readI32_i32 {z : ℤ} (hlo : -2147483648 ≤ z) (hhi : z ≤ llamaPosMax) (rest : List UInt8) :
    readI32.run ⟨st, i32 z ++ rest⟩ = (.ok z, ⟨st, rest⟩) := by
  have hlt : (z % 2 ^ 32).toNat < 256 ^ 4 := by
    have := Int.emod_lt_of_pos z (show (0 : ℤ) < 2 ^ 32 by norm_num)
    norm_num at this ⊢
    omega
  rw [readI32, i32, run_bind_ok (read_append (leBytes_length 4 _) rest), run_pure, leNat_leBytes_of_lt hlt,
    int32_emod hlo hhi]

theorem onCache_run (f : KvCache → Checked KvCache) (s : ReadState) :
    (onCache f).run s = (.ok (), ⟨(f s.cache).value, s.bytes⟩) := by
  rw [onCache, run_bind_ok (run_get _), run_bind_ok (run_lift _ _), run_set]

theorem setStream_setStream (t : ℕ) (c c' : KvCells) (h h' : ℕ) :
    (st.setStream t c h).setStream t c' h' = st.setStream t c' h' := by
  simp only [setStream, Function.update_idem]

theorem setStream_self (t : ℕ) : st.setStream t (st.vCells t) (st.vHeads t) = st := by
  simp only [setStream, Function.update_eq_self]

/-! ### The cells of a whole stream -/

/-- A cell with the given position and sequences, as `state_read_meta` fills it. -/
def putCell (c : KvCells) (i : ℕ) (pos : ℤ) (ids : List ℕ) : KvCells :=
  ids.foldl (fun c s => (c.seqAdd i s).value) (c.posSet i pos).value

/-- The cells from `k` on, filled with the records `l`. -/
def putCells : KvCells → ℕ → List (ℤ × List ℕ) → KvCells
  | c, _, [] => c
  | c, k, x :: l => putCells (putCell c k x.1 x.2) (k + 1) l

theorem foldl_seqAdd_cell (i : ℕ) (ids : List ℕ) (c : KvCells) :
    (ids.foldl (fun c s => (c.seqAdd i s).value) c).cell
      = Function.update c.cell i { c.cell i with seq := ids.toFinset ∪ (c.cell i).seq } := by
  induction ids generalizing c with
  | nil => simp
  | cons s ids ih =>
    rw [foldl_cons, ih, seqAdd_cell]
    simp only [Function.update_self, Function.update_idem, toFinset_cons]
    congr 2
    ext q
    simp only [Finset.mem_union, Finset.mem_insert]
    tauto

theorem putCell_cell (c : KvCells) {i : ℕ} (hempty : c.cell i = KvCell.empty) (pos : ℤ) (ids : List ℕ) :
    (putCell c i pos ids).cell = Function.update c.cell i ⟨pos, KvCell.empty.ext, 0, ids.toFinset⟩ := by
  rw [putCell, foldl_seqAdd_cell, posSet_cell]
  simp only [Function.update_self, Function.update_idem, hempty]
  congr 2
  show ids.toFinset ∪ ∅ = ids.toFinset
  exact Finset.union_empty _

theorem foldl_seqAdd_size (i : ℕ) (ids : List ℕ) (c : KvCells) :
    (ids.foldl (fun c s => (c.seqAdd i s).value) c).size = c.size := by
  induction ids generalizing c with
  | nil => rfl
  | cons s ids ih => rw [foldl_cons, ih]; rfl

theorem putCell_size (c : KvCells) (i : ℕ) (pos : ℤ) (ids : List ℕ) : (putCell c i pos ids).size = c.size :=
  foldl_seqAdd_size i ids _

theorem putCells_cell (l : List (ℤ × List ℕ)) (k : ℕ) (c : KvCells)
    (hempty : ∀ i, k ≤ i → c.cell i = KvCell.empty) :
    (putCells c k l).size = c.size ∧
      (∀ j (hj : j < l.length), (putCells c k l).cell (k + j)
        = ⟨(l.get ⟨j, hj⟩).1, KvCell.empty.ext, 0, (l.get ⟨j, hj⟩).2.toFinset⟩) ∧
      ∀ i, i < k ∨ k + l.length ≤ i → (putCells c k l).cell i = c.cell i := by
  induction l generalizing k c with
  | nil => exact ⟨rfl, fun j hj => absurd hj (Nat.not_lt_zero j), fun i _ => rfl⟩
  | cons x l ih =>
    have hcell := putCell_cell c (hempty k le_rfl) x.1 x.2
    have hempty' : ∀ i, k + 1 ≤ i → (putCell c k x.1 x.2).cell i = KvCell.empty := by
      intro i hi
      rw [hcell, Function.update_of_ne (by omega)]
      exact hempty i (by omega)
    obtain ⟨hsize, hin, hout⟩ := ih (k + 1) (putCell c k x.1 x.2) hempty'
    refine ⟨hsize.trans (putCell_size c k x.1 x.2), fun j hj => ?_, fun i hi => ?_⟩
    · cases j with
      | zero =>
        rw [putCells, hout (k + 0) (by omega), hcell]
        simp
      | succ j =>
        have := hin j (by simpa using hj)
        rw [putCells, show k + (j + 1) = k + 1 + j by omega, this]
        simp
    · rw [length_cons] at hi
      rw [putCells, hout i (by omega), hcell, Function.update_of_ne (by omega)]

theorem onCells_run (t : ℕ) (f : KvCells → Checked KvCells) (s : ReadState) :
    (onCells t f).run s
      = (.ok (), ⟨s.cache.setStream t (f (s.cache.vCells t)).value (s.cache.vHeads t), s.bytes⟩) := by
  rw [onCells, onCache_run]
  rfl

theorem nat_i32 {s : ℕ} (hs : s < kp.nSeqMax) : -2147483648 ≤ (s : ℤ) ∧ (s : ℤ) ≤ llamaPosMax := by
  have h1 := kp.nSeqMax_le
  have h2 : llamaMaxSeq = 256 := rfl
  have h3 : llamaPosMax = 2147483647 := rfl
  omega

theorem readSeqId_run (st : KvCache) (t i : ℕ) {s : ℕ} (hs : s < kp.nSeqMax) (rest : List UInt8) :
    (readSeqId kp t i).run ⟨st, i32 s ++ rest⟩
      = (.ok true, ⟨st.setStream t ((st.vCells t).seqAdd i s).value (st.vHeads t), rest⟩) := by
  obtain ⟨hlo, hhi⟩ := nat_i32 hs
  have hrange : ¬ ((s : ℤ) < 0 ∨ (kp.nSeqMax : ℤ) ≤ s) := by omega
  rw [readSeqId, run_bind_ok (readI32_i32 hlo hhi rest)]
  simp only [hrange, if_false, Int.toNat_natCast]
  rw [run_bind_ok (onCells_run t _ _), run_pure]

theorem readSeqIds_run (st : KvCache) {t i : ℕ} {ids : List ℕ} (hids : ∀ s ∈ ids, s < kp.nSeqMax) (rest : List UInt8)
    {l : List ℕ} (hl : l.length = ids.length) :
    (l.allM fun _ => readSeqId kp t i).run ⟨st, (ids.flatMap fun s : ℕ => i32 s) ++ rest⟩
      = (.ok true, ⟨st.setStream t (ids.foldl (fun c s => (c.seqAdd i s).value) (st.vCells t)) (st.vHeads t),
          rest⟩) := by
  induction ids generalizing st l with
  | nil =>
    obtain rfl := eq_nil_of_length_eq_zero hl
    rw [foldl_nil, setStream_self]
    rfl
  | cons s ids ih =>
    cases l with
    | nil => simp at hl
    | cons x l =>
      have hrun := readSeqId_run st t i (hids s (by simp))
        ((ids.flatMap fun s : ℕ => i32 s) ++ rest)
      have hrest := ih (st.setStream t ((st.vCells t).seqAdd i s).value (st.vHeads t))
        (fun q hq => hids q (by simp [hq])) (l := l) (by simpa using hl)
      rw [flatMap_cons, append_assoc, List.allM, run_bind_ok hrun, foldl_cons]
      simp only [setStream_vCells_self, setStream_vHeads_self, setStream_setStream] at hrest
      exact hrest

theorem readCell_run (st : KvCache) (t i : ℕ) {pos : ℤ} {ids : List ℕ} (hlo : -2147483648 ≤ pos) (hhi : pos ≤ llamaPosMax)
    (hids : ∀ s ∈ ids, s < kp.nSeqMax) (hlen : ids.length < 2 ^ 32) (rest : List UInt8) :
    (readCell kp t i).run ⟨st, cellBytes pos ids ++ rest⟩
      = (.ok true, ⟨st.setStream t (putCell (st.vCells t) i pos ids) (st.vHeads t), rest⟩) := by
  rw [readCell, cellBytes, append_assoc, append_assoc, run_bind_ok (readI32_i32 hlo hhi _),
    run_bind_ok (readU32_u32 hlen _), run_bind_ok (onCells_run t _ _),
    readSeqIds_run _ hids rest length_range]
  simp only [setStream_vCells_self, setStream_vHeads_self, setStream_setStream, putCell]

/-- **The records of a whole stream**, read into the cells from `k` on. -/
theorem readCells_run (st : KvCache) (t : ℕ) {l : List (ℤ × List ℕ)} (hpos : ∀ x ∈ l, -2147483648 ≤ x.1 ∧ x.1 ≤ llamaPosMax)
    (hids : ∀ x ∈ l, x.2.length < 2 ^ 32 ∧ ∀ s ∈ x.2, s < kp.nSeqMax) (k : ℕ) (rest : List UInt8) :
    ((List.range' k l.length).allM (readCell kp t)).run ⟨st, (l.flatMap fun x => cellBytes x.1 x.2) ++ rest⟩
      = (.ok true, ⟨st.setStream t (putCells (st.vCells t) k l) (st.vHeads t), rest⟩) := by
  induction l generalizing st k with
  | nil =>
    rw [putCells, setStream_self]
    rfl
  | cons x l ih =>
    obtain ⟨hlo, hhi⟩ := hpos x (by simp)
    obtain ⟨hlen, hlt⟩ := hids x (by simp)
    have hrun := readCell_run st t k hlo hhi hlt hlen
      ((l.flatMap fun x => cellBytes x.1 x.2) ++ rest)
    have hrest := ih (st.setStream t (putCell (st.vCells t) k x.1 x.2) (st.vHeads t))
      (fun y hy => hpos y (by simp [hy])) (fun y hy => hids y (by simp [hy])) (k + 1)
    rw [flatMap_cons, append_assoc, length_cons, range'_succ, List.allM,
      run_bind_ok hrun, putCells]
    simp only [setStream_vCells_self, setStream_vHeads_self, setStream_setStream] at hrest
    exact hrest

/-! ### The cells of one sequence -/

theorem readSeqCells_run {l : List (ℤ × ℕ)} (hpos : ∀ x ∈ l, -2147483648 ≤ x.1 ∧ x.1 ≤ llamaPosMax)
    (hids : ∀ x ∈ l, x.2 < kp.nSeqMax) (rest : List UInt8) :
    (readSeqCells l.length).run ⟨st, (l.flatMap fun x => cellBytes x.1 [x.2]) ++ rest⟩
      = (.ok (some (l.map Prod.fst)), ⟨st, rest⟩) := by
  induction l with
  | nil => rfl
  | cons x l ih =>
    obtain ⟨hlo, hhi⟩ := hpos x (by simp)
    obtain ⟨hlo', hhi'⟩ := nat_i32 (hids x (by simp))
    have hrest := ih (fun y hy => hpos y (by simp [hy])) fun y hy => hids y (by simp [hy])
    have hone : List.flatMap (fun s : ℕ => i32 s) [x.2] = i32 x.2 := by simp
    rw [flatMap_cons, cellBytes, hone, append_assoc, append_assoc, append_assoc,
      length_cons, readSeqCells, run_bind_ok (readI32_i32 hlo hhi _),
      run_bind_ok (readU32_u32 (by norm_num) _)]
    simp only [length_singleton, ne_eq, not_true_eq_false, if_false]
    rw [run_bind_ok (readI32_i32 hlo' hhi' _), run_bind_ok hrest, run_pure]
    rfl

theorem readSeqCells_none {n : ℕ} {pos : ℤ} (hlo : -2147483648 ≤ pos) (hhi : pos ≤ llamaPosMax)
    (rest : List UInt8) :
    (readSeqCells (n + 1)).run ⟨st, cellBytes pos [] ++ rest⟩ = (.ok none, ⟨st, rest⟩) := by
  rw [readSeqCells, cellBytes, append_assoc, append_assoc, run_bind_ok (readI32_i32 hlo hhi _),
    run_bind_ok (readU32_u32 (by norm_num) _)]
  rfl

end KvCache
