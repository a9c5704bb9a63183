import LlamaRafaelia.Kv.SeqOps

/-!
# The pending shift of a cell

`pos_add` and `pos_div` queue the rotation of the K data in `shift`, which the cross-stream branch of `seq_cp` takes
for the displacement of the cell.  `pos_div` queues it with the opposite sign.
-/

namespace KvCells

open Checked

/-- A queued change of position. -/
inductive ShiftOp where
  | add (i : ℕ) (d : ℤ)
  | div (i : ℕ) (d : ℤ)

def ShiftOp.Admissible : ShiftOp → Prop
  | .add _ _ => True
  | .div _ d => 1 ≤ d

def shiftStep (c : KvCells) : ShiftOp → Checked KvCells
  | .add i d => do
    let r ← c.posAdd i d
    return r.1
  | .div i d => c.posDiv i d

/-- A run of `pos_add` and `pos_div`, on any cells and in any order. -/
def shiftRun (c : KvCells) (ops : List ShiftOp) : Checked KvCells := loop shiftStep c ops

/-- The operation does not divide cell `i` away from its position: it acts elsewhere, or adds, or
divides by one, or finds the cell at position zero. -/
def ShiftOp.IdleAt (op : ShiftOp) (c : KvCells) (i : ℕ) : Prop :=
  match op with
  | .add _ _ => True
  | .div j d => j = i → d = 1 ∨ c.pos i = 0

/-- No division of the run moves cell `i`. -/
def DivsIdle (i : ℕ) : KvCells → List ShiftOp → Prop
  | _, [] => True
  | c, op :: ops => op.IdleAt c i ∧ DivsIdle i (c.shiftStep op).value ops

variable {c : KvCells} {i : ℕ} {op : ShiftOp} {ops : List ShiftOp}

def lead (c : KvCells) (i : ℕ) : ℤ := c.shift i - c.pos i

/-! ### One operation -/

theorem tdiv_eq_self_iff {p d : ℤ} (hp : 0 ≤ p) (hd : 1 ≤ d) : p.tdiv d = p ↔ d = 1 ∨ p = 0 := by
  constructor
  · intro h
    rw [Int.tdiv_eq_ediv_of_nonneg hp] at h
    by_contra hne
    have hlt : p / d < p := Int.ediv_lt_self_of_pos_of_ne_one (by omega) (by omega)
    omega
  · rintro (rfl | rfl)
    · exact Int.tdiv_one p
    · exact Int.zero_tdiv d

theorem shiftStep_add_ne {j : ℕ} (d : ℤ) (hne : i ≠ j) :
    (c.shiftStep (.add j d)).value.cell i = c.cell i := by
  show (c.posAdd j d).value.1.cell i = _
  rw [posAdd_cell, Function.update_of_ne hne]

theorem shiftStep_div_ne {j : ℕ} (d : ℤ) (hne : i ≠ j) :
    (c.shiftStep (.div j d)).value.cell i = c.cell i := by
  show (c.posDiv j d).value.cell i = _
  rw [posDiv_cell, Function.update_of_ne hne]

theorem shiftStep_empty (hempty : c.pos i = -1) (hok : (c.shiftStep op).asserts = true) :
    (c.shiftStep op).value.pos i = -1 := by
  cases op with
  | add j d =>
    by_cases hij : i = j
    · subst hij
      simp [shiftStep, posAdd, hempty] at hok
    · rw [pos, shiftStep_add_ne d hij]
      exact hempty
  | div j d =>
    by_cases hij : i = j
    · subst hij
      simp [shiftStep, posDiv, hempty] at hok
    · rw [pos, shiftStep_div_ne d hij]
      exact hempty

/-- **What one operation does to the lead.**  If the cell is still in use, its position is sound, the
lead has not become smaller, and it is the same exactly when the operation was idle. -/
theorem shiftStep_lead (hpos : 0 ≤ c.pos i) (hop : op.Admissible)
    (hlive : (c.shiftStep op).value.pos i ≠ -1) :
    0 ≤ (c.shiftStep op).value.pos i ∧ c.lead i ≤ (c.shiftStep op).value.lead i ∧
      ((c.shiftStep op).value.lead i = c.lead i ↔ op.IdleAt c i) := by
  cases op with
  | add j d =>
    by_cases hij : i = j
    · subst hij
      have hcell : (c.shiftStep (.add i d)).value.cell i = posAddCell (c.cell i) d := by
        show (c.posAdd i d).value.1.cell i = _
        rw [posAdd_cell, Function.update_self]
      have hge : ¬ (c.cell i).pos + d < 0 := by
        intro hneg
        apply hlive
        rw [pos, hcell, posAddCell, if_pos hneg]
      rw [posAddCell, if_neg hge] at hcell
      simp only [lead, shift, pos, hcell, ShiftOp.IdleAt, iff_true]
      omega
    · have hcell := shiftStep_add_ne (c := c) d hij
      simp only [lead, shift, pos, hcell, ShiftOp.IdleAt]
      exact ⟨hpos, le_refl _, by simp⟩
  | div j d =>
    by_cases hij : i = j
    · subst hij
      have hcell : (c.shiftStep (.div i d)).value.cell i = posDivCell (c.cell i) d := by
        show (c.posDiv i d).value.cell i = _
        rw [posDiv_cell, Function.update_self]
      have hd : 1 ≤ d := hop
      have hself := tdiv_eq_self_iff hpos hd
      have hnonneg : 0 ≤ (c.pos i).tdiv d := Int.tdiv_nonneg hpos (by omega)
      have hle : (c.pos i).tdiv d ≤ c.pos i := by
        rw [Int.tdiv_eq_ediv_of_nonneg hpos]
        exact Int.ediv_le_self d hpos
      simp only [pos] at hself hnonneg hle
      simp only [lead, shift, pos, hcell, posDivCell, ShiftOp.IdleAt, true_implies]
      refine ⟨hnonneg, by omega, ?_⟩
      rw [← hself]
      omega
    · have hcell := shiftStep_div_ne (c := c) d hij
      simp only [lead, shift, pos, hcell, ShiftOp.IdleAt, Ne.symm hij, false_implies]
      exact ⟨hpos, le_refl _, by simp⟩

/-! ### Runs -/

theorem shiftRun_empty (hempty : c.pos i = -1) (hok : (c.shiftRun ops).asserts = true) :
    (c.shiftRun ops).value.pos i = -1 := by
  induction ops generalizing c with
  | nil => exact hempty
  | cons op ops ih =>
    simp only [shiftRun, loop_cons, bind_asserts, Bool.and_eq_true] at hok
    exact ih (shiftStep_empty hempty hok.1) hok.2

theorem shiftRun_lead (hpos : 0 ≤ c.pos i) (hops : ∀ op ∈ ops, op.Admissible)
    (hok : (c.shiftRun ops).asserts = true) (hlive : (c.shiftRun ops).value.pos i ≠ -1) :
    c.lead i ≤ (c.shiftRun ops).value.lead i ∧
      ((c.shiftRun ops).value.lead i = c.lead i ↔ DivsIdle i c ops) := by
  induction ops generalizing c with
  | nil => exact ⟨le_refl _, ⟨fun _ => trivial, fun _ => rfl⟩⟩
  | cons op ops ih =>
    simp only [shiftRun, loop_cons, bind_asserts, Bool.and_eq_true] at hok
    have hstep : (c.shiftStep op).value.pos i ≠ -1 := fun hempty =>
      hlive (shiftRun_empty (c := (c.shiftStep op).value) hempty hok.2)
    obtain ⟨hpos', hle, hiff⟩ := shiftStep_lead hpos (hops op (by simp)) hstep
    obtain ⟨hle', hiff'⟩ := ih hpos' (fun o ho => hops o (by simp [ho])) hok.2 hlive
    have hrun : (c.shiftRun (op :: ops)).value = ((c.shiftStep op).value.shiftRun ops).value := rfl
    rw [hrun]
    refine ⟨le_trans hle hle', ?_⟩
    rw [DivsIdle, ← hiff, ← hiff']
    -- two steps up, so the ends meet only when neither step moved
    omega

/-- **The shift is the displacement exactly when no division moved the cell.**  From a cell in use of a
reachable object, right after `reset_shift()`, and for every run of `pos_add` and `pos_div` that
leaves the cell in use. -/
theorem shiftRun_displacement_iff (c : KvCells) (hc : CellsReach c) (i : ℕ) (hi : i < c.size)
    (huse : c.pos i ≠ -1) (ops : List ShiftOp) (hops : ∀ op ∈ ops, op.Admissible)
    (hok : (c.resetShift.shiftRun ops).asserts = true)
    (hlive : (c.resetShift.shiftRun ops).value.pos i ≠ -1) :
    ((c.resetShift.shiftRun ops).value.pos i = c.pos i + (c.resetShift.shiftRun ops).value.shift i ∧
        (KvCache.seqCpOrigin (c.resetShift.shiftRun ops).value i).value = c.pos i)
      ↔ DivsIdle i c.resetShift ops := by
  have hpos : 0 ≤ c.resetShift.pos i :=
    ((cellsReach_sound hc).pos_ok i hi).resolve_left huse
  have hlead : c.resetShift.lead i = -c.pos i := by
    show (0 : ℤ) - c.pos i = _
    omega
  rw [← (shiftRun_lead hpos hops hok hlive).2, hlead, KvCache.seqCpOrigin_value, lead]
  omega

/-- Cell `1` of two, at position `7`: it moves to `10`, is divided by one, and moves back by four. -/
theorem shiftRun_displacement_iff_moved :
    let c := (((resize 2).posSet 1 7).value.seqAdd 1 0).value
    let c' := (c.resetShift.shiftRun [.add 1 3, .div 1 1, .add 1 (-4)]).value
    (c'.pos 1 = c.pos 1 + c'.shift 1 ∧ (KvCache.seqCpOrigin c' 1).value = c.pos 1)
      ↔ DivsIdle 1 c.resetShift [.add 1 3, .div 1 1, .add 1 (-4)] :=
  shiftRun_displacement_iff _
    (.seqAdd (.posSet (.resize 2) (by decide) (by decide)) (by decide)) 1 (by decide) (by decide)
    [.add 1 3, .div 1 1, .add 1 (-4)] (by simp [ShiftOp.Admissible]) (by decide) (by decide)

/-- A cell at position `10` that is divided by two is at position `5` with shift `+5`: the sum is not
its position, and `seq_cp` would take the K data to have been stored under position `0`. -/
theorem posDiv_shift_not_displacement :
    let c := (((resize 1).posSet 0 10).value.seqAdd 0 0).value
    let c' := (c.resetShift.shiftRun [.div 0 2]).value
    CellsReach c ∧ c.pos 0 = 10 ∧ (c.resetShift.shiftRun [.div 0 2]).asserts = true ∧
      c'.pos 0 = 5 ∧ c'.shift 0 = 5 ∧ c'.pos 0 ≠ c.pos 0 + c'.shift 0 ∧
      (KvCache.seqCpOrigin c' 0).value = 0 :=
  ⟨.seqAdd (.posSet (.resize 1) (by decide) (by decide)) (by decide), by decide, by decide,
    by decide, by decide, by decide, by decide⟩

end KvCells
