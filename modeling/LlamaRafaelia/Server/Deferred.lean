import LlamaRafaelia.Server.Queue

/-!
# Deferred tasks

A completion without an idle slot is deferred, and each release of a slot hands one deferred task back to the queue.  So
the deferred tasks depend on a slot at work, or on a task in the queue that is going to start one.

* `State.live_step` - **one step keeps the invariant** under this condition;
* `State.deferred_served` - **runs**: in a run of such steps nothing is deferred when the loop waits on an empty queue with
  every slot idle.
-/

namespace Server

open List Or

namespace State

/-! ### What the deferred tasks depend on -/

def HasSlot (st : State) (idSlot : ℤ) : Prop :=
  idSlot = -1 ∧ 0 < st.slots.length ∨ 0 ≤ idSlot ∧ idSlot < st.slots.length

instance (st : State) (idSlot : ℤ) : Decidable (st.HasSlot idSlot) :=
  inferInstanceAs (Decidable (idSlot = -1 ∧ 0 < st.slots.length ∨ 0 ≤ idSlot ∧ idSlot < st.slots.length))

def Launchable (st : State) : TaskType → Prop
  | .completion idSlot launches => launches = true ∧ st.HasSlot idSlot
  | .slotAction _ | .cancel _ _ | .nextResponse | .other => False

instance (st : State) (type : TaskType) : Decidable (st.Launchable type) :=
  match type with
  | .completion idSlot launches => inferInstanceAs (Decidable (launches = true ∧ st.HasSlot idSlot))
  | .slotAction _ | .cancel _ _ | .nextResponse | .other => isFalse id

def Busy (st : State) : Prop := ∃ s ∈ st.slots, s ≠ none

instance (st : State) : Decidable st.Busy := inferInstanceAs (Decidable (∃ s ∈ st.slots, s ≠ none))

/-- Nothing is deferred, or a slot is at work, or one is going to be started. -/
def Live (st : State) : Prop :=
  st.queueTasksDeferred = [] ∨ st.Busy ∨ ∃ x ∈ st.hands ++ st.queueTasks, st.Launchable x.type

theorem live_init (nSlots : ℕ) : (init nSlots).Live := inl rfl

theorem launchable_congr {st st' : State} (h : st'.slots.length = st.slots.length) (type : TaskType) :
    st'.Launchable type ↔ st.Launchable type := by
  cases type with
  | completion idSlot launches => rw [Launchable, Launchable, HasSlot, HasSlot, h]
  | _ => exact Iff.rfl

/-! ### Posts -/

def targets (tasks : List Task) : List ℤ :=
  tasks.filterMap fun x =>
    match x.type with
    | .cancel idTarget _ => some idTarget
    | _ => none

/-- What a CANCEL must leave: a slot at work, a launchable task, or nothing deferred. -/
def Spares (st : State) (tasks : List Task) : Prop :=
  st.Busy ∨ (∃ x ∈ st.hands, st.Launchable x.type) ∨
    (∃ x ∈ st.queueTasks ++ tasks, st.Launchable x.type ∧ x.id ∉ targets tasks) ∨
    ∀ x ∈ st.queueTasksDeferred, x.id ∈ targets tasks

instance (st : State) (tasks : List Task) : Decidable (st.Spares tasks) :=
  inferInstanceAs (Decidable (st.Busy ∨ (∃ x ∈ st.hands, st.Launchable x.type) ∨
    (∃ x ∈ st.queueTasks ++ tasks, st.Launchable x.type ∧ x.id ∉ targets tasks) ∨
    ∀ x ∈ st.queueTasksDeferred, x.id ∈ targets tasks))

theorem mem_enqueue {front : Bool} {st : State} {task x : Task} :
    x ∈ (st.enqueue front task).queueTasks ↔ x = task ∨ x ∈ st.queueTasks := by
  cases front <;> simp [enqueue, or_comm]

theorem Spares.enqueue {st : State} {front : Bool} {task : Task} {tasks : List Task}
    (hother : ∀ idTarget late, task.type ≠ .cancel idTarget late) (h : st.Spares (task :: tasks)) :
    (st.enqueue front task).Spares tasks := by
  have htargets : targets (task :: tasks) = targets tasks := by
    rw [targets, filterMap_cons_none, targets]
    split
    · next idTarget late htype => exact absurd htype (hother _ _)
    · rfl
  obtain hbusy | hhands | ⟨x, hx, hlaunch, hid⟩ | hall := h
  · exact inl hbusy
  · exact inr (inl hhands)
  · rw [htargets] at hid
    refine inr (inr (inl ⟨x, ?_, hlaunch, hid⟩))
    rw [mem_append, mem_cons] at hx
    rw [mem_append, mem_enqueue]
    tauto
  · rw [htargets] at hall
    exact inr (inr (inr hall))

theorem Spares.purge {st : State} {front : Bool} {task task' : Task} {tasks : List Task} {idTarget : ℤ} {late : Bool}
    (htype : task.type = .cancel idTarget late) (h : st.Spares (task :: tasks)) :
    ((st.cleanupPendingTask idTarget).enqueue front task').Spares tasks := by
  have htargets : targets (task :: tasks) = idTarget :: targets tasks := by
    rw [targets, filterMap_cons_some, targets]
    rw [htype]
  obtain hbusy | hhands | ⟨x, hx, hlaunch, hid⟩ | hall := h
  · exact inl hbusy
  · exact inr (inl hhands)
  · rw [htargets, mem_cons, not_or] at hid
    refine inr (inr (inl ⟨x, ?_, hlaunch, hid.2⟩))
    rw [mem_append, mem_cons] at hx
    rw [mem_append, mem_enqueue]
    obtain hold | rfl | hnew := hx
    · exact inl (inr (mem_filter.mpr ⟨hold, by simpa using hid.1⟩))
    · rw [htype] at hlaunch
      exact hlaunch.elim
    · exact inr hnew
  · refine inr (inr (inr ?_))
    intro x hx
    obtain ⟨hmem, hid⟩ := mem_filter.mp hx
    have htarget := hall x hmem
    rw [htargets, mem_cons] at htarget
    exact htarget.resolve_left (by simpa using hid)

theorem Spares.post {st st' : State} {front : Bool} {task : Task} {tasks : List Task} (h : st.Spares (task :: tasks))
    (hpost : st.post front task = some st') : st'.Spares tasks := by
  rw [State.post] at hpost
  split at hpost
  · cases hpost
  · split at hpost
    · next idTarget late htype =>
      rw [← Option.some.inj hpost]
      exact h.purge htype
    · next hother =>
      rw [← Option.some.inj hpost]
      exact h.enqueue hother

theorem Spares.posts {st st' : State} {front : Bool} {tasks : List Task} (h : st.Spares tasks)
    (hposts : Steps.run (State.post front) st tasks = some st') : st'.Spares [] := by
  induction tasks generalizing st with
  | nil => exact Option.some.inj hposts ▸ h
  | cons task tasks ih =>
    obtain ⟨mid, hpost, hrest⟩ := Option.bind_eq_some_iff.mp hposts
    exact ih (h.post hpost) hrest

theorem Spares.live {st : State} (h : st.Spares []) : st.Live := by
  obtain hbusy | ⟨x, hx, hlaunch⟩ | ⟨x, hx, hlaunch, -⟩ | hall := h
  · exact inr (inl hbusy)
  · exact inr (inr ⟨x, mem_append_left _ hx, hlaunch⟩)
  · rw [append_nil] at hx
    exact inr (inr ⟨x, mem_append_right _ hx, hlaunch⟩)
  · exact inl (eq_nil_iff_forall_not_mem.mpr fun x hx => not_mem_nil (hall x hx))

theorem Live.spares {st : State} (h : st.Live) {tasks : List Task} (htargets : targets tasks = []) : st.Spares tasks := by
  obtain hnil | hbusy | ⟨x, hx, hlaunch⟩ := h
  · exact inr (inr (inr (by rw [hnil]; nofun)))
  · exact inl hbusy
  · obtain hhands | hqueue := mem_append.mp hx
    · exact inr (inl ⟨x, hhands, hlaunch⟩)
    · exact inr (inr (inl ⟨x, mem_append_left _ hqueue, hlaunch, by rw [htargets]; exact not_mem_nil⟩))

/-! ### Releases -/

/-- What a release needs: another slot at work, a launchable task in the queue, or that it hands back a launchable task or
the last deferred one. -/
def HandsOver (st : State) (i : ℕ) : Prop :=
  (∃ j < st.slots.length, j ≠ i ∧ st.slots[j]? ≠ some none) ∨ (∃ x ∈ st.queueTasks, st.Launchable x.type) ∨
    (∃ x ∈ st.queueTasksDeferred.head?, st.Launchable x.type) ∨ st.queueTasksDeferred.length ≤ 1

instance (st : State) (i : ℕ) : Decidable (st.HandsOver i) :=
  inferInstanceAs (Decidable ((∃ j < st.slots.length, j ≠ i ∧ st.slots[j]? ≠ some none) ∨
    (∃ x ∈ st.queueTasks, st.Launchable x.type) ∨ (∃ x ∈ st.queueTasksDeferred.head?, st.Launchable x.type) ∨
    st.queueTasksDeferred.length ≤ 1))

theorem live_release {st : State} {i : ℕ} (h : st.HandsOver i) : (st.release i).Live := by
  rw [release_eq]
  have hlength : (st.slots.set i none).length = st.slots.length := length_set
  obtain ⟨j, hj, hne, hbusy⟩ | ⟨x, hx, hlaunch⟩ | ⟨x, hx, hlaunch⟩ | hone := h
  · refine inr (inl ⟨st.slots[j], ?_, ?_⟩)
    · refine mem_iff_getElem.mpr ⟨j, hlength ▸ hj, ?_⟩
      exact getElem_set_ne (Ne.symm hne) _
    · intro hnone
      exact hbusy (by rw [getElem?_eq_getElem hj, hnone])
  · refine inr (inr ⟨x, ?_, (launchable_congr hlength _).mpr hlaunch⟩)
    exact mem_append_right _ (mem_append_right _ hx)
  · refine inr (inr ⟨x, ?_, (launchable_congr hlength _).mpr hlaunch⟩)
    exact mem_append_right _ (mem_append_left _ (Option.mem_toList.mpr hx))
  · refine inl (eq_nil_of_length_eq_zero ?_)
    rw [length_tail]
    omega

/-! ### The loop -/

def KeepsTask (st : State) : TaskType → Prop
  | .completion idSlot _ => st.HasSlot idSlot ∨ st.Busy ∨ ∃ x ∈ st.queueTasks, st.Launchable x.type
  | .cancel idTarget _ => ∀ i ∈ st.slotOf idTarget, st.HandsOver i
  | .slotAction _ | .nextResponse | .other => True

instance (st : State) (type : TaskType) : Decidable (st.KeepsTask type) :=
  match type with
  | .completion idSlot _ =>
    inferInstanceAs (Decidable (st.HasSlot idSlot ∨ st.Busy ∨ ∃ x ∈ st.queueTasks, st.Launchable x.type))
  | .cancel idTarget _ => inferInstanceAs (Decidable (∀ i ∈ st.slotOf idTarget, st.HandsOver i))
  | .slotAction _ | .nextResponse | .other => isTrue trivial

def Keeps (st : State) : Action → Prop
  | .post _ tasks => targets tasks ≠ [] → st.Spares tasks
  | .process _ => ∀ task ∈ st.hands, st.KeepsTask task.type
  | .finish i => st.HandsOver i
  | .pop | .update _ | .endUpdate | .wake => True

instance (st : State) (a : Action) : Decidable (st.Keeps a) :=
  match a with
  | .post _ tasks => inferInstanceAs (Decidable (targets tasks ≠ [] → st.Spares tasks))
  | .process _ => inferInstanceAs (Decidable (∀ task ∈ st.hands, st.KeepsTask task.type))
  | .finish i => inferInstanceAs (Decidable (st.HandsOver i))
  | .pop | .update _ | .endUpdate | .wake => isTrue trivial

theorem busy_of_waits {st : State} {choice : ℕ} {idSlot : ℤ} {launches : Bool} (hpicks : st.Picks choice)
    (hwaits : st.Waits choice (.completion idSlot launches)) (hslot : st.HasSlot idSlot) : st.Busy := by
  obtain ⟨rfl, hpos⟩ | ⟨hnonneg, hlt⟩ := hslot
  · have hnone : none ∉ st.slots := by
      intro hmem
      refine hwaits choice ?_ (hpicks hmem)
      rw [slotFor, if_neg (by simp), if_pos (hpicks hmem)]
      rfl
    obtain ⟨s, hs⟩ := exists_mem_of_length_pos hpos
    exact ⟨s, hs, fun heq => hnone (heq ▸ hs)⟩
  · have hslotFor : st.slotFor idSlot choice = some idSlot.toNat := by
      rw [slotFor, if_pos (by omega), getSlotById, if_pos ⟨hnonneg, hlt⟩]
    have hi : idSlot.toNat < st.slots.length := by omega
    refine ⟨st.slots[idSlot.toNat], getElem_mem hi, ?_⟩
    intro hnone
    exact hwaits idSlot.toNat hslotFor (by rw [getElem?_eq_getElem hi, hnone])

theorem Live.emptyHanded {st : State} (h : st.Live) {task : Task} (hphase : st.phase = .processing task)
    (hnot : ¬ st.Launchable task.type) : st.emptyHanded.Live := by
  obtain hnil | hbusy | ⟨x, hx, hlaunch⟩ := h
  · exact inl hnil
  · exact inr (inl hbusy)
  · rw [hands, hphase, singleton_append, mem_cons] at hx
    obtain rfl | hx := hx
    · exact absurd hlaunch hnot
    · exact inr (inr ⟨x, hx, hlaunch⟩)

theorem Live.process {st st' : State} (h : st.Live) {choice : ℕ} {task : Task} (hphase : st.phase = .processing task)
    (hpicks : st.Picks choice) (hkeeps : st.Keeps (.process choice))
    (hprocessed : st.emptyHanded.Processed choice task st') : st'.Live := by
  have htask : st.KeepsTask task.type := hkeeps task (by rw [hands, hphase]; exact mem_singleton_self _)
  cases hprocessed with
  | @launched idSlot i htype hidle =>
    have hi : i < st.slots.length := (List.getElem?_eq_some_iff.mp hidle).1
    refine inr (inl ⟨some task, ?_, nofun⟩)
    exact mem_set hi _
  | failed htype =>
    refine h.emptyHanded hphase ?_
    rw [htype]
    exact fun hlaunch => Bool.false_ne_true hlaunch.1
  | deferred hwaits =>
    refine inr ?_
    cases htype : task.type with
    | completion idSlot launches =>
      rw [htype] at hwaits htask
      obtain hslot | hbusy | ⟨x, hx, hlaunch⟩ := htask
      · have hbusy : st.Busy := busy_of_waits hpicks (show st.Waits choice (.completion idSlot launches) from hwaits) hslot
        exact inl hbusy
      · exact inl hbusy
      · exact inr ⟨x, hx, hlaunch⟩
    | slotAction slotId =>
      rw [htype] at hwaits
      obtain ⟨i, hslot, hbusy⟩ := hwaits
      have hi : i < st.slots.length := by
        rw [getSlotById] at hslot
        split at hslot
        · next hrange =>
          have : slotId.toNat = i := Option.some.inj hslot
          have hlt : slotId < st.slots.length := hrange.2
          omega
        · cases hslot
      refine inl ⟨st.slots[i], getElem_mem hi, ?_⟩
      intro hnone
      exact hbusy (by rw [← hnone]; exact getElem?_eq_getElem hi)
    | _ =>
      rw [htype] at hwaits
      exact hwaits.elim
  | @cancelled idTarget late htype =>
    rw [htype] at htask
    have hempty : st.emptyHanded.Live := h.emptyHanded hphase (by rw [htype]; exact id)
    have hrelease : (st.emptyHanded.releaseTask idTarget).Live := by
      rw [releaseTask]
      cases hslot : st.emptyHanded.slotOf idTarget with
      | none => exact hempty
      | some i => exact live_release (htask i hslot)
    exact hrelease
  | answered hcompletion hcancel =>
    refine h.emptyHanded hphase ?_
    cases htype : task.type with
    | completion idSlot launches => exact absurd htype (hcompletion _ _)
    | _ => exact id

theorem Live.phase {st : State} (h : st.Live) (hhands : st.hands = []) (phase : Phase) :
    Live { st with phase := phase } := by
  obtain hnil | hbusy | ⟨x, hx, hlaunch⟩ := h
  · exact inl hnil
  · exact inr (inl hbusy)
  · rw [hhands, nil_append] at hx
    exact inr (inr ⟨x, mem_append_right _ hx, hlaunch⟩)

theorem Live.pop {st : State} (h : st.Live) (hphase : st.phase = .popping) {task : Task} {rest : List Task}
    (hqueue : st.queueTasks = task :: rest) : Live { st with queueTasks := rest, phase := .processing task } := by
  obtain hnil | hbusy | ⟨x, hx, hlaunch⟩ := h
  · exact inl hnil
  · exact inr (inl hbusy)
  · rw [hands, hphase, nil_append, hqueue] at hx
    exact inr (inr ⟨x, hx, hlaunch⟩)

theorem live_step {st st' : State} {a : Action} (h : st.Live) (hkeeps : st.Keeps a) (hstep : st.step a = some st') :
    st'.Live := by
  have hempty : (∀ task, st.phase ≠ .processing task) → st.hands = [] := by
    intro hphase
    rw [hands]
    split
    · next task htask => exact absurd htask (hphase task)
    · rfl
  cases stepped hstep with
  | @posted front tasks _ hpost =>
    have hspares : st.Spares tasks := by
      by_cases htargets : targets tasks = []
      · exact h.spares htargets
      · exact hkeeps htargets
    exact (hspares.posts hpost).live
  | popped hphase hqueue => exact h.pop hphase hqueue
  | left hphase hqueue => exact h.phase (hempty (by rw [hphase]; nofun)) _
  | processed hphase hpicks hprocessed => exact h.process hphase hpicks hkeeps hprocessed
  | idle hphase hidle => exact h.phase (hempty (by rw [hphase]; nofun)) _
  | updating hphase hbusy hpost =>
    push Not at hbusy
    obtain ⟨s, hs, hne⟩ := hbusy
    rw [← (post_frame hpost).1] at hs
    exact inr (inl ⟨s, hs, hne⟩)
  | finished hphase hi => exact live_release hkeeps
  | updated hphase => exact h.phase (hempty (by rw [hphase]; nofun)) _
  | woken hphase hqueue => exact h.phase (hempty (by rw [hphase]; nofun)) _

/-! ### Runs -/

/-- **No deferred task is stranded.**  In a run in which every step keeps a slot at work or a launchable task for the
deferred ones, nothing is deferred when the loop is about to wait with an empty queue and every slot idle. -/
theorem deferred_served (nSlots : ℕ) (actions : List Action)
    (hgood : ∀ k a, actions[k]? = some a → ∀ st, run nSlots (actions.take k) = some st → st.Keeps a) {st : State}
    (hst : run nSlots actions = some st) (hphase : st.phase = .waiting) (hqueue : st.queueTasks = [])
    (hidle : ∀ s ∈ st.slots, s = none) : st.queueTasksDeferred = [] := by
  have hlive : st.Live :=
    Steps.run_keeps State.step (fun _ _ _ h hg hs => live_step h hg hs) (live_init nSlots) hgood hst
  obtain hnil | ⟨s, hs, hne⟩ | ⟨x, hx, -⟩ := hlive
  · exact hnil
  · exact absurd (hidle s hs) hne
  · rw [hands, hphase, hqueue] at hx
    exact absurd hx not_mem_nil

/-- A task waits for the only slot and gets it. -/
theorem deferred_served_two :
    let actions : List Action :=
      [.post false [⟨1, .completion (-1) true⟩, ⟨2, .completion 0 true⟩], .pop, .process 0, .pop, .process 0, .pop,
        .update 3, .finish 0, .endUpdate, .wake, .pop, .process 0, .pop, .process 0, .pop, .update 4, .finish 0,
        .endUpdate, .wake, .pop, .process 0, .pop, .update 5]
    ∃ st, run 1 actions = some st ∧ st.queueTasksDeferred = [] := by
  intro actions
  have hgood : ∀ k < actions.length, ∀ a ∈ actions[k]?, ∀ st ∈ run 1 (actions.take k), st.Keeps a := by decide
  have hrun : ∃ st ∈ run 1 actions, st.phase = .waiting ∧ st.queueTasks = [] ∧ ∀ s ∈ st.slots, s = none := by decide
  obtain ⟨st, hst, hphase, hqueue, hidle⟩ := hrun
  refine ⟨st, hst, deferred_served 1 actions ?_ hst hphase hqueue hidle⟩
  intro k a ha st hst
  exact hgood k (List.getElem?_eq_some_iff.mp ha).1 a ha st hst

/-- **A deferred task is stranded.**  Task 2 is handed back and fails to launch; task 3 stays deferred. -/
theorem deferred_stranded :
    ∃ st ∈ run 1
      [.post false [⟨1, .completion (-1) true⟩, ⟨2, .completion (-1) false⟩, ⟨3, .completion (-1) true⟩], .pop,
        .process 0, .pop, .process 0, .pop, .process 0, .pop, .update 4, .finish 0, .endUpdate, .wake, .pop, .process 0,
        .pop, .process 0, .pop, .update 5],
      st.phase = .waiting ∧ st.queueTasks = [] ∧ (∀ s ∈ st.slots, s = none) ∧
        st.queueTasksDeferred = [⟨3, .completion (-1) true⟩] := by
  decide

end State

end Server
