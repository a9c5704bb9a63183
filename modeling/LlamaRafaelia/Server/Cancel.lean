import LlamaRafaelia.Server.Queue

/-!
# Cancelled tasks

A client that goes away posts a CANCEL for its task.  `post` takes the task out of the two queues and processing the
CANCEL releases the slot that runs it.  Between the two the task may be in the hands of the loop: if it is deferred
then, neither of them meets it.

* `State.tracked_step` - **one step keeps it**, if no task is deferred while its CANCEL awaits;
* `State.cancelled_absent` - **runs**: in a run of such steps a cancelled task is gone for good.
-/

namespace Server

open List

namespace State

/-! ### Where a task is -/

def inQueues (st : State) (t : ℤ) : ℕ := (st.queueTasks ++ st.queueTasksDeferred).countP fun x => x.id = t

def inHands (st : State) (t : ℤ) : ℕ := st.hands.countP fun x => x.id = t

def inSlots (st : State) (t : ℤ) : ℕ := st.slots.countP fun s => s.any fun x => x.id = t

def Awaits (st : State) (t : ℤ) : Prop :=
  ∃ x ∈ st.hands ++ (st.queueTasks ++ st.queueTasksDeferred), x.type = .cancel t true

instance (st : State) (t : ℤ) : Decidable (st.Awaits t) :=
  inferInstanceAs (Decidable (∃ x ∈ st.hands ++ (st.queueTasks ++ st.queueTasksDeferred), x.type = .cancel t true))

/-- The invariant for one id. -/
structure Tracked (st : State) (t : ℤ) : Prop where
  once : st.inQueues t + st.inHands t + st.inSlots t ≤ 1
  unknown : t ∉ st.posted → st.inQueues t + st.inHands t + st.inSlots t = 0
  awaits : st.Awaits t → t ∈ st.posted ∧ st.inQueues t = 0
  gone : t ∈ st.cancelled → t ∈ st.posted ∧ st.inQueues t + st.inHands t + st.inSlots t = 0

theorem tracked_init (nSlots : ℕ) (t : ℤ) : (init nSlots).Tracked t := by
  have hslots : (init nSlots).inSlots t = 0 := by
    rw [inSlots, init, countP_replicate]
    rfl
  have hplaces : (init nSlots).inQueues t + (init nSlots).inHands t + (init nSlots).inSlots t = 0 := by
    rw [hslots]
    rfl
  exact { once := by omega, unknown := fun _ => hplaces, awaits := nofun, gone := nofun }

theorem Tracked.mono {st st' : State} {t : ℤ} (h : st.Tracked t)
    (hplaces : st'.inQueues t + st'.inHands t + st'.inSlots t ≤ st.inQueues t + st.inHands t + st.inSlots t)
    (hqueues : st'.inQueues t ≤ st.inQueues t) (hawaits : st'.Awaits t → st.Awaits t)
    (hposted : st'.posted = st.posted) (hcancelled : t ∈ st'.cancelled → t ∈ st.cancelled) : st'.Tracked t where
  once := by have := h.once; omega
  unknown hnot := by have := h.unknown (hposted ▸ hnot); omega
  awaits ha := by
    obtain ⟨hmem, hzero⟩ := h.awaits (hawaits ha)
    exact ⟨hposted ▸ hmem, by omega⟩
  gone hc := by
    obtain ⟨hmem, hzero⟩ := h.gone (hcancelled hc)
    exact ⟨hposted ▸ hmem, by omega⟩

/-! ### The queues -/

theorem inQueues_enqueue (front : Bool) (st : State) (task : Task) (t : ℤ) :
    (st.enqueue front task).inQueues t = st.inQueues t + if task.id = t then 1 else 0 := by
  cases front <;> (simp [inQueues, enqueue, countP_cons]; try omega)

theorem awaits_enqueue {front : Bool} {st : State} {task : Task} {t : ℤ} (h : (st.enqueue front task).Awaits t) :
    st.Awaits t ∨ task.type = .cancel t true := by
  obtain ⟨x, hx, htype⟩ := h
  have hmem : x = task ∨ x ∈ st.hands ++ (st.queueTasks ++ st.queueTasksDeferred) := by
    cases front <;> simp [enqueue, hands] at hx ⊢ <;> tauto
  obtain rfl | hold := hmem
  · exact Or.inr htype
  · exact Or.inl ⟨x, hold, htype⟩

theorem Tracked.enqueue {st : State} {t : ℤ} (h : st.Tracked t) {front : Bool} {task : Task}
    (hnew : task.id ∉ st.posted) (htarget : task.type = .cancel t true → t ∈ st.posted ∧ st.inQueues t = 0) :
    (st.enqueue front task).Tracked t := by
  have hcount := inQueues_enqueue front st task t
  have hhands : (st.enqueue front task).inHands t = st.inHands t := rfl
  have hslots : (st.enqueue front task).inSlots t = st.inSlots t := rfl
  have hother : t ∈ st.posted → task.id ≠ t := fun hmem heq => hnew (heq ▸ hmem)
  constructor
  · by_cases heq : task.id = t
    · have := h.unknown (heq ▸ hnew)
      rw [if_pos heq] at hcount
      omega
    · have := h.once
      rw [if_neg heq] at hcount
      omega
  · intro hnot
    obtain ⟨hne, hnot'⟩ := not_or.mp (mt mem_cons.mpr hnot)
    have := h.unknown hnot'
    rw [if_neg (Ne.symm hne)] at hcount
    omega
  · intro ha
    have hold : t ∈ st.posted ∧ st.inQueues t = 0 := (awaits_enqueue ha).elim h.awaits htarget
    rw [if_neg (hother hold.1)] at hcount
    exact ⟨mem_cons_of_mem _ hold.1, by omega⟩
  · intro hc
    obtain ⟨hmem, hzero⟩ := h.gone hc
    rw [if_neg (hother hmem)] at hcount
    exact ⟨mem_cons_of_mem _ hmem, by omega⟩

theorem inQueues_cleanup_le (st : State) (idTarget t : ℤ) :
    (st.cleanupPendingTask idTarget).inQueues t ≤ st.inQueues t := by
  rw [inQueues, inQueues, cleanupPendingTask, ← filter_append]
  exact List.Sublist.countP_le filter_sublist

theorem inQueues_cleanup_self (st : State) (t : ℤ) : (st.cleanupPendingTask t).inQueues t = 0 := by
  rw [inQueues, cleanupPendingTask, ← filter_append, countP_eq_zero]
  intro x hx
  simpa using (mem_filter.mp hx).2

theorem Tracked.cleanup {st : State} {t : ℤ} (h : st.Tracked t) (idTarget : ℤ) :
    (st.cleanupPendingTask idTarget).Tracked t := by
  have hle := inQueues_cleanup_le st idTarget t
  have hhands : (st.cleanupPendingTask idTarget).inHands t = st.inHands t := rfl
  have hslots : (st.cleanupPendingTask idTarget).inSlots t = st.inSlots t := rfl
  refine h.mono (by omega) hle ?_ rfl id
  intro ⟨x, hx, htype⟩
  refine ⟨x, ?_, htype⟩
  simp only [cleanupPendingTask, hands, mem_append, mem_filter] at hx ⊢
  tauto

theorem Tracked.post {st st' : State} {t : ℤ} (h : st.Tracked t) {front : Bool} {task : Task}
    (hpost : st.post front task = some st') : st'.Tracked t := by
  rw [State.post] at hpost
  split at hpost
  · cases hpost
  · next hnew =>
    split at hpost
    · next idTarget late htype =>
      rw [← Option.some.inj hpost]
      have hid : (stamp st.posted task).id = task.id := by rw [stamp, htype]
      have hstamp : (stamp st.posted task).type = .cancel idTarget (decide (idTarget ∈ st.posted)) := by
        rw [stamp, htype]
      refine (h.cleanup idTarget).enqueue (hid ▸ hnew) ?_
      intro htarget
      rw [hstamp, TaskType.cancel.injEq, decide_eq_true_eq] at htarget
      obtain ⟨rfl, hmem⟩ := htarget
      exact ⟨hmem, inQueues_cleanup_self st _⟩
    · next hother =>
      rw [← Option.some.inj hpost]
      exact h.enqueue hnew fun htype => absurd htype (hother _ _)

/-! ### The slots -/

theorem countP_set {slots : List (Option Task)} {i : ℕ} {s : Option Task} (h : slots[i]? = some s) (s' : Option Task)
    (p : Option Task → Bool) :
    (slots.set i s').countP p + (if p s then 1 else 0) = slots.countP p + if p s' then 1 else 0 := by
  induction slots generalizing i with
  | nil => cases h
  | cons x slots ih =>
    cases i with
    | zero =>
      rw [← Option.some.inj h, set_cons_zero, countP_cons, countP_cons]
      omega
    | succ i =>
      have := ih h
      rw [set_cons_succ, countP_cons, countP_cons]
      omega

theorem inSlots_release {st : State} {i : ℕ} {task : Task} (hi : st.slots[i]? = some (some task)) (t : ℤ) :
    (st.release i).inSlots t + (if task.id = t then 1 else 0) = st.inSlots t := by
  have hset := countP_set hi none fun s => s.any fun x => x.id = t
  rw [release_eq]
  simpa [inSlots] using hset

theorem perm_release (st : State) (i : ℕ) :
    ((st.release i).queueTasks ++ (st.release i).queueTasksDeferred).Perm (st.queueTasks ++ st.queueTasksDeferred) := by
  rw [release_eq]
  cases st.queueTasksDeferred with
  | nil => exact List.Perm.refl _
  | cons task rest => exact perm_middle.symm

theorem inQueues_release (st : State) (i : ℕ) (t : ℤ) : (st.release i).inQueues t = st.inQueues t :=
  (perm_release st i).countP_eq _

theorem hands_release (st : State) (i : ℕ) : (st.release i).hands = st.hands := by
  rw [release_eq]
  rfl

theorem awaits_release {st : State} {i : ℕ} {t : ℤ} (h : (st.release i).Awaits t) : st.Awaits t := by
  obtain ⟨x, hx, htype⟩ := h
  rw [hands_release, mem_append, (perm_release st i).mem_iff, ← mem_append] at hx
  exact ⟨x, hx, htype⟩

/-- **A slot is released**, and a deferred task goes back to the queue. -/
theorem Tracked.release {st : State} {t : ℤ} (h : st.Tracked t) {i : ℕ} {task : Task}
    (hi : st.slots[i]? = some (some task)) : (st.release i).Tracked t := by
  have hslots := inSlots_release hi t
  have hqueues := inQueues_release st i t
  have hhands : (st.release i).inHands t = st.inHands t := by rw [inHands, hands_release, inHands]
  refine h.mono (by omega) (by omega) awaits_release (by rw [release_eq]) ?_
  intro hc
  rwa [release_eq] at hc

theorem inSlots_of_slotOf_none {st : State} {t : ℤ} (h : st.slotOf t = none) : st.inSlots t = 0 := by
  rw [slotOf, findIdx?_eq_none_iff] at h
  rw [inSlots, countP_eq_zero]
  intro s hs
  rw [h s hs]
  exact Bool.false_ne_true

theorem Tracked.releaseTask {st : State} {t : ℤ} (h : st.Tracked t) (idTarget : ℤ) :
    (st.releaseTask idTarget).Tracked t := by
  rw [State.releaseTask]
  cases hslot : st.slotOf idTarget with
  | none => exact h
  | some i =>
    obtain ⟨task, hi, -⟩ := slotOf_eq_some hslot
    exact h.release hi

theorem Tracked.inSlots_releaseTask {st : State} {t : ℤ} (h : st.Tracked t) : (st.releaseTask t).inSlots t = 0 := by
  rw [State.releaseTask]
  cases hslot : st.slotOf t with
  | none => exact inSlots_of_slotOf_none hslot
  | some i =>
    obtain ⟨task, hi, hid⟩ := slotOf_eq_some hslot
    have hcount := inSlots_release hi t
    have honce := h.once
    rw [if_pos hid] at hcount
    show (st.release i).inSlots t = 0
    omega

theorem releaseTask_frame (st : State) (idTarget t : ℤ) :
    (st.releaseTask idTarget).inQueues t = st.inQueues t ∧ (st.releaseTask idTarget).hands = st.hands ∧
      (st.releaseTask idTarget).posted = st.posted ∧ (st.releaseTask idTarget).cancelled = st.cancelled := by
  rw [State.releaseTask]
  cases st.slotOf idTarget with
  | none => exact ⟨rfl, rfl, rfl, rfl⟩
  | some i =>
    have hposted : (st.release i).posted = st.posted := by rw [release_eq]
    have hcancelled : (st.release i).cancelled = st.cancelled := by rw [release_eq]
    exact ⟨inQueues_release st i t, hands_release st i, hposted, hcancelled⟩

/-! ### The loop -/

theorem inHands_processing {st : State} {task : Task} (hphase : st.phase = .processing task) (t : ℤ) :
    st.inHands t = if task.id = t then 1 else 0 := by
  rw [inHands, hands, hphase]
  simp [countP_cons]

theorem awaits_emptyHanded {st : State} {t : ℤ} (h : st.emptyHanded.Awaits t) : st.Awaits t := by
  obtain ⟨x, hx, htype⟩ := h
  exact ⟨x, mem_append_right _ hx, htype⟩

theorem Tracked.emptyHanded {st : State} {t : ℤ} (h : st.Tracked t) : st.emptyHanded.Tracked t :=
  h.mono (Nat.add_le_add_right (Nat.add_le_add_left (Nat.zero_le _) _) _) (Nat.le_refl _) awaits_emptyHanded rfl id

theorem Tracked.launched {st : State} {t : ℤ} (h : st.Tracked t) {task : Task} (hphase : st.phase = .processing task)
    {i : ℕ} (hidle : st.slots[i]? = some none) :
    Tracked { st.emptyHanded with slots := st.slots.set i (some task) } t := by
  have hset := countP_set hidle (some task) fun s => s.any fun x => x.id = t
  have hhands := inHands_processing hphase t
  have hawaits : Awaits { st.emptyHanded with slots := st.slots.set i (some task) } t → st.Awaits t :=
    fun ⟨x, hx, htype⟩ => ⟨x, mem_append_right _ hx, htype⟩
  refine h.mono ?_ (Nat.le_refl _) hawaits rfl id
  simp only [inQueues, inSlots, State.emptyHanded, inHands, hands, Option.any_none, Option.any_some, decide_eq_true_eq,
    countP_nil] at hset hhands ⊢
  simp only [Bool.false_eq_true, if_false] at hset
  omega

theorem Tracked.deferred {st : State} {t : ℤ} (h : st.Tracked t) {task : Task} (hphase : st.phase = .processing task)
    (htimely : ¬ st.Awaits task.id) : (st.emptyHanded.defer task).Tracked t := by
  have hhands := inHands_processing hphase t
  have hqueues : (st.emptyHanded.defer task).inQueues t = st.inQueues t + if task.id = t then 1 else 0 := by
    simp only [inQueues, State.emptyHanded, defer, countP_append, countP_cons, countP_nil,
      decide_eq_true_eq]
    omega
  have hempty : (st.emptyHanded.defer task).inHands t = 0 := rfl
  have hslots : (st.emptyHanded.defer task).inSlots t = st.inSlots t := rfl
  constructor
  · have := h.once
    omega
  · intro hnot
    have := h.unknown hnot
    omega
  · intro ha
    have hold : st.Awaits t := by
      obtain ⟨x, hx, htype⟩ := ha
      refine ⟨x, ?_, htype⟩
      simp only [hands, State.emptyHanded, defer, hphase, nil_append, mem_append, mem_singleton] at hx ⊢
      tauto
    have hne : task.id ≠ t := fun heq => htimely (heq ▸ hold)
    obtain ⟨hmem, hzero⟩ := h.awaits hold
    rw [if_neg hne] at hqueues
    exact ⟨hmem, by omega⟩
  · intro hc
    obtain ⟨hmem, hzero⟩ := h.gone hc
    exact ⟨hmem, by omega⟩

theorem Tracked.cancelled {st : State} {t : ℤ} (h : st.Tracked t) {task : Task} (hphase : st.phase = .processing task)
    {idTarget : ℤ} {late : Bool} (htype : task.type = .cancel idTarget late) :
    Tracked { st.emptyHanded.releaseTask idTarget with
      cancelled := if late then idTarget :: st.cancelled else st.cancelled } t := by
  have hrelease := h.emptyHanded.releaseTask idTarget
  obtain ⟨hqueues, hhands, hposted, hcancelled⟩ := releaseTask_frame st.emptyHanded idTarget t
  by_cases hnow : late = true ∧ t = idTarget
  · obtain ⟨rfl, rfl⟩ := hnow
    have hawaits : st.Awaits t := ⟨task, by simp [hands, hphase], htype⟩
    obtain ⟨hmem, hzero⟩ := h.awaits hawaits
    have hslots := h.emptyHanded.inSlots_releaseTask
    refine { once := hrelease.once, unknown := hrelease.unknown, awaits := hrelease.awaits, gone := fun _ => ?_ }
    refine ⟨hposted ▸ hmem, ?_⟩
    have hempty : (st.emptyHanded.releaseTask t).inHands t = 0 := by
      rw [inHands, hhands]
      rfl
    have hqueues' : (st.emptyHanded.releaseTask t).inQueues t = 0 := hqueues.trans hzero
    show (st.emptyHanded.releaseTask t).inQueues t + (st.emptyHanded.releaseTask t).inHands t
      + (st.emptyHanded.releaseTask t).inSlots t = 0
    omega
  · refine hrelease.mono (Nat.le_refl _) (Nat.le_refl _) id rfl ?_
    intro hc
    rw [hcancelled]
    show t ∈ st.cancelled
    cases late with
    | false => exact hc
    | true =>
      obtain rfl | hold := mem_cons.mp hc
      · exact absurd ⟨rfl, rfl⟩ hnow
      · exact hold

/-- The condition on a step: no task is deferred while a CANCEL for it awaits. -/
def Timely (st : State) : Action → Prop
  | .process choice => ∀ task ∈ st.hands, st.Waits choice task.type → ¬ st.Awaits task.id
  | _ => True

instance (st : State) (a : Action) : Decidable (st.Timely a) :=
  match a with
  | .process choice => inferInstanceAs (Decidable (∀ task ∈ st.hands, st.Waits choice task.type → ¬ st.Awaits task.id))
  | .post _ _ | .pop | .update _ | .finish _ | .endUpdate | .wake => isTrue trivial

theorem Tracked.process {st st' : State} {t : ℤ} (h : st.Tracked t) {choice : ℕ} {task : Task}
    (hphase : st.phase = .processing task) (htimely : st.Timely (.process choice))
    (hprocessed : st.emptyHanded.Processed choice task st') : st'.Tracked t := by
  cases hprocessed with
  | launched htype hidle => exact h.launched hphase hidle
  | failed htype => exact h.emptyHanded
  | deferred hwaits => exact h.deferred hphase (htimely task (by simp [hands, hphase]) hwaits)
  | cancelled htype => exact h.cancelled hphase htype
  | answered hcompletion hcancel => exact h.emptyHanded

theorem Tracked.phase {st : State} {t : ℤ} (h : st.Tracked t) {phase : Phase}
    (hphase : ∀ task, phase ≠ .processing task) : Tracked { st with phase := phase } t := by
  have hhands : State.hands { st with phase := phase } = [] := by
    rw [State.hands]
    cases phase with
    | processing task => exact absurd rfl (hphase task)
    | _ => rfl
  refine h.mono ?_ (Nat.le_refl _) ?_ rfl id
  · rw [inHands, hhands]
    exact Nat.add_le_add_right (Nat.add_le_add_left (Nat.zero_le _) _) _
  · intro ⟨x, hx, htype⟩
    rw [hhands] at hx
    exact ⟨x, mem_append_right _ hx, htype⟩

theorem Tracked.pop {st : State} {t : ℤ} (h : st.Tracked t) (hphase : st.phase = .popping) {task : Task}
    {rest : List Task} (hqueue : st.queueTasks = task :: rest) :
    Tracked { st with queueTasks := rest, phase := .processing task } t := by
  have hhands : st.hands = [] := by rw [hands, hphase]
  refine h.mono ?_ ?_ ?_ rfl id
  · simp only [inQueues, inHands, inSlots, hqueue, hands, countP_append, countP_cons, countP_nil]
    omega
  · simp only [inQueues, hqueue, countP_append, countP_cons]
    omega
  · intro ⟨x, hx, htype⟩
    refine ⟨x, ?_, htype⟩
    rw [hhands, hqueue]
    simpa [hands] using hx

theorem tracked_step {st st' : State} {a : Action} (h : ∀ t, st.Tracked t) (htimely : st.Timely a)
    (hstep : st.step a = some st') (t : ℤ) : st'.Tracked t := by
  cases stepped hstep with
  | posted hpost =>
    exact Steps.run_keeps (State.post _) (fun _ _ _ htracked _ => Tracked.post htracked) (h t)
      (fun _ _ _ _ _ => trivial) hpost
  | popped hphase hqueue => exact (h t).pop hphase hqueue
  | left hphase hqueue => exact (h t).phase nofun
  | processed hphase hpicks hprocessed => exact (h t).process hphase htimely hprocessed
  | idle hphase hidle => exact (h t).phase nofun
  | updating hphase hbusy hpost => exact ((h t).post hpost).phase nofun
  | finished hphase hi => exact (h t).release hi
  | updated hphase => exact (h t).phase nofun
  | woken hphase hqueue => exact (h t).phase nofun

/-! ### Runs -/

theorem cancelled_step {st st' : State} {a : Action} (hstep : st.step a = some st') {t : ℤ} (ht : t ∈ st.cancelled) :
    t ∈ st'.cancelled := by
  cases stepped hstep with
  | posted hpost =>
    exact Steps.run_keeps (State.post _) (P := fun s => t ∈ s.cancelled)
      (fun _ _ _ hmem _ h => (post_frame h).2 ▸ hmem) ht (fun _ _ _ _ _ => trivial) hpost
  | processed hphase hpicks hprocessed =>
    cases hprocessed with
    | @cancelled idTarget late htype =>
      show t ∈ if late then idTarget :: st.cancelled else st.cancelled
      split
      · exact mem_cons_of_mem _ ht
      · exact ht
    | _ => exact ht
  | updating hphase hbusy hpost =>
    rw [← (post_frame hpost).2] at ht
    exact ht
  | finished hphase hi => exact (release_eq st _).symm ▸ ht
  | _ => exact ht

/-- No slot runs a task with the id, and none stands in a queue or is in the hands of the loop. -/
structure Absent (st : State) (t : ℤ) : Prop where
  slots : ∀ task, some task ∈ st.slots → task.id ≠ t
  queueTasks : ∀ task ∈ st.queueTasks, task.id ≠ t
  queueTasksDeferred : ∀ task ∈ st.queueTasksDeferred, task.id ≠ t
  hands : ∀ task ∈ st.hands, task.id ≠ t

theorem Tracked.absent {st : State} {t : ℤ} (h : st.Tracked t) (ht : t ∈ st.cancelled) : st.Absent t := by
  obtain ⟨-, hzero⟩ := h.gone ht
  have hqueues : st.inQueues t = 0 := by omega
  have hhands : st.inHands t = 0 := by omega
  have hslots : st.inSlots t = 0 := by omega
  rw [inQueues, countP_eq_zero] at hqueues
  rw [inHands, countP_eq_zero] at hhands
  rw [inSlots, countP_eq_zero] at hslots
  constructor
  · intro task htask
    simpa using hslots _ htask
  · intro task htask
    simpa using hqueues task (mem_append_left _ htask)
  · intro task htask
    simpa using hqueues task (mem_append_right _ htask)
  · intro task htask
    simpa using hhands task htask

/-- **Cancelled tasks are gone.**  In a run in which no task is deferred while its CANCEL awaits, a task whose CANCEL was
posted after it and has been processed stands nowhere, then and in every later state. -/
theorem cancelled_absent (nSlots : ℕ) (actions : List Action)
    (hgood : ∀ k a, actions[k]? = some a → ∀ st, run nSlots (actions.take k) = some st → st.Timely a) {j k : ℕ}
    (hjk : j ≤ k) {st st' : State} (hst : run nSlots (actions.take j) = some st)
    (hst' : run nSlots (actions.take k) = some st') {t : ℤ} (ht : t ∈ st.cancelled) : st'.Absent t := by
  have htracked : ∀ s, run nSlots (actions.take 0) = some s → ∀ t, s.Tracked t := by
    intro s hs
    rw [← Option.some.inj hs]
    exact tracked_init nSlots
  have hkept : st'.Tracked t :=
    Steps.run_keeps_from State.step (fun _ _ _ h hg hs => tracked_step h hg hs) hgood htracked (Nat.zero_le k) st' hst' t
  have hlater : t ∈ st'.cancelled := by
    refine Steps.run_keeps_from State.step (P := fun s => t ∈ s.cancelled) (fun _ _ _ h _ hs => cancelled_step hs h)
      (fun _ _ _ _ _ => trivial) ?_ hjk st' hst'
    intro s hs
    rw [Option.some.inj (hs.symm.trans hst)]
    exact ht
  exact hkept.absent hlater

/-- A task that a slot runs is cancelled in time. -/
theorem cancelled_absent_running :
    let actions : List Action :=
      [.post false [⟨1, .completion (-1) true⟩], .pop, .process 0, .post true [⟨2, .cancel 1 false⟩], .pop, .process 0]
    ∃ st, run 1 actions = some st ∧ 1 ∈ st.cancelled ∧ st.Absent 1 := by
  intro actions
  have hgood : ∀ k < actions.length, ∀ a ∈ actions[k]?, ∀ st ∈ run 1 (actions.take k), st.Timely a := by decide
  have hrun : ∃ st ∈ run 1 (actions.take 6), 1 ∈ st.cancelled := by decide
  obtain ⟨st, hst, ht⟩ := hrun
  refine ⟨st, hst, ht, cancelled_absent 1 actions ?_ (Nat.le_refl _) hst hst ht⟩
  intro k a ha st hst
  exact hgood k (List.getElem?_eq_some_iff.mp ha).1 a ha st hst

/-- **A cancelled task is launched.**  Task 2 is in the hands of the loop when its CANCEL is posted; then it is deferred,
the CANCEL finds it in no slot, and the release of the slot brings it back. -/
theorem cancelled_task_runs :
    ∃ st ∈ run 1
      [.post false [⟨1, .completion (-1) true⟩], .pop, .process 0, .post false [⟨2, .completion (-1) true⟩], .pop,
        .post true [⟨3, .cancel 2 false⟩], .process 0, .pop, .process 0, .pop, .update 4, .finish 0, .endUpdate, .wake,
        .pop, .process 0],
      2 ∈ st.cancelled ∧ some ⟨2, .completion (-1) true⟩ ∈ st.slots := by
  decide

end State

end Server
