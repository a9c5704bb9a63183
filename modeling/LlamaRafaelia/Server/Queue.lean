import LlamaRafaelia.Lib.Steps
import Mathlib.Data.Int.Notation

/-!
# The task queue of the server

Client threads post tasks; one loop thread pops and processes them.  Every access to the two queues is one critical
section.  `State.run` is the state after a list of actions, `State.stepped` says what each step does.

* `Action.wake` - the wait of the outer loop ends.
-/

namespace Server

/-- What `process_single_task` distinguishes.  A completion (also infill, embedding and rerank) asks for a slot, with
`-1` for any, and `launches` says whether `launch_slot_with_task` succeeds for it; a slot action saves, restores or
erases a slot; the remaining types are answered at once.  The field `late` of a CANCEL is not data of the program: it
says whether the target had been posted before. -/
inductive TaskType where
  | completion (idSlot : ℤ) (launches : Bool)
  | slotAction (slotId : ℤ)
  | cancel (idTarget : ℤ) (late : Bool)
  | nextResponse
  | other
deriving DecidableEq, Repr

/-- `server_task`. -/
structure Task where
  id : ℤ
  type : TaskType
deriving DecidableEq, Repr

/-- Where the loop thread is: before it looks for a task, with a task in its hands, between the inner loop and
`update_slots`, inside `update_slots`, or before the wait. -/
inductive Phase where
  | popping
  | processing (task : Task)
  | leaving
  | updating
  | waiting
deriving DecidableEq, Repr

/-- The two queues, the tasks of the slots and the place of the loop thread.  `posted` and `cancelled` are not data of
the program: the ids posted so far, and the targets whose CANCEL, posted after them, was processed. -/
structure State where
  queueTasks : List Task
  queueTasksDeferred : List Task
  slots : List (Option Task)
  phase : Phase
  posted : List ℤ
  cancelled : List ℤ
deriving DecidableEq, Repr

namespace State

def init (nSlots : ℕ) : State where
  queueTasks := []
  queueTasksDeferred := []
  slots := List.replicate nSlots none
  phase := .popping
  posted := []
  cancelled := []

/-! ### `server_queue` -/

/-- `cleanup_pending_task`. -/
def cleanupPendingTask (st : State) (idTarget : ℤ) : State :=
  { st with
    queueTasks := st.queueTasks.filter fun x => x.id ≠ idTarget
    queueTasksDeferred := st.queueTasksDeferred.filter fun x => x.id ≠ idTarget }

/-- The task as it is kept, with the note whether a CANCEL comes after its target. -/
def stamp (posted : List ℤ) (task : Task) : Task :=
  match task.type with
  | .cancel idTarget _ => { task with type := .cancel idTarget (decide (idTarget ∈ posted)) }
  | _ => task

def enqueue (front : Bool) (st : State) (task : Task) : State :=
  { st with
    queueTasks := if front then task :: st.queueTasks else st.queueTasks ++ [task]
    posted := task.id :: st.posted }

/-- `post` of one task.  Ids come from `get_new_id`, so none is posted twice. -/
def post (front : Bool) (st : State) (task : Task) : Option State :=
  if task.id ∈ st.posted then none
  else
    match task.type with
    | .cancel idTarget _ => some ((st.cleanupPendingTask idTarget).enqueue front (stamp st.posted task))
    | _ => some (st.enqueue front task)

/-- `defer`. -/
def defer (st : State) (task : Task) : State := { st with queueTasksDeferred := st.queueTasksDeferred ++ [task] }

/-- `pop_deferred_task`. -/
def popDeferredTask (st : State) : State :=
  match st.queueTasksDeferred with
  | [] => st
  | task :: rest => { st with queueTasks := task :: st.queueTasks, queueTasksDeferred := rest }

/-! ### `server_context` -/

/-- `server_slot::release` of a slot that is processing. -/
def release (st : State) (i : ℕ) : State := popDeferredTask { st with slots := st.slots.set i none }

/-- `get_slot_by_id`: the slots are numbered from zero. -/
def getSlotById (st : State) (id : ℤ) : Option ℕ :=
  if 0 ≤ id ∧ id < st.slots.length then some id.toNat else none

/-- The slot for a completion: the one that it asks for, or the one that `get_available_slot` picks. -/
def slotFor (st : State) (idSlot : ℤ) (choice : ℕ) : Option ℕ :=
  if idSlot ≠ -1 then st.getSlotById idSlot else if st.slots[choice]? = some none then some choice else none

/-- A completion with its slot: deferred when there is none or it is processing. -/
def launch (st : State) (task : Task) (launches : Bool) : Option ℕ → State
  | none => st.defer task
  | some i =>
    if st.slots[i]? = some none then
      if launches then { st with slots := st.slots.set i (some task) } else st
    else st.defer task

def act (st : State) (task : Task) : Option ℕ → State
  | none => st
  | some i => if st.slots[i]? = some none then st else st.defer task

def slotOf (st : State) (id : ℤ) : Option ℕ := st.slots.findIdx? fun s => s.any fun x => x.id = id

def releaseTask (st : State) (idTarget : ℤ) : State :=
  match st.slotOf idTarget with
  | none => st
  | some i => st.release i

/-- `process_single_task`. -/
def processSingleTask (st : State) (choice : ℕ) (task : Task) : State :=
  match task.type with
  | .completion idSlot launches => st.launch task launches (st.slotFor idSlot choice)
  | .slotAction slotId => st.act task (st.getSlotById slotId)
  | .cancel idTarget late =>
    { st.releaseTask idTarget with cancelled := if late then idTarget :: st.cancelled else st.cancelled }
  | .nextResponse => st
  | .other => st

/-- `get_available_slot` finds an idle slot if there is one. -/
def Picks (st : State) (choice : ℕ) : Prop := none ∈ st.slots → st.slots[choice]? = some none

instance (st : State) (choice : ℕ) : Decidable (st.Picks choice) :=
  inferInstanceAs (Decidable (none ∈ st.slots → st.slots[choice]? = some none))

end State

/-- A step of a client or of the loop thread. -/
inductive Action where
  | post (front : Bool) (tasks : List Task)
  | pop
  | process (choice : ℕ)
  | update (id : ℤ)
  | finish (i : ℕ)
  | endUpdate
  | wake
deriving DecidableEq, Repr

namespace State

/-- `update_slots` begins: with a slot at work it posts NEXT_RESPONSE, and otherwise it returns at once. -/
def beginUpdate (st : State) (id : ℤ) : Option State :=
  if ∀ s ∈ st.slots, s = none then some { st with phase := .waiting }
  else (st.post false { id := id, type := .nextResponse }).map fun st => { st with phase := .updating }

def emptyHanded (st : State) : State := { st with phase := .popping }

/-- One step; `none` where it cannot be taken. -/
def step (st : State) : Action → Option State
  | .post front tasks => Steps.run (State.post front) st tasks
  | .pop =>
    if st.phase = .popping then
      match st.queueTasks with
      | [] => some { st with phase := .leaving }
      | task :: rest => some { st with queueTasks := rest, phase := .processing task }
    else none
  | .process choice =>
    match st.phase with
    | .processing task =>
      if st.Picks choice then some (st.emptyHanded.processSingleTask choice task) else none
    | _ => none
  | .update id => if st.phase = .leaving then st.beginUpdate id else none
  | .finish i =>
    match st.slots[i]? with
    | some (some _) => if st.phase = .updating then some (st.release i) else none
    | _ => none
  | .endUpdate => if st.phase = .updating then some { st with phase := .waiting } else none
  | .wake => if st.phase = .waiting ∧ st.queueTasks ≠ [] then some { st with phase := .popping } else none

/-- The state after some actions of a server with `nSlots` slots. -/
def run (nSlots : ℕ) (actions : List Action) : Option State := Steps.run State.step (init nSlots) actions

/-! ### What the loop does with a task -/

def hands (st : State) : List Task :=
  match st.phase with
  | .processing task => [task]
  | _ => []

/-- A task that has to wait: a completion without an idle slot, or an action on a slot at work. -/
def Waits (st : State) (choice : ℕ) : TaskType → Prop
  | .completion idSlot _ => ∀ i ∈ st.slotFor idSlot choice, st.slots[i]? ≠ some none
  | .slotAction slotId => ∃ i ∈ st.getSlotById slotId, st.slots[i]? ≠ some none
  | .cancel _ _ | .nextResponse | .other => False

instance (st : State) (choice : ℕ) (type : TaskType) : Decidable (st.Waits choice type) :=
  match type with
  | .completion idSlot _ => inferInstanceAs (Decidable (∀ i ∈ st.slotFor idSlot choice, st.slots[i]? ≠ some none))
  | .slotAction slotId => inferInstanceAs (Decidable (∃ i ∈ st.getSlotById slotId, st.slots[i]? ≠ some none))
  | .cancel _ _ | .nextResponse | .other => isFalse id

/-- The outcomes of `process_single_task`. -/
inductive Processed (st : State) (choice : ℕ) (task : Task) : State → Prop where
  | launched {idSlot : ℤ} {i : ℕ} (htype : task.type = .completion idSlot true)
      (hidle : st.slots[i]? = some none) : Processed st choice task { st with slots := st.slots.set i (some task) }
  | failed {idSlot : ℤ} (htype : task.type = .completion idSlot false) : Processed st choice task st
  | deferred (hwaits : st.Waits choice task.type) : Processed st choice task (st.defer task)
  | cancelled {idTarget : ℤ} {late : Bool} (htype : task.type = .cancel idTarget late) :
      Processed st choice task
        { st.releaseTask idTarget with cancelled := if late then idTarget :: st.cancelled else st.cancelled }
  | answered (hcompletion : ∀ idSlot launches, task.type ≠ .completion idSlot launches)
      (hcancel : ∀ idTarget late, task.type ≠ .cancel idTarget late) : Processed st choice task st

theorem processed_launch {st : State} {choice : ℕ} {task : Task} {idSlot : ℤ} {launches : Bool}
    (htype : task.type = .completion idSlot launches) :
    Processed st choice task (st.launch task launches (st.slotFor idSlot choice)) := by
  by_cases hwaits : st.Waits choice task.type
  · have hdefer : st.launch task launches (st.slotFor idSlot choice) = st.defer task := by
      rw [htype, Waits] at hwaits
      cases hslot : st.slotFor idSlot choice with
      | none => rfl
      | some i => exact if_neg (hwaits i hslot)
    rw [hdefer]
    exact .deferred hwaits
  · rw [htype, Waits] at hwaits
    push Not at hwaits
    obtain ⟨i, hslot, hidle⟩ := hwaits
    rw [hslot, launch, if_pos hidle]
    cases launches with
    | true => exact .launched htype hidle
    | false => exact .failed htype

theorem processed_act {st : State} {choice : ℕ} {task : Task} {slotId : ℤ} (htype : task.type = .slotAction slotId) :
    Processed st choice task (st.act task (st.getSlotById slotId)) := by
  have hanswered : Processed st choice task st := .answered (by rw [htype]; nofun) (by rw [htype]; nofun)
  cases hslot : st.getSlotById slotId with
  | none => exact hanswered
  | some i =>
    rw [act]
    split
    · exact hanswered
    · next hbusy =>
      refine .deferred ?_
      rw [htype, Waits]
      exact ⟨i, hslot, hbusy⟩

theorem processed (st : State) (choice : ℕ) (task : Task) :
    Processed st choice task (st.processSingleTask choice task) := by
  rw [processSingleTask]
  cases htype : task.type with
  | completion idSlot launches => exact processed_launch htype
  | slotAction slotId => exact processed_act htype
  | cancel idTarget late => exact .cancelled htype
  | nextResponse => exact .answered (by rw [htype]; nofun) (by rw [htype]; nofun)
  | other => exact .answered (by rw [htype]; nofun) (by rw [htype]; nofun)

theorem slotOf_eq_some {st : State} {id : ℤ} {i : ℕ} (h : st.slotOf id = some i) :
    ∃ task : Task, st.slots[i]? = some (some task) ∧ task.id = id := by
  rw [slotOf, List.findIdx?_eq_some_iff_getElem] at h
  obtain ⟨hi, hany, -⟩ := h
  cases hs : st.slots[i] with
  | none =>
    rw [hs] at hany
    cases hany
  | some task =>
    rw [hs, Option.any_some, decide_eq_true_eq] at hany
    exact ⟨task, by rw [List.getElem?_eq_getElem hi, hs], hany⟩

/-- The steps that can be taken. -/
inductive Stepped (st : State) : Action → State → Prop where
  | posted {front : Bool} {tasks : List Task} {st' : State} (hpost : Steps.run (State.post front) st tasks = some st') :
      Stepped st (.post front tasks) st'
  | popped {task : Task} {rest : List Task} (hphase : st.phase = .popping) (hqueue : st.queueTasks = task :: rest) :
      Stepped st .pop { st with queueTasks := rest, phase := .processing task }
  | left (hphase : st.phase = .popping) (hqueue : st.queueTasks = []) : Stepped st .pop { st with phase := .leaving }
  | processed {choice : ℕ} {task : Task} {st' : State} (hphase : st.phase = .processing task) (hpicks : st.Picks choice)
      (hprocessed : st.emptyHanded.Processed choice task st') : Stepped st (.process choice) st'
  | idle {id : ℤ} (hphase : st.phase = .leaving) (hidle : ∀ s ∈ st.slots, s = none) :
      Stepped st (.update id) { st with phase := .waiting }
  | updating {id : ℤ} {st' : State} (hphase : st.phase = .leaving) (hbusy : ¬ ∀ s ∈ st.slots, s = none)
      (hpost : st.post false { id := id, type := .nextResponse } = some st') :
      Stepped st (.update id) { st' with phase := .updating }
  | finished {i : ℕ} {task : Task} (hphase : st.phase = .updating) (hi : st.slots[i]? = some (some task)) :
      Stepped st (.finish i) (st.release i)
  | updated (hphase : st.phase = .updating) : Stepped st .endUpdate { st with phase := .waiting }
  | woken (hphase : st.phase = .waiting) (hqueue : st.queueTasks ≠ []) : Stepped st .wake { st with phase := .popping }

theorem stepped {st st' : State} {a : Action} (h : st.step a = some st') : Stepped st a st' := by
  cases a with
  | post front tasks => exact .posted h
  | pop =>
    rw [step] at h
    split at h
    · next hphase =>
      split at h
      · next hqueue => exact Option.some.inj h ▸ .left hphase hqueue
      · next task rest hqueue => exact Option.some.inj h ▸ .popped hphase hqueue
    · cases h
  | process choice =>
    rw [step] at h
    split at h
    · next task hphase =>
      split at h
      · next hpicks => exact Option.some.inj h ▸ .processed hphase hpicks (processed _ choice task)
      · cases h
    · cases h
  | update id =>
    rw [step] at h
    split at h
    · next hphase =>
      rw [beginUpdate] at h
      split at h
      · next hidle => exact Option.some.inj h ▸ .idle hphase hidle
      · next hbusy =>
        obtain ⟨posted, hpost, rfl⟩ := Option.map_eq_some_iff.mp h
        exact .updating hphase hbusy hpost
    · cases h
  | finish i =>
    rw [step] at h
    split at h
    · next task hi =>
      split at h
      · next hphase => exact Option.some.inj h ▸ .finished hphase hi
      · cases h
    · cases h
  | endUpdate =>
    rw [step] at h
    split at h
    · next hphase => exact Option.some.inj h ▸ .updated hphase
    · cases h
  | wake =>
    rw [step] at h
    split at h
    · next hwake => exact Option.some.inj h ▸ .woken hwake.1 hwake.2
    · cases h

theorem release_eq (st : State) (i : ℕ) :
    st.release i = { st with
      slots := st.slots.set i none
      queueTasks := st.queueTasksDeferred.head?.toList ++ st.queueTasks
      queueTasksDeferred := st.queueTasksDeferred.tail } := by
  rw [release, popDeferredTask]
  cases st with
  | mk queueTasks queueTasksDeferred slots phase posted cancelled => cases queueTasksDeferred <;> rfl

theorem post_frame {front : Bool} {st st' : State} {task : Task} (h : st.post front task = some st') :
    st'.slots = st.slots ∧ st'.cancelled = st.cancelled := by
  rw [post] at h
  split at h
  · cases h
  · split at h <;> rw [← Option.some.inj h] <;> exact ⟨rfl, rfl⟩

end State

end Server
