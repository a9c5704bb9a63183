import LlamaRafaelia.Lib.Walk
import LlamaRafaelia.Rpc.Handlers
import Mathlib.Data.List.Dedup

/-!
# RPC: rebuilding a graph

`graph_compute` rebuilds a graph: `create_node` follows the references of a record, and remembers the tensor of each
id so that a shared record becomes one tensor and a cycle ends.  The recursion runs on fuel.

* `createNode_terminates` - **one more unit of fuel than there are records is enough**, also for cycles;
* `createNode_walk` - **`create_node` makes this walk**;
* `createNode_linked` - **what `create_node` returns is linked**.
-/

namespace Rpc

open List Gguf

/-! ### The recursion -/

/-- Why the recursion stops without a result. -/
inductive Stop where
  | fault (f : Fault)
  | outOfFuel
deriving DecidableEq

abbrev Created : Type := List (UInt64 × Tensor)

/-- `tensor_map.find`. -/
def Created.find (s : Created) (id : UInt64) : Option ℕ := s.findIdx? fun c => decide (c.1 = id)

/-- A reference of a tensor. -/
inductive Link where
  | src (i : Fin ggmlMaxSrc)
  | view
deriving DecidableEq

/-- The references of a tensor in the order in which they are followed. -/
def links : List Link := (List.finRange ggmlMaxSrc).map Link.src ++ [.view]

def RpcTensor.link (t : RpcTensor) : Link → UInt64
  | .src i => t.src i
  | .view => t.viewSrc

def Tensor.link (t : Tensor) : Link → Option ℕ
  | .src i => t.src i
  | .view => t.viewSrc

def Tensor.setLink (t : Tensor) (q : ℕ) : Link → Tensor
  | .src i => { t with src := Function.update t.src i (some q) }
  | .view => { t with viewSrc := some q }

def Created.update (s : Created) (p : ℕ) (f : Tensor → Tensor) : Created := s.modify p fun c => (c.1, f c.2)

/-- The loop over the references of the tensor at `p`; `false` when one of them could not be created. -/
def linkAll (t : RpcTensor) (create : UInt64 → Created → Except Stop (Option ℕ × Created)) (p : ℕ) :
    List Link → Created → Except Stop (Bool × Created)
  | [], s => .ok (true, s)
  | link :: rest, s =>
    if t.link link = 0 then linkAll t create p rest s
    else do
      let (q, s) ← create (t.link link) s
      match q with
      | none => .ok (false, s)
      | some q => linkAll t create p rest (s.update p fun tensor => tensor.setLink q link)

section

variable (server : Server) (ptrs : UInt64 → Option RpcTensor) (capacity : ℕ)

/-- `deserialize_tensor` in a pool that has room for `capacity` tensors and holds `count` of them. -/
def deserializeInto (count : ℕ) (t : RpcTensor) : Except Fault (Option Tensor) := do
  let tensor ← deserializeTensor server t
  match tensor with
  | none => return none
  | some tensor =>
    ggmlAssert (decide (count < capacity))
    return some tensor

/-- `rpc_server::create_node`: the place of the tensor, or `none` for a null pointer. -/
def createNode : ℕ → UInt64 → Created → Except Stop (Option ℕ × Created)
  | 0, _, _ => .error .outOfFuel
  | fuel + 1, id, s =>
    match s.find id with
    | some p => .ok (some p, s)
    | none =>
      match ptrs id with
      | none => .ok (none, s)
      | some t =>
        match deserializeInto server capacity s.length t with
        | .error f => .error (.fault f)
        | .ok none => .ok (none, s)
        | .ok (some tensor) => do
          let p := s.length
          let (done, s) ← linkAll t (createNode fuel) p links (s ++ [(id, tensor)])
          if done then return (some p, s.update p fun tensor => { tensor with viewOffs := t.viewOffs })
          else return (none, s)

/-- The loop over the nodes: a node that could not be created is an error unless its id is 0. -/
def createNodes (fuel : ℕ) : List UInt64 → Created → Except Stop (Option (List (Option ℕ)) × Created)
  | [], s => .ok (some [], s)
  | id :: rest, s => do
    let (p, s) ← createNode server ptrs capacity fuel id s
    if p = none ∧ id ≠ 0 then return (none, s)
    else do
      let (l, s) ← createNodes fuel rest s
      return (l.map fun l => p :: l, s)

end

/-! ### The message -/

/-- A graph that is handed to the backend. -/
structure Graph where
  nodes : List (Option ℕ)
  tensors : Created

/-- The ids of the nodes and the records of a message. -/
structure Message where
  nodes : List UInt64
  records : List RpcTensor

/-- The message of `graph_compute`; `none` when it is rejected for its lengths or its device. -/
def parseMessage (server : Server) (input : List UInt8) : Option Message :=
  if input.length < 2 * 4 then none
  else
    let device := u32At input 0
    if server.backends ≤ device.toNat then none
    else
      let nNodes := (u32At input 4).toNat
      if input.length < 2 * 4 + nNodes * 8 + 4 then none
      else
        let nTensors := (u32At input (8 + nNodes * 8)).toNat
        if input.length < 2 * 4 + nNodes * 8 + 4 + nTensors * sizeofRpcTensor then none
        else some
          ⟨(List.range nNodes).map fun i => u64At input (8 + 8 * i),
            (List.range nTensors).map fun i => RpcTensor.ofBytes (input.drop (12 + nNodes * 8 + sizeofRpcTensor * i))⟩

/-- `tensor_ptrs`: the last record with an id. -/
def Message.ptrs (msg : Message) (id : UInt64) : Option RpcTensor :=
  msg.records.reverse.find? fun t => decide (t.id = id)

/-- The number of tensors that the pool of `graph_compute` has room for, computed in words of 32 bits. -/
def Message.capacity (msg : Message) : ℕ := (msg.nodes.length + msg.records.length) % 2 ^ 32

/-- The part of `graph_compute` that rebuilds the graph; `none` when the message is rejected. -/
def rebuildGraph (server : Server) (fuel : ℕ) (msg : Message) : Except Stop (Option Graph) := do
  let (nodes, tensors) ← createNodes server msg.ptrs msg.capacity fuel msg.nodes []
  return nodes.map fun nodes => ⟨nodes, tensors⟩

/-- `rpc_server::graph_compute` up to the call of the backend. -/
def graphCompute (server : Server) (fuel : ℕ) (input : List UInt8) : Except Stop (Option Graph) :=
  match parseMessage server input with
  | none => .ok none
  | some msg => rebuildGraph server fuel msg

/-! ### Ids -/

def Created.keys (s : Created) : List UInt64 := s.map Prod.fst

theorem Created.find_eq (s : Created) (id : UInt64) : s.find id = s.keys.findIdx? fun k => decide (k = id) := by
  rw [find, keys, findIdx?_map]
  rfl

theorem Created.find_eq_none_iff {s : Created} {id : UInt64} : s.find id = none ↔ id ∉ s.keys := by
  rw [find_eq, findIdx?_eq_none_iff]
  constructor
  · intro h hid
    simpa using h id hid
  · intro h k hk
    simp only [decide_eq_false_iff_not]
    rintro rfl
    exact h hk

@[simp] theorem Created.keys_update (s : Created) (p : ℕ) (f : Tensor → Tensor) : (s.update p f).keys = s.keys := by
  rw [keys, update, keys]
  refine ext_getElem (by simp) fun i h1 h2 => ?_
  rw [getElem_map, getElem_map, getElem_modify]
  split <;> rfl

@[simp] theorem Created.find_update (s : Created) (p : ℕ) (f : Tensor → Tensor) (id : UInt64) :
    (s.update p f).find id = s.find id := by
  rw [find_eq, keys_update, ← find_eq]

@[simp] theorem Created.keys_append (s s' : Created) : Created.keys (s ++ s') = s.keys ++ s'.keys := map_append

@[simp] theorem Created.keys_singleton (c : UInt64 × Tensor) : Created.keys [c] = [c.1] := rfl

theorem Created.keys_length (s : Created) : s.keys.length = s.length := length_map ..

/-! ### The walk on ids -/

/-- The ids that the record of an id refers to, in the order in which they are followed. -/
def refs (ptrs : UInt64 → Option RpcTensor) (id : UInt64) : List UInt64 :=
  match ptrs id with
  | none => []
  | some t => (links.map t.link).filter fun r => decide (r ≠ 0)

/-- Why a message is not accepted. -/
inductive Refusal where
  | rejected
  | fault (f : Fault)
deriving DecidableEq

section

variable (server : Server) (ptrs : UInt64 → Option RpcTensor) (capacity : ℕ)

/-- Whether the record of an id is refused, after the records of other ids. -/
def refuse (seen : List UInt64) (id : UInt64) : Option Refusal :=
  match ptrs id with
  | none => some .rejected
  | some t =>
    match deserializeInto server capacity seen.length t with
    | .error f => some (.fault f)
    | .ok none => some .rejected
    | .ok (some _) => none

/-- A computation makes the walk from `stk`: it returns whether the walk went through. -/
def Walks (stk : List UInt64) (s : Created) : Except Stop (Bool × Created) → Prop
  | .ok (true, s') => Walk (refs ptrs) (refuse server ptrs capacity) stk s.keys s'.keys none
  | .ok (false, s') => Walk (refs ptrs) (refuse server ptrs capacity) stk s.keys s'.keys (some .rejected)
  | .error (.fault f) => ∃ out, Walk (refs ptrs) (refuse server ptrs capacity) stk s.keys out (some (.fault f))
  | .error .outOfFuel => True

end

section

variable {server : Server} {ptrs : UInt64 → Option RpcTensor} {capacity : ℕ}

def created (r : Except Stop (Option ℕ × Created)) : Except Stop (Bool × Created) := r.map fun x => (x.1.isSome, x.2)

theorem linkAll_walk {t : RpcTensor} {create : UInt64 → Created → Except Stop (Option ℕ × Created)} {p : ℕ}
    (hcreate : ∀ id s, Walks server ptrs capacity [id] s (created (create id s))) (ls : List Link) (s : Created) :
    Walks server ptrs capacity ((ls.map t.link).filter fun r => decide (r ≠ 0)) s (linkAll t create p ls s) := by
  induction ls generalizing s with
  | nil => exact .done _
  | cons link ls ih =>
    rw [linkAll, map_cons]
    by_cases hzero : t.link link = 0
    · rw [if_pos hzero, filter_cons_of_neg (by simp [hzero])]
      exact ih s
    · rw [if_neg hzero, filter_cons_of_pos (by simp [hzero])]
      have hfirst := hcreate (t.link link) s
      cases hr : create (t.link link) s with
      | error e =>
        rw [hr] at hfirst
        cases e with
        | fault f =>
          obtain ⟨out, hout⟩ := hfirst
          exact ⟨out, hout.append_halted _⟩
        | outOfFuel => trivial
      | ok x =>
        obtain ⟨q, s'⟩ := x
        rw [hr] at hfirst
        cases q with
        | none => exact Walk.append_halted hfirst _
        | some q =>
          have hrest := ih (s'.update p fun tensor => tensor.setLink q link)
          show Walks server ptrs capacity _ s
            (linkAll t create p ls (s'.update p fun tensor => tensor.setLink q link))
          revert hrest
          generalize linkAll t create p ls (s'.update p fun tensor => tensor.setLink q link) = r
          intro hrest
          match r, hrest with
          | .ok (true, s2), hrest => exact Walk.append hfirst (by simpa [Walks] using hrest)
          | .ok (false, s2), hrest => exact Walk.append hfirst (by simpa [Walks] using hrest)
          | .error (.fault f), ⟨out, hrest⟩ => exact ⟨out, Walk.append hfirst (by simpa using hrest)⟩
          | .error .outOfFuel, _ => trivial

theorem createNode_walk (fuel : ℕ) (id : UInt64) (s : Created) :
    Walks server ptrs capacity [id] s (created (createNode server ptrs capacity fuel id s)) := by
  induction fuel generalizing id s with
  | zero => trivial
  | succ fuel ih =>
    rw [createNode]
    cases hfind : s.find id with
    | some p =>
      have hmem : id ∈ s.keys := by
        by_contra hnot
        rw [(Created.find_eq_none_iff).mpr hnot] at hfind
        cases hfind
      exact .skip hmem (.done _)
    | none =>
      have hnot := (Created.find_eq_none_iff).mp hfind
      cases hptr : ptrs id with
      | none => exact .halt hnot (by rw [refuse, hptr])
      | some t =>
        have hrefuse : refuse server ptrs capacity s.keys id
            = match deserializeInto server capacity s.length t with
              | .error f => some (.fault f)
              | .ok none => some .rejected
              | .ok (some _) => none := by
          rw [refuse, hptr, Created.keys_length]
        dsimp only
        cases hd : deserializeInto server capacity s.length t with
        | error f =>
          rw [hd] at hrefuse
          exact ⟨_, .halt hnot hrefuse⟩
        | ok o =>
          rw [hd] at hrefuse
          cases o with
          | none => exact .halt hnot hrefuse
          | some tensor =>
            have hlinks := linkAll_walk (t := t) (p := s.length) ih links (s ++ [(id, tensor)])
            have hrefs : refs ptrs id = (links.map t.link).filter fun r => decide (r ≠ 0) := by rw [refs, hptr]
            rw [← hrefs] at hlinks
            have hvisit : ∀ {out v}, Walk (refs ptrs) (refuse server ptrs capacity) (refs ptrs id)
                (s.keys ++ [id]) out v → Walk (refs ptrs) (refuse server ptrs capacity) [id] s.keys out v := by
              intro out v h
              exact .visit hnot hrefuse (by rwa [append_nil])
            dsimp only
            revert hlinks
            generalize linkAll t (createNode server ptrs capacity fuel) s.length links (s ++ [(id, tensor)]) = r
            intro hlinks
            match r, hlinks with
            | .ok (true, s2), hlinks =>
              show Walk _ _ _ _ (Created.keys _) none
              rw [Created.keys_update]
              exact hvisit (by simpa [Walks] using hlinks)
            | .ok (false, s2), hlinks => exact hvisit (by simpa [Walks] using hlinks)
            | .error (.fault f), ⟨out, hlinks⟩ => exact ⟨out, hvisit (by simpa using hlinks)⟩
            | .error .outOfFuel, _ => trivial

/-! ### Termination -/

theorem createNode_keys {fuel : ℕ} {id : UInt64} {s s' : Created} {r : Option ℕ}
    (h : createNode server ptrs capacity fuel id s = .ok (r, s')) : s.keys ⊆ s'.keys := by
  have hwalk := @createNode_walk server ptrs capacity fuel id s
  rw [h] at hwalk
  cases r with
  | none => exact Walk.seen_subset hwalk
  | some p => exact Walk.seen_subset hwalk

def unseen (ids : List UInt64) (s : Created) : ℕ := Walk.fresh ids s.keys

theorem unseen_le {ids : List UInt64} {s s' : Created} (h : s.keys ⊆ s'.keys) : unseen ids s' ≤ unseen ids s :=
  Walk.fresh_le h

theorem unseen_lt {ids : List UInt64} {s : Created} {id : UInt64} (hid : id ∈ ids) (hnot : id ∉ s.keys)
    (tensor : Tensor) : unseen ids (s ++ [(id, tensor)]) < unseen ids s := by
  rw [unseen, Created.keys_append]
  exact Walk.fresh_lt hid hnot

theorem linkAll_terminates {t : RpcTensor} {create : UInt64 → Created → Except Stop (Option ℕ × Created)} {p : ℕ}
    {s : Created} (hkeys : ∀ id s1 r s2, create id s1 = .ok (r, s2) → s1.keys ⊆ s2.keys)
    (hterm : ∀ id s1, s.keys ⊆ s1.keys → create id s1 ≠ .error .outOfFuel) (ls : List Link) {s1 : Created}
    (hs : s.keys ⊆ s1.keys) : linkAll t create p ls s1 ≠ .error .outOfFuel := by
  induction ls generalizing s1 with
  | nil => simp [linkAll]
  | cons link ls ih =>
    rw [linkAll]
    split
    · exact ih hs
    · cases hr : create (t.link link) s1 with
      | error e =>
        have hne := hterm (t.link link) s1 hs
        cases e with
        | fault f => exact fun h => by cases h
        | outOfFuel => exact (hne hr).elim
      | ok x =>
        obtain ⟨q, s2⟩ := x
        have hs2 := List.Subset.trans hs (hkeys _ _ _ _ hr)
        cases q with
        | none => exact fun h => by cases h
        | some q => exact ih (by rw [Created.keys_update]; exact hs2)

/-- **The recursion ends**: one more unit of fuel than there are records that were not seen yet is enough. -/
theorem createNode_terminates {ids : List UInt64} (hids : ∀ id t, ptrs id = some t → id ∈ ids) {fuel : ℕ}
    (id : UInt64) {s : Created} (hfuel : unseen ids s < fuel) :
    createNode server ptrs capacity fuel id s ≠ .error .outOfFuel := by
  induction fuel generalizing id s with
  | zero => omega
  | succ fuel ih =>
    rw [createNode]
    cases hfind : s.find id with
    | some p => exact fun h => by cases h
    | none =>
      have hnot := (Created.find_eq_none_iff).mp hfind
      cases hptr : ptrs id with
      | none => exact fun h => by cases h
      | some t =>
        dsimp only
        cases hd : deserializeInto server capacity s.length t with
        | error f => exact fun h => by cases h
        | ok o =>
          cases o with
          | none => exact fun h => by cases h
          | some tensor =>
            have hlt := unseen_lt (hids id t hptr) hnot tensor
            have hlinks := linkAll_terminates (t := t) (p := s.length) (s := s ++ [(id, tensor)])
              (fun id s1 r s2 h => createNode_keys h)
              (fun id s1 hs => ih id (lt_of_le_of_lt (unseen_le hs) (by omega))) links (List.Subset.refl _)
            dsimp only
            intro h
            cases hr : linkAll t (createNode server ptrs capacity fuel) s.length links (s ++ [(id, tensor)]) with
            | error e =>
              rw [hr] at h
              cases e with
              | fault f => cases h
              | outOfFuel => exact hlinks hr
            | ok x =>
              obtain ⟨done, s2⟩ := x
              rw [hr] at h
              cases done <;> cases h

end

/-! ### References -/

/-- A tensor without its references, as `deserialize_tensor` returns it. -/
def Tensor.bare (t : Tensor) : Tensor := { t with src := fun _ => none, viewSrc := none, viewOffs := 0 }

@[simp] theorem Tensor.bare_setLink (t : Tensor) (q : ℕ) (link : Link) : (t.setLink q link).bare = t.bare := by
  cases link <;> rfl

@[simp] theorem Tensor.viewOffs_setLink (t : Tensor) (q : ℕ) (link : Link) :
    (t.setLink q link).viewOffs = t.viewOffs := by
  cases link <;> rfl

@[simp] theorem Tensor.link_setLink_self (t : Tensor) (q : ℕ) (link : Link) : (t.setLink q link).link link = some q := by
  cases link with
  | src i => exact Function.update_self ..
  | view => rfl

theorem Tensor.link_setLink_of_ne (t : Tensor) (q : ℕ) {link link' : Link} (h : link' ≠ link) :
    (t.setLink q link).link link' = t.link link' := by
  cases link with
  | src i =>
    cases link' with
    | src j => exact Function.update_of_ne (fun hij => h (congrArg Link.src hij)) _ _
    | view => rfl
  | view =>
    cases link' with
    | src j => rfl
    | view => exact (h rfl).elim

theorem mem_links (link : Link) : link ∈ links := by
  cases link with
  | src i => exact mem_append_left _ (mem_map_of_mem (mem_finRange i))
  | view => exact mem_append_right _ (mem_singleton_self _)

theorem links_nodup : links.Nodup := by decide

section

variable (server : Server) (ptrs : UInt64 → Option RpcTensor)

/-- **A tensor that is complete**: it is the tensor of its record, and each reference of the record is the tensor of the
id that it names. -/
def Linked (s : Created) (c : UInt64 × Tensor) : Prop :=
  ∃ t tensor, ptrs c.1 = some t ∧ deserializeTensor server t = .ok (some tensor) ∧ c.2.bare = tensor ∧
    c.2.viewOffs = t.viewOffs ∧
    ∀ link, if t.link link = 0 then c.2.link link = none
      else ∃ q, c.2.link link = some q ∧ s.find (t.link link) = some q

end

section

variable {server : Server} {ptrs : UInt64 → Option RpcTensor} {capacity : ℕ}

theorem Created.find_of_keys {s s' : Created} {new : List UInt64} (h : s'.keys = s.keys ++ new) {id : UInt64} {p : ℕ}
    (hp : s.find id = some p) : s'.find id = some p := by
  rw [find_eq] at hp ⊢
  rw [h, findIdx?_append, hp]
  rfl

theorem Linked.mono {s s' : Created} {new : List UInt64} (h : s'.keys = s.keys ++ new) {c : UInt64 × Tensor}
    (hc : Linked server ptrs s c) : Linked server ptrs s' c := by
  obtain ⟨t, tensor, hptr, hd, hbare, hoffs, hlinks⟩ := hc
  refine ⟨t, tensor, hptr, hd, hbare, hoffs, fun link => ?_⟩
  have hlink := hlinks link
  split at hlink
  · rename_i hzero
    rw [if_pos hzero]
    exact hlink
  · rename_i hzero
    obtain ⟨q, hq, hfind⟩ := hlink
    rw [if_neg hzero]
    exact ⟨q, hq, Created.find_of_keys h hfind⟩

theorem update_middle (pre post : Created) (id : UInt64) (x : Tensor) (f : Tensor → Tensor) :
    Created.update (pre ++ (id, x) :: post) pre.length f = pre ++ (id, f x) :: post := by
  rw [Created.update]
  induction pre with
  | nil => rfl
  | cons c pre ih => rw [cons_append, length_cons, modify_succ_cons, ih, cons_append]

/-- What a successful call does: it adds complete tensors, and the id is that of the result. -/
def Completes (server : Server) (ptrs : UInt64 → Option RpcTensor)
    (create : UInt64 → Created → Except Stop (Option ℕ × Created)) : Prop :=
  ∀ id s q s', create id s = .ok (some q, s') →
    ∃ new, s' = s ++ new ∧ s'.find id = some q ∧ ∀ c ∈ new, Linked server ptrs s' c

theorem linkAll_linked {t : RpcTensor} {create : UInt64 → Created → Except Stop (Option ℕ × Created)}
    (hcreate : Completes server ptrs create) {pre : Created} {id : UInt64} {ls : List Link} (hnodup : ls.Nodup)
    {x : Tensor} {post s' : Created} (hx : ∀ link ∈ ls, x.link link = none)
    (h : linkAll t create pre.length ls (pre ++ (id, x) :: post) = .ok (true, s')) :
    ∃ y new, s' = pre ++ (id, y) :: (post ++ new) ∧ y.bare = x.bare ∧
      (∀ link, link ∉ ls → y.link link = x.link link) ∧
      (∀ link ∈ ls, if t.link link = 0 then y.link link = none
        else ∃ q, y.link link = some q ∧ s'.find (t.link link) = some q) ∧
      ∀ c ∈ new, Linked server ptrs s' c := by
  induction ls generalizing x post with
  | nil =>
    obtain rfl := (Prod.mk.inj (Except.ok.inj h)).2
    exact ⟨x, [], by simp, rfl, fun _ _ => rfl, by simp, by simp⟩
  | cons link ls ih =>
    obtain ⟨hlink, hnodup⟩ := nodup_cons.mp hnodup
    rw [linkAll] at h
    by_cases hzero : t.link link = 0
    · rw [if_pos hzero] at h
      obtain ⟨y, new, hs', hbare, hother, hset, hnew⟩ := ih hnodup (fun l hl => hx l (mem_cons_of_mem _ hl)) h
      refine ⟨y, new, hs', hbare, fun l hl => hother l fun hmem => hl (mem_cons_of_mem _ hmem), ?_, hnew⟩
      intro l hl
      rcases mem_cons.mp hl with rfl | hl
      · rw [if_pos hzero, hother l hlink]
        exact hx l (mem_cons_self ..)
      · exact hset l hl
    · rw [if_neg hzero] at h
      obtain ⟨⟨q, s1⟩, hc, h⟩ := (Except.bind_eq_ok_iff).mp h
      cases q with
      | none => cases h
      | some q =>
        obtain ⟨new1, rfl, hfind, hnew1⟩ := hcreate _ _ _ _ hc
        dsimp only at h
        rw [append_assoc, cons_append, update_middle] at h
        have hx' : ∀ l ∈ ls, (x.setLink q link).link l = none := by
          intro l hl
          have hne : l ≠ link := fun heq => hlink (heq ▸ hl)
          rw [Tensor.link_setLink_of_ne x q hne]
          exact hx l (mem_cons_of_mem _ hl)
        obtain ⟨y, new2, hs', hbare, hother, hset, hnew2⟩ := ih hnodup hx' h
        have hkeys : s'.keys = Created.keys (pre ++ (id, x) :: post ++ new1) ++ Created.keys new2 := by
          rw [hs']
          simp [Created.keys]
        refine ⟨y, new1 ++ new2, by rw [hs', append_assoc], by rw [hbare, Tensor.bare_setLink], ?_, ?_, ?_⟩
        · intro l hl
          rw [hother l fun hmem => hl (mem_cons_of_mem _ hmem)]
          exact Tensor.link_setLink_of_ne _ _ fun heq => hl (heq ▸ mem_cons_self ..)
        · intro l hl
          rcases mem_cons.mp hl with rfl | hl
          · rw [if_neg hzero, hother l hlink, Tensor.link_setLink_self]
            exact ⟨q, rfl, Created.find_of_keys hkeys hfind⟩
          · exact hset l hl
        · intro c hc
          rcases mem_append.mp hc with hc | hc
          · exact (hnew1 c hc).mono hkeys
          · exact hnew2 c hc

theorem deserializeInto_eq_ok {count : ℕ} {t : RpcTensor} {tensor : Tensor}
    (h : deserializeInto server capacity count t = .ok (some tensor)) :
    deserializeTensor server t = .ok (some tensor) ∧ count < capacity := by
  obtain ⟨o, ho, h⟩ := (Except.bind_eq_ok_iff).mp h
  cases o with
  | none => cases h
  | some x =>
    obtain ⟨_, hroom, h⟩ := (Except.bind_eq_ok_iff).mp h
    obtain rfl := Option.some.inj (Except.ok.inj h)
    exact ⟨ho, by simpa using (ggmlAssert_eq_ok).mp hroom⟩

theorem Created.find_new {s : Created} {id : UInt64} (hnot : id ∉ s.keys) (z : Tensor) (new : Created) :
    Created.find (s ++ (id, z) :: new) id = some s.length := by
  have hnone := (Created.find_eq_none_iff).mpr hnot
  rw [find] at hnone ⊢
  rw [findIdx?_append, hnone, findIdx?_cons]
  simp

theorem createNode_linked (fuel : ℕ) : Completes server ptrs (createNode server ptrs capacity fuel) := by
  induction fuel with
  | zero =>
    intro id s q s' h
    cases h
  | succ fuel ih =>
    intro id s q s' h
    rw [createNode] at h
    cases hfind : s.find id with
    | some p =>
      rw [hfind] at h
      obtain ⟨hq, rfl⟩ := Prod.mk.inj (Except.ok.inj h)
      exact ⟨[], (append_nil _).symm, hq ▸ hfind, by simp⟩
    | none =>
      have hnot := (Created.find_eq_none_iff).mp hfind
      rw [hfind] at h
      cases hptr : ptrs id with
      | none =>
        rw [hptr] at h
        cases h
      | some t =>
        rw [hptr] at h
        dsimp only at h
        cases hd : deserializeInto server capacity s.length t with
        | error f =>
          rw [hd] at h
          cases h
        | ok o =>
          rw [hd] at h
          cases o with
          | none => cases h
          | some tensor =>
            obtain ⟨hdes, -⟩ := deserializeInto_eq_ok hd
            obtain ⟨type, -, -, -, rfl⟩ := deserializeTensor_eq_ok hdes
            obtain ⟨⟨done, s1⟩, hlinks, h⟩ := (Except.bind_eq_ok_iff).mp h
            cases done with
            | false => cases h
            | true =>
              obtain ⟨hq, rfl⟩ := Prod.mk.inj (Except.ok.inj h)
              obtain rfl := Option.some.inj hq
              obtain ⟨y, new, rfl, hbare, -, hset, hnew⟩ :=
                linkAll_linked ih links_nodup (fun link _ => by cases link <;> rfl) hlinks
              rw [nil_append, update_middle]
              rw [nil_append] at hset hnew
              have hkeys : Created.keys (s ++ (id, { y with viewOffs := t.viewOffs }) :: new)
                  = Created.keys (s ++ (id, y) :: new) ++ [] := by
                simp [Created.keys]
              refine ⟨_, rfl, Created.find_new hnot _ _, fun c hc => ?_⟩
              rcases mem_cons.mp hc with rfl | hc
              · refine ⟨t, _, hptr, hdes, hbare, rfl, fun link => ?_⟩
                have hlink := hset link (mem_links link)
                split at hlink
                · rename_i hzero
                  rw [if_pos hzero]
                  cases link <;> exact hlink
                · rename_i hzero
                  obtain ⟨q, hq, hqfind⟩ := hlink
                  rw [if_neg hzero]
                  refine ⟨q, ?_, Created.find_of_keys hkeys hqfind⟩
                  cases link <;> exact hq
              · exact (hnew c hc).mono hkeys

end

/-! ### The bytes of a message -/

def Message.bytes (device : UInt32) (msg : Message) : List UInt8 :=
  u32Bytes device ++ (u32Bytes (UInt32.ofNat msg.nodes.length) ++ (msg.nodes.flatMap u64Bytes ++
    (u32Bytes (UInt32.ofNat msg.records.length) ++ msg.records.flatMap RpcTensor.bytes)))

theorem u32At_append {pre : List UInt8} {off : ℕ} (hpre : pre.length = off) (x : UInt32) (rest : List UInt8) :
    u32At (pre ++ (u32Bytes x ++ rest)) off = x := by
  rw [u32At, drop_left' hpre, take_left' (u32Bytes_length x), ofNat_u32Bytes]

theorem map_rows {α : Type} {enc : α → List UInt8} (get : List UInt8 → α) {r off : ℕ} (hr : ∀ x, (enc x).length = r)
    (hget : ∀ x rest, get (enc x ++ rest) = x) {pre : List UInt8} (hpre : pre.length = off) (l : List α)
    (rest : List UInt8) :
    ((List.range l.length).map fun i => get ((pre ++ (l.flatMap enc ++ rest)).drop (off + r * i))) = l := by
  refine ext_getElem (by simp) fun i h1 h2 => ?_
  have hle : i * r ≤ (l.flatMap enc).length := by
    rw [flatMap_length_of_rows hr]
    exact Nat.mul_le_mul_right r h2.le
  rw [getElem_map, getElem_range, ← drop_drop, drop_left' hpre, Nat.mul_comm,
    drop_append_of_le_length hle, drop_flatMap_of_rows hr, drop_eq_getElem_cons h2, flatMap_cons,
    append_assoc, hget]

theorem Message.bytes_length (device : UInt32) (msg : Message) :
    (msg.bytes device).length = 2 * 4 + msg.nodes.length * 8 + 4 + msg.records.length * sizeofRpcTensor := by
  rw [Message.bytes]
  simp only [length_append, u32Bytes_length, flatMap_length_of_rows u64Bytes_length,
    flatMap_length_of_rows RpcTensor.bytes_length]
  omega

theorem parseMessage_bytes {server : Server} {device : UInt32} (hdevice : device.toNat < server.backends)
    {msg : Message} (hnodes : msg.nodes.length < 2 ^ 32) (hrecords : msg.records.length < 2 ^ 32) :
    parseMessage server (msg.bytes device) = some msg := by
  have hn : (UInt32.ofNat msg.nodes.length).toNat = msg.nodes.length := UInt32.toNat_ofNat_of_lt' hnodes
  have hr : (UInt32.ofNat msg.records.length).toNat = msg.records.length := UInt32.toNat_ofNat_of_lt' hrecords
  have hlength := msg.bytes_length device
  have hdev : u32At (msg.bytes device) 0 = device := @u32At_append [] 0 rfl _ _
  have hcount : u32At (msg.bytes device) 4 = UInt32.ofNat msg.nodes.length :=
    u32At_append (u32Bytes_length device) _ _
  have hpre : (u32Bytes device ++ u32Bytes (UInt32.ofNat msg.nodes.length)).length = 8 := by simp
  have hsplit : msg.bytes device = (u32Bytes device ++ u32Bytes (UInt32.ofNat msg.nodes.length)) ++
      (msg.nodes.flatMap u64Bytes ++ (u32Bytes (UInt32.ofNat msg.records.length) ++
        msg.records.flatMap RpcTensor.bytes)) := by
    rw [Message.bytes, append_assoc]
  have hpre2 : (u32Bytes device ++ u32Bytes (UInt32.ofNat msg.nodes.length) ++ msg.nodes.flatMap u64Bytes).length
      = 8 + msg.nodes.length * 8 := by
    rw [length_append, hpre, flatMap_length_of_rows u64Bytes_length]
  have hcount2 : u32At (msg.bytes device) (8 + msg.nodes.length * 8) = UInt32.ofNat msg.records.length := by
    rw [hsplit, ← append_assoc]
    exact u32At_append hpre2 _ _
  have hids : ((List.range msg.nodes.length).map fun i => u64At (msg.bytes device) (8 + 8 * i)) = msg.nodes := by
    rw [hsplit]
    refine map_rows (fun b => UInt64.ofNat (leNat (b.take 8))) u64Bytes_length (fun x rest => ?_) hpre _ _
    rw [take_left' (u64Bytes_length x), ofNat_u64Bytes]
  have hpre3 : (u32Bytes device ++ u32Bytes (UInt32.ofNat msg.nodes.length) ++ msg.nodes.flatMap u64Bytes ++
      u32Bytes (UInt32.ofNat msg.records.length)).length = 12 + msg.nodes.length * 8 := by
    rw [length_append, hpre2, u32Bytes_length]
    omega
  have htensors : ((List.range msg.records.length).map fun i =>
      RpcTensor.ofBytes ((msg.bytes device).drop (12 + msg.nodes.length * 8 + sizeofRpcTensor * i))) = msg.records := by
    have hrows := map_rows RpcTensor.ofBytes RpcTensor.bytes_length RpcTensor.ofBytes_bytes hpre3
      msg.records []
    rwa [append_nil, append_assoc, append_assoc, ← hsplit] at hrows
  rw [parseMessage, if_neg (by omega)]
  dsimp only
  rw [hdev, if_neg (by omega), hcount, hn, if_neg (by omega), hcount2, hr, if_neg (by omega), hids, htensors]

end Rpc
