import LlamaRafaelia.Rpc.Safety
import Mathlib.Data.List.Perm.Subperm
import Mathlib.Data.Set.Function

/-!
# RPC: the graph that the client sends

`ggml_backend_rpc_graph_compute` follows the references of the nodes (`add_tensor`), turns each tensor into an
`rpc_tensor` and sends ids and records.  The record has 32 bits for each of `ne` and `nb`, where a tensor has 64: what
does not fit is cut off.

* `graph_arrives_iff` - **the graph arrives exactly when every dimension and every stride fits into 32 bits**.
-/

namespace Rpc

open List Gguf

/-! ### The client -/

/-- A `ggml_tensor` of the client.  Pointers are addresses, with 0 for null; the buffer is its `remote_ptr`. -/
structure ClientTensor where
  type : GgmlType
  buffer : Option UInt64
  ne : Dims
  nb : Dims
  op : UInt32
  opParams : Fin nOpParams → UInt32
  flags : UInt32
  src : Fin ggmlMaxSrc → UInt64
  viewSrc : UInt64
  viewOffs : UInt64
  data : UInt64
  name : TensorName

def ClientTensor.link (t : ClientTensor) : Link → UInt64
  | .src i => t.src i
  | .view => t.viewSrc

/-- The memory of the client and the nodes of its graph: pointers that are not null point to tensors. -/
structure Client where
  tensor : UInt64 → Option ClientTensor
  addresses : List UInt64
  nodes : List UInt64
  finite : ∀ id t, tensor id = some t → id ∈ addresses
  null : tensor 0 = none
  closed : ∀ id t link, tensor id = some t → t.link link ≠ 0 → (tensor (t.link link)).isSome
  nodes_isSome : ∀ id ∈ nodes, (tensor id).isSome

def narrow (d : Dims) : Fin 4 → UInt32 :=
  ![UInt32.ofNat d.d0, UInt32.ofNat d.d1, UInt32.ofNat d.d2, UInt32.ofNat d.d3]

/-- `serialize_tensor`. -/
def serializeTensor (id : UInt64) (t : ClientTensor) : RpcTensor where
  id := id
  type := UInt32.ofNat t.type.code
  buffer := t.buffer.getD 0
  ne := narrow t.ne
  nb := narrow t.nb
  op := t.op
  opParams := t.opParams
  flags := t.flags
  src := t.src
  viewSrc := t.viewSrc
  viewOffs := t.viewOffs
  data := t.data
  name i := t.name.1.getD i 0

/-- The records so far, and the tensors that were visited. -/
structure Serializer where
  tensors : List RpcTensor
  visited : List UInt64

section

variable (tensor : UInt64 → Option ClientTensor)

/-- `add_tensor`: the record of a tensor comes after those that it refers to.  `none` when the fuel runs out or a
pointer points to nothing. -/
def addTensor : ℕ → UInt64 → Serializer → Option Serializer
  | 0, _, _ => none
  | fuel + 1, id, s =>
    if id = 0 then some s
    else if id ∈ s.visited then some s
    else do
      let t ← tensor id
      let s ← links.foldlM (fun s link => addTensor fuel (t.link link) s) { s with visited := s.visited ++ [id] }
      return { s with tensors := s.tensors ++ [serializeTensor id t] }

end

/-- The message of `serialize_graph`. -/
def Client.message (client : Client) (fuel : ℕ) : Option Message := do
  let s ← client.nodes.foldlM (fun s id => addTensor client.tensor fuel id s) ⟨[], []⟩
  return ⟨client.nodes, s.tensors⟩

/-- `serialize_graph`. -/
def serializeGraph (fuel : ℕ) (device : UInt32) (client : Client) : Option (List UInt8) :=
  (client.message fuel).map (Message.bytes device)

/-! ### The records -/

section

variable {tensor : UInt64 → Option ClientTensor}

/-- What a call of `add_tensor` adds: the records of the new addresses, with all that they refer to visited. -/
structure Adds (tensor : UInt64 → Option ClientTensor) (s s' : Serializer) : Prop where
  visited : s.visited ⊆ s'.visited
  tensors : s.tensors ⊆ s'.tensors
  recorded : ∀ id ∈ s'.visited, id ∈ s.visited ∨ ∃ r ∈ s'.tensors, r.id = id
  record : ∀ r ∈ s'.tensors, r ∈ s.tensors ∨ ∃ t, tensor r.id = some t ∧ r = serializeTensor r.id t
  refers : ∀ id ∈ s'.visited, id ∈ s.visited ∨
    ∀ t link, tensor id = some t → t.link link ≠ 0 → t.link link ∈ s'.visited

theorem Adds.refl (s : Serializer) : Adds tensor s s :=
  ⟨List.Subset.refl _, List.Subset.refl _, fun _ h => .inl h, fun _ h => .inl h, fun _ h => .inl h⟩

theorem Adds.trans {s1 s2 s3 : Serializer} (h : Adds tensor s1 s2) (h' : Adds tensor s2 s3) : Adds tensor s1 s3 where
  visited := List.Subset.trans h.visited h'.visited
  tensors := List.Subset.trans h.tensors h'.tensors
  recorded id hid := by
    rcases h'.recorded id hid with hold | hnew
    · rcases h.recorded id hold with hold | ⟨r, hr, hid⟩
      · exact .inl hold
      · exact .inr ⟨r, h'.tensors hr, hid⟩
    · exact .inr hnew
  record r hr := by
    rcases h'.record r hr with hold | hnew
    · exact h.record r hold
    · exact .inr hnew
  refers id hid := by
    rcases h'.refers id hid with hold | hnew
    · rcases h.refers id hold with hold | hnew
      · exact .inl hold
      · exact .inr fun t link ht hlink => h'.visited (hnew t link ht hlink)
    · exact .inr hnew

theorem foldlM_adds {α : Type} {f : Serializer → α → Option Serializer} (address : α → UInt64) {l : List α}
    (hf : ∀ s a s', f s a = some s' → Adds tensor s s' ∧ (address a ≠ 0 → address a ∈ s'.visited)) {s s' : Serializer}
    (h : l.foldlM f s = some s') : Adds tensor s s' ∧ ∀ a ∈ l, address a ≠ 0 → address a ∈ s'.visited := by
  induction l generalizing s with
  | nil =>
    obtain rfl := Option.some.inj h
    exact ⟨.refl s, by simp⟩
  | cons a l ih =>
    rw [foldlM_cons] at h
    obtain ⟨s1, hs1, h⟩ := Option.bind_eq_some_iff.mp h
    obtain ⟨hfirst, ha⟩ := hf s a s1 hs1
    obtain ⟨hrest, hl⟩ := ih h
    refine ⟨hfirst.trans hrest, fun b hb => ?_⟩
    rcases mem_cons.mp hb with rfl | hb
    · exact fun hne => hrest.visited (ha hne)
    · exact hl b hb

theorem addTensor_spec {fuel : ℕ} {id : UInt64} {s s' : Serializer} (h : addTensor tensor fuel id s = some s') :
    Adds tensor s s' ∧ (id ≠ 0 → id ∈ s'.visited) := by
  induction fuel generalizing id s s' with
  | zero => cases h
  | succ fuel ih =>
    rw [addTensor] at h
    split_ifs at h with hnull hseen
    · obtain rfl := Option.some.inj h
      exact ⟨.refl s, fun hne => (hne hnull).elim⟩
    · obtain rfl := Option.some.inj h
      exact ⟨.refl s, fun _ => hseen⟩
    · obtain ⟨t, ht, h⟩ := Option.bind_eq_some_iff.mp h
      obtain ⟨s1, hs1, h⟩ := Option.bind_eq_some_iff.mp h
      obtain rfl := Option.some.inj h
      obtain ⟨hadds, hlinks⟩ := foldlM_adds t.link (fun s link s' hs => ih hs) hs1
      have hid : id ∈ s1.visited := hadds.visited (mem_append_right _ (mem_singleton_self id))
      refine ⟨⟨?_, ?_, ?_, ?_, ?_⟩, fun _ => hid⟩
      · exact fun a ha => hadds.visited (mem_append_left _ ha)
      · exact fun r hr => mem_append_left _ (hadds.tensors hr)
      · intro a ha
        rcases hadds.recorded a ha with hold | ⟨r, hr, hra⟩
        · rcases mem_append.mp hold with hold | hold
          · exact .inl hold
          · rw [mem_singleton.mp hold]
            exact .inr ⟨_, mem_append_right _ (mem_singleton_self _), rfl⟩
        · exact .inr ⟨r, mem_append_left _ hr, hra⟩
      · intro r hr
        rcases mem_append.mp hr with hr | hr
        · exact hadds.record r hr
        · rw [mem_singleton.mp hr]
          exact .inr ⟨t, ht, rfl⟩
      · intro a ha
        rcases hadds.refers a ha with hold | hnew
        · rcases mem_append.mp hold with hold | hold
          · exact .inl hold
          · rw [mem_singleton.mp hold]
            refine .inr fun t' link ht' hlink => ?_
            obtain rfl := Option.some.inj (ht.symm.trans ht')
            exact hlinks link (mem_links link) hlink
        · exact .inr hnew

theorem foldlM_terminates {α : Type} {f : Serializer → α → Option Serializer} {l : List α} (s0 : Serializer) {s : Serializer}
    (hf : ∀ s1 a, a ∈ l → s0.visited ⊆ s1.visited → ∃ s2, f s1 a = some s2 ∧ s1.visited ⊆ s2.visited)
    (hs : s0.visited ⊆ s.visited) : ∃ s', l.foldlM f s = some s' := by
  induction l generalizing s with
  | nil => exact ⟨s, rfl⟩
  | cons a l ih =>
    obtain ⟨s1, hs1, hsub⟩ := hf s a (mem_cons_self ..) hs
    obtain ⟨s', hs'⟩ := ih (fun s1 b hb => hf s1 b (mem_cons_of_mem _ hb)) (List.Subset.trans hs hsub)
    refine ⟨s', ?_⟩
    rw [foldlM_cons, hs1]
    exact hs'

theorem addTensor_terminates {ids : List UInt64} (hids : ∀ id t, tensor id = some t → id ∈ ids)
    (hclosed : ∀ id t link, tensor id = some t → t.link link ≠ 0 → (tensor (t.link link)).isSome) {fuel : ℕ}
    {id : UInt64} {s : Serializer} (hid : id ≠ 0 → (tensor id).isSome) (hfuel : Walk.fresh ids s.visited < fuel) :
    ∃ s', addTensor tensor fuel id s = some s' := by
  induction fuel generalizing id s with
  | zero => omega
  | succ fuel ih =>
    rw [addTensor]
    split_ifs with hnull hseen
    · exact ⟨s, rfl⟩
    · exact ⟨s, rfl⟩
    · obtain ⟨t, ht⟩ := Option.isSome_iff_exists.mp (hid hnull)
      have hlt := Walk.fresh_lt (hids id t ht) hseen
      have hlt' : Walk.fresh ids (s.visited ++ [id]) < fuel := by omega
      obtain ⟨s1, hs1⟩ : ∃ s1, links.foldlM (fun s link => addTensor tensor fuel (t.link link) s)
          { s with visited := s.visited ++ [id] } = some s1 := by
        refine foldlM_terminates { s with visited := s.visited ++ [id] } (fun s1 link _ hsub => ?_)
          (List.Subset.refl _)
        obtain ⟨s2, hs2⟩ := ih (hclosed id t link ht) (lt_of_le_of_lt (Walk.fresh_le hsub) hlt')
        exact ⟨s2, hs2, (addTensor_spec hs2).1.visited⟩
      refine ⟨{ s1 with tensors := s1.tensors ++ [serializeTensor id t] }, ?_⟩
      rw [ht, Option.bind_eq_bind, Option.bind_some, hs1]
      rfl

end

/-! ### The message of the client -/

def Client.Reaches (client : Client) (id : UInt64) : Prop :=
  ∃ n ∈ client.nodes,
    Relation.ReflTransGen (fun x y => ∃ t link, client.tensor x = some t ∧ t.link link = y ∧ y ≠ 0) n id

/-- The message of a client: the ids of its nodes, and the records of all that they lead to. -/
structure Faithful (client : Client) (msg : Message) : Prop where
  nodes : msg.nodes = client.nodes
  record : ∀ id r, msg.ptrs id = some r → ∃ t, client.tensor id = some t ∧ r = serializeTensor id t
  recorded : ∀ id, client.Reaches id → ∃ r, msg.ptrs id = some r

theorem Client.nodes_ne (client : Client) {id : UInt64} (hid : id ∈ client.nodes) : id ≠ 0 := by
  rintro rfl
  have hsome := client.nodes_isSome 0 hid
  rw [client.null] at hsome
  cases hsome

theorem Message.ptrs_isSome {msg : Message} {r : RpcTensor} (hr : r ∈ msg.records) : ∃ r', msg.ptrs r.id = some r' := by
  cases hptr : msg.ptrs r.id with
  | some r' => exact ⟨r', rfl⟩
  | none =>
    have hnone := find?_eq_none.mp hptr r (mem_reverse.mpr hr)
    simp at hnone

theorem Client.message_faithful {client : Client} {fuel : ℕ} (hfuel : client.addresses.length < fuel) :
    ∃ msg, client.message fuel = some msg ∧ Faithful client msg := by
  obtain ⟨s, hs⟩ : ∃ s, client.nodes.foldlM (fun s id => addTensor client.tensor fuel id s) ⟨[], []⟩ = some s := by
    refine foldlM_terminates ⟨[], []⟩ (fun s1 id hid _ => ?_) (List.Subset.refl _)
    obtain ⟨s2, hs2⟩ := addTensor_terminates client.finite client.closed (fun _ => client.nodes_isSome id hid)
      (lt_of_le_of_lt (Walk.fresh_le_length client.addresses s1.visited) hfuel)
    exact ⟨s2, hs2, (addTensor_spec hs2).1.visited⟩
  obtain ⟨hadds, hnodes⟩ := foldlM_adds id (fun s id s' hs => addTensor_spec hs) hs
  have hvisited : ∀ a, client.Reaches a → a ∈ s.visited := by
    rintro a ⟨n, hn, hpath⟩
    induction hpath with
    | refl => exact hnodes n hn (client.nodes_ne hn)
    | tail _ hstep ih =>
      obtain ⟨t, link, ht, rfl, hne⟩ := hstep
      rcases hadds.refers _ ih with hold | hnew
      · cases hold
      · exact hnew t link ht hne
  refine ⟨⟨client.nodes, s.tensors⟩, by rw [Client.message, hs]; rfl, rfl, fun a r hr => ?_, fun a ha => ?_⟩
  · have hmem := mem_reverse.mp (mem_of_find?_eq_some hr)
    have hid : r.id = a := by simpa using find?_some hr
    rcases hadds.record r hmem with hold | hnew
    · cases hold
    · rwa [hid] at hnew
  · rcases hadds.recorded a (hvisited a ha) with hold | ⟨r, hr, rfl⟩
    · cases hold
    · exact Message.ptrs_isSome hr

@[simp] theorem serializeTensor_link (id : UInt64) (t : ClientTensor) (link : Link) :
    (serializeTensor id t).link link = t.link link := by
  cases link <;> rfl

theorem Faithful.referenced_iff {client : Client} {msg : Message} (h : Faithful client msg) (id : UInt64) :
    msg.Referenced id ↔ client.Reaches id := by
  constructor
  · rintro ⟨n, hn, hpath⟩
    rw [h.nodes] at hn
    refine ⟨n, hn, Relation.ReflTransGen.mono (fun x y hy => ?_) _ _ hpath⟩
    cases hptr : msg.ptrs x with
    | none =>
      rw [refs, hptr] at hy
      cases hy
    | some r =>
      obtain ⟨t, ht, rfl⟩ := h.record x r hptr
      obtain ⟨link, hlink, hne⟩ := (mem_refs hptr).mp hy
      exact ⟨t, link, ht, by rwa [serializeTensor_link] at hlink, hne⟩
  · rintro ⟨n, hn, hpath⟩
    refine ⟨n, by rwa [h.nodes], ?_⟩
    induction hpath with
    | refl => exact .refl
    | @tail x y hpath hstep ih =>
      obtain ⟨t, link, ht, hlink, hne⟩ := hstep
      obtain ⟨r, hptr⟩ := h.recorded x ⟨n, hn, hpath⟩
      obtain ⟨t', ht', rfl⟩ := h.record x r hptr
      obtain rfl := Option.some.inj (ht.symm.trans ht')
      exact ih.tail ((mem_refs hptr).mpr ⟨link, by rwa [serializeTensor_link], hne⟩)

/-! ### The server accepts the message -/

section

variable {server : Server} {msg : Message}

/-- A message whose records are all in order: whatever is referred to has a record that is not refused. -/
def Sound (server : Server) (msg : Message) : Prop :=
  ∀ id, msg.Referenced id → ∃ r tensor, msg.ptrs id = some r ∧ deserializeTensor server r = .ok (some tensor)

theorem Sound.not_halted (hsound : Sound server msg) (hcapacity : msg.nodes.length + msg.records.length < 2 ^ 32)
    {n : UInt64} (hn : n ∈ msg.nodes) {seen out : List UInt64} {r : Refusal} (hseen : seen.Nodup)
    (hrecords : ∀ a ∈ seen, msg.Referenced a) :
    ¬ Walk (refs msg.ptrs) (refuse server msg.ptrs msg.capacity) [n] seen out (some r) := by
  intro h
  have hmem : ∀ a, msg.Referenced a → a ∈ msg.records.map RpcTensor.id := by
    intro a ha
    obtain ⟨t, -, ht, -⟩ := hsound a ha
    exact Message.ptrs_mem ht
  have hout : out ⊆ msg.records.map RpcTensor.id := by
    intro a ha
    rcases h.reached a ha with hold | ⟨n', hn', hpath⟩
    · exact hmem a (hrecords a hold)
    · rw [mem_singleton.mp hn'] at hpath
      exact hmem a ⟨n, hn, hpath⟩
  have hlength : out.length ≤ msg.records.length := by
    have hle := (subperm_of_subset (h.nodup hseen) hout).length_le
    rwa [length_map] at hle
  have hpos : 0 < msg.nodes.length := length_pos_of_mem hn
  obtain ⟨n', hn', c, hpath, hstop⟩ := h.halted
  rw [mem_singleton.mp hn'] at hpath
  obtain ⟨t, tensor, ht, hdes⟩ := hsound c ⟨n, hn, hpath⟩
  have hroom : out.length < msg.capacity := by
    rw [Message.capacity, Nat.mod_eq_of_lt hcapacity]
    omega
  have hinto : deserializeInto server msg.capacity out.length t = .ok (some tensor) := by
    rw [deserializeInto, hdes]
    show (ggmlAssert (decide (out.length < msg.capacity)) >>= fun _ => _) = _
    rw [decide_eq_true hroom]
    rfl
  rw [refuse, ht] at hstop
  dsimp only at hstop
  rw [hinto] at hstop
  cases hstop

/-- **The server accepts a message whose records are all in order.** -/
theorem sound_goes_through (hsound : Sound server msg) (hcapacity : msg.nodes.length + msg.records.length < 2 ^ 32)
    {ids seen : List UInt64} {o : Outcome} (h : NodesWalk server msg.ptrs msg.capacity ids seen o)
    (hids : ids ⊆ msg.nodes) (hseen : seen.Nodup) (hrecords : ∀ a ∈ seen, msg.Referenced a) : o = .handed false := by
  induction h with
  | nil seen => rfl
  | @node id ids seen mid o hwalk _ ih =>
    refine ih (fun a ha => hids (mem_cons_of_mem _ ha)) (hwalk.nodup hseen) fun a ha => ?_
    rcases hwalk.reached a ha with hold | ⟨n, hn, hpath⟩
    · exact hrecords a hold
    · rw [mem_singleton.mp hn] at hpath
      exact ⟨id, hids (mem_cons_self ..), hpath⟩
  | null hwalk _ _ =>
    exact (hsound.not_halted hcapacity (hids (mem_cons_self ..)) hseen hrecords hwalk).elim
  | refused hwalk _ =>
    exact (hsound.not_halted hcapacity (hids (mem_cons_self ..)) hseen hrecords hwalk).elim

end

/-! ### The two graphs -/

/-- The data of a tensor of the server is that of a tensor of the client. -/
structure SameData (t : ClientTensor) (tensor : Tensor) : Prop where
  type : tensor.type = t.type
  ne : tensor.ne = t.ne
  nb : tensor.nb = t.nb
  op : tensor.op = t.op
  opParams : tensor.opParams = t.opParams
  flags : tensor.flags = t.flags
  data : tensor.data = t.data
  viewOffs : tensor.viewOffs = t.viewOffs
  name : tensor.name = t.name

/-- **The graphs are isomorphic**: a one-to-one correspondence of the tensors that the nodes lead to, which keeps the
order of the nodes, the data of each tensor and its references. -/
def Corresponds (client : Client) (g : Graph) : Prop :=
  ∃ f : UInt64 → ℕ, Set.BijOn f {id | client.Reaches id} {p | g.Reaches p} ∧
    g.nodes = client.nodes.map (fun id => some (f id)) ∧
    ∀ id t, client.Reaches id → client.tensor id = some t →
      ∃ c, g.tensors[f id]? = some c ∧ SameData t c.2 ∧
        ∀ link, c.2.link link = if t.link link = 0 then none else some (f (t.link link))

def Narrow (d : Dims) : Prop := d.d0 < 2 ^ 32 ∧ d.d1 < 2 ^ 32 ∧ d.d2 < 2 ^ 32 ∧ d.d3 < 2 ^ 32

/-- **The dimensions and strides of the tensors that are sent fit into 32 bits.** -/
def Client.Narrow (client : Client) : Prop :=
  ∀ id t, client.Reaches id → client.tensor id = some t → Rpc.Narrow t.ne ∧ Rpc.Narrow t.nb

def Client.Placed (client : Client) (server : Server) : Prop :=
  ∀ id t, client.Reaches id → client.tensor id = some t →
    ∃ handle b, t.buffer = some handle ∧ server.findBuffer handle = some b ∧
      b.base.toNat ≤ t.data.toNat ∧ t.data.toNat + nbytes t.type t.ne t.nb ≤ b.base.toNat + b.size.toNat

theorem narrow_dims (d : Dims) :
    (⟨(narrow d 0).toNat, (narrow d 1).toNat, (narrow d 2).toNat, (narrow d 3).toNat⟩ : Dims) = d ↔ Narrow d := by
  obtain ⟨d0, d1, d2, d3⟩ := d
  have hmod : ∀ x : ℕ, (UInt32.ofNat x).toNat = x ↔ x < 2 ^ 32 := by
    intro x
    rw [UInt32.toNat_ofNat']
    constructor
    · intro h
      rw [← h]
      exact Nat.mod_lt _ (by decide)
    · exact Nat.mod_eq_of_lt
  rw [Narrow, Dims.mk.injEq]
  exact and_congr (hmod d0) (and_congr (hmod d1) (and_congr (hmod d2) (hmod d3)))

theorem serializeTensor_name (id : UInt64) (t : ClientTensor) : (serializeTensor id t).tensorName = t.name := by
  obtain ⟨hlen, hnul⟩ := t.name.2
  have hbytes : List.ofFn (serializeTensor id t).name
      = t.name.1 ++ List.replicate (ggmlMaxName - t.name.1.length) 0 := by
    refine List.ext_getElem (by simp; omega) fun i h1 h2 => ?_
    rw [List.getElem_ofFn]
    show t.name.1.getD i 0 = _
    by_cases hi : i < t.name.1.length
    · rw [List.getElem_append_left hi, List.getD_eq_getElem _ _ hi]
    · rw [List.getElem_append_right (Nat.le_of_not_lt hi), List.getElem_replicate,
        List.getD_eq_default _ _ (Nat.le_of_not_lt hi)]
  have hcut : cStr (t.name.1 ++ List.replicate (ggmlMaxName - t.name.1.length) 0) = t.name.1 := by
    have hpos : ggmlMaxName - t.name.1.length = (ggmlMaxName - t.name.1.length - 1) + 1 := by omega
    rw [cStr, takeWhile_append_of_pos, hpos, replicate_succ, takeWhile_cons_of_neg (by simp),
      append_nil]
    intro a ha
    simp only [decide_eq_true_iff]
    rintro rfl
    exact hnul ha
  refine Subtype.ext ?_
  show (cStr (List.ofFn (serializeTensor id t).name)).take (ggmlMaxName - 1) = t.name.1
  rw [hbytes, hcut, take_of_length_le (Nat.le_sub_one_of_lt hlen)]

theorem code_toNat (type : GgmlType) : (UInt32.ofNat type.code).toNat = type.code ∧ type.code < ggmlTypeCount := by
  cases type <;> exact ⟨rfl, by decide⟩

theorem serializeTensor_type (id : UInt64) (t : ClientTensor) :
    GgmlType.ofCode (serializeTensor id t).type.toNat = some t.type := by
  rw [GgmlType.ofCode_eq_some_iff]
  exact (code_toNat t.type).1.symm

section

variable {server : Server} {id : UInt64} {t : ClientTensor}

theorem sameData_iff {tensor : Tensor} (hbare : tensor.bare = newTensor server t.type (serializeTensor id t))
    (hoffs : tensor.viewOffs = t.viewOffs) : SameData t tensor ↔ Narrow t.ne ∧ Narrow t.nb := by
  have hne : tensor.ne = (serializeTensor id t).dims := congrArg Tensor.ne hbare
  have hnb : tensor.nb = (serializeTensor id t).strides := congrArg Tensor.nb hbare
  constructor
  · intro h
    exact ⟨(narrow_dims t.ne).mp (hne.symm.trans h.ne), (narrow_dims t.nb).mp (hnb.symm.trans h.nb)⟩
  · rintro ⟨hne', hnb'⟩
    exact {
      type := congrArg Tensor.type hbare
      ne := hne.trans ((narrow_dims t.ne).mpr hne')
      nb := hnb.trans ((narrow_dims t.nb).mpr hnb')
      op := congrArg Tensor.op hbare
      opParams := congrArg Tensor.opParams hbare
      flags := congrArg Tensor.flags hbare
      data := congrArg Tensor.data hbare
      viewOffs := hoffs
      name := (congrArg Tensor.name hbare).trans (serializeTensor_name id t) }

theorem deserialize_serialize {handle : UInt64} {b : Buffer} (hhandle : t.buffer = some handle)
    (hb : server.findBuffer handle = some b) (hle : b.base.toNat ≤ t.data.toNat)
    (hend : t.data.toNat + nbytes t.type t.ne t.nb ≤ b.base.toNat + b.size.toNat) (hne : Narrow t.ne)
    (hnb : Narrow t.nb) :
    deserializeTensor server (serializeTensor id t) = .ok (some (newTensor server t.type (serializeTensor id t))) := by
  have hdims : (serializeTensor id t).dims = t.ne := (narrow_dims t.ne).mpr hne
  have hstrides : (serializeTensor id t).strides = t.nb := (narrow_dims t.nb).mpr hnb
  have hbuffer : (serializeTensor id t).buffer = handle := by
    show t.buffer.getD 0 = handle
    rw [hhandle, Option.getD_some]
  have hchecked : dataChecked server t.type (serializeTensor id t) = true := by
    rw [dataChecked, hbuffer, hb, hdims, hstrides]
    refine (inBuffer_iff).mpr ⟨hle, ?_⟩
    rwa [UInt64.toNat_ofNat_of_lt' (nbytes_lt t.type t.ne t.nb)]
  have hcount : ¬ ggmlTypeCount ≤ (serializeTensor id t).type.toNat := by
    obtain ⟨hcode, hlt⟩ := code_toNat t.type
    show ¬ ggmlTypeCount ≤ (UInt32.ofNat t.type.code).toNat
    omega
  rw [deserializeTensor, if_neg hcount, serializeTensor_type]
  dsimp only
  rw [hchecked]
  rfl

end

section

variable {server : Server} {client : Client} {msg : Message} {g : Graph}

theorem Faithful.sound (h : Faithful client msg) (hplaced : client.Placed server) (hnarrow : client.Narrow) :
    Sound server msg := by
  intro id hid
  have hreach := (h.referenced_iff id).mp hid
  obtain ⟨r, hr⟩ := h.recorded id hreach
  obtain ⟨t, ht, rfl⟩ := h.record id r hr
  obtain ⟨handle, b, hhandle, hb, hle, hend⟩ := hplaced id t hreach ht
  obtain ⟨hne, hnb⟩ := hnarrow id t hreach ht
  exact ⟨_, _, hr, deserialize_serialize hhandle hb hle hend hne hnb⟩

theorem Faithful.tensor_at (h : Faithful client msg) (hrebuilt : Rebuilt server msg g) {id : UInt64}
    (hreach : client.Reaches id) {t : ClientTensor} (ht : client.tensor id = some t) :
    ∃ p c, g.tensors.find id = some p ∧ g.tensors[p]? = some c ∧
      c.2.bare = newTensor server t.type (serializeTensor id t) ∧ c.2.viewOffs = t.viewOffs ∧
      ∀ link, if t.link link = 0 then c.2.link link = none
        else ∃ q, c.2.link link = some q ∧ g.tensors.find (t.link link) = some q := by
  obtain ⟨p, hp⟩ := hrebuilt.find_referenced ((h.referenced_iff id).mpr hreach)
  obtain ⟨c, hmem, hc, rfl⟩ := Created.getElem_find hp
  obtain ⟨r, tensor, hr, hdes, hbare, hoffs, hlinks⟩ := hrebuilt.linked c hmem
  obtain ⟨t', ht', rfl⟩ := h.record c.1 r hr
  obtain rfl := Option.some.inj (ht.symm.trans ht')
  obtain ⟨type, htype, -, -, rfl⟩ := deserializeTensor_eq_ok hdes
  obtain rfl := Option.some.inj (htype.symm.trans (serializeTensor_type c.1 t))
  refine ⟨p, c, hp, hc, hbare, hoffs, fun link => ?_⟩
  have hlink := hlinks link
  rwa [serializeTensor_link] at hlink

theorem Faithful.corresponds (h : Faithful client msg) (hrebuilt : Rebuilt server msg g) (hnarrow : client.Narrow) :
    Corresponds client g := by
  have hfind : ∀ {id}, client.Reaches id → g.tensors.find id = some ((g.tensors.find id).getD 0) := by
    intro id hid
    obtain ⟨p, hp⟩ := hrebuilt.find_referenced ((h.referenced_iff id).mpr hid)
    rw [hp, Option.getD_some]
  refine ⟨fun id => (g.tensors.find id).getD 0, ⟨?_, ?_, ?_⟩, ?_, ?_⟩
  · intro id hid
    exact (reach_iff hrebuilt _).mpr ⟨id, (h.referenced_iff id).mpr hid, hfind hid⟩
  · intro id hid id' hid' heq
    have h1 := hfind hid
    have h2 := hfind hid'
    obtain ⟨c, -, hc, rfl⟩ := Created.getElem_find h1
    obtain ⟨c', -, hc', rfl⟩ := Created.getElem_find h2
    dsimp only at heq
    rw [heq, hc'] at hc
    rw [Option.some.inj hc]
  · intro p hp
    obtain ⟨id, hid, hidp⟩ := (reach_iff hrebuilt p).mp hp
    refine ⟨id, (h.referenced_iff id).mp hid, ?_⟩
    dsimp only
    rw [hidp, Option.getD_some]
  · rw [hrebuilt.nodes_eq, h.nodes]
    refine map_congr_left fun id hid => hfind ⟨id, hid, .refl⟩
  · intro id t hid ht
    obtain ⟨p, c, hp, hc, hbare, hoffs, hlinks⟩ := h.tensor_at hrebuilt hid ht
    refine ⟨c, ?_, (sameData_iff hbare hoffs).mpr (hnarrow id t hid ht), fun link => ?_⟩
    · dsimp only
      rwa [hp, Option.getD_some]
    · have hlink := hlinks link
      split_ifs at hlink ⊢ with hzero
      · exact hlink
      · obtain ⟨q, hq, hqfind⟩ := hlink
        dsimp only
        rw [hq, hqfind, Option.getD_some]

theorem Corresponds.find (h : Faithful client msg) (hrebuilt : Rebuilt server msg g) {f : UInt64 → ℕ}
    (hnodes : g.nodes = client.nodes.map fun id => some (f id))
    (hlinks : ∀ id t, client.Reaches id → client.tensor id = some t →
      ∃ c, g.tensors[f id]? = some c ∧ SameData t c.2 ∧
        ∀ link, c.2.link link = if t.link link = 0 then none else some (f (t.link link)))
    {id : UInt64} (hid : client.Reaches id) : g.tensors.find id = some (f id) := by
  obtain ⟨n, hn, hpath⟩ := hid
  induction hpath with
  | refl =>
    rw [hrebuilt.nodes_eq, h.nodes] at hnodes
    exact map_inj_left.mp hnodes n hn
  | @tail x y hpath hstep ih =>
    obtain ⟨t, link, ht, rfl, hne⟩ := hstep
    obtain ⟨p, c, hp, hc, -, -, hlinked⟩ := h.tensor_at hrebuilt ⟨n, hn, hpath⟩ ht
    obtain ⟨c', hc', -, hcorr⟩ := hlinks x t ⟨n, hn, hpath⟩ ht
    obtain rfl := Option.some.inj (hp.symm.trans ih)
    obtain rfl := Option.some.inj (hc.symm.trans hc')
    have hlink := hlinked link
    rw [if_neg hne] at hlink
    obtain ⟨q, hq, hqfind⟩ := hlink
    rw [hcorr link, if_neg hne] at hq
    rw [hqfind, Option.some.inj hq]

theorem Corresponds.narrow (hcorr : Corresponds client g) (h : Faithful client msg)
    (hrebuilt : Rebuilt server msg g) : client.Narrow := by
  obtain ⟨f, -, hnodes, hlinks⟩ := hcorr
  intro id t hid ht
  obtain ⟨p, c, hp, hc, hbare, hoffs, -⟩ := h.tensor_at hrebuilt hid ht
  obtain ⟨c', hc', hsame, -⟩ := hlinks id t hid ht
  obtain rfl := Option.some.inj (hp.symm.trans (Corresponds.find h hrebuilt hnodes hlinks hid))
  obtain rfl := Option.some.inj (hc.symm.trans hc')
  exact (sameData_iff hbare hoffs).mp hsame

theorem Faithful.narrow (h : Faithful client msg) {steps : ℕ} (hsteps : msg.records.length < steps)
    (hg : rebuildGraph server steps msg = .ok (some g)) (hcorr : Corresponds client g) : client.Narrow := by
  have hnull : g.nodes.any Option.isNone = false := by
    obtain ⟨f, -, hnodes, -⟩ := hcorr
    rw [hnodes, any_eq_false]
    intro x hx
    obtain ⟨id, -, rfl⟩ := mem_map.mp hx
    simp
  rcases rebuildGraph_spec server msg hsteps with ⟨g', hg', -, hrebuilt⟩ | ⟨hnone, -⟩ | ⟨f, hf, -⟩
  · obtain rfl := Option.some.inj (Except.ok.inj (hg'.symm.trans hg))
    exact hcorr.narrow h (hrebuilt hnull)
  · rw [hnone] at hg
    cases hg
  · rw [hf] at hg
    cases hg

theorem Faithful.arrives (h : Faithful client msg) (hplaced : client.Placed server) (hnarrow : client.Narrow)
    (hcapacity : msg.nodes.length + msg.records.length < 2 ^ 32) {steps : ℕ} (hsteps : msg.records.length < steps) :
    ∃ g, rebuildGraph server steps msg = .ok (some g) ∧ Corresponds client g := by
  have hgo : ∀ {o}, NodesWalk server msg.ptrs msg.capacity msg.nodes [] o → o = .handed false := fun ho =>
    sound_goes_through (h.sound hplaced hnarrow) hcapacity ho (List.Subset.refl _) nodup_nil (by simp)
  rcases rebuildGraph_spec server msg hsteps with ⟨g, hg, hwalk, hrebuilt⟩ | ⟨-, hwalk⟩ | ⟨f, -, hwalk⟩
  · exact ⟨g, hg, h.corresponds (hrebuilt (Outcome.handed.inj (hgo hwalk))) hnarrow⟩
  · cases hgo hwalk
  · cases hgo hwalk

end

/-- **The graph of the client arrives exactly when every dimension and every stride fits into 32 bits.** -/
theorem graph_arrives_iff (server : Server) (device : UInt32) (client : Client)
    (hdevice : device.toNat < server.backends) (hplaced : client.Placed server) (fuel : ℕ)
    (hfuel : client.addresses.length < fuel) :
    ∃ output, serializeGraph fuel device client = some output ∧
      (output.length < 2 ^ 31 → ∀ steps, output.length < steps →
        ((∃ g, graphCompute server steps output = .ok (some g) ∧ Corresponds client g) ↔ client.Narrow)) := by
  obtain ⟨msg, hmsg, hfaithful⟩ := client.message_faithful hfuel
  refine ⟨msg.bytes device, by rw [serializeGraph, hmsg]; rfl, fun hsize steps hsteps => ?_⟩
  rw [msg.bytes_length, sizeofRpcTensor] at hsize hsteps
  have hparse := @parseMessage_bytes server device hdevice msg (by omega) (by omega)
  have hrun : graphCompute server steps (msg.bytes device) = rebuildGraph server steps msg := by
    rw [graphCompute, hparse]
  rw [hrun]
  constructor
  · rintro ⟨g, hg, hcorr⟩
    exact hfaithful.narrow (by omega) hg hcorr
  · intro hnarrow
    exact hfaithful.arrives hplaced hnarrow (by omega) (by omega)

def oneTensor (t : ClientTensor) (hlinks : ∀ link, t.link link = 0) : Client where
  tensor id := if id = 1 then some t else none
  addresses := [1]
  nodes := [1]
  finite id t' h := by
    split at h
    · rename_i hid
      exact mem_singleton.mpr hid
    · cases h
  null := rfl
  closed id t' link h hne := by
    split at h
    · rw [← Option.some.inj h] at hne
      exact (hne (hlinks link)).elim
    · cases h
  nodes_isSome id hid := by rw [mem_singleton.mp hid]; rfl

theorem oneTensor_tensor {t t' : ClientTensor} {hlinks : ∀ link, t.link link = 0} {id : UInt64}
    (h : (oneTensor t hlinks).tensor id = some t') : t' = t := by
  dsimp only [oneTensor] at h
  split at h
  · exact (Option.some.inj h).symm
  · cases h

def rowTensor : ClientTensor :=
  ⟨.f32, some 7, ⟨4, 1, 1, 1⟩, ⟨4, 16, 16, 16⟩, 0, fun _ => 0, 0, fun _ => 0, 0, 0, 0x10000, ggmlSetName [116]⟩

theorem rowTensor_link (link : Link) : rowTensor.link link = 0 := by
  cases link <;> rfl

/-- `GGML_OP_ADD` of the row and itself. -/
def sumTensor : ClientTensor := { rowTensor with op := 2, src := fun i => if i.val < 2 then 1 else 0 }

theorem sumTensor_link (link : Link) : sumTensor.link link = 0 ∨ sumTensor.link link = 1 := by
  cases link with
  | view => exact Or.inl rfl
  | src i => exact (ite_eq_or_eq (i.val < 2) 1 0).symm

def sumGraph : Client where
  tensor id := if id = 1 then some rowTensor else if id = 2 then some sumTensor else none
  addresses := [1, 2]
  nodes := [1, 2]
  finite id t h := by
    split_ifs at h with h1 h2 <;> simp [*]
  null := rfl
  closed id t link h hne := by
    split_ifs at h
    · rw [← Option.some.inj h] at hne
      exact absurd (rowTensor_link link) hne
    · rw [← Option.some.inj h] at hne ⊢
      rw [(sumTensor_link link).resolve_left hne]
      rfl
  nodes_isSome id hid := by rcases mem_pair.mp hid with rfl | rfl <;> rfl

/-- Its two nodes arrive, the row once. -/
theorem graph_arrives_row :
    ∃ output, serializeGraph 3 0 sumGraph = some output ∧ (output.length < 2 ^ 31 → ∀ steps, output.length < steps →
      ((∃ g, graphCompute oneBuffer steps output = .ok (some g) ∧ Corresponds sumGraph g) ↔ sumGraph.Narrow)) := by
  refine graph_arrives_iff oneBuffer 0 sumGraph (by decide) ?_ 3 (by decide)
  intro id t _ ht
  dsimp only [sumGraph] at ht
  split_ifs at ht <;> obtain rfl := Option.some.inj ht <;> exact ⟨7, firstBuffer, rfl, rfl, by decide, by decide⟩

/-- A tensor of 16 GiB: four rows of `2 ^ 30` numbers of 32 bits. -/
def wideTensor : ClientTensor :=
  ⟨.f32, some 7, ⟨2 ^ 30, 4, 1, 1⟩, ⟨4, 2 ^ 32, 2 ^ 34, 2 ^ 34⟩, 0, fun _ => 0, 0, fun _ => 0, 0, 0, 0x10000,
    ggmlSetName [116]⟩

theorem wideTensor_link (link : Link) : wideTensor.link link = 0 := by
  cases link <;> rfl

def wideBuffer : Buffer := ⟨7, 0x10000, 0x400000000, firstBuffer.handle_ne, by decide⟩

def wideServer : Server := ⟨1, [wideBuffer], pairwise_singleton _ _⟩

/-- The stride of a row is cut to 0 on the way, and no isomorphic graph is rebuilt. -/
theorem wide_graph_changes :
    (oneTensor wideTensor wideTensor_link).Placed wideServer ∧
      ∃ output, serializeGraph 2 0 (oneTensor wideTensor wideTensor_link) = some output ∧ output.length < 2 ^ 31 ∧
        ∀ steps, output.length < steps →
          ¬ ∃ g, graphCompute wideServer steps output = .ok (some g) ∧
            Corresponds (oneTensor wideTensor wideTensor_link) g := by
  obtain ⟨msg, hmsg, hfaithful⟩ := @Client.message_faithful (oneTensor wideTensor wideTensor_link) 2 (by decide)
  have hrecord : (oneTensor wideTensor wideTensor_link).message 2
      = some ⟨[1], [serializeTensor 1 wideTensor]⟩ := rfl
  obtain rfl := Option.some.inj (hrecord.symm.trans hmsg)
  refine ⟨?_, _, by rw [serializeGraph, hmsg]; rfl, by rw [Message.bytes_length]; decide, fun steps hsteps => ?_⟩
  · intro id t _ ht
    rw [oneTensor_tensor ht]
    exact ⟨7, wideBuffer, rfl, rfl, by decide, by decide⟩
  · rintro ⟨g, hg, hcorr⟩
    rw [Message.bytes_length] at hsteps
    have hparse := @parseMessage_bytes wideServer 0 (by decide) ⟨[1], [serializeTensor 1 wideTensor]⟩ (by simp)
      (by simp)
    rw [graphCompute, hparse] at hg
    have hnarrow := hfaithful.narrow (by simp [sizeofRpcTensor] at hsteps ⊢; omega) hg hcorr 1 wideTensor
      ⟨1, mem_singleton_self _, .refl⟩ rfl
    exact absurd hnarrow.2.2.1 (by decide)

end Rpc
