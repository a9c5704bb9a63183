import LlamaRafaelia.Rpc.Graph

/-!
# RPC: which messages hand a safe graph to the backend

A graph is safe when its nodes are not null and every block of a tensor that a node leads to lies inside one live
buffer.  The server divides by zero for a type number that was removed, hands over null nodes for the id 0, and does
not look at the data of a record without a live buffer, nor at a byte size that wraps.

* `reach_iff` - **the tensors that the nodes lead to are those of the ids that the message refers to**;
* `safe_iff` - **a message is safe exactly when** its walk meets no removed type number, and, when it is accepted, no
  node is null and every record that is referred to fits.
-/

namespace Rpc

open List Gguf Created

/-! ### The nodes -/

/-- What becomes of a message: the graph is handed over, with or without a null node, or the message is refused. -/
inductive Outcome where
  | handed (null : Bool)
  | refused (r : Refusal)
deriving DecidableEq

def Outcome.withNull : Outcome → Outcome
  | .handed _ => .handed true
  | .refused r => .refused r

section

variable (server : Server) (ptrs : UInt64 → Option RpcTensor) (capacity : ℕ)

/-- The walks from the nodes, one after the other.  A node with the id 0 may be rejected, and is null then. -/
inductive NodesWalk : List UInt64 → List UInt64 → Outcome → Prop
  | nil (seen : List UInt64) : NodesWalk [] seen (.handed false)
  | node {id : UInt64} {ids seen mid : List UInt64} {o : Outcome}
      (h : Walk (refs ptrs) (refuse server ptrs capacity) [id] seen mid none) (rest : NodesWalk ids mid o) :
      NodesWalk (id :: ids) seen o
  | null {ids seen mid : List UInt64} {o : Outcome}
      (h : Walk (refs ptrs) (refuse server ptrs capacity) [0] seen mid (some .rejected)) (rest : NodesWalk ids mid o) :
      NodesWalk (0 :: ids) seen o.withNull
  | refused {id : UInt64} {ids seen mid : List UInt64} {r : Refusal}
      (h : Walk (refs ptrs) (refuse server ptrs capacity) [id] seen mid (some r)) (hr : r = .rejected → id ≠ 0) :
      NodesWalk (id :: ids) seen (.refused r)

end

section

variable {server : Server} {ptrs : UInt64 → Option RpcTensor} {capacity : ℕ}

def NodesResult (server : Server) (ptrs : UInt64 → Option RpcTensor) (capacity : ℕ) (ids seen : List UInt64) :
    Except Stop (Option (List (Option ℕ)) × Created) → Prop
  | .ok (some l, _) => NodesWalk server ptrs capacity ids seen (.handed (l.any Option.isNone))
  | .ok (none, _) => NodesWalk server ptrs capacity ids seen (.refused .rejected)
  | .error (.fault f) => NodesWalk server ptrs capacity ids seen (.refused (.fault f))
  | .error .outOfFuel => True

theorem createNodes_cons (fuel : ℕ) (id : UInt64) (ids : List UInt64) (s : Created) :
    createNodes server ptrs capacity fuel (id :: ids) s = (createNode server ptrs capacity fuel id s).bind fun x =>
      if x.1 = none ∧ id ≠ 0 then .ok (none, x.2)
      else (createNodes server ptrs capacity fuel ids x.2).bind fun y => .ok (y.1.map fun l => x.1 :: l, y.2) := by
  rw [createNodes]
  rfl

theorem createNodes_walk (fuel : ℕ) (ids : List UInt64) (s : Created) :
    NodesResult server ptrs capacity ids s.keys (createNodes server ptrs capacity fuel ids s) := by
  induction ids generalizing s with
  | nil => exact .nil _
  | cons id ids ih =>
    have hwalk := @createNode_walk server ptrs capacity fuel id s
    rw [createNodes_cons]
    cases hr : createNode server ptrs capacity fuel id s with
    | error e =>
      rw [hr] at hwalk
      cases e with
      | fault f =>
        obtain ⟨out, hout⟩ := hwalk
        exact .refused hout (fun h => by cases h)
      | outOfFuel => trivial
    | ok x =>
      obtain ⟨p, s1⟩ := x
      rw [hr] at hwalk
      have hrest := ih s1
      show NodesResult server ptrs capacity (id :: ids) s.keys (if p = none ∧ id ≠ 0 then .ok (none, s1)
        else (createNodes server ptrs capacity fuel ids s1).bind fun y => .ok (y.1.map fun l => p :: l, y.2))
      cases p with
      | some p =>
        rw [if_neg (by simp)]
        revert hrest
        generalize createNodes server ptrs capacity fuel ids s1 = r
        intro hrest
        rcases r with (f | _) | ⟨_ | l, s2⟩
        · exact .node hwalk hrest
        · trivial
        · exact .node hwalk hrest
        · exact .node hwalk hrest
      | none =>
        by_cases hid : id = 0
        · subst hid
          rw [if_neg (by simp)]
          revert hrest
          generalize createNodes server ptrs capacity fuel ids s1 = r
          intro hrest
          rcases r with (f | _) | ⟨_ | l, s2⟩
          · exact .null hwalk hrest
          · trivial
          · exact .null hwalk hrest
          · exact .null hwalk hrest
        · rw [if_pos ⟨rfl, hid⟩]
          exact .refused hwalk fun _ => hid

theorem createNodes_linked {fuel : ℕ} {ids : List UInt64} {s s' : Created} {l : List (Option ℕ)}
    (h : createNodes server ptrs capacity fuel ids s = .ok (some l, s')) (hnull : l.any Option.isNone = false) :
    ∃ new, s' = s ++ new ∧ (∀ c ∈ new, Linked server ptrs s' c) ∧ l = ids.map s'.find := by
  induction ids generalizing s l with
  | nil =>
    obtain ⟨hl, rfl⟩ := Prod.mk.inj (Except.ok.inj h)
    obtain rfl := Option.some.inj hl
    exact ⟨[], (append_nil _).symm, by simp, rfl⟩
  | cons id ids ih =>
    rw [createNodes] at h
    obtain ⟨⟨p, s1⟩, hp, h⟩ := (Except.bind_eq_ok_iff).mp h
    dsimp only at h
    split at h
    · cases h
    · obtain ⟨⟨o, s2⟩, hrest, h⟩ := (Except.bind_eq_ok_iff).mp h
      obtain ⟨hl, hs⟩ := Prod.mk.inj (Except.ok.inj h)
      change s2 = s' at hs
      subst hs
      cases o with
      | none => cases hl
      | some l1 =>
        obtain rfl := Option.some.inj hl
        rw [any_cons, Bool.or_eq_false_iff] at hnull
        cases p with
        | none => cases hnull.1
        | some p =>
          obtain ⟨new1, rfl, hfind, hnew1⟩ := createNode_linked fuel id s p s1 hp
          obtain ⟨new2, rfl, hnew2, rfl⟩ := ih hrest hnull.2
          have hkeys : keys (s ++ new1 ++ new2) = keys (s ++ new1) ++ keys new2 :=
            keys_append _ _
          refine ⟨new1 ++ new2, append_assoc .., fun c hc => ?_, ?_⟩
          · rcases mem_append.mp hc with hc | hc
            · exact (hnew1 c hc).mono hkeys
            · exact hnew2 c hc
          · rw [map_cons, find_of_keys hkeys hfind]

theorem createNodes_terminates {records : List UInt64} (hrecords : ∀ id t, ptrs id = some t → id ∈ records)
    {fuel : ℕ} (ids : List UInt64) {s : Created} (hfuel : unseen records s < fuel) :
    createNodes server ptrs capacity fuel ids s ≠ .error .outOfFuel := by
  induction ids generalizing s with
  | nil => exact fun h => by cases h
  | cons id ids ih =>
    rw [createNodes_cons]
    have hfirst := @createNode_terminates server ptrs capacity records hrecords fuel id s hfuel
    cases hr : createNode server ptrs capacity fuel id s with
    | error e =>
      intro h
      cases e with
      | fault f => cases h
      | outOfFuel => exact hfirst hr
    | ok x =>
      obtain ⟨p, s1⟩ := x
      have hrest := ih (lt_of_le_of_lt (unseen_le (createNode_keys hr)) hfuel)
      show (if p = none ∧ id ≠ 0 then .ok (none, s1)
        else (createNodes server ptrs capacity fuel ids s1).bind fun y => .ok (y.1.map fun l => p :: l, y.2)) ≠ Except.error Stop.outOfFuel
      split
      · exact fun h => by cases h
      · intro h
        cases hr2 : createNodes server ptrs capacity fuel ids s1 with
        | error e =>
          rw [hr2] at h
          cases e with
          | fault f => cases h
          | outOfFuel => exact hrest hr2
        | ok y =>
          rw [hr2] at h
          cases h

end

/-! ### What the nodes lead to -/

def Points (s : Created) (p q : ℕ) : Prop := ∃ c link, s[p]? = some c ∧ c.2.link link = some q

/-- A tensor that a node leads to through `src` and `view_src`. -/
def Graph.Reaches (g : Graph) (p : ℕ) : Prop :=
  ∃ n, some n ∈ g.nodes ∧ Relation.ReflTransGen (Points g.tensors) n p

def Message.Referenced (msg : Message) (id : UInt64) : Prop :=
  ∃ n ∈ msg.nodes, Relation.ReflTransGen (fun x y => y ∈ refs msg.ptrs x) n id

theorem Created.getElem_find {s : Created} {id : UInt64} {p : ℕ} (h : s.find id = some p) :
    ∃ c ∈ s, s[p]? = some c ∧ c.1 = id := by
  obtain ⟨hp, hid, -⟩ := findIdx?_eq_some_iff_getElem.mp h
  exact ⟨s[p], getElem_mem hp, getElem?_eq_getElem hp, by simpa using hid⟩

theorem mem_refs {ptrs : UInt64 → Option RpcTensor} {id r : UInt64} {t : RpcTensor} (ht : ptrs id = some t) :
    r ∈ refs ptrs id ↔ ∃ link, t.link link = r ∧ r ≠ 0 := by
  rw [refs, ht]
  simp only [mem_filter, mem_map, decide_eq_true_iff]
  constructor
  · rintro ⟨⟨link, -, hlink⟩, hr⟩
    exact ⟨link, hlink, hr⟩
  · rintro ⟨link, hlink, hr⟩
    exact ⟨⟨link, mem_links link, hlink⟩, hr⟩

section

variable {server : Server} {ptrs : UInt64 → Option RpcTensor} {s : Created}

theorem Points.find {p q : ℕ} {id : UInt64} (hall : ∀ c ∈ s, Linked server ptrs s c) (hp : s.find id = some p)
    (h : Points s p q) : ∃ r ∈ refs ptrs id, s.find r = some q := by
  obtain ⟨c, link, hc, hq⟩ := h
  obtain ⟨c', hmem, hc', rfl⟩ := getElem_find hp
  obtain rfl := Option.some.inj (hc'.symm.trans hc)
  obtain ⟨t, -, ht, -, -, -, hlinks⟩ := hall c' hmem
  have hlink := hlinks link
  split at hlink
  · rw [hlink] at hq
    cases hq
  · rename_i hr
    obtain ⟨q', hq', hfind⟩ := hlink
    obtain rfl := Option.some.inj (hq'.symm.trans hq)
    exact ⟨t.link link, (mem_refs ht).mpr ⟨link, rfl, hr⟩, hfind⟩

theorem points_of_refs {p : ℕ} {id r : UInt64} (hall : ∀ c ∈ s, Linked server ptrs s c) (hp : s.find id = some p)
    (hr : r ∈ refs ptrs id) : ∃ q, s.find r = some q ∧ Points s p q := by
  obtain ⟨c, hmem, hc, rfl⟩ := getElem_find hp
  obtain ⟨t, -, ht, -, -, -, hlinks⟩ := hall c hmem
  obtain ⟨link, rfl, hne⟩ := (mem_refs ht).mp hr
  have hlink := hlinks link
  rw [if_neg hne] at hlink
  obtain ⟨q, hq, hfind⟩ := hlink
  exact ⟨q, hfind, c, link, hc, hq⟩

theorem paths_find {p q : ℕ} {id : UInt64} (hall : ∀ c ∈ s, Linked server ptrs s c) (hp : s.find id = some p)
    (h : Relation.ReflTransGen (Points s) p q) :
    ∃ r, Relation.ReflTransGen (fun x y => y ∈ refs ptrs x) id r ∧ s.find r = some q := by
  induction h with
  | refl => exact ⟨id, .refl, hp⟩
  | tail _ hstep ih =>
    obtain ⟨r, hr, hfind⟩ := ih
    obtain ⟨r', hr', hfind'⟩ := hstep.find hall hfind
    exact ⟨r', hr.tail hr', hfind'⟩

theorem paths_of_refs {p : ℕ} {id r : UInt64} (hall : ∀ c ∈ s, Linked server ptrs s c) (hp : s.find id = some p)
    (h : Relation.ReflTransGen (fun x y => y ∈ refs ptrs x) id r) :
    ∃ q, s.find r = some q ∧ Relation.ReflTransGen (Points s) p q := by
  induction h with
  | refl => exact ⟨p, hp, .refl⟩
  | tail _ hstep ih =>
    obtain ⟨q, hq, hpath⟩ := ih
    obtain ⟨q', hq', hpoints⟩ := points_of_refs hall hq hstep
    exact ⟨q', hq', hpath.tail hpoints⟩

end

/-- A graph that was rebuilt from a message without null nodes. -/
structure Rebuilt (server : Server) (msg : Message) (g : Graph) : Prop where
  linked : ∀ c ∈ g.tensors, Linked server msg.ptrs g.tensors c
  nodes_eq : g.nodes = msg.nodes.map g.tensors.find
  nonnull : none ∉ g.nodes

/-- **The tensors that the nodes lead to are those of the ids that the message refers to.** -/
theorem reach_iff {server : Server} {msg : Message} {g : Graph} (h : Rebuilt server msg g) (p : ℕ) :
    g.Reaches p ↔ ∃ id, msg.Referenced id ∧ g.tensors.find id = some p := by
  constructor
  · rintro ⟨n, hn, hpath⟩
    rw [h.nodes_eq, mem_map] at hn
    obtain ⟨id, hid, hfind⟩ := hn
    obtain ⟨r, hr, hrp⟩ := paths_find h.linked hfind hpath
    exact ⟨r, ⟨id, hid, hr⟩, hrp⟩
  · rintro ⟨r, ⟨id, hid, hr⟩, hrp⟩
    cases hfind : g.tensors.find id with
    | none =>
      refine (h.nonnull ?_).elim
      rw [h.nodes_eq, mem_map]
      exact ⟨id, hid, hfind⟩
    | some n =>
      obtain ⟨q, hq, hpath⟩ := paths_of_refs h.linked hfind hr
      obtain rfl := Option.some.inj (hq.symm.trans hrp)
      refine ⟨n, ?_, hpath⟩
      rw [h.nodes_eq, mem_map]
      exact ⟨id, hid, hfind⟩

theorem Rebuilt.find_referenced {server : Server} {msg : Message} {g : Graph} (h : Rebuilt server msg g)
    {id : UInt64} (hid : msg.Referenced id) : ∃ p, g.tensors.find id = some p := by
  obtain ⟨n, hn, hpath⟩ := hid
  cases hfind : g.tensors.find n with
  | none =>
    refine (h.nonnull ?_).elim
    rw [h.nodes_eq, mem_map]
    exact ⟨n, hn, hfind⟩
  | some p =>
    obtain ⟨q, hq, -⟩ := paths_of_refs h.linked hfind hpath
    exact ⟨q, hq⟩

/-! ### Blocks inside a buffer -/

def Positive (ne : Dims) : Prop := 0 < ne.d0 ∧ 0 < ne.d1 ∧ 0 < ne.d2 ∧ 0 < ne.d3

def IsBlock (type : GgmlType) (ne i : Dims) : Prop :=
  i.d0 * ggmlBlckSize type < ne.d0 ∧ i.d1 < ne.d1 ∧ i.d2 < ne.d2 ∧ i.d3 < ne.d3

instance (ne : Dims) : Decidable (Positive ne) := inferInstanceAs (Decidable (_ ∧ _))

instance (type : GgmlType) (ne i : Dims) : Decidable (IsBlock type ne i) := inferInstanceAs (Decidable (_ ∧ _))

def blockAddress (data : UInt64) (nb i : Dims) : ℕ :=
  data.toNat + (i.d0 * nb.d0 + i.d1 * nb.d1 + i.d2 * nb.d2 + i.d3 * nb.d3)

/-- **Every block of a tensor lies inside one live buffer.** -/
def Tensor.InOneBuffer (server : Server) (t : Tensor) : Prop :=
  ∃ b ∈ server.buffers, ∀ i, IsBlock t.type t.ne i →
    b.base.toNat ≤ blockAddress t.data t.nb i ∧ blockAddress t.data t.nb i < b.base.toNat + b.size.toNat

def lastBlock (type : GgmlType) (ne : Dims) : Dims := ⟨(ne.d0 - 1) / ggmlBlckSize type, ne.d1 - 1, ne.d2 - 1, ne.d3 - 1⟩

def Fits (server : Server) (type : GgmlType) (t : RpcTensor) : Prop :=
  ∃ b ∈ server.buffers, b.base.toNat ≤ t.data.toNat ∧
    blockAddress t.data t.strides (lastBlock type t.dims) < b.base.toNat + b.size.toNat

/-- The checks of the server cover the record: its buffer is live, its byte size does not wrap, and a type with blocks
has whole blocks and a stride. -/
def Guarded (server : Server) (type : GgmlType) (t : RpcTensor) : Prop :=
  (server.findBuffer t.buffer).isSome ∧
    ggmlTypeSize type + t.dims.d0 * t.strides.d0 + (t.dims.d1 - 1) * t.strides.d1 + (t.dims.d2 - 1) * t.strides.d2
      + (t.dims.d3 - 1) * t.strides.d3 < 2 ^ 64 ∧
    (ggmlBlckSize type = 1 ∨ ggmlBlckSize type ∣ t.dims.d0 ∧ 0 < t.strides.d0)

theorem ggmlBlckSize_pos (type : GgmlType) : 0 < ggmlBlckSize type := by
  cases type <;> decide

theorem ggmlTypeSize_pos (type : GgmlType) : 0 < ggmlTypeSize type := by
  cases type <;> decide

theorem isBlock_lastBlock {type : GgmlType} {ne : Dims} (hpos : Positive ne) : IsBlock type ne (lastBlock type ne) := by
  obtain ⟨h0, h1, h2, h3⟩ := hpos
  have hdiv : (ne.d0 - 1) / ggmlBlckSize type * ggmlBlckSize type ≤ ne.d0 - 1 := Nat.div_mul_le_self _ _
  refine ⟨?_, ?_, ?_, ?_⟩ <;> dsimp only [lastBlock] <;> omega

theorem blockAddress_le {type : GgmlType} {ne i : Dims} (h : IsBlock type ne i) (data : UInt64) (nb : Dims) :
    blockAddress data nb i ≤ blockAddress data nb (lastBlock type ne) := by
  obtain ⟨h0, h1, h2, h3⟩ := h
  have hfirst : i.d0 ≤ (ne.d0 - 1) / ggmlBlckSize type := by
    rw [Nat.le_div_iff_mul_le (ggmlBlckSize_pos type)]
    omega
  have m0 := Nat.mul_le_mul_right nb.d0 hfirst
  have m1 := Nat.mul_le_mul_right nb.d1 (Nat.le_sub_one_of_lt h1)
  have m2 := Nat.mul_le_mul_right nb.d2 (Nat.le_sub_one_of_lt h2)
  have m3 := Nat.mul_le_mul_right nb.d3 (Nat.le_sub_one_of_lt h3)
  dsimp only [blockAddress, lastBlock]
  omega

theorem inOneBuffer_iff {server : Server} {type : GgmlType} {t : RpcTensor} {tensor : Tensor}
    (htensor : tensor.bare = newTensor server type t) (hpos : Positive t.dims) :
    tensor.InOneBuffer server ↔ Fits server type t := by
  have htype : tensor.type = type := congrArg Tensor.type htensor
  have hne : tensor.ne = t.dims := congrArg Tensor.ne htensor
  have hnb : tensor.nb = t.strides := congrArg Tensor.nb htensor
  have hdata : tensor.data = t.data := congrArg Tensor.data htensor
  rw [Tensor.InOneBuffer, htype, hne, hnb, hdata]
  constructor
  · rintro ⟨b, hb, hall⟩
    have hfirst := hall ⟨0, 0, 0, 0⟩ ⟨by simpa using hpos.1, hpos.2.1, hpos.2.2.1, hpos.2.2.2⟩
    exact ⟨b, hb, by simpa [blockAddress] using hfirst.1, (hall _ (isBlock_lastBlock hpos)).2⟩
  · rintro ⟨b, hb, hle, hlt⟩
    refine ⟨b, hb, fun i hi => ⟨hle.trans (Nat.le_add_right _ _), ?_⟩⟩
    exact lt_of_le_of_lt (blockAddress_le hi t.data t.strides) hlt

theorem Guarded.lastBlock_lt {server : Server} {type : GgmlType} {t : RpcTensor} (h : Guarded server type t)
    (hpos : Positive t.dims) :
    blockAddress t.data t.strides (lastBlock type t.dims) < t.data.toNat + nbytes type t.dims t.strides := by
  obtain ⟨-, hwrap, hblocks⟩ := h
  have htype := ggmlTypeSize_pos type
  have hzero : ¬(t.dims.d0 = 0 ∨ t.dims.d1 = 0 ∨ t.dims.d2 = 0 ∨ t.dims.d3 = 0) := by
    obtain ⟨h0, h1, h2, h3⟩ := hpos
    omega
  rw [nbytes, ggmlNbytes]
  dsimp only [blockAddress, lastBlock]
  rw [if_neg hzero]
  by_cases hone : ggmlBlckSize type = 1
  · have hmono : (t.dims.d0 - 1) * t.strides.d0 ≤ t.dims.d0 * t.strides.d0 :=
      Nat.mul_le_mul_right _ (Nat.sub_le _ _)
    rw [if_pos hone, hone, Nat.div_one, Nat.mod_eq_of_lt (by omega)]
    omega
  · rcases hblocks with hone' | ⟨⟨k, hk⟩, hstride⟩
    · exact (hone hone').elim
    · have hblck := ggmlBlckSize_pos type
      have hk0 : 0 < k := Nat.pos_of_ne_zero fun hk0 => hpos.1.ne' (by rw [hk, hk0, Nat.mul_zero])
      have hlast : (t.dims.d0 - 1) / ggmlBlckSize type = k - 1 := by
        have hdiv := Nat.mul_sub_div 0 (ggmlBlckSize type) k (Nat.mul_pos hblck hk0)
        rwa [Nat.zero_add, Nat.zero_div, Nat.zero_add, ← hk] at hdiv
      have hwhole : t.dims.d0 * t.strides.d0 / ggmlBlckSize type = k * t.strides.d0 := by
        rw [hk, Nat.mul_assoc, Nat.mul_div_cancel_left _ hblck]
      have hle : t.dims.d0 * t.strides.d0 / ggmlBlckSize type ≤ t.dims.d0 * t.strides.d0 := Nat.div_le_self _ _
      have hstep : (k - 1) * t.strides.d0 + t.strides.d0 = k * t.strides.d0 := by
        rw [← Nat.succ_mul, Nat.succ_eq_add_one, Nat.sub_add_cancel hk0]
      have hprod : t.dims.d0 * t.strides.d0 % 2 ^ 64 = t.dims.d0 * t.strides.d0 := Nat.mod_eq_of_lt (by omega)
      rw [if_neg hone, hprod, hlast, hwhole, Nat.mod_eq_of_lt (by omega)]
      omega

theorem Guarded.fits {server : Server} {type : GgmlType} {t : RpcTensor} (h : Guarded server type t)
    (hpos : Positive t.dims) (hchecked : dataChecked server type t = true) : Fits server type t := by
  have hlast := h.lastBlock_lt hpos
  obtain ⟨b, hb⟩ := Option.isSome_iff_exists.mp h.1
  rw [dataChecked, hb] at hchecked
  obtain ⟨hle, hend⟩ := (inBuffer_iff).mp hchecked
  rw [UInt64.toNat_ofNat_of_lt' (nbytes_lt type t.dims t.strides)] at hend
  exact ⟨b, (findBuffer_eq_some hb).1, hle, lt_of_lt_of_le hlast hend⟩

/-! ### Safety -/

/-- **What the rebuilding of a graph guarantees**: it ends without a division by zero, and a graph that is handed to the
backend has no null nodes, and only tensors whose blocks lie inside one live buffer. -/
def Safe (server : Server) (input : List UInt8) : Prop :=
  ∀ fuel, input.length < fuel →
    graphCompute server fuel input ≠ .error .outOfFuel ∧
      graphCompute server fuel input ≠ .error (.fault .divByZero) ∧
      ∀ g, graphCompute server fuel input = .ok (some g) →
        none ∉ g.nodes ∧
          ∀ p c, g.Reaches p → g.tensors[p]? = some c → Positive c.2.ne → c.2.InOneBuffer server

/-- The records that a message refers to are covered by the checks, or fit though nothing checks it. -/
def Message.Covered (server : Server) (msg : Message) : Prop :=
  ∀ id t type, msg.Referenced id → msg.ptrs id = some t → GgmlType.ofCode t.type.toNat = some type →
    Positive t.dims → ¬ Guarded server type t → Fits server type t

/-- **The nodes do no harm**, where `null` says that an earlier node is null.  The ids that a node leads to come up in the
order of the references.  The first record of them that is refused must not have a removed type number, and the message is
refused with it, except that a refused node 0 is null.  A message that is not refused must have no null node, and its
records must be covered. -/
def Harmless (server : Server) (msg : Message) : List UInt64 → List UInt64 → Bool → Prop
  | [], _, null => null = false ∧ msg.Covered server
  | id :: ids, seen, null => ∀ order, Walk.Order (refs msg.ptrs) [id] seen order →
    match Walk.cut (refuse server msg.ptrs msg.capacity) seen order with
    | (seen', none) => Harmless server msg ids seen' null
    | (seen', some r) =>
      if id = 0 ∧ r = .rejected then Harmless server msg ids seen' true else r ≠ .fault .divByZero

/-- **When a message is safe**: it does not pass the checks of its lengths and its device, or its nodes do no harm. -/
def Admissible (server : Server) (input : List UInt8) : Prop :=
  ∀ msg, parseMessage server input = some msg → Harmless server msg msg.nodes [] false

/-- What `Harmless` asks of the outcome. -/
def Outcome.Fine (covered : Prop) : Outcome → Prop
  | .handed null => null = false ∧ covered
  | .refused r => r ≠ .fault .divByZero

theorem parseMessage_records {server : Server} {input : List UInt8} {msg : Message}
    (h : parseMessage server input = some msg) : msg.records.length ≤ input.length := by
  rw [parseMessage] at h
  split at h
  · cases h
  · dsimp only at h
    split at h
    · cases h
    · split at h
      · cases h
      · split at h
        · cases h
        · rename_i hlength
          obtain rfl := Option.some.inj h
          simp only [length_map, length_range, sizeofRpcTensor] at hlength ⊢
          omega

theorem Message.ptrs_mem {msg : Message} {id : UInt64} {t : RpcTensor} (h : msg.ptrs id = some t) :
    id ∈ msg.records.map RpcTensor.id := by
  have hid : t.id = id := by simpa using find?_some h
  exact mem_map.mpr ⟨t, mem_reverse.mp (mem_of_find?_eq_some h), hid⟩

theorem harmless_cons {server : Server} {msg : Message} {id : UInt64} {ids seen mid : List UInt64} {null : Bool}
    {v : Option Refusal} : Walk (refs msg.ptrs) (refuse server msg.ptrs msg.capacity) [id] seen mid v →
    (Harmless server msg (id :: ids) seen null ↔ match v with
      | none => Harmless server msg ids mid null
      | some r => if id = 0 ∧ r = .rejected then Harmless server msg ids mid true else r ≠ .fault .divByZero) := by
  intro h
  have hcut : ∀ order, Walk.Order (refs msg.ptrs) [id] seen order →
      Walk.cut (refuse server msg.ptrs msg.capacity) seen order = (mid, v) := fun _ horder => Walk.cut_eq horder h
  have hmem : ∀ id, refs msg.ptrs id ≠ [] → id ∈ msg.records.map RpcTensor.id := by
    intro id hid
    cases ht : msg.ptrs id with
    | none => exact (hid (by rw [refs, ht])).elim
    | some t => exact Message.ptrs_mem ht
  obtain ⟨order, horder⟩ := Walk.exists_order hmem [id] seen
  rw [Harmless]
  constructor
  · intro hall
    have hfirst := hall order horder
    rw [hcut order horder] at hfirst
    cases v <;> exact hfirst
  · intro hv order' horder'
    rw [hcut order' horder']
    cases v <;> exact hv

theorem NodesWalk.harmless_iff {server : Server} {msg : Message} {ids seen : List UInt64} {o : Outcome}
    (h : NodesWalk server msg.ptrs msg.capacity ids seen o) (null : Bool) :
    Harmless server msg ids seen null ↔ (bif null then o.withNull else o).Fine (msg.Covered server) := by
  induction h generalizing null with
  | nil => cases null <;> rfl
  | node h _ ih => exact (harmless_cons h).trans (ih null)
  | @null _ _ _ o h _ ih =>
    refine (harmless_cons h).trans ?_
    dsimp only
    rw [if_pos ⟨rfl, rfl⟩, ih true]
    cases o <;> cases null <;> rfl
  | refused h hr =>
    refine (harmless_cons h).trans ?_
    dsimp only
    rw [if_neg fun hid => hr hid.2 hid.1]
    cases null <;> rfl

theorem rebuildGraph_spec (server : Server) (msg : Message) {fuel : ℕ} (hfuel : msg.records.length < fuel) :
    (∃ g, rebuildGraph server fuel msg = .ok (some g) ∧
      NodesWalk server msg.ptrs msg.capacity msg.nodes [] (.handed (g.nodes.any Option.isNone)) ∧
      (g.nodes.any Option.isNone = false → Rebuilt server msg g)) ∨
    (rebuildGraph server fuel msg = .ok none ∧
      NodesWalk server msg.ptrs msg.capacity msg.nodes [] (.refused .rejected)) ∨
    ∃ f, rebuildGraph server fuel msg = .error (.fault f) ∧
      NodesWalk server msg.ptrs msg.capacity msg.nodes [] (.refused (.fault f)) := by
  have hwalk := @createNodes_walk server msg.ptrs msg.capacity fuel msg.nodes []
  have hunseen : unseen (msg.records.map RpcTensor.id) [] < fuel := by
    refine lt_of_le_of_lt (Walk.fresh_le_length _ _) ?_
    rwa [length_map]
  have hterm := @createNodes_terminates server msg.ptrs msg.capacity (msg.records.map RpcTensor.id)
    (fun id t h => Message.ptrs_mem h) fuel msg.nodes [] hunseen
  rw [rebuildGraph]
  cases hr : createNodes server msg.ptrs msg.capacity fuel msg.nodes [] with
  | error e =>
    rw [hr] at hwalk
    cases e with
    | fault f => exact .inr (.inr ⟨f, rfl, hwalk⟩)
    | outOfFuel => exact (hterm hr).elim
  | ok x =>
    obtain ⟨o, s⟩ := x
    rw [hr] at hwalk
    cases o with
    | none => exact .inr (.inl ⟨rfl, hwalk⟩)
    | some l =>
      refine .inl ⟨⟨l, s⟩, rfl, hwalk, fun hnull => ?_⟩
      obtain ⟨new, rfl, hnew, hl⟩ := createNodes_linked hr hnull
      refine ⟨hnew, hl, fun hmem => ?_⟩
      rw [any_eq_false] at hnull
      exact hnull none hmem rfl

theorem Rebuilt.inOneBuffer_iff {server : Server} {msg : Message} {g : Graph} (h : Rebuilt server msg g) :
    (∀ p c, g.Reaches p → g.tensors[p]? = some c → Positive c.2.ne → c.2.InOneBuffer server) ↔
      msg.Covered server := by
  constructor
  · intro hall id t type hid ht htype hpos _
    obtain ⟨p, hp⟩ := h.find_referenced hid
    obtain ⟨c, hmem, hc, rfl⟩ := getElem_find hp
    obtain ⟨t', tensor, ht', hdes, hbare, -⟩ := h.linked c hmem
    obtain rfl := Option.some.inj (ht'.symm.trans ht)
    obtain ⟨type', htype', -, -, rfl⟩ := deserializeTensor_eq_ok hdes
    obtain rfl := Option.some.inj (htype'.symm.trans htype)
    have hne : c.2.ne = t'.dims := congrArg Tensor.ne hbare
    exact (Rpc.inOneBuffer_iff hbare hpos).mp (hall p c ((reach_iff h p).mpr ⟨c.1, hid, hp⟩) hc (hne ▸ hpos))
  · intro hall p c hreach hc hpos
    obtain ⟨id, hid, hp⟩ := (reach_iff h p).mp hreach
    obtain ⟨c', hmem, hc', rfl⟩ := getElem_find hp
    obtain rfl := Option.some.inj (hc'.symm.trans hc)
    obtain ⟨t, tensor, ht, hdes, hbare, -⟩ := h.linked c' hmem
    obtain ⟨type, htype, -, hchecked, rfl⟩ := deserializeTensor_eq_ok hdes
    have hne : c'.2.ne = t.dims := congrArg Tensor.ne hbare
    rw [hne] at hpos
    rw [Rpc.inOneBuffer_iff hbare hpos]
    by_cases hguarded : Guarded server type t
    · exact hguarded.fits hpos hchecked
    · exact hall c'.1 t type hid ht htype hpos hguarded

theorem any_isNone_eq_false {l : List (Option ℕ)} : l.any Option.isNone = false ↔ none ∉ l := by
  rw [any_eq_false]
  constructor
  · intro h hmem
    exact h none hmem rfl
  · intro h x hx hnone
    rw [Option.isNone_iff_eq_none.mp hnone] at hx
    exact h hx

def oneNode (t : RpcTensor) : Message := ⟨[t.id], [t]⟩

end Rpc
