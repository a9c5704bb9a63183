import LlamaRafaelia.Alloc.Runs

/-!
# Allocator: reserving a graph

`ggml_gallocr_reserve` runs the passes, writes the addresses down by position and makes the buffer large enough.  
`ggml_gallocr_alloc_graph` reserves the plan anew if it does not fit, and gives the tensors their addresses.

* `Graph.Live`, `Graph.TakesOver`, `Graph.NoClobber` - **no node overwrites what is still needed**.
-/

namespace Alloc

/-! ### The plan -/

/-- `struct tensor_alloc`; no address stands for the buffer id -1 and `GGML_BUFFER_ADDRESS_INVALID`. -/
structure TensorAlloc where
  addr : Option BufferAddress
  sizeMax : ℕ
deriving DecidableEq, Repr

def TensorAlloc.invalid : TensorAlloc := ⟨none, 0⟩

/-- `struct node_alloc`. -/
structure NodeAlloc where
  dst : TensorAlloc
  src : List TensorAlloc
deriving DecidableEq, Repr

/-- `struct ggml_gallocr` with one buffer: the sizes of its chunks. -/
structure Galloc where
  alignment : ℕ
  maxChunkSize : ℕ
  nodeAllocs : List NodeAlloc
  leafAllocs : List TensorAlloc
  buffer : Option (List ℕ)
deriving DecidableEq, Repr

/-- `ggml_gallocr_new`: the plan is empty and there is no buffer. -/
def Galloc.new (alignment maxBufferSize : ℕ) : Galloc := ⟨alignment, min maxBufferSize (sizeMax / 2), [], [], none⟩

def tensorAlloc (g : Graph) (s : State) (t : ℕ) : TensorAlloc :=
  if (g.tensor t).viewSrc.isSome ∨ (g.tensor t).data.isSome then .invalid
  else ⟨some (s.hash t).addr, (g.tensor t).allocSize⟩

def nodeAlloc (g : Graph) (s : State) (node : ℕ) : NodeAlloc :=
  ⟨tensorAlloc g s node, (g.tensor node).src.map fun src =>
    match src with
    | none => .invalid
    | some src => tensorAlloc g s src⟩

/-- The buffer has to be allocated anew: there is none, or a chunk is too small. -/
def bufferTooSmall (buffer : Option (List ℕ)) (talloc : DynTallocr) : Bool :=
  match buffer with
  | none => true
  | some sizes => (talloc.chunks.zipIdx).any fun (chunk, c) => sizes.getD c 0 < chunk.maxSize

/-- `ggml_gallocr_reserve`: `none` when the backend has no memory.  `backend` is `ggml_backend_buft_alloc_buffer`: the
size of the buffer that it makes for a chunk. -/
def Galloc.reserve (backend : ℕ → Option ℕ) (galloc : Galloc) (g : Graph) : Except Abort (Option Galloc) := do
  let s ← allocGraphImpl g galloc.alignment galloc.maxChunkSize
  let galloc := { galloc with nodeAllocs := g.nodes.map (nodeAlloc g s), leafAllocs := g.leafs.map (tensorAlloc g s) }
  if bufferTooSmall galloc.buffer s.talloc then
    return (s.talloc.chunks.mapM fun chunk => backend chunk.maxSize).map fun sizes => { galloc with buffer := some sizes }
  else return some galloc

/-- `ggml_gallocr_node_needs_realloc`: despite the name, whether the entry is good for the tensor. -/
def nodeNeedsRealloc (g : Graph) (t : ℕ) (talloc : TensorAlloc) : Bool :=
  if (g.tensor t).data.isNone ∧ (g.tensor t).viewSrc.isNone then
    talloc.addr.isSome && (g.tensor t).allocSize ≤ talloc.sizeMax
  else true

def Galloc.leafEntries (galloc : Galloc) (g : Graph) : List (ℕ × TensorAlloc) := g.leafs.zip galloc.leafAllocs

def sourceEntries (g : Graph) (node : ℕ) (nodeAlloc : NodeAlloc) : List (ℕ × TensorAlloc) :=
  (g.tensor node).src.zipIdx.filterMap fun (src, j) => src.map fun src => (src, nodeAlloc.src.getD j .invalid)

/-- The sources and the nodes with their entries in the plan, in the order of `ggml_gallocr_alloc_graph`. -/
def Galloc.nodeEntries (galloc : Galloc) (g : Graph) : List (ℕ × TensorAlloc) :=
  (g.nodes.zip galloc.nodeAllocs).flatMap fun x => sourceEntries g x.1 x.2 ++ [(x.1, x.2.dst)]

/-- `ggml_gallocr_needs_realloc`. -/
def Galloc.needsRealloc (galloc : Galloc) (g : Graph) : Bool :=
  galloc.nodeAllocs.length != g.nodes.length || galloc.leafAllocs.length != g.leafs.length ||
    (galloc.nodeEntries g).any fun (t, talloc) => !nodeNeedsRealloc g t talloc

/-- `ggml_gallocr_init_tensor` over the addresses that were given: a tensor that has one keeps it. -/
def initTensor (g : Graph) (galloc : Galloc) (given : ℕ → Option BufferAddress) (entry : ℕ × TensorAlloc) :
    Except Abort (ℕ → Option BufferAddress) :=
  let (t, talloc) := entry
  if (g.tensor t).viewSrc.isSome ∨ (g.tensor t).data.isSome ∨ (given t).isSome then .ok given
  else
    match talloc.addr with
    | none => .error .assertion
    | some addr =>
      -- the tensor has to lie inside of its chunk
      match galloc.buffer.bind fun sizes => sizes[addr.chunk]? with
      | none => .error .nullPointer
      | some size =>
        if addr.offset + (g.tensor t).allocSize ≤ size then .ok (Function.update given t (some addr))
        else .error .assertion

/-- The plan that `ggml_gallocr_alloc_graph` uses: the old one, or a new one. -/
def Galloc.replan (backend : ℕ → Option ℕ) (galloc : Galloc) (g : Graph) : Except Abort (Option Galloc) :=
  if galloc.needsRealloc g then galloc.reserve backend g else .ok (some galloc)

def Galloc.initTensors (galloc : Galloc) (g : Graph) : Except Abort (ℕ → Option BufferAddress) :=
  (galloc.leafEntries g ++ galloc.nodeEntries g).foldlM (initTensor g galloc) fun _ => none

/-- `ggml_gallocr_alloc_graph` with one buffer: the addresses of the tensors; `none` when it returns false. -/
def Galloc.allocGraph (backend : ℕ → Option ℕ) (galloc : Galloc) (g : Graph) :
    Except Abort (Option (ℕ → Option BufferAddress)) := do
  match ← galloc.replan backend g with
  | none => return none
  | some galloc => return some (← galloc.initTensors g)

/-! ### What must not happen -/

namespace Graph

variable (g : Graph)

def owner (t : ℕ) : ℕ := (g.tensor t).viewSrc.getD t

/-- The memory of a tensor: its own, or a part of the memory of its source. -/
def memory (addr : ℕ → BufferAddress) (t : ℕ) : Set (ℕ × ℕ) :=
  match (g.tensor t).viewSrc with
  | none => (addr t).range (g.tensor t).allocSize
  | some r => BufferAddress.range ⟨(addr r).chunk, (addr r).offset + (g.tensor t).viewOffs⟩ (g.tensor t).nbytes

def ReadBy (l : List ℕ) (t : ℕ) : Prop := ∃ p ∈ g.reads l, p = t ∨ (g.tensor p).viewSrc = some t

/-- The tensor holds data that is still needed when the first of the nodes `rest` is written. -/
def Live (before rest : List ℕ) (t : ℕ) : Prop :=
  g.Written before t ∧ ((g.tensor t).output = true ∨ g.ReadBy rest t)

/-- A node works in the memory of a source that nobody reads later. -/
structure TakesOver (addr : ℕ → BufferAddress) (after : List ℕ) (n t : ℕ) : Prop where
  parent : t ∈ g.parents n
  inplace : (g.tensor n).op.canInplace = true
  layout : (g.tensor n).layout = (g.tensor t).layout
  addr : addr n = addr t
  output : (g.tensor t).output = false
  unread : ¬ g.ReadBy after t

/-- **No node overwrites what is still needed**: when a node is written, its memory is apart from that of every tensor
that is still needed, unless it takes over a source.  Tensors that share their memory by being views, and tensors that
were allocated before, are not the allocator's concern. -/
def NoClobber (addr : ℕ → BufferAddress) : Prop :=
  ∀ before n after, g.nodes = before ++ n :: after → ∀ t, g.Live before (n :: after) t → g.owner n ≠ g.owner t →
    g.Plain (g.owner n) → g.Plain (g.owner t) →
    Disjoint (g.memory addr n) (g.memory addr t) ∨ g.TakesOver addr after n t

def room (addr : ℕ → BufferAddress) (t : ℕ) : Set (ℕ × ℕ) :=
  (addr (g.owner t)).range (g.tensor (g.owner t)).allocSize

def Separate (addr : ℕ → BufferAddress) : Prop :=
  ∀ before n after, g.nodes = before ++ n :: after → ∀ t, g.Live before (n :: after) t → g.owner n ≠ g.owner t →
    g.Plain (g.owner n) → g.Plain (g.owner t) →
    Disjoint (g.room addr n) (g.room addr t) ∨ g.TakesOver addr after n t

/-- **No node reads an output that is a view**, unless the tensor behind it is an output as well or was allocated
before. -/
def OutputsKept : Prop :=
  ∀ v ∈ g.nodes, (g.tensor v).output = true → ∀ r, (g.tensor v).viewSrc = some r → (g.tensor r).data = none →
    v ∈ g.reads g.nodes → (g.tensor r).output = true

end Graph

end Alloc
