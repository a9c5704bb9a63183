import LlamaRafaelia.Alloc.Tallocr
import Mathlib.Logic.Function.Basic
import Mathlib.Algebra.Group.Nat.Even

/-!
# Allocator: the addresses of a graph

`ggml_gallocr_reserve` walks a computation graph and gives every tensor an address: leafs, inputs, then each node in
turn.  A tensor is freed when the counters of its children and views are zero, and a node that can work in place takes
the address of a parent that nobody else needs.  A tensor is a number; there is one buffer, so the buffer ids are left
out.

* `allocGraphImpl` - the three passes of `ggml_gallocr_alloc_graph_impl`.
-/

namespace Alloc

/-- The operations of `ggml_op_can_inplace`, `GGML_OP_NONE`, and the code of any other. -/
inductive Op where
  | none | scale | diagMaskZero | diagMaskInf | add | addId | add1 | sub | mul | div | sqr | sqrt | log | unary | rope
  | ropeBack | siluBack | rmsNorm | rmsNormBack | softMax | softMaxBack
  | other (code : ℕ)
deriving DecidableEq, Repr

/-- `ggml_op_can_inplace`. -/
def Op.canInplace : Op → Bool
  | .none => false
  | .other _ => false
  | _ => true

/-- What `ggml_are_same_layout` compares: the type, the numbers of elements and the strides. -/
structure Layout where
  type : ℕ
  ne : List ℕ
  nb : List ℕ
deriving DecidableEq, Repr

/-- A tensor as the allocator sees it. -/
structure GTensor where
  op : Op
  layout : Layout
  /-- `ggml_nbytes`. -/
  nbytes : ℕ
  /-- `ggml_backend_buft_get_alloc_size`. -/
  allocSize : ℕ
  src : List (Option ℕ)
  viewSrc : Option ℕ
  viewOffs : ℕ
  input : Bool
  output : Bool
  /-- The address of a tensor that was allocated before. -/
  data : Option ℕ
deriving DecidableEq, Repr

/-- `struct ggml_cgraph`: the tensors behind the pointers, the nodes in their order, and the leafs. -/
structure Graph where
  tensor : ℕ → GTensor
  nodes : List ℕ
  leafs : List ℕ

namespace Graph

variable (g : Graph)

/-- `ggml_is_view`. -/
def isView (t : ℕ) : Bool := (g.tensor t).viewSrc.isSome

/-- `ggml_are_same_layout`. -/
def areSameLayout (a b : ℕ) : Bool := (g.tensor a).layout = (g.tensor b).layout

def parents (t : ℕ) : List ℕ := (g.tensor t).src.filterMap id

end Graph

/-- `struct hash_node`. -/
structure HashNode where
  nChildren : ℤ
  nViews : ℤ
  addr : BufferAddress
  allocated : Bool
deriving DecidableEq, Repr

/-- An entry after `memset`. -/
def HashNode.zero : HashNode := ⟨0, 0, ⟨0, 0⟩, false⟩

/-- The hash table and the allocator of the buffer. -/
structure State where
  hash : ℕ → HashNode
  talloc : DynTallocr

namespace State

def modify (s : State) (t : ℕ) (f : HashNode → HashNode) : State :=
  { s with hash := Function.update s.hash t (f (s.hash t)) }

/-- `ggml_gallocr_is_own`. -/
def isOwn (s : State) (t : ℕ) : Bool := (s.hash t).allocated

/-- `ggml_gallocr_is_allocated`. -/
def isAllocated (g : Graph) (s : State) (t : ℕ) : Bool := (g.tensor t).data.isSome || (s.hash t).allocated

end State

/-! ### One node -/

/-- `ggml_gallocr_free_extra_space`: what the parent has and the node does not need. -/
def freeExtraSpace (g : Graph) (node parent : ℕ) (s : State) : Except Abort State :=
  let parentSize := (g.tensor parent).allocSize
  let nodeSize := (g.tensor node).allocSize
  if parentSize < nodeSize then .error .assertion
  else if nodeSize < parentSize then do
    let pAddr := (s.hash parent).addr
    let talloc ← s.talloc.freeTensor { pAddr with offset := pAddr.offset + nodeSize } (parentSize - nodeSize)
    return { s with talloc := talloc }
  else .ok s

/-- The tests of the loop over the parents: the node may take the memory of the parent. -/
def canReuse (g : Graph) (s : State) (node parent : ℕ) : Bool :=
  s.isOwn parent &&
  -- outputs cannot be reused
  !((g.tensor parent).output || ((g.tensor parent).viewSrc.any fun viewSrc => (g.tensor viewSrc).output)) &&
  g.areSameLayout node parent &&
  (s.hash parent).nChildren == 1 && (s.hash parent).nViews == 0 &&
  ((g.tensor parent).viewSrc.all fun viewSrc =>
    (s.hash viewSrc).nViews == 1 && (s.hash viewSrc).nChildren == 0 &&
      (g.tensor viewSrc).data == (g.tensor parent).data)

/-- The node takes the address of a parent, or of a parent's view source. -/
def reuseParent (g : Graph) (node parent : ℕ) (s : State) : Except Abort State :=
  let s := s.modify node fun hn => { hn with addr := (s.hash parent).addr }
  let s := s.modify parent fun hn => { hn with allocated := false }
  match (g.tensor parent).viewSrc with
  | none => freeExtraSpace g node parent s
  | some viewSrc => freeExtraSpace g node viewSrc (s.modify viewSrc fun hn => { hn with allocated := false })

def allocateFresh (g : Graph) (node : ℕ) (s : State) : Except Abort State := do
  let (addr, talloc) ← s.talloc.alloc (g.tensor node).allocSize
  return { s.modify node fun hn => { hn with addr := addr } with talloc := talloc }

/-- `ggml_gallocr_allocate_node`. -/
def allocateNode (g : Graph) (node : ℕ) (s : State) : Except Abort State :=
  if !s.isAllocated g node && !g.isView node then
    let s := s.modify node fun hn => { hn with allocated := true }
    if (g.tensor node).op.canInplace then
      match (g.parents node).find? (canReuse g s node) with
      | some parent => reuseParent g node parent s
      | none => allocateFresh g node s
    else allocateFresh g node s
  else .ok s

/-- `ggml_gallocr_free_node`. -/
def freeNode (g : Graph) (node : ℕ) (s : State) : Except Abort State :=
  -- graph outputs are never freed
  if (g.tensor node).output then .ok s
  else do
    let talloc ← s.talloc.freeTensor (s.hash node).addr (g.tensor node).allocSize
    return { s.modify node fun hn => { hn with allocated := false } with talloc := talloc }

/-! ### The passes over the graph -/

/-- A view that is a node counts at its source; `GGML_OP_NONE` is a dependency and not a view of its own. -/
def countView (g : Graph) (node : ℕ) (s : State) : State :=
  match (g.tensor node).viewSrc with
  | some viewSrc =>
    if (g.tensor node).op = .none then s else s.modify viewSrc fun hn => { hn with nViews := hn.nViews + 1 }
  | none => s

def allocateInput (g : Graph) (t : ℕ) (s : State) : Except Abort State :=
  if (g.tensor t).input then allocateNode g t s else .ok s

def countChild (g : Graph) (src : ℕ) (s : State) : Except Abort State :=
  allocateInput g src (s.modify src fun hn => { hn with nChildren := hn.nChildren + 1 })

/-- The count of the children and views of one node, and the allocation of the inputs. -/
def countNode (g : Graph) (node : ℕ) (s : State) : Except Abort State := do
  let s ← allocateInput g node (countView g node s)
  (g.parents node).foldlM (fun s src => countChild g src s) s

/-- The end of a read: the parent, or the tensor behind it, may be freed. -/
def updateParent (g : Graph) (parent : ℕ) (s : State) : Except Abort State :=
  let s := s.modify parent fun hn => { hn with nChildren := hn.nChildren - 1 }
  if (s.hash parent).nChildren = 0 ∧ (s.hash parent).nViews = 0 then
    match (g.tensor parent).viewSrc with
    | some viewSrc =>
      let s := s.modify viewSrc fun hn => { hn with nViews := hn.nViews - 1 }
      if (s.hash viewSrc).nViews = 0 ∧ (s.hash viewSrc).nChildren = 0 ∧ (s.hash viewSrc).allocated then
        freeNode g viewSrc s
      else .ok s
    | none => if (s.hash parent).allocated then freeNode g parent s else .ok s
  else .ok s

def allocateStep (g : Graph) (node : ℕ) (s : State) : Except Abort State := do
  let s ← (g.parents node).foldlM (fun s parent => allocateNode g parent s) s
  allocateNode g node s

def nodeStep (g : Graph) (node : ℕ) (s : State) : Except Abort State := do
  let s ← allocateStep g node s
  (g.parents node).foldlM (fun s parent => updateParent g parent s) s

/-- `ggml_gallocr_alloc_graph_impl` with all buffer ids 0, after `ggml_dyn_tallocr_reset`. -/
def allocGraphImpl (g : Graph) (alignment maxChunkSize : ℕ) : Except Abort State := do
  let s := ⟨fun _ => .zero, ⟨alignment, maxChunkSize, []⟩⟩
  let s ← g.leafs.foldlM (fun s leaf => allocateNode g leaf s) s
  let s ← g.nodes.foldlM (fun s node => countNode g node s) s
  g.nodes.foldlM (fun s node => nodeStep g node s) s

end Alloc
