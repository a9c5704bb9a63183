import LlamaRafaelia.Gguf.RoundTrip

/-!
# GGUF: the alignment of a context and of its file

The alignment is kept twice: as `ctx->alignment`, which offsets are computed with, and as the pair
`general.alignment`, which a reader goes by.  Loading a file sets both; the setters change the pair only.

* `alignment_kept` - **calls that leave the value of the alignment alone keep the two equal**, and then every file that
  is written is accepted.
-/

namespace Gguf

open ByteReader

/-! ### Loaded contexts -/

section

variable {mem : Memory}

theorem storableKv_of_record {kv kv' : List GgufKv} {b : List UInt8} (h : KvRecord mem kv b kv')
    (hkv : ∀ e ∈ kv, StorableKv e) : ∀ e ∈ kv', StorableKv e := by
  obtain ⟨e, n, v, -, hhead, ⟨-, hvalues⟩, hkey, -, rfl⟩ := h
  intro e' he'
  rcases List.mem_append.mp he' with he' | he'
  · exact hkv e' he'
  · obtain rfl := List.mem_singleton.mp he'
    refine ⟨hkey, hhead.type_ne, n, hhead.single, ?_⟩
    have htype_ne := hhead.type_ne
    cases htype : e'.type with
    | string =>
      rw [htype] at hvalues
      obtain ⟨hdata, hlen, -⟩ := hvalues
      exact ⟨hdata, hlen⟩
    | bool =>
      rw [htype] at hvalues
      obtain ⟨hlen, heq⟩ := hvalues
      rw [Prod.mk.injEq] at heq
      refine ⟨heq.2, ?_⟩
      rw [heq.1, List.length_map, hlen]
      exact (Nat.mul_one n).symm
    | array => exact (htype_ne htype).elim
    | _ =>
      rw [htype] at hvalues
      obtain ⟨hlen, heq⟩ := hvalues
      rw [Prod.mk.injEq] at heq
      exact ⟨heq.2, heq.1 ▸ hlen⟩

theorem packed_of_dataSize {a s size : ℕ} {info : List GgufTensorInfo} (h : dataSize a s info = some size)
    (hs : s ≤ sizeMax) : Packed a s info := by
  induction info generalizing s with
  | nil => trivial
  | cons ti rest ih =>
    have hmax : sizeMax = 2 ^ 64 - 1 := rfl
    obtain ⟨hoff, hle, h⟩ := (dataSize_cons).mp h
    refine ⟨?_, ih h (by omega)⟩
    rw [hoff, Nat.mod_eq_of_lt (by omega)]

theorem coherent_loaded {params : GgufInitParams} {file : List UInt8} {l : Loaded}
    (h : ggufInitFromFileImpl mem params file = .ok (some l)) : Coherent l.ctx := by
  obtain ⟨b, rest, ctx, offset, size, -, hmeta, hsize, hfrom⟩ := accepted h
  obtain ⟨bk, bi, -, hheader, hkv, halign, hpow, hinfo, -⟩ := hmeta
  have hstorable := hkv.invariant (fun kv => ∀ e ∈ kv, StorableKv e)
    (fun _ _ _ hI hrec => storableKv_of_record hrec hI) (by simp)
  have hnames : (ctx.info.map fun ti => ti.t.name).Nodup := List.pairwise_map.mpr (names_distinct hinfo)
  have hpacked := packed_of_dataSize hsize (Nat.zero_le _)
  cases hfrom with
  | metadata => exact ⟨hheader.version_eq, hstorable, keys_distinct hkv, halign, hpow, hnames, hpacked⟩
  | noAlloc => exact ⟨hheader.version_eq, hstorable, keys_distinct hkv, halign, hpow, hnames, hpacked⟩
  | data blob _ => exact ⟨hheader.version_eq, hstorable, keys_distinct hkv, halign, hpow, hnames, hpacked⟩

end

/-! ### Reachable contexts -/

/-- The contexts that are reached from `gguf_init_empty` or from a file by calls that meet the condition. -/
inductive Reaches (ok : GgufContext → Op → Prop) : GgufContext → Prop
  | empty : Reaches ok ggufInitEmpty
  | load {mem : Memory} {params : GgufInitParams} {file : List UInt8} {l : Loaded}
      (h : ggufInitFromFileImpl mem params file = .ok (some l)) : Reaches ok l.ctx
  | call {ctx ctx' : GgufContext} {op : Op} (hctx : Reaches ok ctx) (hop : ok ctx op)
      (hstep : step ctx op = .ok ctx') : Reaches ok ctx'

theorem reaches_run {ok : GgufContext → Op → Prop} {ops : List Op} (hops : ∀ ctx, ∀ op ∈ ops, ok ctx op)
    {ctx ctx' : GgufContext} (h : Reaches ok ctx) (hrun : run ctx ops = .ok ctx') : Reaches ok ctx' :=
  run_rule (fun ctx _ _ hop hctx hstep => .call hctx (hops ctx _ hop) hstep) h hrun

theorem coherent_of_reaches {ctx : GgufContext} (h : Reaches StepOk ctx) : Coherent ctx := by
  induction h with
  | empty => exact coherent_empty
  | load h => exact coherent_loaded h
  | call _ hop hstep ih => exact coherent_step ih hop hstep

/-- **The alignment of a context is that of its file** as long as the calls leave its value alone, and what was written
is accepted. -/
theorem alignment_kept {ctx : GgufContext} (h : Reaches StepOk ctx) :
    alignmentOf ctx.kv = .ok ctx.alignment ∧
      ∀ mem file, Complete mem ctx → ggufWriteToFile mem ctx false = .ok file →
        ∀ mem' params, Roomy mem' (readMemory params ctx) →
          ∃ l, ggufInitFromFileImpl mem' params file = .ok (some l) ∧ SameContent params ctx file l := by
  have hctx := coherent_of_reaches h
  refine ⟨hctx.alignment, fun mem file hcomplete hwrite mem' params hmem => ?_⟩
  rw [ggufWriteToFile_eq_ok hctx hcomplete.stored] at hwrite
  obtain rfl := Except.ok.inj hwrite
  exact ⟨readResult params ctx, reads_fileBytes hctx hcomplete hmem, sameContent_readResult hctx hcomplete params⟩

/-! ### Two runs -/

def alignmentKey : CString := ⟨ggufKeyGeneralAlignment, by decide⟩

def alignedOps (alignment : UInt32) : List Op :=
  [.setVal alignmentKey (.u32 alignment), .addTensor (row ⟨[0x61], by decide⟩ .f32 4 (some fun _ => 1)),
    .addTensor (row ⟨[0x62], by decide⟩ .f32 4 (some fun _ => 2))]

/-- The context after these calls: the offsets are for an alignment of 32. -/
def alignedContext (alignment : UInt32) : GgufContext :=
  { ggufInitEmpty with
    kv := [⟨ggufKeyGeneralAlignment, false, .uint32, leBytes 4 alignment.toNat, []⟩]
    info := [⟨row ⟨[0x61], by decide⟩ .f32 4 (some fun _ => 1), 0⟩,
      ⟨row ⟨[0x62], by decide⟩ .f32 4 (some fun _ => 2), 32⟩] }

theorem alignment_kept_default :
    alignmentOf (alignedContext 32).kv = .ok (alignedContext 32).alignment ∧
      ∀ mem file, Complete mem (alignedContext 32) → ggufWriteToFile mem (alignedContext 32) false = .ok file →
        ∀ mem' params, Roomy mem' (readMemory params (alignedContext 32)) →
          ∃ l, ggufInitFromFileImpl mem' params file = .ok (some l) ∧
            SameContent params (alignedContext 32) file l := by
  have hset : StepOk ggufInitEmpty (.setVal alignmentKey (.u32 32)) :=
    ⟨lone_of_nulFree coherent_empty.keys (by simp [NulFree, ggufInitEmpty]) _, fun _ => by decide⟩
  have hfirst : step ggufInitEmpty (.setVal alignmentKey (.u32 32)) = .ok { alignedContext 32 with info := [] } := rfl
  have hrest : run { alignedContext 32 with info := [] } (alignedOps 32).tail = .ok (alignedContext 32) := rfl
  refine alignment_kept (reaches_run (fun ctx op hop => ?_) (.call .empty hset hfirst) hrest)
  simp only [alignedOps, List.tail_cons, List.mem_cons, List.not_mem_nil, or_false] at hop
  rcases hop with rfl | rfl
  · trivial
  · trivial

/-- Setting the alignment to 64 before the tensors are added: the offsets are those of an alignment of 32, and the file
is not accepted. -/
theorem setAlignment_rejected :
    Reaches (fun _ _ => True) (alignedContext 64) ∧
      alignmentOf (alignedContext 64).kv ≠ .ok (alignedContext 64).alignment ∧
      (do
        let file ← ggufWriteToFile terabyte (alignedContext 64) false
        let l ← ggufInitFromFileImpl terabyte ⟨true, false⟩ file
        return l.isSome) = .ok false := by
  refine ⟨?_, ?_, by decide +kernel⟩
  · have hrun : run ggufInitEmpty (alignedOps 64) = .ok (alignedContext 64) := rfl
    exact reaches_run (fun _ _ _ => trivial) .empty hrun
  · decide

end Gguf
