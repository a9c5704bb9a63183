import LlamaRafaelia.Kv.StateRead

/-!
# Reading back the tensor rows

`state_read_data` writes the rows it reads into the cells from the head of the stream on.  `Put` says this for
one kind of row: the rows of the cells from `h` on are those of the saved cells `l`, and every other row is
what it was.  It holds of the K and V rows of each layer, for both layouts of V (`stateReadData_run`).
-/

namespace KvCache

open List Checked KvCells Fallible

variable {kp : KvParams} {st st' st'' src : KvCache}

/-- The K row of cell `i` in layer `x`. -/
def kRow (x : KvLayer × ℕ) (st : KvCache) (t i : ℕ) : List UInt8 := rowAt (st.kData x.2 t) x.1.kSizeRow i

/-- The V row of cell `i` in layer `x`; when V is transposed, its elements. -/
def vRow (kp : KvParams) (x : KvLayer × ℕ) (st : KvCache) (t i : ℕ) : List UInt8 :=
  if kp.vTrans then
    (List.range x.1.nEmbdVGqa).flatMap fun j => elemAt (st.vData x.2 t) kp.kvSize x.1.vSizeEl j i
  else rowAt (st.vData x.2 t) x.1.vSizeRow i

/-- Nothing but the tensors differs. -/
structure SameMeta (st st' : KvCache) : Prop where
  vCells : st'.vCells = st.vCells
  vHeads : st'.vHeads = st.vHeads
  scInfo : st'.scInfo = st.scInfo

theorem SameMeta.refl (st : KvCache) : SameMeta st st := ⟨rfl, rfl, rfl⟩

theorem SameMeta.trans (h : SameMeta st st') (h' : SameMeta st' st'') : SameMeta st st'' :=
  ⟨h'.vCells.trans h.vCells, h'.vHeads.trans h.vHeads, h'.scInfo.trans h.scInfo⟩

/-- From `st` to `st'`, the rows of the cells of stream `t` from `h` on became those of the cells `l` of stream
`t0` in `src`. -/
structure Put (kp : KvParams) (src : KvCache) (t0 : ℕ) (l : List ℕ) (t h : ℕ)
    (row : KvCache → ℕ → ℕ → List UInt8) (st st' : KvCache) : Prop where
  new : ∀ k (hk : k < l.length), row st' t (h + k) = row src t0 (l.get ⟨k, hk⟩)
  old : ∀ t' i, i < kp.kvSize → (t' ≠ t ∨ i < h ∨ h + l.length ≤ i) → row st' t' i = row st t' i

/-! ### One tensor -/

theorem tensorSet_self (data : TensorData) (il t off : ℕ) (l : List UInt8) :
    tensorSet data il t off l il t = blit (data il t) off l := by
  simp [tensorSet]

theorem tensorSet_stream (data : TensorData) (il : ℕ) {t t' : ℕ} (off : ℕ) (l : List UInt8) (h : t' ≠ t) :
    tensorSet data il t off l il t' = data il t' := by
  simp [tensorSet, h]

theorem tensorSet_layer (data : TensorData) {il il' : ℕ} (t off : ℕ) (l : List UInt8) (h : il' ≠ il) :
    tensorSet data il t off l il' = data il' := by
  simp [tensorSet, h]

theorem tensorSet_rows (data from_ : TensorData) (il t t0 h sizeRow : ℕ) (l : List ℕ) :
    let data' := tensorSet data il t (h * sizeRow) (l.flatMap (rowAt (from_ il t0) sizeRow))
    (∀ k (hk : k < l.length), rowAt (data' il t) sizeRow (h + k)
      = rowAt (from_ il t0) sizeRow (l.get ⟨k, hk⟩)) ∧
    ∀ t' i, (t' ≠ t ∨ i < h ∨ h + l.length ≤ i) → rowAt (data' il t') sizeRow i = rowAt (data il t') sizeRow i := by
  refine ⟨fun k hk => ?_, fun t' i hi => ?_⟩
  · rw [tensorSet_self, rowAt, Nat.add_mul]
    exact blit_row (fun i => rowAt_length _ _ i) _ _ hk
  · by_cases ht : t' = t
    · subst ht
      rw [tensorSet_self, rowAt, rowAt]
      refine slice_blit_of_disjoint ?_
      rw [flatMap_length_of_rows (fun i => rowAt_length _ _ i), ← Nat.add_mul, ← Nat.succ_mul]
      rcases hi with hne | hlt | hle
      · exact absurd rfl hne
      · exact Or.inl (Nat.mul_le_mul_right sizeRow hlt)
      · exact Or.inr (Nat.mul_le_mul_right sizeRow hle)
    · rw [tensorSet_stream _ _ _ _ ht]

theorem readRows_run (put : KvCache → ℕ → List UInt8 → KvCache) {type sizeRow t count : ℕ} {l : List UInt8}
    (htype : type < 2 ^ 31) (hrow : sizeRow < 2 ^ 64) (hcount : count ≠ 0) (hl : l.length = count * sizeRow)
    (rest : List UInt8) :
    (readRows put type sizeRow t count).run ⟨st, i32 type ++ u64 sizeRow ++ l ++ rest⟩
      = (.ok true, ⟨put st (st.vHeads t * sizeRow) l, rest⟩) := by
  have hmax : llamaPosMax = 2147483647 := rfl
  rw [readRows, append_assoc, append_assoc,
    run_bind_ok (readI32_i32 (by omega) (by norm_num at htype; omega) _)]
  simp only [ne_eq, not_true_eq_false, if_false]
  rw [run_bind_ok (readU64_u64 hrow _)]
  simp only [not_true_eq_false, if_false, hcount]
  rw [run_bind_ok (read_append hl rest), run_bind_ok (onCache_run _ _), run_pure]
  rfl

/-! ### K and V of one layer -/

variable {t0 t h : ℕ} {l : List ℕ}

theorem readK_run (kp : KvParams) (src : KvCache) (t0 : ℕ) (x : KvLayer × ℕ) (hl : l ≠ []) (hhead : st.vHeads t = h) (rest : List UInt8) :
    ∃ st', (readK t l.length x).run ⟨st, kBytes src t0 l x ++ rest⟩ = (.ok true, ⟨st', rest⟩) ∧
      SameMeta st st' ∧ Put kp src t0 l t h (kRow x) st st' ∧ st'.vData = st.vData ∧
      ∀ y : KvLayer × ℕ, y.2 ≠ x.2 → kRow y st' = kRow y st := by
  have hlen := flatMap_length_of_rows (fun i => rowAt_length (src.kData x.2 t0) x.1.kSizeRow i) l
  obtain ⟨hnew, hold⟩ := tensorSet_rows st.kData src.kData x.2 t t0 h x.1.kSizeRow l
  refine ⟨_, readRows_run _ x.1.kType_lt x.1.kSizeRow_lt (mt length_eq_zero_iff.mp hl) hlen rest,
    ⟨rfl, rfl, rfl⟩, ⟨fun k hk => ?_, fun t' i _ hi => ?_⟩, rfl, fun y hy => ?_⟩
  · rw [hhead]
    exact hnew k hk
  · rw [hhead]
    exact hold t' i hi
  · funext t' i
    simp only [kRow, setK, tensorSet_layer _ _ _ _ hy]

theorem elems_disjoint {size i i' n j j' : ℕ} (hi : i' < size) (hn : i + n ≤ size)
    (h : j' ≠ j ∨ i' < i ∨ i + n ≤ i') :
    i' + j' * size + 1 ≤ i + j * size ∨ i + j * size + n ≤ i' + j' * size := by
  rcases Nat.lt_trichotomy j' j with hlt | rfl | hgt
  · have : (j' + 1) * size ≤ j * size := Nat.mul_le_mul_right size hlt
    rw [Nat.succ_mul] at this
    omega
  · omega
  · have : (j + 1) * size ≤ j' * size := Nat.mul_le_mul_right size hgt
    rw [Nat.succ_mul] at this
    omega

theorem tensorSet_elems (data from_ : TensorData) (il t t0 h size sizeEl j : ℕ) (l : List ℕ)
    (hfit : h + l.length ≤ size) :
    let data' := tensorSet data il t ((h + j * size) * sizeEl) (l.flatMap (elemAt (from_ il t0) size sizeEl j))
    (∀ k (hk : k < l.length), elemAt (data' il t) size sizeEl j (h + k)
      = elemAt (from_ il t0) size sizeEl j (l.get ⟨k, hk⟩)) ∧
    ∀ t' i j', i < size → (t' ≠ t ∨ j' ≠ j ∨ i < h ∨ h + l.length ≤ i) →
      elemAt (data' il t') size sizeEl j' i = elemAt (data il t') size sizeEl j' i := by
  refine ⟨fun k hk => ?_, fun t' i j' hi hout => ?_⟩
  · rw [tensorSet_self, elemAt, show (h + k + j * size) * sizeEl = (h + j * size) * sizeEl + k * sizeEl by ring]
    exact blit_row (fun i => elemAt_length _ _ _ _ i) _ _ hk
  · by_cases ht : t' = t
    · subst ht
      rw [tensorSet_self, elemAt, elemAt]
      refine slice_blit_of_disjoint ?_
      rw [flatMap_length_of_rows (fun i => elemAt_length _ _ _ _ i), ← Nat.add_mul, ← Nat.succ_mul]
      have hout' : j' ≠ j ∨ i < h ∨ h + l.length ≤ i := hout.resolve_left (not_not.mpr rfl)
      rcases elems_disjoint hi hfit hout' with hle | hle
      · exact Or.inl (Nat.mul_le_mul_right sizeEl hle)
      · exact Or.inr (Nat.mul_le_mul_right sizeEl hle)
    · rw [tensorSet_stream _ _ _ _ ht]

/-- What the loop over the rows of a transposed V has done after `n` of them. -/
structure ElemsPut (kp : KvParams) (x : KvLayer × ℕ) (src : KvCache) (t0 : ℕ) (l : List ℕ) (t h n : ℕ)
    (st st' : KvCache) : Prop where
  same : SameMeta st st'
  kData : st'.kData = st.kData
  layer : ∀ il, il ≠ x.2 → st'.vData il = st.vData il
  new : ∀ j < n, ∀ k (hk : k < l.length), elemAt (st'.vData x.2 t) kp.kvSize x.1.vSizeEl j (h + k)
    = elemAt (src.vData x.2 t0) kp.kvSize x.1.vSizeEl j (l.get ⟨k, hk⟩)
  old : ∀ t' i j, i < kp.kvSize → (t' ≠ t ∨ n ≤ j ∨ i < h ∨ h + l.length ≤ i) →
    elemAt (st'.vData x.2 t') kp.kvSize x.1.vSizeEl j i = elemAt (st.vData x.2 t') kp.kvSize x.1.vSizeEl j i

theorem readElems_run {x : KvLayer × ℕ} {j : ℕ} (hput : ElemsPut kp x src t0 l t h j st st')
    (hhead : st.vHeads t = h) (hsize : (st.vCells t).size = kp.kvSize) (hfit : h + l.length ≤ kp.kvSize)
    (hoff : h + j * kp.kvSize < 2 ^ 32) (rest : List UInt8) :
    ∃ st'', (readElems x.2 t l.length x.1.vSizeEl j).run
        ⟨st', l.flatMap (elemAt (src.vData x.2 t0) kp.kvSize x.1.vSizeEl j) ++ rest⟩
          = (.ok (), ⟨st'', rest⟩) ∧
      ElemsPut kp x src t0 l t h (j + 1) st st'' := by
  have hlen := flatMap_length_of_rows (fun i => elemAt_length (src.vData x.2 t0) kp.kvSize x.1.vSizeEl j i) l
  obtain ⟨hnew, hold⟩ := tensorSet_elems st'.vData src.vData x.2 t t0 h kp.kvSize x.1.vSizeEl j l hfit
  have hdst : (st'.vHeads t + j * (st'.vCells t).size) % 2 ^ 32 * x.1.vSizeEl
      = (h + j * kp.kvSize) * x.1.vSizeEl := by
    rw [hput.same.vHeads, hput.same.vCells, hhead, hsize, Nat.mod_eq_of_lt hoff]
  refine ⟨st'.setV x.2 t ((h + j * kp.kvSize) * x.1.vSizeEl)
    (l.flatMap (elemAt (src.vData x.2 t0) kp.kvSize x.1.vSizeEl j)), ?_,
    ⟨⟨hput.same.vCells, hput.same.vHeads, hput.same.scInfo⟩, hput.kData, fun il hil => ?_,
      fun j' hj' k hk => ?_, fun t' i j' hi hout => ?_⟩⟩
  · rw [readElems, run_bind_ok (read_append hlen rest), onCache_run]
    simp only [pure_value, hdst]
  · exact (tensorSet_layer _ _ _ _ hil).trans (hput.layer il hil)
  · rcases Nat.lt_succ_iff_lt_or_eq.mp hj' with hlt | rfl
    · exact (hold t (h + k) j' (by omega) (Or.inr (Or.inl (by omega)))).trans (hput.new j' hlt k hk)
    · exact hnew k hk
  · have hout' : t' ≠ t ∨ j' ≠ j ∨ i < h ∨ h + l.length ≤ i := by omega
    exact (hold t' i j' hi hout').trans (hput.old t' i j' hi (by omega))

theorem readElemsLoop_run (src : KvCache) (t0 : ℕ) (x : KvLayer × ℕ) (hhead : st.vHeads t = h) (hsize : (st.vCells t).size = kp.kvSize)
    (hfit : h + l.length ≤ kp.kvSize) (hl : l ≠ []) (hoff : x.1.nEmbdVGqa * kp.kvSize ≤ 2 ^ 32)
    (rest : List UInt8) :
    ∃ st', ((List.range x.1.nEmbdVGqa).forM (readElems x.2 t l.length x.1.vSizeEl)).run
        ⟨st, ((List.range x.1.nEmbdVGqa).flatMap fun j =>
          l.flatMap (elemAt (src.vData x.2 t0) kp.kvSize x.1.vSizeEl j)) ++ rest⟩
          = (.ok (), ⟨st', rest⟩) ∧
      ElemsPut kp x src t0 l t h x.1.nEmbdVGqa st st' := by
  have hpos : 0 < l.length := length_pos_of_ne_nil hl
  obtain ⟨s', hrun, hbytes, hput⟩ := forM_rule (f := readElems x.2 t l.length x.1.vSizeEl)
    (s := ⟨st, ((List.range x.1.nEmbdVGqa).flatMap fun j =>
      l.flatMap (elemAt (src.vData x.2 t0) kp.kvSize x.1.vSizeEl j)) ++ rest⟩)
    (fun done s => s.bytes = ((List.range' done.length (x.1.nEmbdVGqa - done.length)).flatMap fun j =>
        l.flatMap (elemAt (src.vData x.2 t0) kp.kvSize x.1.vSizeEl j)) ++ rest ∧
      ElemsPut kp x src t0 l t h done.length st s.cache)
    (List.range x.1.nEmbdVGqa)
    ⟨by simp [range_eq_range'], SameMeta.refl st, rfl, fun _ _ => rfl,
      fun j hj => absurd hj (Nat.not_lt_zero j), fun _ _ _ _ _ => rfl⟩
    (by
      intro done j more s hsplit hI
      obtain ⟨hj, rfl⟩ := range_split hsplit
      obtain ⟨cache, bytes⟩ := s
      obtain ⟨hb, hput⟩ := hI
      simp only [length_range] at hb hput
      have hidx : h + j * kp.kvSize < 2 ^ 32 := by
        have hle : (j + 1) * kp.kvSize ≤ x.1.nEmbdVGqa * kp.kvSize := Nat.mul_le_mul_right _ hj
        rw [Nat.succ_mul] at hle
        omega
      have hnext : x.1.nEmbdVGqa - j = x.1.nEmbdVGqa - (j + 1) + 1 := by omega
      rw [hnext, range'_succ, flatMap_cons, append_assoc] at hb
      obtain ⟨st'', hrun, hput'⟩ := readElems_run hput hhead hsize hfit hidx
        (((List.range' (j + 1) (x.1.nEmbdVGqa - (j + 1))).flatMap fun j =>
          l.flatMap (elemAt (src.vData x.2 t0) kp.kvSize x.1.vSizeEl j)) ++ rest)
      refine ⟨_, hb ▸ hrun, ?_, ?_⟩
      · simp only [length_append, length_range, length_singleton]
      · simpa only [length_append, length_range, length_singleton] using hput')
  obtain ⟨st', bytes⟩ := s'
  simp only [length_range, Nat.sub_self, range'_zero, flatMap_nil, nil_append] at hbytes hput
  subst hbytes
  exact ⟨st', hrun, hput⟩

theorem readTrans_run (src : KvCache) (t0 : ℕ) (x : KvLayer × ℕ) (hhead : st.vHeads t = h) (hsize : (st.vCells t).size = kp.kvSize)
    (hfit : h + l.length ≤ kp.kvSize) (hl : l ≠ []) (hoff : x.1.nEmbdVGqa * kp.kvSize ≤ 2 ^ 32)
    (rest : List UInt8) :
    ∃ st', (readTrans x.2 x.1.vType x.1.vSizeEl x.1.nEmbdVGqa t l.length).run
        ⟨st, i32 x.1.vType ++ u32 x.1.vSizeEl ++ u32 x.1.nEmbdVGqa ++
          ((List.range x.1.nEmbdVGqa).flatMap fun j =>
            l.flatMap (elemAt (src.vData x.2 t0) kp.kvSize x.1.vSizeEl j)) ++ rest⟩
          = (.ok true, ⟨st', rest⟩) ∧
      ElemsPut kp x src t0 l t h x.1.nEmbdVGqa st st' := by
  obtain ⟨st', hrun, hput⟩ := readElemsLoop_run src t0 x hhead hsize hfit hl hoff rest
  refine ⟨st', ?_, hput⟩
  have hmax : llamaPosMax = 2147483647 := rfl
  have htype := x.1.vType_lt
  have hcount : l.length ≠ 0 := mt length_eq_zero_iff.mp hl
  rw [readTrans, append_assoc, append_assoc, append_assoc,
    run_bind_ok (readI32_i32 (by omega) (by norm_num at htype; omega) _)]
  simp only [ne_eq, not_true_eq_false, if_false]
  rw [run_bind_ok (readU32_u32 x.1.vSizeEl_lt _)]
  simp only [not_true_eq_false, if_false]
  rw [run_bind_ok (readU32_u32 x.1.nEmbdVGqa_lt _)]
  simp only [not_true_eq_false, if_false, hcount]
  rw [run_bind_ok hrun, run_pure]

theorem ElemsPut.put {x : KvLayer × ℕ} (hv : kp.vTrans = true)
    (hput : ElemsPut kp x src t0 l t h x.1.nEmbdVGqa st st') : Put kp src t0 l t h (vRow kp x) st st' := by
  constructor
  · intro k hk
    rw [vRow, vRow, if_pos hv, if_pos hv]
    exact flatMap_congr fun j hj => hput.new j (List.mem_range.mp hj) k hk
  · intro t' i hi hout
    rw [vRow, vRow, if_pos hv, if_pos hv]
    refine flatMap_congr fun j hj => hput.old t' i j hi ?_
    omega

theorem readV_run (src : KvCache) (t0 : ℕ) (x : KvLayer × ℕ) (hoff : kp.vTrans = true → x.1.nEmbdVGqa * kp.kvSize ≤ 2 ^ 32) (hl : l ≠ [])
    (hhead : st.vHeads t = h) (hsize : (st.vCells t).size = kp.kvSize) (hfit : h + l.length ≤ kp.kvSize)
    (rest : List UInt8) :
    ∃ st', (readV kp t l.length x).run ⟨st, vBytes kp src t0 l x ++ rest⟩ = (.ok true, ⟨st', rest⟩) ∧
      SameMeta st st' ∧ Put kp src t0 l t h (vRow kp x) st st' ∧ st'.kData = st.kData ∧
      ∀ y : KvLayer × ℕ, y.2 ≠ x.2 → vRow kp y st' = vRow kp y st := by
  cases hv : kp.vTrans with
  | true =>
    obtain ⟨st', hrun, hput⟩ :=
      readTrans_run src t0 x hhead hsize hfit hl (hoff hv) rest
    refine ⟨st', ?_, hput.same, hput.put hv, hput.kData, fun y hy => ?_⟩
    · rw [readV, vBytes, if_pos hv, if_pos hv]
      exact hrun
    · funext t' i
      simp only [vRow, hput.layer y.2 hy]
  | false =>
    have hlen := flatMap_length_of_rows (fun i => rowAt_length (src.vData x.2 t0) x.1.vSizeRow i) l
    obtain ⟨hnew, hold⟩ := tensorSet_rows st.vData src.vData x.2 t t0 h x.1.vSizeRow l
    have hv' : ¬ kp.vTrans = true := by simp [hv]
    refine ⟨st.setV x.2 t (h * x.1.vSizeRow) (l.flatMap (rowAt (src.vData x.2 t0) x.1.vSizeRow)), ?_,
      ⟨rfl, rfl, rfl⟩, ⟨fun k hk => ?_, fun t' i _ hi => ?_⟩, rfl, fun y hy => ?_⟩
    · rw [readV, vBytes, if_neg hv', if_neg hv', ← hhead]
      exact readRows_run _ x.1.vType_lt x.1.vSizeRow_lt (mt length_eq_zero_iff.mp hl) hlen rest
    · rw [vRow, vRow, if_neg hv', if_neg hv']
      exact hnew k hk
    · rw [vRow, vRow, if_neg hv', if_neg hv']
      exact hold t' i hi
    · funext t' i
      simp only [vRow, setV, tensorSet_layer _ _ _ _ hy]

/-! ### All layers -/

theorem Put.congr_left {row : KvCache → ℕ → ℕ → List UInt8} (h1 : row st' = row st)
    (hput : Put kp src t0 l t h row st' st'') : Put kp src t0 l t h row st st'' :=
  ⟨hput.new, fun t' i hi hout => by rw [hput.old t' i hi hout, h1]⟩

theorem Put.congr_right {row : KvCache → ℕ → ℕ → List UInt8} (h1 : row st'' = row st')
    (hput : Put kp src t0 l t h row st st') : Put kp src t0 l t h row st st'' :=
  ⟨fun k hk => by rw [h1, hput.new k hk], fun t' i hi hout => by rw [h1, hput.old t' i hi hout]⟩

/-- **The loop over the layers**, for K and for V: `other` is what the loop does not touch. -/
theorem readLayers_run (rd : KvLayer × ℕ → Reader Bool) (enc : KvLayer × ℕ → List UInt8)
    (row : KvLayer × ℕ → KvCache → ℕ → ℕ → List UInt8) (other : KvCache → TensorData)
    (xs : List (KvLayer × ℕ)) (hnd : (xs.map Prod.snd).Nodup)
    (hstep : ∀ x ∈ xs, ∀ st', SameMeta st st' → ∀ rest, ∃ st'',
      (rd x).run ⟨st', enc x ++ rest⟩ = (.ok true, ⟨st'', rest⟩) ∧ SameMeta st' st'' ∧
        Put kp src t0 l t h (row x) st' st'' ∧ other st'' = other st' ∧
        ∀ y : KvLayer × ℕ, y.2 ≠ x.2 → row y st'' = row y st')
    (hsame : SameMeta st st') (rest : List UInt8) :
    ∃ st'', (xs.allM rd).run ⟨st', xs.flatMap enc ++ rest⟩ = (.ok true, ⟨st'', rest⟩) ∧ SameMeta st st'' ∧
      (∀ x ∈ xs, Put kp src t0 l t h (row x) st' st'') ∧ other st'' = other st' ∧
      ∀ y : KvLayer × ℕ, y.2 ∉ xs.map Prod.snd → row y st'' = row y st' := by
  induction xs generalizing st' with
  | nil => exact ⟨st', rfl, hsame, by simp, rfl, fun _ _ => rfl⟩
  | cons x xs ih =>
    rw [map_cons, nodup_cons] at hnd
    obtain ⟨st1, hrun1, hsame1, hput1, hother1, hrow1⟩ := hstep x (by simp) st' hsame (xs.flatMap enc ++ rest)
    obtain ⟨st2, hrun2, hsame2, hput2, hother2, hrow2⟩ :=
      ih hnd.2 (fun y hy => hstep y (by simp [hy])) (hsame.trans hsame1)
    refine ⟨st2, ?_, hsame2, fun y hy => ?_, hother2.trans hother1, fun y hy => ?_⟩
    · rw [flatMap_cons, append_assoc, List.allM, run_bind_ok hrun1]
      exact hrun2
    · rcases mem_cons.mp hy with rfl | hy
      · exact hput1.congr_right (hrow2 y hnd.1)
      · refine (hput2 y hy).congr_left (hrow1 y fun he => hnd.1 ?_)
        rw [← he]
        exact mem_map_of_mem hy
    · rw [map_cons, mem_cons, not_or] at hy
      rw [hrow2 y hy.2, hrow1 y hy.1]

/-- **Reading the tensor rows back**: the cells from the head on have the rows of the saved cells, and all
other rows are what they were. -/
theorem stateReadData_run (src : KvCache) (t0 : ℕ) (hfit : kp.OffsetsFit) (hl : l ≠ []) (hhead : st.vHeads t = h)
    (hsize : (st.vCells t).size = kp.kvSize) (hroom : h + l.length ≤ kp.kvSize) (rest : List UInt8) :
    ∃ st', (stateReadData kp t l.length).run ⟨st, dataBytes kp src t0 l ++ rest⟩ = (.ok true, ⟨st', rest⟩) ∧
      SameMeta st st' ∧ ∀ x ∈ kp.layers.zipIdx,
        Put kp src t0 l t h (kRow x) st st' ∧ Put kp src t0 l t h (vRow kp x) st st' := by
  have hnd : (kp.layers.zipIdx.map Prod.snd).Nodup := by
    rw [zipIdx_map_snd]
    exact nodup_range'
  obtain ⟨st1, hrun1, hsame1, hput1, hv1, -⟩ := readLayers_run (readK t l.length)
    (kBytes src t0 l) kRow KvCache.vData kp.layers.zipIdx hnd
    (fun x _ st' hs rest => readK_run kp src t0 x hl (by rw [hs.vHeads, hhead]) rest) (SameMeta.refl st)
    (kp.layers.zipIdx.flatMap (vBytes kp src t0 l) ++ rest)
  obtain ⟨st2, hrun2, hsame2, hput2, hk2, -⟩ := readLayers_run (readV kp t l.length)
    (vBytes kp src t0 l) (vRow kp) KvCache.kData kp.layers.zipIdx hnd
    (fun x hx st' hs rest => readV_run src t0 x
      (fun hv => (hfit hv x.1 (fst_mem_of_mem_zipIdx hx)).2) hl (by rw [hs.vHeads, hhead])
      (by rw [hs.vCells, hsize]) hroom rest) hsame1 rest
  refine ⟨st2, ?_, hsame2, fun x hx => ⟨(hput1 x hx).congr_right ?_, (hput2 x hx).congr_left ?_⟩⟩
  · have hflag : (if kp.vTrans then 1 else 0) < 2 ^ 32 := by split <;> norm_num
    have hvt : kp.vTrans = decide ((if kp.vTrans then 1 else 0) ≠ 0) := by cases kp.vTrans <;> rfl
    have hcount : ¬ (st.vCells t).size < l.length := by omega
    rw [stateReadData, dataBytes, append_assoc, append_assoc, append_assoc,
      run_bind_ok (readU32_u32 hflag _), run_bind_ok (readU32_u32 kp.layers_lt _), run_bind_ok (run_get _)]
    simp only [ne_eq, not_true_eq_false, if_false, hcount, ← hvt]
    rw [run_bind_ok hrun1]
    exact hrun2
  · funext t' i
    simp only [kRow, hk2]
  · funext t' i
    simp only [vRow, hv1]

end KvCache
