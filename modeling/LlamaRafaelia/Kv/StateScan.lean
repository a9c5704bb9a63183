import LlamaRafaelia.Kv.StateWhole
import LlamaRafaelia.Lib.Scan

/-!
# Reading any stream of bytes

`scanAll` says from the bytes alone how far `state_read` gets with the whole cache, and which records it has put into
cells by then.  Each block that is not empty clears the whole cache first, so only the last one counts.
-/

namespace KvCache

open List Checked KvCells Fallible

variable {kp : KvParams} {st st' tgt : KvCache} {t count : ℕ}

/-! ### Scanning the tensor rows -/

def scanU32 : Scanner ℕ := do
  let l ← Scanner.bytes 4
  return leNat l

def scanI32 : Scanner ℤ := do
  let l ← Scanner.bytes 4
  return int32 (leNat l)

def scanU64 : Scanner ℕ := do
  let l ← Scanner.bytes 8
  return leNat l

def scanRows (type sizeRow count : ℕ) : Scanner Unit := do
  let typeRef ← scanI32
  Scanner.require ((type : ℤ) = typeRef)
  let sizeRowRef ← scanU64
  Scanner.require (sizeRow = sizeRowRef)
  let _ ← Scanner.bytes (count * sizeRow)

def scanTrans (type sizeEl nEmbd count : ℕ) : Scanner Unit := do
  let typeRef ← scanI32
  Scanner.require ((type : ℤ) = typeRef)
  let sizeElRef ← scanU32
  Scanner.require (sizeEl = sizeElRef)
  let nEmbdRef ← scanU32
  Scanner.require (nEmbd = nEmbdRef)
  (List.range nEmbd).forM fun _ => do
    let _ ← Scanner.bytes (count * sizeEl)

def scanK (count : ℕ) (x : KvLayer × ℕ) : Scanner Unit := scanRows x.1.kType x.1.kSizeRow count

def scanV (kp : KvParams) (count : ℕ) (x : KvLayer × ℕ) : Scanner Unit :=
  if kp.vTrans then scanTrans x.1.vType x.1.vSizeEl x.1.nEmbdVGqa count
  else scanRows x.1.vType x.1.vSizeRow count

/-- What `state_read_data` reads for `count` cells. -/
def scanData (kp : KvParams) (count : ℕ) : Scanner Unit := do
  let vTrans ← scanU32
  let nLayer ← scanU32
  Scanner.require (nLayer = kp.layers.length)
  Scanner.require (kp.vTrans = decide (vTrans ≠ 0))
  kp.layers.zipIdx.forM (scanK count)
  kp.layers.zipIdx.forM (scanV kp count)

/-! ### Readers that follow a scanner -/

def verdict : Scan Unit → Except StateError Bool
  | .done _ _ => .ok true
  | .rejected => .ok false
  | .cut => .error .endOfBuffer

/-- The reader takes the values from the stream that the scanner does, and leaves the cells alone. -/
def Reads {α : Type} (x : Reader α) (p : Scanner α) : Prop :=
  ∀ s : ReadState, match p s.bytes with
    | .done a rest => ∃ st', x.run s = (.ok a, ⟨st', rest⟩) ∧ SameMeta s.cache st'
    | .rejected => False
    | .cut => ∃ s', x.run s = (.error .endOfBuffer, s') ∧ SameMeta s.cache s'.cache

/-- The reader returns `true`, returns `false` or throws where the scanner says so, and leaves the cells alone. -/
def Checks (x : Reader Bool) (p : Scanner Unit) : Prop :=
  ∀ s : ReadState, ∃ s', x.run s = (verdict (p s.bytes), s') ∧ SameMeta s.cache s'.cache ∧
    ∀ a rest, p s.bytes = .done a rest → s'.bytes = rest

/-- The reader takes the values from the stream that the scanner does, and leaves the cache alone. -/
def Peeks {α : Type} (x : Reader α) (p : Scanner α) : Prop :=
  ∀ st l, match p l with
    | .done a rest => x.run ⟨st, l⟩ = (.ok a, ⟨st, rest⟩)
    | .rejected => False
    | .cut => ∃ more, x.run ⟨st, l⟩ = (.error .endOfBuffer, ⟨st, more⟩)

theorem Peeks.reads {α : Type} {x : Reader α} {p : Scanner α} (h : Peeks x p) : Reads x p := by
  intro s
  have hs := h s.cache s.bytes
  cases hp : p s.bytes with
  | done a rest =>
    rw [hp] at hs
    exact ⟨s.cache, hs, SameMeta.refl _⟩
  | rejected =>
    rw [hp] at hs
    exact hs
  | cut =>
    rw [hp] at hs
    obtain ⟨more, hrun⟩ := hs
    exact ⟨⟨s.cache, more⟩, hrun, SameMeta.refl _⟩

theorem Peeks.bind {α β : Type} {x : Reader α} {p : Scanner α} {f : α → Reader β} {q : α → Scanner β}
    (h : Peeks x p) (hf : ∀ a, Peeks (f a) (q a)) : Peeks (x >>= f) (p >>= q) := by
  intro st l
  have hs := h st l
  rw [Scanner.bind_apply]
  cases hp : p l with
  | done a rest =>
    rw [hp] at hs
    simp only
    rw [run_bind_ok hs]
    exact hf a st rest
  | rejected =>
    rw [hp] at hs
    exact hs
  | cut =>
    rw [hp] at hs
    obtain ⟨more, hrun⟩ := hs
    exact ⟨more, run_bind_error hrun⟩

theorem peeks_pure {α : Type} (a : α) : Peeks (pure a) (pure a) := fun _ _ => rfl

theorem peeks_read (n : ℕ) : Peeks (read n) (Scanner.bytes n) := by
  intro st l
  rw [Scanner.bytes, read, run_bind_ok (run_get _)]
  by_cases h : l.length < n
  · simp only [h, if_true]
    exact ⟨l, rfl⟩
  · simp only [h, if_false]
    rfl

theorem peeks_readU32 : Peeks readU32 scanU32 := (peeks_read 4).bind fun l => peeks_pure (leNat l)

theorem peeks_readI32 : Peeks readI32 scanI32 := (peeks_read 4).bind fun l => peeks_pure (int32 (leNat l))

theorem peeks_readU64 : Peeks readU64 scanU64 := (peeks_read 8).bind fun l => peeks_pure (leNat l)

theorem Reads.bind {α : Type} {x : Reader α} {p : Scanner α} {f : α → Reader Bool} {q : α → Scanner Unit}
    (h : Reads x p) (hf : ∀ a, Checks (f a) (q a)) : Checks (x >>= f) (p >>= q) := by
  intro s
  have hs := h s
  rw [Scanner.bind_apply]
  cases hp : p s.bytes with
  | done a rest =>
    rw [hp] at hs
    obtain ⟨st', hrun, hsame⟩ := hs
    obtain ⟨s'', hrun', hsame', hrest⟩ := hf a ⟨st', rest⟩
    exact ⟨s'', by rw [run_bind_ok hrun, hrun'], hsame.trans hsame', hrest⟩
  | rejected =>
    rw [hp] at hs
    exact hs.elim
  | cut =>
    rw [hp] at hs
    obtain ⟨s', hrun, hsame⟩ := hs
    exact ⟨s', by rw [run_bind_error hrun]; rfl, hsame, by simp⟩

theorem Checks.require {c : Prop} [Decidable c] {b : Bool} {x : Reader Bool} {p : Scanner Unit}
    (hc : b = true ↔ ¬ c) (h : Checks x p) :
    Checks (if c then pure false else x) (do Scanner.require b; p) := by
  intro s
  by_cases hcase : c
  · have hb : b = false := by
      rw [Bool.eq_false_iff, Ne, hc, not_not]
      exact hcase
    subst hb
    rw [if_pos hcase]
    exact ⟨s, rfl, SameMeta.refl _, fun a rest hd => by cases hd⟩
  · have hb : b = true := hc.mpr hcase
    subst hb
    rw [if_neg hcase]
    exact h s

theorem Checks.seq {x y : Reader Bool} {p q : Scanner Unit} (hx : Checks x p) (hy : Checks y q) :
    Checks (do if ← x then y else return false) (do p; q) := by
  intro s
  obtain ⟨s', hrun, hsame, hrest⟩ := hx s
  rw [Scanner.bind_apply]
  cases hp : p s.bytes with
  | done a rest =>
    rw [hp] at hrun
    obtain ⟨s'', hrun', hsame', hrest'⟩ := hy s'
    have hbytes := hrest a rest hp
    rw [hbytes] at hrun' hrest'
    refine ⟨s'', ?_, hsame.trans hsame', hrest'⟩
    rw [run_bind_ok hrun]
    exact hrun'
  | rejected =>
    rw [hp] at hrun
    exact ⟨s', by rw [run_bind_ok hrun]; rfl, hsame, fun a rest hd => by cases hd⟩
  | cut =>
    rw [hp] at hrun
    exact ⟨s', by rw [run_bind_error hrun]; rfl, hsame, fun a rest hd => by cases hd⟩

theorem checks_true : Checks (pure true) (pure ()) := fun s =>
  ⟨s, rfl, SameMeta.refl _, fun _ _ hd => by cases hd; rfl⟩

theorem checks_allM {α : Type} {f : α → Reader Bool} {g : α → Scanner Unit} (l : List α)
    (h : ∀ x ∈ l, Checks (f x) (g x)) : Checks (l.allM f) (l.forM g) := by
  induction l with
  | nil => exact checks_true
  | cons x l ih =>
    have hrest := ih fun y hy => h y (mem_cons_of_mem x hy)
    have hstep := (h x mem_cons_self).seq hrest
    rw [Scanner.forM_cons]
    refine fun s => ?_
    obtain ⟨s', hrun, hmore⟩ := hstep s
    refine ⟨s', ?_, hmore⟩
    rw [← hrun, List.allM]
    congr 2
    funext b
    cases b <;> rfl

/-! ### `state_read_data` follows its scanner -/

theorem Reads.put {n : ℕ} (f : List UInt8 → KvCache → KvCache) (hf : ∀ l st, SameMeta st (f l st)) :
    Reads (do let l ← read n; onCache fun st => pure (f l st)) (do let _ ← Scanner.bytes n) := by
  intro s
  have hs := (peeks_read n).reads s
  rw [Scanner.bind_apply]
  cases hp : Scanner.bytes n s.bytes with
  | done l rest =>
    rw [hp] at hs
    obtain ⟨st', hrun, hsame⟩ := hs
    exact ⟨f l st', by rw [run_bind_ok hrun, onCache_run]; rfl, hsame.trans (hf l st')⟩
  | rejected =>
    rw [hp] at hs
    exact hs
  | cut =>
    rw [hp] at hs
    obtain ⟨s', hrun, hsame⟩ := hs
    exact ⟨s', run_bind_error hrun, hsame⟩

theorem Reads.checks {x : Reader Unit} {p : Scanner Unit} (h : Reads x p) : Checks (do x; return true) p := by
  intro s
  have hs := h s
  cases hp : p s.bytes with
  | done a rest =>
    rw [hp] at hs
    obtain ⟨st', hrun, hsame⟩ := hs
    exact ⟨⟨st', rest⟩, by rw [run_bind_ok hrun]; rfl, hsame, fun a' rest' hd => by cases hd; rfl⟩
  | rejected =>
    rw [hp] at hs
    exact hs.elim
  | cut =>
    rw [hp] at hs
    obtain ⟨s', hrun, hsame⟩ := hs
    exact ⟨s', by rw [run_bind_error hrun]; rfl, hsame, fun a' rest' hd => by cases hd⟩

theorem reads_forM {α : Type} {f : α → Reader Unit} {g : α → Scanner Unit} (l : List α)
    (h : ∀ x, Reads (f x) (g x)) : Reads (l.forM f) (l.forM g) := by
  induction l with
  | nil => exact fun s => ⟨s.cache, rfl, SameMeta.refl _⟩
  | cons x l ih =>
    intro s
    have hs := h x s
    rw [Scanner.forM_cons, Scanner.bind_apply, forM_cons]
    cases hp : g x s.bytes with
    | done a rest =>
      rw [hp] at hs
      obtain ⟨st', hrun, hsame⟩ := hs
      have hrest := ih ⟨st', rest⟩
      rw [run_bind_ok hrun]
      simp only at hrest ⊢
      cases hq : (l.forM g : Scanner Unit) rest with
      | done a' rest' =>
        rw [hq] at hrest
        obtain ⟨st'', hrun', hsame'⟩ := hrest
        exact ⟨st'', hrun', hsame.trans hsame'⟩
      | rejected =>
        rw [hq] at hrest
        exact hrest
      | cut =>
        rw [hq] at hrest
        obtain ⟨s'', hrun', hsame'⟩ := hrest
        exact ⟨s'', hrun', hsame.trans hsame'⟩
    | rejected =>
      rw [hp] at hs
      exact hs
    | cut =>
      rw [hp] at hs
      obtain ⟨s', hrun, hsame⟩ := hs
      exact ⟨s', run_bind_error hrun, hsame⟩

theorem setK_same (st : KvCache) (il t off : ℕ) (l : List UInt8) : SameMeta st (st.setK il t off l) :=
  ⟨rfl, rfl, rfl⟩

theorem setV_same (st : KvCache) (il t off : ℕ) (l : List UInt8) : SameMeta st (st.setV il t off l) :=
  ⟨rfl, rfl, rfl⟩

theorem decide_iff_not_ne {α : Type} (a b : α) [Decidable (a = b)] : decide (a = b) = true ↔ ¬ a ≠ b := by
  rw [decide_eq_true_eq, not_not]

theorem checks_readRows {put : KvCache → ℕ → List UInt8 → KvCache} (hput : ∀ st off l, SameMeta st (put st off l))
    (type sizeRow t : ℕ) (hcount : count ≠ 0) :
    Checks (readRows put type sizeRow t count) (scanRows type sizeRow count) := by
  refine peeks_readI32.reads.bind fun typeRef => Checks.require (decide_iff_not_ne _ _) ?_
  refine peeks_readU64.reads.bind fun sizeRowRef => Checks.require (decide_iff_not_ne _ _) ?_
  rw [if_neg hcount]
  have hlast := (Reads.put (n := count * sizeRow)
    (fun l st => put st (st.vHeads t * sizeRow) l) fun l st => hput st _ l).checks
  intro s
  obtain ⟨s', hrun, hmore⟩ := hlast s
  exact ⟨s', by rw [← hrun, run_bind_assoc], hmore⟩

theorem checks_readTrans (il type sizeEl nEmbd t : ℕ) (hcount : count ≠ 0) :
    Checks (readTrans il type sizeEl nEmbd t count) (scanTrans type sizeEl nEmbd count) := by
  refine peeks_readI32.reads.bind fun typeRef => Checks.require (decide_iff_not_ne _ _) ?_
  refine peeks_readU32.reads.bind fun sizeElRef => Checks.require (decide_iff_not_ne _ _) ?_
  refine peeks_readU32.reads.bind fun nEmbdRef => Checks.require (decide_iff_not_ne _ _) ?_
  rw [if_neg hcount]
  exact (reads_forM (List.range nEmbd) fun j =>
    Reads.put (fun l st => st.setV il t ((st.vHeads t + j * (st.vCells t).size) % 2 ^ 32 * sizeEl) l)
      fun l st => setV_same st ..).checks

theorem checks_readK (t : ℕ) (hcount : count ≠ 0) (x : KvLayer × ℕ) : Checks (readK t count x) (scanK count x) :=
  checks_readRows (fun st off l => setK_same st x.2 t off l) _ _ t hcount

theorem checks_readV (t : ℕ) (hcount : count ≠ 0) (x : KvLayer × ℕ) :
    Checks (readV kp t count x) (scanV kp count x) := by
  rw [readV, scanV]
  split
  · exact checks_readTrans _ _ _ _ t hcount
  · exact checks_readRows (fun st off l => setV_same st x.2 t off l) _ _ t hcount

/-- **`state_read_data`**, on any bytes: it returns or throws as the scanner says, and leaves the cells alone. -/
theorem stateReadData_scan (hcount : count ≠ 0) (s : ReadState) (hsize : count ≤ (s.cache.vCells t).size) :
    ∃ s', (stateReadData kp t count).run s = (verdict (scanData kp count s.bytes), s') ∧
      SameMeta s.cache s'.cache ∧ ∀ a rest, scanData kp count s.bytes = .done a rest → s'.bytes = rest := by
  have hlayers : Checks (do
      if ← kp.layers.zipIdx.allM (readK t count) then kp.layers.zipIdx.allM (readV kp t count) else return false)
      (do kp.layers.zipIdx.forM (scanK count); kp.layers.zipIdx.forM (scanV kp count)) :=
    (checks_allM _ fun x _ => checks_readK t hcount x).seq (checks_allM _ fun x _ => checks_readV t hcount x)
  -- the number of cells was checked before, so that check is met
  have hall : Checks (do
      let vTrans ← readU32
      let nLayer ← readU32
      if nLayer ≠ kp.layers.length then return false
      else if kp.vTrans ≠ decide (vTrans ≠ 0) then return false
      else if ← kp.layers.zipIdx.allM (readK t count) then kp.layers.zipIdx.allM (readV kp t count)
      else return false) (scanData kp count) := by
    refine peeks_readU32.reads.bind fun vTrans => peeks_readU32.reads.bind fun nLayer => ?_
    exact Checks.require (decide_iff_not_ne _ _) (Checks.require (decide_iff_not_ne _ _) hlayers)
  obtain ⟨s', hrun, hmore⟩ := hall s
  refine ⟨s', ?_, hmore⟩
  rw [← hrun, stateReadData, run_bind, run_bind]
  have h1 := peeks_readU32 s.cache s.bytes
  cases hp : scanU32 s.bytes with
  | done a rest =>
    rw [hp] at h1
    rw [h1]
    simp only
    rw [run_bind, run_bind]
    have h2 := peeks_readU32 s.cache rest
    cases hq : scanU32 rest with
    | done a' rest' =>
      rw [hq] at h2
      rw [h2]
      simp only
      rw [run_bind_ok (run_get _)]
      simp only [not_lt.mpr hsize, if_false]
    | rejected =>
      rw [hq] at h2
      exact h2.elim
    | cut =>
      rw [hq] at h2
      obtain ⟨more, hcut⟩ := h2
      rw [hcut]
  | rejected =>
    rw [hp] at h1
    exact h1.elim
  | cut =>
    rw [hp] at h1
    obtain ⟨more, hcut⟩ := h1
    rw [hcut]

/-! ### Scanning the records -/

/-- The sequence ids of one cell, up to the first that is rejected or cut off. -/
def scanIds (kp : KvParams) : ℕ → List UInt8 → List ℕ × Scan Unit
  | 0, l => ([], .done () l)
  | n + 1, l =>
    match scanI32 l with
    | .done s rest =>
      if s < 0 ∨ (kp.nSeqMax : ℤ) ≤ s then ([], .rejected)
      else (s.toNat :: (scanIds kp n rest).1, (scanIds kp n rest).2)
    | .rejected => ([], .rejected)
    | .cut => ([], .cut)

def scanHead : Scanner (ℤ × ℕ) := do
  let pos ← scanI32
  let nSeqId ← scanU32
  return (pos, nSeqId)

/-- The records of `n` cells, up to the point where the scan ends; the last one may lack some ids. -/
def scanCells (kp : KvParams) : ℕ → List UInt8 → List (ℤ × List ℕ) × Scan Unit
  | 0, l => ([], .done () l)
  | n + 1, l =>
    match scanHead l with
    | .done x rest =>
      match (scanIds kp x.2 rest).2 with
      | .done _ rest' => ((x.1, (scanIds kp x.2 rest).1) :: (scanCells kp n rest').1, (scanCells kp n rest').2)
      | .rejected => ([(x.1, (scanIds kp x.2 rest).1)], .rejected)
      | .cut => ([(x.1, (scanIds kp x.2 rest).1)], .cut)
    | .rejected => ([], .rejected)
    | .cut => ([], .cut)

theorem readIds_scan (st : KvCache) (t i : ℕ) (l : List ℕ) (bytes : List UInt8) :
    ∃ more, (l.allM fun _ => readSeqId kp t i).run ⟨st, bytes⟩
        = (verdict (scanIds kp l.length bytes).2,
          ⟨st.setStream t ((scanIds kp l.length bytes).1.foldl (fun c s => (c.seqAdd i s).value) (st.vCells t))
            (st.vHeads t), more⟩) ∧
      ∀ a rest, (scanIds kp l.length bytes).2 = .done a rest → more = rest := by
  induction l generalizing st bytes with
  | nil =>
    refine ⟨bytes, ?_, fun a rest hd => by cases hd; rfl⟩
    rw [length_nil, scanIds, foldl_nil, setStream_self]
    rfl
  | cons x l ih =>
    have h := peeks_readI32 st bytes
    rw [length_cons, scanIds, List.allM]
    cases hp : scanI32 bytes with
    | rejected =>
      rw [hp] at h
      exact h.elim
    | cut =>
      rw [hp] at h
      obtain ⟨more, hcut⟩ := h
      refine ⟨more, ?_, fun a rest hd => by cases hd⟩
      rw [foldl_nil, setStream_self, readSeqId, run_bind_error (run_bind_error hcut)]
      rfl
    | done s rest =>
      rw [hp] at h
      simp only at h ⊢
      by_cases hbad : s < 0 ∨ (kp.nSeqMax : ℤ) ≤ s
      · have hrun : (readSeqId kp t i).run ⟨st, bytes⟩ = (.ok false, ⟨st, rest⟩) := by
          rw [readSeqId, run_bind_ok h]
          simp only [hbad, if_true]
          rfl
        refine ⟨rest, ?_, fun a rest hd => by rw [if_pos hbad] at hd; cases hd⟩
        rw [run_bind_ok hrun, if_pos hbad, foldl_nil, setStream_self]
        rfl
      · have hrun : (readSeqId kp t i).run ⟨st, bytes⟩
            = (.ok true, ⟨st.setStream t ((st.vCells t).seqAdd i s.toNat).value (st.vHeads t), rest⟩) := by
          rw [readSeqId, run_bind_ok h]
          simp only [hbad, if_false]
          rw [run_bind_ok (onCells_run t _ _), run_pure]
        obtain ⟨more, hmore, hrest⟩ :=
          ih (st.setStream t ((st.vCells t).seqAdd i s.toNat).value (st.vHeads t)) rest
        refine ⟨more, ?_, fun a rest' hd => hrest a rest' (by rw [if_neg hbad] at hd; exact hd)⟩
        rw [run_bind_ok hrun, if_neg hbad]
        simp only [setStream_vCells_self, setStream_vHeads_self, setStream_setStream] at hmore
        exact hmore

def readHead : Reader (ℤ × ℕ) := do
  let pos ← readI32
  let nSeqId ← readU32
  return (pos, nSeqId)

theorem peeks_readHead : Peeks readHead scanHead :=
  peeks_readI32.bind fun pos => peeks_readU32.bind fun n => peeks_pure (pos, n)

theorem readCell_run_eq (t i : ℕ) (s : ReadState) :
    (readCell kp t i).run s = (readHead >>= fun x => do
      onCells t fun c => c.posSet i x.1
      (List.range x.2).allM fun _ => readSeqId kp t i).run s := by
  rw [readHead, run_bind_assoc, readCell]
  refine run_bind_congr (fun pos s1 => ?_) s
  rw [run_bind_assoc]
  exact run_bind_congr (fun n s2 => rfl) s1

theorem readCell_done {st : KvCache} {t i : ℕ} {bytes rest : List UInt8} {x : ℤ × ℕ}
    (h : scanHead bytes = .done x rest) :
    ∃ more, (readCell kp t i).run ⟨st, bytes⟩
        = (verdict (scanIds kp x.2 rest).2,
          ⟨st.setStream t (putCell (st.vCells t) i x.1 (scanIds kp x.2 rest).1) (st.vHeads t), more⟩) ∧
      ∀ a rest', (scanIds kp x.2 rest).2 = .done a rest' → more = rest' := by
  have hhead := peeks_readHead st bytes
  rw [h] at hhead
  obtain ⟨more, hrun, hrest⟩ := @readIds_scan kp
    (st.setStream t ((st.vCells t).posSet i x.1).value (st.vHeads t)) t i (List.range x.2) rest
  rw [length_range] at hrun hrest
  refine ⟨more, ?_, hrest⟩
  rw [readCell_run_eq, run_bind_ok hhead, run_bind_ok (onCells_run t _ _)]
  simp only [setStream_vCells_self, setStream_vHeads_self, setStream_setStream] at hrun
  exact hrun

theorem readCells_scan (st : KvCache) (t k n : ℕ) (bytes : List UInt8) :
    ∃ more, ((List.range' k n).allM (readCell kp t)).run ⟨st, bytes⟩
        = (verdict (scanCells kp n bytes).2,
          ⟨st.setStream t (putCells (st.vCells t) k (scanCells kp n bytes).1) (st.vHeads t), more⟩) ∧
      ∀ a rest, (scanCells kp n bytes).2 = .done a rest → more = rest := by
  induction n generalizing st k bytes with
  | zero =>
    refine ⟨bytes, ?_, fun a rest hd => by cases hd; rfl⟩
    rw [scanCells, putCells, setStream_self]
    rfl
  | succ n ih =>
    have hhead := peeks_readHead st bytes
    rw [range'_succ, scanCells, List.allM]
    cases hp : scanHead bytes with
    | rejected =>
      rw [hp] at hhead
      exact hhead.elim
    | cut =>
      rw [hp] at hhead
      obtain ⟨more, hcut⟩ := hhead
      refine ⟨more, ?_, fun a rest hd => by cases hd⟩
      have hcell : (readCell kp t k).run ⟨st, bytes⟩ = (.error .endOfBuffer, ⟨st, more⟩) := by
        rw [readCell_run_eq, run_bind_error hcut]
      rw [run_bind_error hcell, putCells, setStream_self]
      rfl
    | done x rest =>
      obtain ⟨more, hcell, hrest⟩ := @readCell_done kp st t k bytes rest x hp
      simp only
      cases hids : (scanIds kp x.2 rest).2 with
      | rejected =>
        rw [hids] at hcell
        exact ⟨more, by rw [run_bind_ok hcell]; rfl, fun a rest hd => by cases hd⟩
      | cut =>
        rw [hids] at hcell
        exact ⟨more, by rw [run_bind_error hcell]; rfl, fun a rest hd => by cases hd⟩
      | done a rest' =>
        rw [hids] at hcell
        obtain rfl := hrest a rest' hids
        obtain ⟨more', hmore, hrest'⟩ :=
          ih (st.setStream t (putCell (st.vCells t) k x.1 (scanIds kp x.2 rest).1) (st.vHeads t)) (k + 1) more
        refine ⟨more', ?_, hrest'⟩
        rw [run_bind_ok hcell]
        simp only [setStream_vCells_self, setStream_vHeads_self, setStream_setStream] at hmore
        exact hmore

/-! ### Scanning the whole cache -/

/-- How far the blocks of the streams `ts` can be read.  `last` is the last block that was begun: its stream,
and the records that were put into its cells. -/
def scanStreams (kp : KvParams) : List ℕ → List UInt8 → Option (ℕ × List (ℤ × List ℕ)) →
    Option (ℕ × List (ℤ × List ℕ)) × Scan Unit
  | [], l, last => (last, .done () l)
  | t :: ts, l, last =>
    match scanU32 l with
    | .rejected => (last, .rejected)
    | .cut => (last, .cut)
    | .done count rest =>
      if count = 0 then scanStreams kp ts rest last
      else if kp.kvSize < count then (last, .rejected)
      else
        match (scanCells kp count rest).2 with
        | .rejected => (some (t, (scanCells kp count rest).1), .rejected)
        | .cut => (some (t, (scanCells kp count rest).1), .cut)
        | .done _ rest' =>
          match scanData kp count rest' with
          | .rejected => (some (t, (scanCells kp count rest).1), .rejected)
          | .cut => (some (t, (scanCells kp count rest).1), .cut)
          | .done _ rest'' => scanStreams kp ts rest'' (some (t, (scanCells kp count rest).1))

/-- How far `state_read` of the whole cache gets.  A wrong number of streams ends it as a stream that is too
short does: without cleaning up. -/
def scanAll (kp : KvParams) (l : List UInt8) : Option (ℕ × List (ℤ × List ℕ)) × Scan Unit :=
  match scanU32 l with
  | .rejected => (none, .rejected)
  | .cut => (none, .cut)
  | .done nStream rest => if nStream ≠ kp.nStream then (none, .cut) else scanStreams kp (List.range kp.nStream) rest none

/-- The cells that a scan leaves: those of the last block that was begun, or what was there before. -/
def Loaded (kp : KvParams) (tgt : KvCache) : Option (ℕ × List (ℤ × List ℕ)) → KvCache → Prop
  | none, st => ∀ t < kp.nStream, st.vCells t = tgt.vCells t
  | some x, st => ∀ t < kp.nStream,
      st.vCells t = if t = x.1 then putCells (resize kp.kvSize) 0 x.2 else resize kp.kvSize

/-! ### `state_read` follows its scanner -/

theorem putCells_size (l : List (ℤ × List ℕ)) (k : ℕ) (c : KvCells) : (putCells c k l).size = c.size := by
  induction l generalizing k c with
  | nil => rfl
  | cons x l ih => rw [putCells, ih, putCell_size]

theorem Loaded.size {last : Option (ℕ × List (ℤ × List ℕ))}
    (htgt : ∀ t < kp.nStream, (tgt.vCells t).size = kp.kvSize) (h : Loaded kp tgt last st) :
    ∀ t < kp.nStream, (st.vCells t).size = kp.kvSize := by
  intro t ht
  cases last with
  | none =>
    rw [h t ht]
    exact htgt t ht
  | some x =>
    rw [h t ht]
    split
    · exact putCells_size ..
    · rfl

theorem Loaded.congr {last : Option (ℕ × List (ℤ × List ℕ))} (h : Loaded kp tgt last st)
    (hsame : st'.vCells = st.vCells) : Loaded kp tgt last st' := by
  cases last with
  | none => exact fun t ht => by rw [hsame]; exact h t ht
  | some x => exact fun t ht => by rw [hsame]; exact h t ht

theorem clear_vCells (hsize : ∀ t < kp.nStream, (st.vCells t).size = kp.kvSize) (data : Bool) :
    ∀ t < kp.nStream, (st.clear kp data).vCells t = resize kp.kvSize := by
  intro t ht
  simp only [clear, ht, if_true]
  rw [KvCells.reset, hsize t ht]
  rfl

theorem readMetaAll_scan (hsize : ∀ t < kp.nStream, (st.vCells t).size = kp.kvSize) (ht : t < kp.nStream)
    (hcount : count ≤ kp.kvSize) (l : List UInt8) :
    ∃ st' more, (readMetaAll kp t count).run ⟨st, l⟩ = (verdict (scanCells kp count l).2, ⟨st', more⟩) ∧
      Loaded kp tgt (some (t, (scanCells kp count l).1)) st' ∧
      ∀ a rest, (scanCells kp count l).2 = .done a rest → more = rest := by
  have hclear := clear_vCells hsize true
  obtain ⟨more, hcells, hrest⟩ := @readCells_scan kp (st.clear kp true) t 0 count l
  rw [← range_eq_range', hclear t ht] at hcells
  generalize hst : (st.clear kp true).setStream t (putCells (resize kp.kvSize) 0 (scanCells kp count l).1)
    ((st.clear kp true).vHeads t) = st1 at hcells
  have hload : Loaded kp tgt (some (t, (scanCells kp count l).1)) st1 := by
    intro t' ht'
    rw [← hst]
    by_cases hne : t' = t
    · rw [hne, setStream_vCells_self, if_pos rfl]
    · rw [setStream_vCells_of_ne hne, if_neg hne]
      exact hclear t' ht'
  have hrun : (readMetaAll kp t count).run ⟨st, l⟩ = (do
      if ← (List.range count).allM (readCell kp t) then
        onCache fun st => pure (st.setHead t 0)
        return true
      else return false).run ⟨st.clear kp true, l⟩ := by
    rw [readMetaAll, run_bind_ok (run_get _)]
    simp only [hsize t ht, not_lt.mpr hcount, if_false]
    rw [run_bind_ok (onCache_run _ _)]
    rfl
  rw [hrun]
  cases hscan : (scanCells kp count l).2 with
  | done a rest =>
    rw [hscan] at hcells
    refine ⟨st1.setHead t 0, more, ?_, hload.congr rfl, fun a' rest' hd => hrest a' rest' (hscan.trans hd)⟩
    rw [run_bind_ok hcells]
    rfl
  | rejected =>
    rw [hscan] at hcells
    refine ⟨st1, more, ?_, hload, fun a' rest' hd => by cases hd⟩
    rw [run_bind_ok hcells]
    rfl
  | cut =>
    rw [hscan] at hcells
    refine ⟨st1, more, ?_, hload, fun a' rest' hd => by cases hd⟩
    rw [run_bind_error hcells]
    rfl

/-- What `state_read` leaves, given how far the scan got. -/
structure Ended (kp : KvParams) (tgt : KvCache) (r : Option (ℕ × List (ℤ × List ℕ)) × Scan Unit)
    (out : Except StateError Unit × ReadState) : Prop where
  ok_iff : out.1 = .ok () ↔ ∃ rest, r.2 = .done () rest
  rejected : r.2 = .rejected → ∀ t < kp.nStream, out.2.cache.vCells t = resize kp.kvSize
  loaded : r.2 ≠ .rejected → Loaded kp tgt r.1 out.2.cache

theorem Ended.cut {last : Option (ℕ × List (ℤ × List ℕ))} {e : StateError} {s : ReadState}
    (h : Loaded kp tgt last s.cache) : Ended kp tgt (last, .cut) (.error e, s) :=
  ⟨by simp, by simp, fun _ => h⟩

theorem Ended.reject {last : Option (ℕ × List (ℤ × List ℕ))} {e : StateError} {s : ReadState}
    (h : ∀ t < kp.nStream, s.cache.vCells t = resize kp.kvSize) : Ended kp tgt (last, .rejected) (.error e, s) :=
  ⟨by simp, fun _ => h, by simp⟩

theorem readStream_block {l rest : List UInt8} {s' : ReadState}
    (hcount : (readU32).run ⟨st, l⟩ = (.ok count, ⟨st, rest⟩)) (hne : count ≠ 0) :
    ((readBlock kp t count (-1)).run ⟨st, rest⟩ = (.ok true, s') →
      (readStream kp (-1) t).run ⟨st, l⟩ = (.ok (), s')) ∧
    ((readBlock kp t count (-1)).run ⟨st, rest⟩ = (.ok false, s') →
      (readStream kp (-1) t).run ⟨st, l⟩ = (.error .restoreFailed, ⟨s'.cache.clear kp true, s'.bytes⟩)) ∧
    ∀ e, (readBlock kp t count (-1)).run ⟨st, rest⟩ = (.error e, s') →
      (readStream kp (-1) t).run ⟨st, l⟩ = (.error e, s') := by
  have hstream : (readStream kp (-1) t).run ⟨st, l⟩ = (do
      if ← readBlock kp t count (-1) then return ()
      else
        cleanUp kp (-1)
        Fallible.throw .restoreFailed).run ⟨st, rest⟩ := by
    rw [readStream, run_bind_ok hcount]
    simp only [hne, if_false, if_true]
  rw [hstream]
  refine ⟨fun h => ?_, fun h => ?_, fun e h => ?_⟩
  · rw [run_bind_ok h]
    rfl
  · rw [run_bind_ok h]
    rfl
  · rw [run_bind_error h]

theorem readBlock_large (hsize : (st.vCells t).size = kp.kvSize) (hlt : kp.kvSize < count) (l : List UInt8) :
    (readBlock kp t count (-1)).run ⟨st, l⟩ = (.ok false, ⟨st, l⟩) := by
  have hmeta : (readMetaAll kp t count).run ⟨st, l⟩ = (.ok false, ⟨st, l⟩) := by
    rw [readMetaAll, run_bind_ok (run_get _)]
    simp only [hsize, hlt, if_true]
    rfl
  rw [readBlock, stateReadMeta, if_neg (by decide), run_bind_ok hmeta]
  rfl

theorem readBlock_scan (hsize : ∀ t < kp.nStream, (st.vCells t).size = kp.kvSize) (ht : t < kp.nStream)
    (hne : count ≠ 0) (hcount : count ≤ kp.kvSize) (l : List UInt8) :
    match (scanCells kp count l).2 with
    | .done _ rest => ∃ s', (readBlock kp t count (-1)).run ⟨st, l⟩ = (verdict (scanData kp count rest), s') ∧
        Loaded kp tgt (some (t, (scanCells kp count l).1)) s'.cache ∧
        ∀ a rest', scanData kp count rest = .done a rest' → s'.bytes = rest'
    | .rejected => ∃ s', (readBlock kp t count (-1)).run ⟨st, l⟩ = (.ok false, s') ∧
        Loaded kp tgt (some (t, (scanCells kp count l).1)) s'.cache
    | .cut => ∃ s', (readBlock kp t count (-1)).run ⟨st, l⟩ = (.error .endOfBuffer, s') ∧
        Loaded kp tgt (some (t, (scanCells kp count l).1)) s'.cache := by
  obtain ⟨st1, more, hmeta, hload, hrest⟩ := @readMetaAll_scan kp st tgt t count hsize ht hcount l
  have hblock : (readBlock kp t count (-1)).run ⟨st, l⟩ = (do
      if ← readMetaAll kp t count then stateReadData kp t count else return false).run ⟨st, l⟩ := by
    rw [readBlock, stateReadMeta, if_neg (by decide)]
  rw [hblock]
  cases hscan : (scanCells kp count l).2 with
  | done a rest =>
    rw [hscan] at hmeta
    obtain rfl := hrest a rest hscan
    have hsize1 : (st1.vCells t).size = kp.kvSize := by
      rw [hload t ht, if_pos rfl]
      exact putCells_size ..
    obtain ⟨s', hdata, hsame, hmore⟩ := @stateReadData_scan kp t count hne ⟨st1, more⟩ (hsize1 ▸ hcount)
    exact ⟨s', by rw [run_bind_ok hmeta]; exact hdata, hload.congr hsame.vCells, hmore⟩
  | rejected =>
    rw [hscan] at hmeta
    exact ⟨⟨st1, more⟩, by rw [run_bind_ok hmeta]; rfl, hload⟩
  | cut =>
    rw [hscan] at hmeta
    exact ⟨⟨st1, more⟩, by rw [run_bind_error hmeta], hload⟩

theorem readStreams_scan (htgt : ∀ t < kp.nStream, (tgt.vCells t).size = kp.kvSize) (ts : List ℕ)
    (hts : ∀ t ∈ ts, t < kp.nStream) {last : Option (ℕ × List (ℤ × List ℕ))} (h : Loaded kp tgt last st)
    (l : List UInt8) :
    Ended kp tgt (scanStreams kp ts l last) ((ts.forM (readStream kp (-1))).run ⟨st, l⟩) := by
  induction ts generalizing st l last with
  | nil => exact ⟨by simp [scanStreams], by simp [scanStreams], fun _ => h⟩
  | cons t ts ih =>
    have ht := hts t mem_cons_self
    have hsize := h.size htgt
    have hcount := peeks_readU32 st l
    rw [forM_cons, scanStreams]
    cases hp : scanU32 l with
    | rejected =>
      rw [hp] at hcount
      exact hcount.elim
    | cut =>
      rw [hp] at hcount
      obtain ⟨more, hcut⟩ := hcount
      rw [readStream, run_bind_error (run_bind_error hcut)]
      exact Ended.cut h
    | done count rest =>
      rw [hp] at hcount
      simp only at hcount ⊢
      by_cases hzero : count = 0
      · have hskip : (readStream kp (-1) t).run ⟨st, l⟩ = (.ok (), ⟨st, rest⟩) := by
          rw [readStream, run_bind_ok hcount, if_pos hzero]
          rfl
        rw [if_pos hzero, run_bind_ok hskip]
        exact ih (fun t' ht' => hts t' (mem_cons_of_mem t ht')) h rest
      · rw [if_neg hzero]
        -- a rejected block is followed by a call of `clear`
        have hreject : ∀ {s' : ReadState} (last' : Option (ℕ × List (ℤ × List ℕ))),
            (∀ t < kp.nStream, (s'.cache.vCells t).size = kp.kvSize) →
            (readBlock kp t count (-1)).run ⟨st, rest⟩ = (.ok false, s') →
            Ended kp tgt (last', .rejected) ((readStream kp (-1) t >>= fun _ =>
              ts.forM (readStream kp (-1))).run ⟨st, l⟩) := by
          intro s' last' hsize' hb
          rw [run_bind_error ((readStream_block hcount hzero).2.1 hb)]
          exact Ended.reject (clear_vCells hsize' true)
        by_cases hlarge : kp.kvSize < count
        · rw [if_pos hlarge]
          exact hreject last hsize (readBlock_large (hsize t ht) hlarge rest)
        · rw [if_neg hlarge]
          have hblock := @readBlock_scan kp st tgt t count hsize ht hzero (not_lt.mp hlarge) rest
          cases hscan : (scanCells kp count rest).2 with
          | rejected =>
            rw [hscan] at hblock
            obtain ⟨s', hb, hload⟩ := hblock
            exact hreject _ (hload.size htgt) hb
          | cut =>
            rw [hscan] at hblock
            obtain ⟨s', hb, hload⟩ := hblock
            rw [run_bind_error ((readStream_block hcount hzero).2.2 _ hb)]
            exact Ended.cut hload
          | done a rest' =>
            rw [hscan] at hblock
            obtain ⟨s', hb, hload, hmore⟩ := hblock
            simp only
            cases hdata : scanData kp count rest' with
            | rejected =>
              rw [hdata] at hb
              exact hreject _ (hload.size htgt) hb
            | cut =>
              rw [hdata] at hb
              rw [run_bind_error ((readStream_block hcount hzero).2.2 _ hb)]
              exact Ended.cut hload
            | done a' rest'' =>
              rw [hdata] at hb
              obtain ⟨st', bytes'⟩ := s'
              obtain rfl : bytes' = rest'' := hmore a' rest'' hdata
              rw [run_bind_ok ((readStream_block hcount hzero).1 hb)]
              exact ih (fun t' ht' => hts t' (mem_cons_of_mem t ht')) hload bytes'

theorem stateReadAll_scan (htgt : ∀ t < kp.nStream, (tgt.vCells t).size = kp.kvSize) (l : List UInt8) :
    Ended kp tgt (scanAll kp l) ((stateRead kp (-1)).run ⟨tgt, l⟩) := by
  have hcount := peeks_readU32 tgt l
  have hself : Loaded kp tgt none tgt := fun t _ => rfl
  rw [stateRead, run_bind_ok (run_lift _ _), scanAll]
  cases hp : scanU32 l with
  | rejected =>
    rw [hp] at hcount
    exact hcount.elim
  | cut =>
    rw [hp] at hcount
    obtain ⟨more, hcut⟩ := hcount
    rw [run_bind_error hcut]
    exact Ended.cut hself
  | done nStream rest =>
    rw [hp] at hcount
    rw [run_bind_ok hcount]
    simp only
    by_cases hne : nStream ≠ kp.nStream
    · rw [if_pos hne, if_pos hne]
      exact Ended.cut hself
    · rw [if_neg hne, if_neg hne]
      exact readStreams_scan htgt _ (fun t ht => List.mem_range.mp ht) hself rest

end KvCache
