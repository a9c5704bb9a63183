import LlamaRafaelia.Guard.Normalizer

/-!
# The smart guard

`evaluate` normalises the prompt, looks for phrases in it, joins in what the metadata fields say, and turns the
signals into an action by a chain of priorities; a policy file may raise the action.  The file system is a parameter.

* `verdict_mono`, `overlay_mono` - **every stage is monotone**: the chain of priorities, and the policy on top;
* **`guard_never_lowered`** - a text around the prompt, and more metadata, never talk the guard down.
-/

namespace SmartGuard

open List Words

/-! ### Phrases -/

/-- `contains_any`. -/
def containsAny (text : List UInt8) (phrases : List (List UInt8)) : Bool :=
  phrases.any fun phrase => decide (phrase <:+: text)

/-- `vulnerable_terms`. -/
def vulnerableTerms : List (List UInt8) :=
  ["child", "kid", "baby", "toddler", "infant", "pregnant", "pregnancy", "elderly", "senior", "crianca",
    "menor", "bebe", "gravida", "idoso", "filho", "alergia", "allergy", "allergic", "asma", "asthma"].map ascii

/-- `ambiguous_terms`. -/
def ambiguousTerms : List (List UInt8) :=
  ["not sure", "unknown", "mystery", "unlabeled", "no label", "generic label", "unmarked", "random", "unsure",
    "maybe", "guess", "think", "nao sei", "desconhecido", "nao identificado", "mistura", "qualquer", "talvez",
    "sem rotulo", "rotulo generico", "sem etiqueta", "acho que"].map ascii

/-- `instruction_terms`. -/
def instructionTerms : List (List UInt8) :=
  ["how to", "step by step", "instructions", "guide", "tutorial", "recipe", "build", "make", "como fazer",
    "como misturar", "passo a passo", "instrucoes", "procedimento", "receita"].map ascii

/-- `hazard_terms`. -/
def hazardTerms : List (List UInt8) :=
  ["bleach", "ammonia", "chlorine", "acid", "peroxide", "drain cleaner", "cleaner", "solvent", "pesticide",
    "explosive", "bomb", "weapon", "firearm", "poison", "toxic gas", "agua sanitaria", "amonia", "cloro",
    "acido", "peroxido", "vinagre", "saneante", "solvente", "pesticida", "bomba", "arma", "veneno",
    "gas toxico"].map ascii

/-- `mix_terms`. -/
def mixTerms : List (List UInt8) :=
  ["mix", "combine", "blend", "misturar", "misture", "mistura", "combinar"].map ascii

/-- `pressure_terms`. -/
def pressureTerms : List (List UInt8) :=
  ["sealed", "closed container", "pressurized", "pressure", "recipiente fechado", "garrafa fechada",
    "lata fechada", "pressao"].map ascii

/-- `heat_terms`. -/
def heatTerms : List (List UInt8) :=
  ["heat", "ignite", "burn", "flame", "aquec", "esquent", "fogo", "microondas"].map ascii

/-- `energy_terms`. -/
def energyTerms : List (List UInt8) :=
  ["energy", "electric", "battery", "power", "energia", "eletric", "bateria", "tomada"].map ascii

/-- `allergy_terms`. -/
def allergyTerms : List (List UInt8) :=
  ["allergy", "allergic", "alergia", "alergico", "alergica"].map ascii

/-- `critical_foods`. -/
def criticalFoods : List (List UInt8) :=
  ["grapefruit", "sesame"].map ascii

/-! ### The policy file -/

/-- `std::isspace` in the "C" locale. -/
def isspace (c : UInt8) : Bool := decide (c = 0x20 ∨ (0x09 ≤ c ∧ c ≤ 0x0D))

/-- `trim_copy`. -/
def trimCopy (input : List UInt8) : List UInt8 :=
  (((input.dropWhile isspace).reverse).dropWhile isspace).reverse

/-- The lines that `std::getline` reads one after the other, when `current` was read of a line already. -/
def getlines (current : List UInt8) : List UInt8 → List (List UInt8)
  | [] => if current = [] then [] else [current]
  | c :: rest => if c = 0x0A then current :: getlines [] rest else getlines (current ++ [c]) rest

/-- `policy_terms`. -/
structure PolicyTerms where
  warnTerms : List (List UInt8) := []
  blockTerms : List (List UInt8) := []

def policyLine (terms : PolicyTerms) (line : List UInt8) : PolicyTerms :=
  let trimmed := trimCopy line
  if trimmed = [] ∨ trimmed.head? = some 0x23 then terms
  else if (ascii "warn:").isPrefixOf trimmed then
    let term := trimCopy (trimmed.drop (ascii "warn:").length)
    if term = [] then terms else { terms with warnTerms := terms.warnTerms ++ [normalizeText term] }
  else if (ascii "block:").isPrefixOf trimmed then
    let term := trimCopy (trimmed.drop (ascii "block:").length)
    if term = [] then terms else { terms with blockTerms := terms.blockTerms ++ [normalizeText term] }
  else { terms with warnTerms := terms.warnTerms ++ [normalizeText trimmed] }

/-- `load_policy_terms`. -/
def loadPolicyTerms (readFile : List UInt8 → Option (List UInt8)) (path : List UInt8) : PolicyTerms :=
  if path = [] then {}
  else
    match readFile path with
    | none => {}
    | some content => (getlines [] content).foldl policyLine {}

/-! ### Results -/

/-- `action`. -/
inductive Action
  | allow
  | warn
  | block
  deriving DecidableEq, Repr

/-- `ALLOW < WARN < BLOCK`. -/
def Action.rank : Action → ℕ
  | .allow => 0
  | .warn => 1
  | .block => 2

instance : LE Action := ⟨fun a b => a.rank ≤ b.rank⟩

instance (a b : Action) : Decidable (a ≤ b) := inferInstanceAs (Decidable (a.rank ≤ b.rank))

/-- The texts that `evaluate` puts into `reasons`. -/
inductive Reason
  | vulnerableContext
  | ambiguousRequest
  | explicitHazardRequest
  | hazardContext
  | allergySensitiveTerm
  | policyWarn
  | policyBlock
  deriving DecidableEq, Repr

def Reason.code : Reason → String
  | .vulnerableContext => "vulnerable_context"
  | .ambiguousRequest => "ambiguous_request"
  | .explicitHazardRequest => "explicit_hazard_request"
  | .hazardContext => "hazard_context"
  | .allergySensitiveTerm => "allergy_sensitive_term"
  | .policyWarn => "policy_warn"
  | .policyBlock => "policy_block"

/-- The category of a reason, as `collect_categories` has it. -/
def Reason.category : Reason → String
  | .vulnerableContext => "vulnerable"
  | .ambiguousRequest => "ambiguous"
  | .explicitHazardRequest | .hazardContext => "hazard"
  | .allergySensitiveTerm => "allergy"
  | .policyWarn | .policyBlock => "policy"

/-- `metadata`: an `unordered_map`, in the order in which the loop visits it. -/
structure Metadata where
  fields : List (List UInt8 × List UInt8)
  nodup : (fields.map Prod.fst).Nodup

/-- `result`. -/
structure Result where
  riskLevel : ℕ
  actionTaken : Action
  reasons : List Reason
  reasonCode : String
  categories : List String
  normalizedPromptDigest : String

/-- `collect_categories`: each category once, in the order of the reasons. -/
def collectCategories (reasons : List Reason) : List String :=
  reasons.foldl (fun categories reason =>
    if reason.category ∈ categories then categories else categories ++ [reason.category]) []

/-- `fnv1a_64`. -/
def fnv1a64 (input : List UInt8) : UInt64 :=
  input.foldl (fun hash c => (hash ^^^ c.toUInt64) * 1099511628211) 1469598103934665603

/-- `hex_u64`: sixteen digits. -/
def hexU64 (value : UInt64) : String :=
  String.ofList ((List.range 16).reverse.map fun i => Nat.digitChar (value.toNat / 16 ^ i % 16))

/-! ### Evaluation -/

/-- The five flags of `evaluate`. -/
structure Signals where
  vulnerable : Bool
  ambiguous : Bool
  hazardRequest : Bool
  hazardContext : Bool
  allergyTrigger : Bool

def promptSignals (normalized : List UInt8) : Signals where
  vulnerable := containsAny normalized vulnerableTerms
  ambiguous := containsAny normalized ambiguousTerms
  hazardRequest := containsAny normalized hazardTerms && containsAny normalized instructionTerms
  hazardContext :=
    (containsAny normalized hazardTerms && containsAny normalized mixTerms) ||
      (containsAny normalized pressureTerms &&
        (containsAny normalized heatTerms || containsAny normalized energyTerms))
  allergyTrigger := containsAny normalized allergyTerms && containsAny normalized criticalFoods

def fieldSignals (s : Signals) (field : List UInt8 × List UInt8) : Signals :=
  let fieldValue := normalizeText field.2
  { s with
    vulnerable := if !s.vulnerable && containsAny fieldValue vulnerableTerms then true else s.vulnerable
    ambiguous := if !s.ambiguous && containsAny fieldValue ambiguousTerms then true else s.ambiguous }

/-- `collect_reasons`. -/
def collectReasons (s : Signals) : List Reason :=
  (if s.vulnerable then [.vulnerableContext] else []) ++ (if s.ambiguous then [.ambiguousRequest] else []) ++
    (if s.hazardRequest then [.explicitHazardRequest] else []) ++
    (if s.hazardContext then [.hazardContext] else []) ++
    (if s.allergyTrigger then [.allergySensitiveTerm] else [])

def verdict (s : Signals) : ℕ × Action :=
  if s.vulnerable && s.ambiguous then (3, .block)
  else if s.hazardRequest then (3, .block)
  else if s.hazardContext || s.allergyTrigger then (2, .warn)
  else (0, .allow)

def overlay (policyBlock policyWarn : Bool) (v : ℕ × Action) : (ℕ × Action) × List Reason :=
  if policyBlock then ((max v.1 3, .block), [.policyBlock])
  else if policyWarn && v.2 = .allow then ((max v.1 2, .warn), [.policyWarn])
  else if policyWarn then (v, [.policyWarn])
  else (v, [])

/-- The branch of `evaluate` for the metadata field `policy_path`. -/
def applyPolicy (readFile : List UInt8 → Option (List UInt8)) (m : Metadata) (normalized : List UInt8)
    (v : ℕ × Action) : (ℕ × Action) × List Reason :=
  match m.fields.lookup (ascii "policy_path") with
  | none => (v, [])
  | some path =>
    if path = [] then (v, [])
    else
      let policy := loadPolicyTerms readFile path
      overlay (containsAny normalized policy.blockTerms) (containsAny normalized policy.warnTerms) v

/-- `evaluate`. -/
def evaluate (readFile : List UInt8 → Option (List UInt8)) (prompt : List UInt8) (m : Metadata) : Result :=
  let normalized := normalizeText prompt
  let signals := m.fields.foldl fieldSignals (promptSignals normalized)
  let (v, policyReasons) := applyPolicy readFile m normalized (verdict signals)
  let reasons := collectReasons signals ++ policyReasons
  { riskLevel := v.1
    actionTaken := v.2
    reasons := reasons
    reasonCode := match reasons with
      | [] => "none"
      | reason :: _ => reason.code
    categories := collectCategories reasons
    normalizedPromptDigest := hexU64 (fnv1a64 normalized) }

/-! ### More signals -/

/-- More signals, in every component. -/
structure Signals.Le (s t : Signals) : Prop where
  vulnerable : s.vulnerable = true → t.vulnerable = true
  ambiguous : s.ambiguous = true → t.ambiguous = true
  hazardRequest : s.hazardRequest = true → t.hazardRequest = true
  hazardContext : s.hazardContext = true → t.hazardContext = true
  allergyTrigger : s.allergyTrigger = true → t.allergyTrigger = true

def VerdictLe (v v' : ℕ × Action) : Prop := v.1 ≤ v'.1 ∧ v.2 ≤ v'.2

instance (v v' : ℕ × Action) : Decidable (VerdictLe v v') := inferInstanceAs (Decidable (_ ∧ _))

theorem containsAny_mono {text text' : List UInt8} (h : text <:+: text') {phrases : List (List UInt8)}
    (hany : containsAny text phrases = true) : containsAny text' phrases = true := by
  obtain ⟨phrase, hmem, hphrase⟩ := any_eq_true.mp hany
  refine any_eq_true.mpr ⟨phrase, hmem, ?_⟩
  exact decide_eq_true ((of_decide_eq_true hphrase).trans h)

theorem promptSignals_mono {text text' : List UInt8} (h : text <:+: text') :
    (promptSignals text).Le (promptSignals text') where
  vulnerable := containsAny_mono h
  ambiguous := containsAny_mono h
  hazardRequest := by
    intro hboth
    obtain ⟨h1, h2⟩ := Bool.and_eq_true_iff.mp hboth
    exact Bool.and_eq_true_iff.mpr ⟨containsAny_mono h h1, containsAny_mono h h2⟩
  hazardContext := by
    intro heither
    refine Bool.or_eq_true_iff.mpr ((Bool.or_eq_true_iff.mp heither).imp ?_ ?_)
    · intro hboth
      obtain ⟨h1, h2⟩ := Bool.and_eq_true_iff.mp hboth
      exact Bool.and_eq_true_iff.mpr ⟨containsAny_mono h h1, containsAny_mono h h2⟩
    · intro hboth
      obtain ⟨h1, h2⟩ := Bool.and_eq_true_iff.mp hboth
      refine Bool.and_eq_true_iff.mpr ⟨containsAny_mono h h1, ?_⟩
      exact Bool.or_eq_true_iff.mpr ((Bool.or_eq_true_iff.mp h2).imp (containsAny_mono h) (containsAny_mono h))
  allergyTrigger := by
    intro hboth
    obtain ⟨h1, h2⟩ := Bool.and_eq_true_iff.mp hboth
    exact Bool.and_eq_true_iff.mpr ⟨containsAny_mono h h1, containsAny_mono h h2⟩

/-! ### The metadata -/

theorem foldl_fieldSignals (fields : List (List UInt8 × List UInt8)) (s : Signals) :
    fields.foldl fieldSignals s =
      { s with
        vulnerable := s.vulnerable || fields.any fun field => containsAny (normalizeText field.2) vulnerableTerms
        ambiguous := s.ambiguous || fields.any fun field => containsAny (normalizeText field.2) ambiguousTerms } := by
  induction fields generalizing s with
  | nil => simp
  | cons field fields ih =>
    rw [foldl_cons, ih, fieldSignals]
    simp only [any_cons, Signals.mk.injEq, and_self, and_true]
    constructor
    · cases s.vulnerable <;> cases containsAny (normalizeText field.2) vulnerableTerms <;> rfl
    · cases s.ambiguous <;> cases containsAny (normalizeText field.2) ambiguousTerms <;> rfl

theorem foldl_fieldSignals_mono {s t : Signals} (h : s.Le t) {fields fields' : List (List UInt8 × List UInt8)}
    (hfields : ∀ field ∈ fields, field ∈ fields') :
    (fields.foldl fieldSignals s).Le (fields'.foldl fieldSignals t) := by
  have hany : ∀ terms, (fields.any fun field => containsAny (normalizeText field.2) terms) = true →
      (fields'.any fun field => containsAny (normalizeText field.2) terms) = true := by
    intro terms hterms
    obtain ⟨field, hmem, hfield⟩ := any_eq_true.mp hterms
    exact any_eq_true.mpr ⟨field, hfields field hmem, hfield⟩
  rw [foldl_fieldSignals, foldl_fieldSignals]
  exact
    { vulnerable := fun hor => Bool.or_eq_true_iff.mpr ((Bool.or_eq_true_iff.mp hor).imp h.vulnerable (hany _))
      ambiguous := fun hor => Bool.or_eq_true_iff.mpr ((Bool.or_eq_true_iff.mp hor).imp h.ambiguous (hany _))
      hazardRequest := h.hazardRequest
      hazardContext := h.hazardContext
      allergyTrigger := h.allergyTrigger }

/-- `m'` has all the fields of `m`, and no further `policy_path`. -/
structure Metadata.Extends (m m' : Metadata) : Prop where
  fields : ∀ field ∈ m.fields, field ∈ m'.fields
  added : ∀ field ∈ m'.fields, field ∉ m.fields → field.1 ≠ ascii "policy_path"

theorem lookup_iff_mem {fields : List (List UInt8 × List UInt8)} (hnodup : (fields.map Prod.fst).Nodup)
    (key value : List UInt8) : fields.lookup key = some value ↔ (key, value) ∈ fields := by
  induction fields with
  | nil => simp
  | cons field fields ih =>
    obtain ⟨k, v⟩ := field
    rw [map_cons, nodup_cons] at hnodup
    rw [lookup_cons, mem_cons]
    by_cases hkey : key = k
    · subst hkey
      have hout : (key, value) ∉ fields := fun hmem => hnodup.1 (mem_map.mpr ⟨_, hmem, rfl⟩)
      simp [hout, eq_comm]
    · have hne : (key == k) = false := beq_eq_false_iff_ne.mpr hkey
      simp [hne, ih hnodup.2, hkey]

theorem Metadata.Extends.lookup_policy {m m' : Metadata} (h : m.Extends m') :
    m'.fields.lookup (ascii "policy_path") = m.fields.lookup (ascii "policy_path") := by
  refine Option.ext fun value => ?_
  rw [lookup_iff_mem m'.nodup, lookup_iff_mem m.nodup]
  constructor
  · intro hmem
    by_contra hnot
    exact h.added _ hmem hnot rfl
  · exact h.fields _

/-! ### Every stage is monotone -/

theorem verdict_mono {s t : Signals} (h : s.Le t) : VerdictLe (verdict s) (verdict t) := by
  obtain ⟨h1, h2, h3, h4, h5⟩ := h
  obtain ⟨v, a, hr, hc, al⟩ := s
  obtain ⟨v', a', hr', hc', al'⟩ := t
  revert h1 h2 h3 h4 h5 v a hr hc al v' a' hr' hc' al'
  decide +kernel

def verdicts : List (ℕ × Action) := [(3, .block), (2, .warn), (0, .allow)]

theorem verdict_mem (s : Signals) : verdict s ∈ verdicts := by
  unfold verdict
  split
  · decide
  · split
    · decide
    · split <;> decide

theorem overlay_mono {v v' : ℕ × Action} (hv : v ∈ verdicts) (hv' : v' ∈ verdicts) (h : VerdictLe v v')
    {b w b' w' : Bool} (hb : b = true → b' = true) (hw : w = true → w' = true) :
    VerdictLe (overlay b w v).1 (overlay b' w' v').1 := by
  revert b w b' w'
  revert h
  revert hv'
  revert v'
  revert hv
  revert v
  decide +kernel

theorem applyPolicy_mono (readFile : List UInt8 → Option (List UInt8)) {m m' : Metadata}
    (hpolicy : m'.fields.lookup (ascii "policy_path") = m.fields.lookup (ascii "policy_path"))
    {text text' : List UInt8} (htext : text <:+: text') {v v' : ℕ × Action} (hv : v ∈ verdicts) (hv' : v' ∈ verdicts)
    (h : VerdictLe v v') :
    VerdictLe (applyPolicy readFile m text v).1 (applyPolicy readFile m' text' v').1 := by
  unfold applyPolicy
  rw [hpolicy]
  cases m.fields.lookup (ascii "policy_path") with
  | none => exact h
  | some path =>
    by_cases hpath : path = []
    · simp only [hpath, if_true]
      exact h
    · simp only [hpath, if_false]
      exact overlay_mono hv hv' h (containsAny_mono htext) (containsAny_mono htext)

def Result.NotAbove (r r' : Result) : Prop := r.actionTaken ≤ r'.actionTaken ∧ r.riskLevel ≤ r'.riskLevel

/-- **Evaluation is monotone** in the normalised text and in the metadata. -/
theorem evaluate_mono (readFile : List UInt8 → Option (List UInt8)) {prompt prompt' : List UInt8}
    (hprompt : normalizeText prompt <:+: normalizeText prompt') {m m' : Metadata}
    (hfields : ∀ field ∈ m.fields, field ∈ m'.fields)
    (hpolicy : m'.fields.lookup (ascii "policy_path") = m.fields.lookup (ascii "policy_path")) :
    (evaluate readFile prompt m).NotAbove (evaluate readFile prompt' m') := by
  have hsignals := foldl_fieldSignals_mono (promptSignals_mono hprompt) hfields
  have hverdict := applyPolicy_mono readFile hpolicy hprompt (verdict_mem _) (verdict_mem _) (verdict_mono hsignals)
  exact ⟨hverdict.2, hverdict.1⟩

/-- **The guard is never talked down.**  Normalising is idempotent; around a separator it is the join of both sides;
and neither a text before or behind the prompt, nor metadata beyond `policy_path`, lowers the action or the risk
level. -/
theorem guard_never_lowered (readFile : List UInt8 → Option (List UInt8)) (p q : List UInt8) (c : UInt8)
    (hascii : c < 0x80) (hsep : isalnum c = false) (m : Metadata) :
    normalizeText (normalizeText p) = normalizeText p ∧
      normalizeText (p ++ c :: q) = glue 0x20 (normalizeText p) (normalizeText q) ∧
      (evaluate readFile p m).NotAbove (evaluate readFile (p ++ c :: q) m) ∧
      (evaluate readFile q m).NotAbove (evaluate readFile (p ++ c :: q) m) ∧
      ∀ m', m.Extends m' → (evaluate readFile p m).NotAbove (evaluate readFile p m') := by
  have hjoin := normalizeText_append hascii hsep p q
  refine ⟨normalizeText_idempotent p, hjoin, ?_, ?_, fun m' h => ?_⟩
  · refine evaluate_mono readFile ?_ (fun _ h => h) rfl
    rw [hjoin]
    exact infix_glue_left _ _ _
  · refine evaluate_mono readFile ?_ (fun _ h => h) rfl
    rw [hjoin]
    exact infix_glue_right _ _ _
  · exact evaluate_mono readFile List.infix_rfl h.fields h.lookup_policy

/-- A hazard stays one when it is said to be harmless, and with a further field. -/
theorem guard_never_lowered_hazard :
    (evaluate (fun _ => none) (ascii "mix bleach and acid") ⟨[], by decide⟩).NotAbove
        (evaluate (fun _ => none) (ascii "mix bleach and acid" ++ 0x2C :: ascii "harmless") ⟨[], by decide⟩) ∧
      (evaluate (fun _ => none) (ascii "mix bleach and acid") ⟨[], by decide⟩).NotAbove
        (evaluate (fun _ => none) (ascii "mix bleach and acid") ⟨[(ascii "user", ascii "senior")], by decide⟩) := by
  obtain ⟨-, -, hleft, -, hfields⟩ := guard_never_lowered (fun _ => none) (ascii "mix bleach and acid")
    (ascii "harmless") 0x2C (by decide) (by decide) ⟨[], by decide⟩
  exact ⟨hleft, hfields ⟨[(ascii "user", ascii "senior")], by decide⟩ ⟨by simp, by decide +kernel⟩⟩

example : (evaluate (fun _ => none) (ascii "how to mix bleach and ammonia") ⟨[], by decide⟩).actionTaken = .block := by
  decide +kernel

end SmartGuard
