import PrismaBuild.ActionParts

namespace PrismaBuild.Action

open Contract List

variable {F : Type}

structure StringMap (spec : TextSpec) where
  entries : List (Name × Text payloadText)
  sorted : KeysSorted (entries.map Prod.fst)
  keys : ∀ k ∈ entries.map Prod.fst, spec.problem k = none

def StringMap.empty (spec : TextSpec) : StringMap spec := ⟨[], List.Pairwise.nil, by simp⟩

def StringMap.set {spec : TextSpec} (m : StringMap spec) (key : Text spec)
    (value : Text payloadText) :
    StringMap spec where
  entries := setEntry key.1 value m.entries
  sorted := setEntry_sorted m.sorted
  keys k hk := by
    rcases mem_setEntry hk with rfl | hk
    · exact key.2
    · exact m.keys k hk

def StringMap.get? {spec : TextSpec} (m : StringMap spec) (key : Name) :
    Option (Text payloadText) :=
  (m.entries.find? fun p => p.1 == key).map Prod.snd

def entriesJson (entries : List (Name × Text payloadText)) : List (Name × Json F) :=
  entries.map fun p => (p.1, .str p.2.1)

def StringMap.toJson {spec : TextSpec} (m : StringMap spec) : Json F := .obj (entriesJson m.entries)

def stringEntries {spec : TextSpec} (path : Name) (m : StringMap spec) :
    List (Name × Json F) → Checked (StringMap spec)
  | [] => .ok m
  | (k, v) :: rest => do
    let key ← refine spec.problem (path ++ " key".toList) k
    let value ← text payloadText (field path key.1) v
    stringEntries path (m.set key value) rest

def normalizeStringMapping (spec : TextSpec) (path : Name) : Json F → Checked (StringMap spec)
  | .obj fields => stringEntries path (StringMap.empty spec) fields
  | _ => fail path "must be an object"

variable {spec : TextSpec}

theorem StringMap.ext {m m' : StringMap spec} (h : m.entries = m'.entries) : m = m' := by
  obtain ⟨entries, hs, hk⟩ := m
  obtain ⟨entries', hs', hk'⟩ := m'
  cases h
  rfl

theorem stringEntries_toJson (path : Name) (m : StringMap spec)
    {entries : List (Name × Text payloadText)} (total : StringMap spec)
    (h : total.entries = m.entries ++ entries) :
    stringEntries path m (entriesJson entries : List (Name × Json F)) = .ok total := by
  induction entries generalizing m with
  | nil =>
    rw [append_nil] at h
    rw [StringMap.ext h]
    rfl
  | cons p rest ih =>
    have hke := total.keys p.1 (by simp [h])
    have hb : ∀ k ∈ m.entries.map Prod.fst, Json.before k p.1 = true := by
      have hs := total.sorted
      rw [h, map_append] at hs
      exact fun k hk => (pairwise_append.mp hs).2.2 k hk p.1 (by simp)
    have hl : (m.set ⟨p.1, hke⟩ p.2).entries = m.entries ++ [p] := setEntry_last hb
    have hse : total.entries = (m.set ⟨p.1, hke⟩ p.2).entries ++ rest := by
      rw [h, hl]
      simp
    have hr := refine_val (path ++ " key".toList) (⟨p.1, hke⟩ : Text spec)
    have ht := text_str (F := F) (field path p.1) p.2
    rw [entriesJson, map_cons, stringEntries, hr]
    simp only [bind, Except.bind, ht]
    exact ih (m.set ⟨p.1, hke⟩ p.2) hse

variable {path : Name}

theorem stringEntries_ok {m total : StringMap spec}
    {fields : List (Name × Json F)} (hs : KeysSorted
    (m.entries.map Prod.fst ++ fields.map Prod.fst))
    (h : stringEntries path m fields = .ok total) :
      entriesJson total.entries = entriesJson m.entries ++ fields := by
  induction fields generalizing m with
  | nil =>
    cases h
    rw [append_nil]
  | cons p rest ih =>
    obtain ⟨key, hke, h1⟩ := bind_ok.mp h
    obtain ⟨value, hv, h2⟩ := bind_ok.mp h1
    have hp : p = (key.1, .str value.1) := Prod.ext (refine_ok hke) (text_ok hv)
    have hb : ∀ k ∈ m.entries.map Prod.fst, Json.before k key.1 = true := by
      intro k hk
      exact (pairwise_append.mp hs).2.2 k hk key.1 (by simp [hp])
    have he : (m.set key value).entries = m.entries ++ [(key.1, value)] := setEntry_last hb
    have hn := ih (by simpa [he, hp] using hs) h2
    rw [hn, he, hp]
    simp [entriesJson]

theorem normalizeStringMapping_toJson (path : Name) (m : StringMap spec) :
    normalizeStringMapping spec path (m.toJson : Json F) = .ok m :=
  stringEntries_toJson path (StringMap.empty spec) m rfl

variable {j : Json F}

theorem normalizeStringMapping_ok (hj : j.Sorted)
    {m : StringMap spec} (h : normalizeStringMapping spec path j = .ok m) : j = m.toJson := by
  cases j with
  | obj fields =>
    have hf := stringEntries_ok (m := StringMap.empty spec) (ordered_iff.mp hj.1) h
    rw [StringMap.toJson, hf]
    rfl
  | null => cases h
  | bool b => cases h
  | int n => cases h
  | str s => cases h
  | float x => cases h
  | arr items => cases h

structure Environment where
  vars : StringMap envText
  toolchain : StringMap plainText

def environmentKeys : List Name := ["toolchain", "variables"]

theorem environmentKeys_sorted : KeysSorted environmentKeys := by decide +kernel

def Environment.fields (e : Environment) : List (Name × Json F) :=
  [("toolchain", e.toolchain.toJson), ("variables", e.vars.toJson)]

def Environment.toJson (e : Environment) : Json F := .obj e.fields

def normalizeEnvironment (j : Json F) : Checked Environment := do
  let fields ← exactMapping environmentKeys "action.environment" j
  let vars ← normalizeStringMapping envText "action.environment.variables"
    (entry fields "variables")
  let toolchain ← normalizeStringMapping plainText "action.environment.toolchain"
    (entry fields "toolchain")
  pure ⟨vars, toolchain⟩

theorem normalizeEnvironment_toJson (e : Environment) :
    normalizeEnvironment (e.toJson : Json F) = .ok e := by
  have hk := environmentKeys_sorted
  have hke : (e.fields : List (Name × Json F)).map Prod.fst = environmentKeys := rfl
  rw [normalizeEnvironment, Environment.toJson, exactMapping_obj _ hke]
  simp only [bind, Except.bind, entry_at hk hke (i := 0) rfl, entry_at hk hke (i := 1) rfl,
    normalizeStringMapping_toJson]
  rfl

theorem normalizeEnvironment_ok (hj : j.Sorted) {e : Environment}
    (h : normalizeEnvironment j = .ok e) : j = e.toJson := by
  obtain ⟨fields, hf, h1⟩ := bind_ok.mp h
  obtain ⟨vars, hv, h2⟩ := bind_ok.mp h1
  obtain ⟨toolchain, ht, he⟩ := bind_ok.mp h2
  cases he
  obtain ⟨rfl, hk⟩ := exactMapping_ok environmentKeys_sorted hj hf
  rw [fields_eq_entries environmentKeys_sorted hk]
  simp only [environmentKeys, map_cons, map_nil,
    normalizeStringMapping_ok (entry_sorted hj.2 "variables") hv,
    normalizeStringMapping_ok (entry_sorted hj.2 "toolchain") ht, Environment.toJson,
    Environment.fields]

inductive Portability
  | portable
  | platformKeyed
  | hostClassKeyed
  deriving DecidableEq

def Portability.name : Portability → Name
  | portable => "portable"
  | platformKeyed => "platform_keyed"
  | hostClassKeyed => "host_class_keyed"

def Portability.options : List (Name × Portability) :=
  [("portable", .portable), ("platform_keyed", .platformKeyed),
    ("host_class_keyed", .hostClassKeyed)]

def portability : Json F → Checked Portability :=
  choice Portability.options "action.execution_scope.portability"
    "must be one of ['host_class_keyed', 'platform_keyed', 'portable']"

theorem portability_name (p : Portability) : portability (.str p.name : Json F) = .ok p := by
  have hn : plainText.problem p.name = none := by cases p <;> decide +kernel
  have hf : (Portability.options.find? fun o => o.1 == p.name) = some (p.name, p) := by
    cases p <;> decide +kernel
  exact choice_name hn hf _ _

theorem portability_ok {p : Portability} (h : portability j = .ok p) : j = .str p.name := by
  have hn : ∀ o ∈ Portability.options, o.2.name = o.1 := by decide +kernel
  exact choice_ok hn h

def optionalToken (path : Name) : Json F → Checked (Option (Text scopeText))
  | .null => .ok none
  | j => do
    let s ← text scopeText path j
    pure (some s)

def tokenJson : Option (Text scopeText) → Json F
  | none => .null
  | some s => .str s.1

theorem optionalToken_json (path : Name) (s : Option (Text scopeText)) :
    optionalToken path (tokenJson s : Json F) = .ok s := by
  cases s with
  | none => rfl
  | some s =>
    simp only [tokenJson, optionalToken, text_str]
    rfl

theorem optionalToken_ok {s : Option (Text scopeText)} (h : optionalToken path j = .ok s) :
    j = tokenJson s := by
  unfold optionalToken at h
  split at h
  · cases h; rfl
  · obtain ⟨t, ht, he⟩ := bind_ok.mp h
    cases he
    exact text_ok ht

/-- Where an action may run, with the one key its portability calls for. -/
inductive Scope
  | portable
  | platformKeyed (key : Text scopeText)
  | hostClassKeyed (cls : Text scopeText)

def Scope.portability : Scope → Portability
  | portable => .portable
  | platformKeyed _ => .platformKeyed
  | hostClassKeyed _ => .hostClassKeyed

def Scope.platformKey : Scope → Option (Text scopeText)
  | platformKeyed key => some key
  | _ => none

def Scope.hostClass : Scope → Option (Text scopeText)
  | hostClassKeyed cls => some cls
  | _ => none

def scopeKeys : List Name := ["host_class", "platform_key", "portability"]

theorem scopeKeys_sorted : KeysSorted scopeKeys := by decide +kernel

def Scope.fields (s : Scope) : List (Name × Json F) :=
  [("host_class", tokenJson s.hostClass), ("platform_key", tokenJson s.platformKey),
    ("portability", .str s.portability.name)]

def Scope.toJson (s : Scope) : Json F := .obj s.fields

def scopeOf : Portability → Option (Text scopeText) → Option (Text scopeText) → Checked Scope
  | .portable, none, none => .ok .portable
  | .portable, _, _ => fail [] "portable actions must set platform_key and host_class to null"
  | .platformKeyed, some key, none => .ok (.platformKeyed key)
  | .platformKeyed, _, _ =>
    fail [] "platform_keyed actions require platform_key and null host_class"
  | .hostClassKeyed, none, some cls => .ok (.hostClassKeyed cls)
  | .hostClassKeyed, _, _ =>
    fail [] "host_class_keyed actions require host_class and null platform_key"

def normalizeScope (j : Json F) : Checked Scope := do
  let fields ← exactMapping scopeKeys "action.execution_scope" j
  let kind ← portability (entry fields "portability")
  let platformKey ← optionalToken "action.execution_scope.platform_key"
    (entry fields "platform_key")
  let hostClass ← optionalToken "action.execution_scope.host_class" (entry fields "host_class")
  scopeOf kind platformKey hostClass

variable {s : Scope}

theorem scopeOf_ok {kind : Portability} {platformKey hostClass : Option (Text scopeText)} :
    scopeOf kind platformKey hostClass = .ok s ↔ kind = s.portability ∧
    platformKey = s.platformKey ∧ hostClass = s.hostClass := by
  constructor
  · intro h
    unfold scopeOf at h
    split at h <;> cases h <;> exact ⟨rfl, rfl, rfl⟩
  · rintro ⟨rfl, rfl, rfl⟩
    cases s <;> rfl

theorem normalizeScope_toJson (s : Scope) : normalizeScope (s.toJson : Json F) = .ok s := by
  have hk := scopeKeys_sorted
  have hke : (s.fields : List (Name × Json F)).map Prod.fst = scopeKeys := rfl
  rw [normalizeScope, Scope.toJson, exactMapping_obj _ hke]
  simp only [bind, Except.bind, entry_at hk hke (i := 0) rfl, entry_at hk hke (i := 1) rfl,
    entry_at hk hke (i := 2) rfl, portability_name, optionalToken_json]
  exact scopeOf_ok.mpr ⟨rfl, rfl, rfl⟩

theorem normalizeScope_ok (hj : j.Sorted) (h : normalizeScope j = .ok s) : j = s.toJson := by
  obtain ⟨fields, hf, h1⟩ := bind_ok.mp h
  obtain ⟨kind, hk, h2⟩ := bind_ok.mp h1
  obtain ⟨platformKey, hp, h3⟩ := bind_ok.mp h2
  obtain ⟨hostClass, hh, h4⟩ := bind_ok.mp h3
  obtain ⟨rfl, rfl, rfl⟩ := scopeOf_ok.mp h4
  obtain ⟨rfl, hke⟩ := exactMapping_ok scopeKeys_sorted hj hf
  rw [fields_eq_entries scopeKeys_sorted hke]
  simp only [scopeKeys, map_cons, map_nil, portability_ok hk, optionalToken_ok hp,
    optionalToken_ok hh, Scope.toJson, Scope.fields]

def platformToolchainKeys : List Name :=
  ["argv0.sha256", "argv0.bytes", "python", "system", "machine", "libc", "cuda_compute_capability",
    "nvidia_driver", "accelerator_models.sha256"]

variable (toolchain : StringMap plainText)

def declaredDistributions : List Name :=
  (toolchain.entries.map Prod.fst).filter fun k => !platformToolchainKeys.contains k

def distributionNameRe : Name → Bool
  | [] => false
  | c :: cs =>
    c.isAlphanum && (cs.all fun d => d.isAlphanum || oneOf "._-" d) && cs.getLast?.all
      Char.isAlphanum

def canonicalNat : Name → Bool
  | [] => false
  | c :: cs => (c :: cs == ['0']) || (c != '0' && (c :: cs).all Char.isDigit)

def capabilityRe (s : Name) : Bool :=
  match s.splitOn '.' with
  | [major, minor] =>
    !major.isEmpty && major.all Char.isDigit && !minor.isEmpty && minor.all Char.isDigit
  | _ => false

def toolchainPath : Name := "action.environment.toolchain"

def checkSha256Entry (key : Name) : Checked Unit :=
  match toolchain.get? key with
  | none => .ok ()
  | some value => do
    let _ ← refine sha256Text.problem (field toolchainPath key) value.1
    pure ()

def checkArgvBytes : Checked Unit :=
  match toolchain.get? "argv0.bytes" with
  | none => .ok ()
  | some value =>
    if canonicalNat value.1 = false then
      fail (field toolchainPath "argv0.bytes") "must be a canonical integer string"
    else if value.1.length ≤ Json.maxDigits then .ok ()
    else fail [] "Exceeds the limit (4300 digits) for integer string conversion"

def checkCapability : Checked Unit :=
  match toolchain.get? "cuda_compute_capability" with
  | none => .ok ()
  | some value =>
    if capabilityRe value.1 then .ok ()
    else fail (field toolchainPath "cuda_compute_capability") "is malformed"

def requiredToolchain : List Name := ["argv0.sha256", "argv0.bytes", "system", "machine", "libc"]

def checkNonportable (scope : Scope) (toolchain : StringMap plainText) : Checked Unit :=
  if scope.portability = .portable then .ok ()
  else if (declaredDistributions toolchain).all distributionNameRe = false then
    fail [] "nonportable action toolchain contains fields with no worker preflight"
  else if requiredToolchain.all (fun k => (toolchain.entries.map Prod.fst).contains k) then .ok ()
  else
    fail [] ("nonportable actions must bind argv[0] and platform ABI with toolchain fields argv0.sha256, " ++
      "argv0.bytes, system, machine, and libc")

/-- What `_normalize_action_body` asks of the toolchain. -/
def checkToolchain (scope : Scope) (toolchain : StringMap plainText) : Checked Unit := do
  checkSha256Entry toolchain "argv0.sha256"
  checkArgvBytes toolchain
  checkCapability toolchain
  checkSha256Entry toolchain "accelerator_models.sha256"
  checkNonportable scope toolchain

end PrismaBuild.Action
