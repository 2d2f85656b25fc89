import PrismaBuild.Contract

namespace PrismaBuild.Action

open Contract

variable {F : Type} [FloatFormat F]

mutual

def normalizeJsonValue (path : Name) : Json F → Checked (Json F)
  | .null => .ok .null
  | .bool b => .ok (.bool b)
  | .int n => .ok (.int n)
  | .float x =>
    if FloatFormat.finite x then .ok (.float x) else fail path "contains a non-finite number"
  | .str s => do
    let s ← refine payloadText.problem path s
    pure (.str s.1)
  | .arr items => do
    let items ← normalizeJsonItems path 0 items
    pure (.arr items)
  | .obj fields => do
    let fields ← normalizeJsonFields path fields
    pure (.obj fields)

def normalizeJsonItems (path : Name) (index : Nat) : List (Json F) → Checked (List (Json F))
  | [] => .ok []
  | v :: rest => do
    let v ← normalizeJsonValue (item path index) v
    let rest ← normalizeJsonItems path (index + 1) rest
    pure (v :: rest)

def normalizeJsonFields (path : Name) : List (Name × Json F) → Checked (List (Name × Json F))
  | [] => .ok []
  | (key, v) :: rest => do
    let key ← refine keyText.problem (path ++ " key".toList) key
    let v ← normalizeJsonValue (field path key.1) v
    let rest ← normalizeJsonFields path rest
    pure ((key.1, v) :: rest)

end

variable {path : Name}

theorem normalizeJsonItems_eq {items items' : List (Json F)} {index : Nat}
    (hv : ∀ v ∈ items, ∀ path w, normalizeJsonValue path v = .ok w → w = v)
    (h : normalizeJsonItems path index items = .ok items') : items' = items := by
  induction items generalizing items' index with
  | nil => cases h; rfl
  | cons v rest ih =>
    obtain ⟨v', hv', hr⟩ := bind_ok.mp h
    obtain ⟨rest', hr', he⟩ := bind_ok.mp hr
    cases he
    rw [hv v (by simp) _ _ hv', ih (fun w hw => hv w (by simp [hw])) hr']

theorem normalizeJsonFields_eq {fields fields' : List (Name × Json F)}
    (hv : ∀ p ∈ fields, ∀ path w, normalizeJsonValue path p.2 = .ok w → w = p.2)
    (h : normalizeJsonFields path fields = .ok fields') : fields' = fields := by
  induction fields generalizing fields' with
  | nil => cases h; rfl
  | cons p rest ih =>
    obtain ⟨key, hk, hva⟩ := bind_ok.mp h
    obtain ⟨v, hv', hr⟩ := bind_ok.mp hva
    obtain ⟨rest', hr', he⟩ := bind_ok.mp hr
    cases he
    rw [hv p (by simp) _ _ hv', ih (fun q hq => hv q (by simp [hq])) hr', ← refine_ok hk]

theorem normalizeJsonValue_eq {v w : Json F} (h : normalizeJsonValue path v = .ok w) : w = v := by
  induction v using Json.induct generalizing w path with
  | null => cases h; rfl
  | bool b => cases h; rfl
  | int n => cases h; rfl
  | float x =>
    unfold normalizeJsonValue at h
    obtain ⟨-, h⟩ := ite_ok.mp h
    cases h; rfl
  | str s =>
    obtain ⟨t, ht, he⟩ := bind_ok.mp h
    cases he
    rw [refine_ok ht]
  | arr items ih =>
    obtain ⟨items', hi, he⟩ := bind_ok.mp h
    cases he
    rw [normalizeJsonItems_eq (fun v hv path w => ih v hv) hi]
  | obj fields ih =>
    obtain ⟨fields', hf, he⟩ := bind_ok.mp h
    cases he
    rw [normalizeJsonFields_eq (fun p hp path w => ih p hp) hf]

/-- The characters that `str.strip` takes off. -/
def pySpace (c : Char) : Bool :=
  let n := c.toNat
  (9 ≤ n && n ≤ 13) || (28 ≤ n && n ≤ 32) || n == 0x85 || n == 0xA0 || n == 0x1680 ||
    (0x2000 ≤ n && n ≤ 0x200A) || n == 0x2028 || n == 0x2029 || n == 0x202F || n == 0x205F ||
    n == 0x3000

def strip (s : Name) : Name := ((s.dropWhile pySpace).reverse.dropWhile pySpace).reverse

def hasNul (s : Name) : Bool := s.any fun c => c.toNat == 0

/-- `math.isfinite` of a number, and `float` of it: an integer may be too large. -/
def asFloat : Json F → Option F
  | .int n => FloatFormat.ofInt n
  | .float x => if FloatFormat.finite x then some x else none
  | _ => none

def positiveFinite (v : Json F) : Bool :=
  (asFloat v).isSome && v.number.any fun q => 0 < q

def isSetOf (keys : List Name) (fields : List (Name × Json F)) : Bool :=
  (keys.all fun k => (fields.map Prod.fst).contains k) && (fields.map Prod.fst).all fun k =>
    keys.contains k

variable (path : Name)

def progressPhase (seen : List Name) : Json F → Checked (Name × Json F)
  | .obj fields =>
    if isSetOf ["grace_s", "name"] fields = false then
      fail path "must declare exactly name and grace_s"
    else
      match entry fields "name" with
      | .str name =>
        if name = [] ∨ strip name ≠ name ∨ hasNul name then
          fail (field path "name") "must be a nonempty trimmed string"
        else if seen.contains name then fail (field path "name") "repeats an earlier phase"
        else if positiveFinite (entry fields "grace_s") then .ok (name, entry fields "grace_s")
        else fail (field path "grace_s") "must be a positive finite number"
      | _ => fail (field path "name") "must be a nonempty trimmed string"
  | _ => fail path "must declare exactly name and grace_s"

def progressPhases (path : Name) (index : Nat) (seen : List Name) :
    List (Json F) → Checked (List (Name × Json F))
  | [] => .ok []
  | phase :: rest => do
    let phase ← progressPhase (item path index) seen phase
    let rest ← progressPhases path (index + 1) (phase.1 :: seen) rest
    pure (phase :: rest)

def validateProgressPolicy (value : Json F) : Checked (Json F) :=
  match value with
  | .obj fields =>
    if (isSetOf ["phases", "schema"] fields || isSetOf ["cycle", "phases", "schema"] fields) =
      false then
      fail path "must declare schema and phases, with optional cycle"
    else if (entry fields "schema").pyEq (.str "prismabuild.action_progress_policy.v1") = false then
      fail (field path "schema") "must be 'prismabuild.action_progress_policy.v1'"
    else
      match Json.get? fields "cycle", entry fields "phases" with
      | some (.bool cycle), .arr (phase :: phases) => finish cycle (phase :: phases)
      | none, .arr (phase :: phases) => finish false (phase :: phases)
      | some (.bool _), .arr [] => fail (field path "phases") "must name at least one phase"
      | none, .arr [] => fail (field path "phases") "must name at least one phase"
      | some (.bool _), _ => fail (field path "phases") "must be a list of phases"
      | none, _ => fail (field path "phases") "must be a list of phases"
      | some _, _ => fail (field path "cycle") "must be a boolean"
  | _ => fail path "must declare schema and phases, with optional cycle"
where
  finish (cycle : Bool) (phases : List (Json F)) : Checked (Json F) := do
    let normalized ← progressPhases (field path "phases") 0 [] phases
    if FloatFormat.finite (FloatFormat.total (normalized.filterMap fun p => asFloat p.2)) then
      let rows : List (Json F) := normalized.map fun p =>
        .obj [("grace_s", p.2), ("name", .str p.1)]
      let body : List (Name × Json F) :=
        [("phases", .arr rows), ("schema", .str "prismabuild.action_progress_policy.v1")]
      pure (.obj (if cycle then ("cycle", .bool true) :: body else body))
    else fail (field path "phases") "must have a finite total grace"

def isDeviceName (member : Name) : Bool :=
  !(member.isEmpty || member.contains '/' || strip member != member || hasNul member ||
    member == ['.'] || member == ['.', '.'])

def deviceNames (path : Name) : List (Json F) → Checked (List Name)
  | [] => .ok []
  | .str member :: rest =>
    if isDeviceName member then do
      let rest ← deviceNames path rest
      pure (member :: rest)
    else fail path "must be plain block device names"
  | _ => fail path "must be plain block device names"

def contentionNumber (v : Json F) : Checked F :=
  match asFloat v with
  | some x => if positiveFinite v then .ok x else fail path "must be a positive finite number"
  | none => fail path "must be a positive finite number"

def isAbsolutePath (s : Name) : Bool := s.head? == some '/' && !hasNul s

def contentionFields : String :=
  "must declare exactly ['max_backlog_ms', 'max_read_await_ms', 'members', 'priced_bytes_per_s', 'schema', " ++
    "'stage_root']"

def validatePoolContention : Json F → Checked (Json F)
  | .obj fields =>
    if isSetOf ["max_backlog_ms", "max_read_await_ms", "members", "priced_bytes_per_s", "schema",
      "stage_root"]
        fields = false then
      fail path contentionFields
    else if (entry fields "schema").pyEq (.str "prismabuild.progress_pool_contention.v1") =
      false then
      fail (field path "schema") "must be 'prismabuild.progress_pool_contention.v1'"
    else
      match entry fields "members" with
      | .arr (member :: members) => do
        let names ← deviceNames (field path "members") (member :: members)
        if names ≠ sortNames names then fail (field path "members") "must be sorted and unique"
        else do
          let await ← contentionNumber (field path "max_read_await_ms")
            (entry fields "max_read_await_ms")
          let backlog ← contentionNumber (field path "max_backlog_ms")
            (entry fields "max_backlog_ms")
          let priced ← contentionNumber (field path "priced_bytes_per_s")
            (entry fields "priced_bytes_per_s")
          match entry fields "stage_root" with
          | .str root =>
            if isAbsolutePath root then
              pure (.obj [("max_backlog_ms", .float backlog), ("max_read_await_ms", .float await),
                ("members", .arr (names.map Json.str)), ("priced_bytes_per_s", .float priced),
                ("schema", .str "prismabuild.progress_pool_contention.v1"),
                ("stage_root", .str root)])
            else fail (field path "stage_root") "must be an absolute path"
          | _ => fail (field path "stage_root") "must be an absolute path"
      | _ => fail (field path "members") "must be a nonempty list of device names"
  | _ => fail path contentionFields

def validateAwaitedBatch : Json F → Checked (Json F)
  | .obj fields =>
    if isSetOf ["controller_state", "parent_key", "plan_key", "schema"] fields = false then
      fail path "must declare exactly schema, parent_key, plan_key and controller_state"
    else if (entry fields "schema").pyEq (.str "prismabuild.progress_awaited_batch.v1") = false then
      fail (field path "schema") "must be 'prismabuild.progress_awaited_batch.v1'"
    else
      match entry fields "controller_state" with
      | .str state =>
        if isAbsolutePath state then do
          let parent ← sha256 (field path "parent_key") (entry fields "parent_key")
          let plan ← sha256 (field path "plan_key") (entry fields "plan_key")
          pure (.obj [("controller_state", .str state), ("parent_key", .str parent.1),
            ("plan_key", .str plan.1),
            ("schema", .str "prismabuild.progress_awaited_batch.v1")])
        else fail (field path "controller_state") "must be an absolute path"
      | _ => fail (field path "controller_state") "must be an absolute path"
  | _ => fail path "must declare exactly schema, parent_key, plan_key and controller_state"

def validateStallAllowance (value : Json F) : Checked F :=
  match asFloat value with
  | some x => if positiveFinite value then .ok x else fail path "must be a positive finite number"
  | none => fail path "must be a positive finite number"

def progressPath : Name := "action.params.progress"
def contentionPath : Name := "action.params.progress_pool_contention"
def awaitedPath : Name := "action.params.progress_awaited_batch"
def stallPath : Name := "action.params.stall_allowance_s"

/-- A declared part of the params is refused unless its validator answers it unchanged. -/
def checkDeclared (validate : Json F → Checked (Json F)) : Option (Json F) → Checked Unit
  | none => .ok ()
  | some declared => do
    let normalized ← validate declared
    if normalized.pyEq declared then .ok () else fail path "is valid but not in normalized form"

def requirePolicy (fields : List (Name × Json F)) (path : Name) (key : Name) : Checked Unit :=
  if (Json.get? fields key).isSome && (Json.get? fields "progress").isNone then
    fail path "needs action.params.progress"
  else .ok ()

/-- What `_normalize_action_body` asks of the params alone. -/
def checkProgressParams (fields : List (Name × Json F)) : Checked Unit := do
  checkDeclared progressPath (validateProgressPolicy progressPath) (Json.get? fields "progress")
  requirePolicy fields contentionPath "progress_pool_contention"
  checkDeclared contentionPath (validatePoolContention contentionPath)
    (Json.get? fields "progress_pool_contention")
  requirePolicy fields awaitedPath "progress_awaited_batch"
  checkDeclared awaitedPath (validateAwaitedBatch awaitedPath)
    (Json.get? fields "progress_awaited_batch")
  match Json.get? fields "stall_allowance_s" with
  | none => .ok ()
  | some allowance => do
    let _ ← validateStallAllowance stallPath allowance
    if (Json.get? fields "progress").isSome then
      fail stallPath "cannot combine with action.params.progress"
    else .ok ()

end PrismaBuild.Action
