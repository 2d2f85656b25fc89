import PrismaBuild.ActionParams
import PrismaBuild.ActionClosure
import PrismaBuild.ActionScope

namespace PrismaBuild.Action

open Contract

variable {F : Type} [FloatFormat F]

def paramsPath : Name := "action.params"

/-- The params of an action: an object that normalization accepts and that reads back as itself. -/
structure Params (F : Type) [FloatFormat F] where
  fields : List (Name × Json F)
  sorted : (Json.obj fields).Sorted
  printable : (Json.obj fields).printable = true
  normal : normalizeJsonValue paramsPath (.obj fields) = .ok (.obj fields)

def paramsOf (v : Json F) (hs : v.Sorted) (hp : v.printable = true)
    (hn : normalizeJsonValue paramsPath v = .ok v) : Checked (Params F) :=
  match v with
  | .obj fields => .ok ⟨fields, hs, hp, hn⟩
  | _ => fail paramsPath "must be an object with string keys"

variable {d : Document F}

theorem decoded_eq {v w : Json F} (hn : normalizeJsonValue paramsPath d.1 = .ok v)
    {raw : ByteArray} (hb : canonicalBytes v = .ok raw)
    (hd : decodeStrictJson raw paramsPath = .ok w) : w = d.1 := by
  have hv := normalizeJsonValue_eq hn
  subst hv
  rw [decodeStrictJson_canonicalBytes d.2 hb] at hd
  exact (Except.ok.inj hd).symm

/-- The params of `_normalize_action_body`: normalized, written and read back. -/
def normalizeParams (d : Document F) : Checked (Params F) :=
  match d.1 with
  | .obj _ =>
    match hn : normalizeJsonValue paramsPath d.1 with
    | .error e => .error e
    | .ok v =>
      match hb : canonicalBytes v with
      | .error e => .error e
      | .ok raw =>
        match hd : decodeStrictJson raw paramsPath with
        | .error e => .error e
        | .ok w =>
          paramsOf w (decodeStrictJson_sorted hd)
            (by
              rw [decoded_eq hn hb hd, ← normalizeJsonValue_eq hn]
              exact (canonicalBytes_ok hb).1)
            (by
              rw [decoded_eq hn hb hd, hn, normalizeJsonValue_eq hn])
  | _ => fail paramsPath "must be an object with string keys"

variable {p : Params F}

theorem normalizeParams_ok (h : normalizeParams d = .ok p) : d.1 = .obj p.fields := by
  unfold normalizeParams at h
  split at h
  · split at h
    next => cases h
    next v hn =>
      split at h
      next => cases h
      next raw hb =>
        split at h
        next => cases h
        next w hd =>
          rw [← decoded_eq hn hb hd]
          unfold paramsOf at h
          split at h
          · cases h; rfl
          · cases h
  · cases h

theorem normalizeParams_toJson (p : Params F) :
    normalizeParams ⟨.obj p.fields, p.sorted⟩ = .ok p := by
  have hr := canonicalBytes_of p.printable
  have hde := decodeStrictJson_canonicalBytes p.sorted hr paramsPath
  unfold normalizeParams
  dsimp only
  split
  next e he =>
    rw [p.normal] at he
    cases he
  next v hn =>
    obtain rfl : Json.obj p.fields = v := Except.ok.inj (p.normal.symm.trans hn)
    split
    next e he =>
      rw [hr] at he
      cases he
    next raw hb =>
      obtain rfl : encodeUtf8 (Json.obj p.fields).text = raw := Except.ok.inj (hr.symm.trans hb)
      split
      next e he =>
        rw [hde] at he
        cases he
      next w hd =>
        obtain rfl : Json.obj p.fields = w := Except.ok.inj (hde.symm.trans hd)
        rfl

def templatePath : Name := "action.params.produced_output_template"
def templateSchema : Name := "prismabuild.produced_output_declaration.v1"
def templateInputId : Name := "prismabuild.produced-output-template"
def templateMaxBytes : Nat := 64 * 1024

def validateProducedOutputDeclaration (inputs : Inputs) (j : Json F) : Checked (Json F) := do
  let fields ← exactMapping ["input", "schema", "template_id", "template_sha256"] templatePath j
  if (entry fields "schema").pyEq (.str templateSchema) = false then
    fail (field templatePath "schema") "must be 'prismabuild.produced_output_declaration.v1'"
  else do
    let templateId ← text plainText (field templatePath "template_id") (entry fields "template_id")
    if templateId.1.contains '/' then
      fail (field templatePath "template_id") "must be a non-empty name with no '/'"
    else do
      let templateSha ← sha256 (field templatePath "template_sha256")
        (entry fields "template_sha256")
      let ref ← exactMapping inputKeys (field templatePath "input") (entry fields "input")
      let id ← text idText (field templatePath "input.id") (entry ref "id")
      if id.1 ≠ templateInputId then
        fail (field templatePath "input.id") "must be 'prismabuild.produced-output-template'"
      else do
        let digest ← sha256 (field templatePath "input.sha256") (entry ref "sha256")
        let bytes ← nonnegativeInteger (field templatePath "input.bytes") (entry ref "bytes")
        if bytes = 0 ∨ templateMaxBytes < bytes then
          fail (field templatePath "input.bytes") "must be within 1..65536"
        else if (inputs.rows.any fun r => r.id.1 == templateInputId && r.sha256 == digest
          && r.bytes == bytes) = false then
          fail (field templatePath "input")
            "names no row in action.inputs: the declaration is tampered"
        else
          pure (.obj [("input", Input.toJson ⟨id, digest, bytes⟩), ("schema", .str templateSchema),
            ("template_id", .str templateId.1), ("template_sha256", .str templateSha.1)])

def checkProducedOutput (fields : List (Name × Json F)) (inputs : Inputs) : Checked Unit :=
  match Json.get? fields "produced_output_template" with
  | none => .ok ()
  | some declared => do
    let normalized ← validateProducedOutputDeclaration inputs declared
    if normalized.pyEq declared then .ok () else
      fail templatePath "is valid but not in normalized contract form"

def checkMeasured (task : Task) (scope : Scope) : Checked Unit :=
  if task.taskClass = .measurement ∧ scope.portability = .portable then
    fail [] "measurement actions must be platform_keyed or host_class_keyed"
  else .ok ()

def actionSchemaV1 : Name := "prismaquant.prismabuild.action.v1"
def actionSchemaV2 : Name := "prismaquant.prismabuild.action.v2"

def actionBodyKeys : List Name :=
  ["code_closure", "environment", "execution_scope", "inputs", "params", "schema", "task"]

def actionKeys : List Name := "action_key" :: actionBodyKeys

def checkSchema (schema : Json F) : Checked Unit :=
  if schema.pyEq (.str actionSchemaV1) then
    fail [] ("v1 actions must be redeclared and resealed with an explicit artifact_family under " ++
      "'prismaquant.prismabuild.action.v2'")
  else if schema.pyEq (.str actionSchemaV2) = false then
    fail "action.schema" "must be 'prismaquant.prismabuild.action.v2'"
  else .ok ()

variable [HashFunction]

/-- A normalized action body. Every check that relates two of its parts holds of it. -/
structure ActionBody (F : Type) [FloatFormat F] [HashFunction] where
  task : Task
  inputs : Inputs
  closure : CodeClosure F
  params : Params F
  environment : Environment
  scope : Scope
  measured : checkMeasured task scope = .ok ()
  progress : checkProgressParams params.fields = .ok ()
  produced : checkProducedOutput params.fields inputs = .ok ()
  bound : checkToolchain scope environment.toolchain = .ok ()

def ActionBody.fields (b : ActionBody F) : List (Name × Json F) :=
  [("code_closure", b.closure.toJson), ("environment", b.environment.toJson),
    ("execution_scope", b.scope.toJson),
    ("inputs", b.inputs.toJson), ("params", .obj b.params.fields), ("schema", .str actionSchemaV2),
    ("task", b.task.toJson)]

def ActionBody.toJson (b : ActionBody F) : Json F := .obj b.fields

def normalizeActionBody (body : Document F) : Checked (ActionBody F) := do
  let fields ← mapping actionBodyKeys "action body" body
  checkSchema (entry fields.1 "schema")
  let task ← normalizeTask (entry fields.1 "task")
  let scope ← normalizeScope (entry fields.1 "execution_scope")
  let measured ← ensure (checkMeasured task scope)
  let params ← normalizeParams ⟨entry fields.1 "params", entry_sorted fields.2 "params"⟩
  let progress ← ensure (checkProgressParams params.fields)
  let inputs ← normalizeInputs (entry fields.1 "inputs")
  let produced ← ensure (checkProducedOutput params.fields inputs)
  let environment ← normalizeEnvironment (entry fields.1 "environment")
  let bound ← ensure (checkToolchain scope environment.toolchain)
  let closure ← validateCodeClosure (entry fields.1 "code_closure")
  pure ⟨task, inputs, closure, params, environment, scope, measured.down, progress.down,
    produced.down, bound.down⟩

end PrismaBuild.Action
