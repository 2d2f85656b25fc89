import PrismaBuild.Contract

namespace PrismaBuild.Action

open Contract List

variable {F : Type}

def choice {α : Type} (options : List (Name × α)) (path : Name) (message : String) (j : Json F) :
    Checked α := do
  let s ← text plainText path j
  match options.find? fun o => o.1 == s.1 with
  | some o => .ok o.2
  | none => fail path message

variable {j : Json F} {path : Name} {α : Type} {dotOk : Bool} {spec : TextSpec}

theorem choice_ok {options : List (Name × α)} {name : α → Name}
    (hn : ∀ o ∈ options, name o.2 = o.1) {message : String} {a : α}
    (h : choice options path message j = .ok a) : j = .str (name a) := by
  obtain ⟨s, hs, he⟩ := bind_ok.mp h
  split at he
  next o ho =>
    cases he
    rw [text_ok hs, hn o (mem_of_find?_eq_some ho)]
    have heq := find?_some ho
    rw [eq_of_beq heq]
  next => cases he

theorem choice_name {options : List (Name × α)} {n : Name} {a : α}
    (hn : plainText.problem n = none) (hf : (options.find? fun o => o.1 == n) = some (n, a))
    (path : Name)
    (message : String) : choice options path message (.str n : Json F) = .ok a := by
  rw [choice, text_str path (⟨n, hn⟩ : Text plainText)]
  simp only [bind, Except.bind, hf]

inductive TaskClass
  | generation
  | measurement
  deriving DecidableEq

def TaskClass.name : TaskClass → Name
  | generation => "generation"
  | measurement => "measurement"

def TaskClass.options : List (Name × TaskClass) :=
  [("generation", .generation), ("measurement", .measurement)]

def taskClass : Json F → Checked TaskClass :=
  choice TaskClass.options "action.task.task_class" "must be one of ['generation', 'measurement']"

inductive Determinism
  | deterministic
  | stochastic
  deriving DecidableEq

def Determinism.name : Determinism → Name
  | deterministic => "deterministic"
  | stochastic => "stochastic"

def Determinism.options : List (Name × Determinism) :=
  [("deterministic", .deterministic), ("stochastic", .stochastic)]

def determinism : Json F → Checked Determinism :=
  choice Determinism.options "action.task.determinism"
    "must be one of ['deterministic', 'stochastic']"

theorem taskClass_name (c : TaskClass) : taskClass (.str c.name : Json F) = .ok c := by
  have hn : plainText.problem c.name = none := by cases c <;> decide +kernel
  have hf : (TaskClass.options.find? fun o => o.1 == c.name) = some (c.name, c) := by
    cases c <;> decide +kernel
  exact choice_name hn hf _ _

theorem taskClass_ok {c : TaskClass} (h : taskClass j = .ok c) : j = .str c.name := by
  have hn : ∀ o ∈ TaskClass.options, o.2.name = o.1 := by decide +kernel
  exact choice_ok hn h

theorem determinism_name (d : Determinism) : determinism (.str d.name : Json F) = .ok d := by
  have hn : plainText.problem d.name = none := by cases d <;> decide +kernel
  have hf : (Determinism.options.find? fun o => o.1 == d.name) = some (d.name, d) := by
    cases d <;> decide +kernel
  exact choice_name hn hf _ _

theorem determinism_ok {d : Determinism} (h : determinism j = .ok d) : j = .str d.name := by
  have hn : ∀ o ∈ Determinism.options, o.2.name = o.1 := by decide +kernel
  exact choice_ok hn h

def parts (raw : Name) : List Name := raw.splitOn '/'

def isDrive : Name → Bool
  | c :: ':' :: _ => c.isAlpha
  | _ => false

/-- `str(PurePosixPath(raw))` of a relative path. -/
def posixText (raw : Name) : Name :=
  match (parts raw).filter fun part => !part.isEmpty && part != ['.'] with
  | [] => ['.']
  | names => ['/'].intercalate names

def notPosix : String := "must be a normalized relative POSIX path"

def pathProblem (dotOk : Bool) (raw : Text plainText) : Option String :=
  if raw.1.contains '\\' || isDrive raw.1 then some notPosix
  else if raw.1.head? == some '/' || (parts raw.1).any
    (fun part => part.isEmpty || part == ['.', '.']) then
    some notPosix
  else if raw.1 = ['.'] then if dotOk then none else some "must name a file, not '.'"
  else if (parts raw.1).any (· == ['.']) || posixText raw.1 != raw.1 then some notPosix
  else none

abbrev RelativePath (dotOk : Bool) := { raw : Text plainText // pathProblem dotOk raw = none }

def normalizeRelativePath (dotOk : Bool) (path : Name) (j : Json F) :
    Checked (RelativePath dotOk) := do
  let raw ← text plainText path j
  refine (pathProblem dotOk) path raw

theorem normalizeRelativePath_str (path : Name) (p : RelativePath dotOk) :
    normalizeRelativePath dotOk path (.str p.1.1 : Json F) = .ok p := by
  rw [normalizeRelativePath, text_str path p.1]
  exact refine_val path p

theorem normalizeRelativePath_ok {p : RelativePath dotOk}
    (h : normalizeRelativePath dotOk path j = .ok p) : j = .str p.1.1 := by
  obtain ⟨raw, hr, hp⟩ := bind_ok.mp h
  rw [text_ok hr, refine_ok hp]

def texts (spec : TextSpec) (path : Name) (index : Nat) : List (Json F) → Checked (List (Text spec))
  | [] => .ok []
  | j :: rest => do
    let s ← text spec (item path index) j
    let rest ← texts spec path (index + 1) rest
    pure (s :: rest)

theorem texts_str (path : Name) (index : Nat) (l : List (Text spec)) :
    texts spec path index (l.map fun s => (.str s.1 : Json F)) = .ok l := by
  induction l generalizing index with
  | nil => rfl
  | cons s l ih =>
    rw [map_cons, texts, text_str, ih]
    rfl

theorem texts_ok {index : Nat} {js : List (Json F)} {l : List (Text spec)}
    (h : texts spec path index js = .ok l) : js = l.map fun s => .str s.1 := by
  induction js generalizing index l with
  | nil => cases h; rfl
  | cons j js ih =>
    obtain ⟨s, hs, ht⟩ := bind_ok.mp h
    obtain ⟨rest, hr, he⟩ := bind_ok.mp ht
    cases he
    rw [map_cons, ← ih hr, ← text_ok hs]

def argvProblem (argv : List (Text payloadText)) : Option String :=
  match argv with
  | [] => some "must be a non-empty array"
  | first :: _ =>
    if first.1.head? == some '/' then none else some "must be an absolute executable path"

abbrev Argv := { argv : List (Text payloadText) // argvProblem argv = none }

def normalizeArgv : Json F → Checked Argv
  | .arr (j :: js) => do
    let argv ← texts payloadText "action.task.argv" 0 (j :: js)
    refine argvProblem "action.task.argv[0]" argv
  | _ => fail "action.task.argv" "must be a non-empty array"

def Argv.toJson (argv : Argv) : Json F := .arr (argv.1.map fun s => .str s.1)

theorem normalizeArgv_toJson (argv : Argv) : normalizeArgv (argv.toJson : Json F) = .ok argv := by
  obtain ⟨l, hl⟩ := argv
  cases l with
  | nil => cases hl
  | cons s l =>
    have ht := texts_str (F := F) "action.task.argv" 0 (s :: l)
    rw [map_cons] at ht
    simp only [Argv.toJson, map_cons, normalizeArgv, ht]
    exact refine_val _ (⟨s :: l, hl⟩ : Argv)

theorem normalizeArgv_ok {argv : Argv} (h : normalizeArgv j = .ok argv) : j = argv.toJson := by
  unfold normalizeArgv at h
  split at h
  next x xs =>
    obtain ⟨l, hl, he⟩ := bind_ok.mp h
    rw [texts_ok hl, refine_ok he]
    rfl
  next => cases h

structure Task where
  definitionId : Text idText
  definitionVersion : Text versionText
  taskClass : TaskClass
  determinism : Determinism
  (artifactFamily artifactKind : Text idText)
  argv : Argv
  workingDirectory : RelativePath true
  resultPath : RelativePath false

def taskKeys : List Name :=
  ["argv", "artifact_family", "artifact_kind", "definition_id", "definition_version", "determinism",
    "result_path", "task_class", "working_directory"]

def Task.fields (t : Task) : List (Name × Json F) :=
  [("argv", t.argv.toJson), ("artifact_family", .str t.artifactFamily.1),
    ("artifact_kind", .str t.artifactKind.1),
    ("definition_id", .str t.definitionId.1), ("definition_version", .str t.definitionVersion.1),
    ("determinism", .str t.determinism.name), ("result_path", .str t.resultPath.1.1),
    ("task_class", .str t.taskClass.name), ("working_directory", .str t.workingDirectory.1.1)]

def Task.toJson (t : Task) : Json F := .obj t.fields

def normalizeTask (j : Json F) : Checked Task := do
  let fields ← exactMapping taskKeys "action.task" j
  let cls ← taskClass (entry fields "task_class")
  let det ← determinism (entry fields "determinism")
  let family ← text idText "action.task.artifact_family" (entry fields "artifact_family")
  let definition ← text idText "action.task.definition_id" (entry fields "definition_id")
  let version ← text versionText "action.task.definition_version"
    (entry fields "definition_version")
  let kind ← text idText "action.task.artifact_kind" (entry fields "artifact_kind")
  let argv ← normalizeArgv (entry fields "argv")
  let directory ← normalizeRelativePath true "action.task.working_directory"
    (entry fields "working_directory")
  let result ← normalizeRelativePath false "action.task.result_path" (entry fields "result_path")
  pure ⟨definition, version, cls, det, family, kind, argv, directory, result⟩

theorem taskKeys_sorted : KeysSorted taskKeys := by decide +kernel

theorem normalizeTask_toJson (t : Task) : normalizeTask (t.toJson : Json F) = .ok t := by
  have hk := taskKeys_sorted
  have hke : (t.fields : List (Name × Json F)).map Prod.fst = taskKeys := rfl
  rw [normalizeTask, Task.toJson, exactMapping_obj "action.task" hke]
  simp only [bind, Except.bind, entry_at hk hke (i := 7) rfl, entry_at hk hke (i := 5) rfl,
    entry_at hk hke (i := 1) rfl, entry_at hk hke (i := 3) rfl, entry_at hk hke (i := 4) rfl,
    entry_at hk hke (i := 2) rfl, entry_at hk hke (i := 0) rfl, entry_at hk hke (i := 8) rfl,
    entry_at hk hke (i := 6) rfl, taskClass_name, determinism_name, text_str, normalizeArgv_toJson,
    normalizeRelativePath_str]
  rfl

theorem normalizeTask_ok (hj : j.Sorted) {t : Task} (h : normalizeTask j = .ok t) :
    j = t.toJson := by
  obtain ⟨fields, hf, h1⟩ := bind_ok.mp h
  obtain ⟨cls, hc, h2⟩ := bind_ok.mp h1
  obtain ⟨det, hde, h3⟩ := bind_ok.mp h2
  obtain ⟨family, hfa, h4⟩ := bind_ok.mp h3
  obtain ⟨definition, hd, h5⟩ := bind_ok.mp h4
  obtain ⟨version, hv, h6⟩ := bind_ok.mp h5
  obtain ⟨kind, hk, h7⟩ := bind_ok.mp h6
  obtain ⟨argv, ha, h8⟩ := bind_ok.mp h7
  obtain ⟨directory, hdi, h9⟩ := bind_ok.mp h8
  obtain ⟨result, hr, he⟩ := bind_ok.mp h9
  cases he
  obtain ⟨rfl, hke⟩ := exactMapping_ok taskKeys_sorted hj hf
  rw [fields_eq_entries taskKeys_sorted hke]
  simp only [taskKeys, map_cons, map_nil, taskClass_ok hc, determinism_ok hde, text_ok hfa,
    text_ok hd, text_ok hv, text_ok hk, normalizeArgv_ok ha,
    normalizeRelativePath_ok hdi, normalizeRelativePath_ok hr, Task.toJson, Task.fields]

end PrismaBuild.Action
