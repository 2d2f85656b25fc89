import PrismaBuild.ActionRows

namespace PrismaBuild.Action

open Contract List

variable {F : Type}

structure ClosureFile where
  path : RelativePath false
  sha256 : Text sha256Text
  bytes : Nat

def closureFileKeys : List Name := ["bytes", "path", "sha256"]

theorem closureFileKeys_sorted : KeysSorted closureFileKeys := by decide +kernel

def ClosureFile.fields (f : ClosureFile) : List (Name × Json F) :=
  [("bytes", .int f.bytes), ("path", .str f.path.1.1), ("sha256", .str f.sha256.1)]

def ClosureFile.toJson (f : ClosureFile) : Json F := .obj f.fields

def filesPath : Name := "action.code_closure.files"

/-- The loop of `validate_code_closure`. -/
def closureFiles (index : Nat) (previous : Option Name) : List (Json F) → Checked (List ClosureFile)
  | [] => .ok []
  | j :: rest => do
    let fields ← exactMapping closureFileKeys (item filesPath index) j
    let path ← normalizeRelativePath false (field (item filesPath index) "path")
      (entry fields "path")
    if previous.any fun p => nameLe path.1.1 p then
      fail filesPath "must be unique and sorted by path"
    else do
      let digest ← sha256 (field (item filesPath index) "sha256") (entry fields "sha256")
      let bytes ← nonnegativeInteger (field (item filesPath index) "bytes") (entry fields "bytes")
      let rest ← closureFiles (index + 1) (some path.1.1) rest
      pure (⟨path, digest, bytes⟩ :: rest)

def Follows : Option Name → List ClosureFile → Prop
  | _, [] => True
  | previous, f :: rest =>
    (previous.any fun p => nameLe f.path.1.1 p) = false ∧ Follows (some f.path.1.1) rest

variable {files : List ClosureFile} {index : Nat} {js : List (Json F)} {previous : Option Name}

theorem closureFiles_follows (h : closureFiles index previous js = .ok files) :
    Follows previous files ∧ (js ≠ [] → files ≠ []) := by
  induction js generalizing index previous files with
  | nil => cases h; exact ⟨trivial, fun h => absurd rfl h⟩
  | cons j js ih =>
    obtain ⟨fields, -, h1⟩ := bind_ok.mp h
    obtain ⟨path, -, h2⟩ := bind_ok.mp h1
    obtain ⟨hp, h2⟩ := guard_ok.mp h2
    obtain ⟨digest, -, h3⟩ := bind_ok.mp h2
    obtain ⟨bytes, -, h4⟩ := bind_ok.mp h3
    obtain ⟨rest, hr, he⟩ := bind_ok.mp h4
    cases he
    exact ⟨⟨by simpa using hp, (ih hr).1⟩, fun _ => cons_ne_nil _ _⟩

theorem closureFiles_toJson (index : Nat) (h : Follows previous files) :
    closureFiles index previous (files.map fun f => (f.toJson : Json F)) = .ok files := by
  induction files generalizing index previous with
  | nil => rfl
  | cons f files ih =>
    obtain ⟨hf, hr⟩ := h
    have hk := closureFileKeys_sorted
    have hke : (f.fields : List (Name × Json F)).map Prod.fst = closureFileKeys := rfl
    rw [map_cons, closureFiles, ClosureFile.toJson, exactMapping_obj _ hke]
    simp only [bind, Except.bind, entry_at hk hke (i := 0) rfl, entry_at hk hke (i := 1) rfl,
      entry_at hk hke (i := 2) rfl, normalizeRelativePath_str, text_str, sha256,
      nonnegativeInteger_int, hf,
      ih (index + 1) hr]
    rfl

theorem closureFiles_ok (hs : ∀ j ∈ js, j.Sorted) (h : closureFiles index previous js = .ok files) :
    js = files.map fun f => f.toJson := by
  induction js generalizing index previous files with
  | nil => cases h; rfl
  | cons j js ih =>
    obtain ⟨fields, hf, h1⟩ := bind_ok.mp h
    obtain ⟨path, hp, h2⟩ := bind_ok.mp h1
    obtain ⟨-, h2⟩ := guard_ok.mp h2
    obtain ⟨digest, hd, h3⟩ := bind_ok.mp h2
    obtain ⟨bytes, hb, h4⟩ := bind_ok.mp h3
    obtain ⟨rest, hr, he⟩ := bind_ok.mp h4
    cases he
    obtain ⟨rfl, hk⟩ := exactMapping_ok closureFileKeys_sorted (hs j (by simp)) hf
    rw [map_cons, ← ih (fun w hw => hs w (by simp [hw])) hr,
      fields_eq_entries closureFileKeys_sorted hk]
    simp only [closureFileKeys, map_cons, map_nil, normalizeRelativePath_ok hp, text_ok hd,
      nonnegativeInteger_ok hb, ClosureFile.toJson, ClosureFile.fields]

def closureKeys : List Name := ["closure_sha256", "files", "schema"]

theorem closureKeys_sorted : KeysSorted closureKeys := by decide +kernel

section

variable [FloatFormat F] [HashFunction]

def closureSchema : Name := "prismaquant.prismabuild.code_closure.v1"

def filesJson (files : List ClosureFile) : Json F := .arr (files.map fun f => f.toJson)

def closureBody (files : List ClosureFile) : Json F :=
  .obj [("files", filesJson files), ("schema", .str closureSchema)]

/-- A code closure: its files in order, and the digest that names them. -/
structure CodeClosure (F : Type) [FloatFormat F] [HashFunction] where
  files : List ClosureFile
  nonempty : files ≠ []
  follows : Follows none files
  digest : Text sha256Text
  bound : canonicalSha256 (closureBody files : Json F) = .ok digest

def CodeClosure.fields (c : CodeClosure F) : List (Name × Json F) :=
  [("closure_sha256", .str c.digest.1), ("files", filesJson c.files),
    ("schema", .str closureSchema)]

def CodeClosure.toJson (c : CodeClosure F) : Json F := .obj c.fields

def closurePath : Name := "action.code_closure"

/-- The second half of `validate_code_closure`: the digest is the files' own. -/
def bindClosure (files : List ClosureFile) (hne : files ≠ []) (hf : Follows none files)
    (recorded : Json F) :
    Checked (CodeClosure F) :=
  match hd : canonicalSha256 (closureBody files : Json F) with
  | .error e => .error e
  | .ok expected => do
    let recorded ← sha256 (field closurePath "closure_sha256") recorded
    if recorded = expected then .ok ⟨files, hne, hf, expected, hd⟩
    else fail (field closurePath "closure_sha256") "does not match its files"

def validateCodeClosure (j : Json F) : Checked (CodeClosure F) := do
  let fields ← exactMapping closureKeys closurePath j
  if (entry fields "schema").pyEq (.str closureSchema) = false then
    fail (field closurePath "schema") "must be 'prismaquant.prismabuild.code_closure.v1'"
  else
    match entry fields "files" with
    | .arr (file :: rest) =>
      match h : closureFiles 0 none (file :: rest) with
      | .error e => .error e
      | .ok files =>
        bindClosure files ((closureFiles_follows h).2 (List.cons_ne_nil _ _))
          (closureFiles_follows h).1
          (entry fields "closure_sha256")
    | _ => fail filesPath "must be a non-empty array"

theorem bindClosure_digest (c : CodeClosure F) :
    bindClosure c.files c.nonempty c.follows (.str c.digest.1) = .ok c := by
  obtain ⟨files, hne, hf, digest, hd⟩ := c
  unfold bindClosure
  split
  next e he =>
    rw [hd] at he
    cases he
  next expected hex =>
    obtain rfl : digest = expected := Except.ok.inj (hd.symm.trans hex)
    rw [sha256, text_str]
    simp [bind, Except.bind]

variable {c : CodeClosure F}

theorem bindClosure_ok {files : List ClosureFile} {hne : files ≠ []} {hf : Follows none files}
    {recorded : Json F} (h : bindClosure files hne hf recorded = .ok c) :
    c.files = files ∧ recorded = .str c.digest.1 := by
  unfold bindClosure at h
  split at h
  next => cases h
  next expected hex =>
    obtain ⟨digest, hd, he⟩ := bind_ok.mp h
    obtain ⟨heq, he⟩ := ite_ok.mp he
    have hr : recorded = .str expected.1 := by rw [← heq, text_ok hd]
    rw [← Except.ok.inj he]
    exact ⟨rfl, hr⟩

theorem validateCodeClosure_toJson (c : CodeClosure F) : validateCodeClosure c.toJson = .ok c := by
  have hk := closureKeys_sorted
  have hke : (c.fields : List (Name × Json F)).map Prod.fst = closureKeys := rfl
  have hs : (Json.str closureSchema : Json F).pyEq (.str closureSchema) = true := pyEq_str.mpr rfl
  have hf := closureFiles_toJson (F := F) 0 c.follows
  rw [validateCodeClosure, CodeClosure.toJson, exactMapping_obj _ hke]
  simp only [bind, Except.bind, entry_at hk hke (i := 0) rfl, entry_at hk hke (i := 1) rfl,
    entry_at hk hke (i := 2) rfl, hs, Bool.true_eq_false, if_false, filesJson]
  cases hc : c.files with
  | nil => exact absurd hc c.nonempty
  | cons file rest =>
    rw [hc, map_cons] at hf
    rw [map_cons]
    dsimp only
    split
    next e he =>
      rw [hf] at he
      cases he
    next files hok =>
      obtain rfl : file :: rest = files := Except.ok.inj (hf.symm.trans hok)
      have hb := bindClosure_digest c
      simp only [hc] at hb
      exact hb

theorem validateCodeClosure_ok {j : Json F} (hj : j.Sorted) (h : validateCodeClosure j = .ok c) :
    j = c.toJson := by
  obtain ⟨fields, hf, h1⟩ := bind_ok.mp h
  obtain ⟨rfl, hk⟩ := exactMapping_ok closureKeys_sorted hj hf
  obtain ⟨hsc, h1⟩ := guard_ok.mp h1
  have hs' : entry fields "schema" = .str closureSchema := pyEq_str.mp (by simpa using hsc)
  split at h1
  next file rest he =>
    split at h1
    next => cases h1
    next files hok =>
      obtain ⟨hfi, hd⟩ := bindClosure_ok h1
      have hs : ∀ j ∈ file :: rest, j.Sorted := by
        have := entry_sorted hj.2 "files"
        rw [he] at this
        exact Json.sortedItems_iff.mp this
      have hr := closureFiles_ok hs hok
      rw [fields_eq_entries closureKeys_sorted hk]
      simp only [closureKeys, map_cons, map_nil, hs', hd, he, hr, CodeClosure.toJson,
        CodeClosure.fields, filesJson, hfi]
  next => cases h1

end

end PrismaBuild.Action
