import PrismaBuild.DataManifest

namespace PrismaBuild.DataManifest

open Contract

inductive Raise
  | typeError
  | valueError
  | keyError
  | indexError
  deriving DecidableEq

variable {F : Type}

section

/-- `int` of a text: a sign and decimal digits, in groups joined by single underscores. -/
def intOfText (s : Name) : Except Raise Int :=
  let body := Action.strip s
  let digits := match body with
    | '-' :: rest => rest
    | '+' :: rest => rest
    | _ => body
  let groups := digits.splitOn '_'
  if groups.all fun group => group ≠ [] ∧ group.all Char.isDigit then
    let n : Int := Nat.ofDigitChars 10 groups.flatten 0
    .ok (if body.head? = some '-' then -n else n)
  else .error .valueError

variable [FloatFormat F]

/-- `int(value or 0)`. -/
def intOrZero : Json F → Except Raise Int
  | .null => .ok 0
  | .bool b => .ok (if b then 1 else 0)
  | .int n => .ok n
  | .float x =>
    if FloatFormat.finite x then .ok ((FloatFormat.value x).num.tdiv (FloatFormat.value x).den) else
      .error .valueError
  | .str [] => .ok 0
  | .str s => intOfText s
  | .arr [] => .ok 0
  | .arr _ => .error .typeError
  | .obj [] => .ok 0
  | .obj _ => .error .typeError

/-- The items of `value or []`: a text has its characters, an object its keys. -/
def itemsOf : Json F → Except Raise (List (Json F))
  | .null => .ok []
  | .bool b => if b then .error .typeError else .ok []
  | .int n => if n = 0 then .ok [] else .error .typeError
  | .float x => if FloatFormat.finite x ∧ FloatFormat.value x = 0 then .ok [] else .error .typeError
  | .str s => .ok (s.map fun c => .str [c])
  | .arr items => .ok items
  | .obj fields => .ok (fields.map fun p => .str p.1)

end

section

/-- `_checked_phase_boundaries`, after the phases that end at `previous` and have the names `seen`.
-/
def checkedPhaseBoundaries (total : Int) (entryBoundaries : List Int) (previous : Int)
    (seen : List Name) :
    List (Json F) → Option (List (Name × Int))
  | [] => if previous ≠ total then none else some []
  | .obj phase :: rest =>
    match Json.get? phase "name", Json.get? phase "cumulative_bytes" with
    | some (.str name), some (.int cumulative) =>
      if name = [] ∨ name ∈ seen then none
      else if cumulative < previous ∨ total < cumulative ∨ cumulative ∉ entryBoundaries then none
      else (checkedPhaseBoundaries total entryBoundaries cumulative (name :: seen) rest).map
        ((name, cumulative) :: ·)
    | _, _ => none
  | _ :: _ => none

/-- The references of one phase, as `_read_order_indices` takes them. -/
def phaseIndices (count : Nat) (seen : List Nat) : List (Json F) → Option (List Nat)
  | [] => some []
  | .int ref :: rest =>
    if ref < 0 ∨ (count : Int) ≤ ref then none
    else if ref.toNat ∈ seen then none
    else (phaseIndices count (ref.toNat :: seen) rest).map (ref.toNat :: ·)
  | _ :: _ => none

def readOrderIndices (count : Nat) : List (Json F) → Option (List Nat)
  | [] => some []
  | .obj phase :: rest =>
    match Json.get? phase "entry_indices" with
    | some (.arr indices) =>
      (phaseIndices count [] indices).bind fun refs => (readOrderIndices count rest).map (refs ++ ·)
    | _ => none
  | _ :: _ => none

def runningSums (running : Int) : List Int → List Int
  | [] => []
  | size :: sizes => (running + size) :: runningSums (running + size) sizes

end

section

/-- `entries[index]`: a negative position counts from the end. -/
def entryAt (entries : List (Json F)) : Json F → Except Raise (Json F)
  | .int index =>
    let position := if index < 0 then index + entries.length else index
    match entries[position.toNat]? with
    | some e => if position < 0 then .error .indexError else .ok e
    | none => .error .indexError
  | _ => .error .typeError

def phaseEntries (entries : List (Json F)) : Json F → Except Raise (List (Json F))
  | .obj phase =>
    match Json.get? phase "entry_indices" with
    | some (.arr indices) => indices.mapM (entryAt entries)
    | some _ => .error .typeError
    | none => .error .keyError
  | _ => .error .typeError

def planEntries (entries : List (Json F)) : Option (Json F) → Except Raise (List (Json F))
  | some (.obj plan) =>
    match Json.get? plan "phases" with
    | some (.arr phases) => do
      let read ← phases.mapM (phaseEntries entries)
      pure read.flatten
    | some _ => .error .typeError
    | none => .error .keyError
  | some _ => .error .typeError
  | none => .error .keyError

def isV2 (manifest : List (Name × Json F)) : Bool :=
  match Json.get? manifest "schema" with
  | some (.str schema) => schema = schemaV2
  | _ => false

/-- `read_entries`: the list itself, or the references of the plan's phases one after the other. -/
def readEntries (manifest : List (Name × Json F)) : Except Raise (List (Json F)) :=
  match Json.get? manifest "entries" with
  | some (.arr entries) =>
    if isV2 manifest then planEntries entries (Json.get? manifest "read_plan") else .ok entries
  | some _ => .error .typeError
  | none => .error .keyError

end

section

abbrev Layout (F : Type) := List (Name × Int) × List (Json F)

def isObject : Json F → Bool
  | .obj _ => true
  | _ => false

variable [FloatFormat F]

def entrySizes : List (Json F) → Except Raise (Option (List Int))
  | [] => .ok (some [])
  | .obj fields :: rest => do
    let size ← intOrZero ((Json.get? fields "bytes").getD .null)
    let more ← entrySizes rest
    pure (more.map (size :: ·))
  | _ :: _ => .ok none

/-- The checks of a phase table of the second schema against the sizes of the entries in read order.
-/
def planBoundaries (phases : List (Json F)) (read : Option (Json F)) (sizes : List Int) :
    Option (List (Name × Int)) :=
  match read with
  | some (.int read) =>
    (readOrderIndices sizes.length phases).bind fun order =>
      let readSizes := order.map fun index => sizes.getD index 0
      if readSizes.sum ≠ read then none
      else checkedPhaseBoundaries read (runningSums 0 readSizes) 0 [] phases
  | _ => none

variable (manifest : List (Name × Json F))

def layoutOfPlan (phases : List (Json F)) (read : Option (Json F)) :
    Except Raise (Option (Layout F)) := do
  let entries ← itemsOf ((Json.get? manifest "entries").getD .null)
  match ← entrySizes entries with
  | none => pure none
  | some sizes =>
    let total ← intOrZero ((Json.get? manifest "total_bytes").getD .null)
    if sizes.sum ≠ total then pure none
    else
      match planBoundaries phases read sizes with
      | none => pure none
      | some checked =>
        let entries ← readEntries manifest
        pure (some (checked, entries))

def layoutV2 : Except Raise (Option (Layout F)) :=
  match Json.get? manifest "read_plan" with
  | some (.obj plan) =>
    match Json.get? plan "phases" with
    | some (.arr phases) =>
      if phases.isEmpty || phases.any fun phase => !isObject phase then .ok none
      else layoutOfPlan manifest phases (Json.get? plan "read_bytes")
    | _ => .ok none
  | _ => .ok none

def layoutV1 : Except Raise (Option (Layout F)) :=
  match Json.get? manifest "annotations" with
  | some (.obj annotations) =>
    match Json.get? annotations "phases" with
    | some (.arr (first :: rest)) => do
      let total ← intOrZero ((Json.get? manifest "total_bytes").getD .null)
      let entries ← itemsOf ((Json.get? manifest "entries").getD .null)
      match ← entrySizes entries with
      | none => pure none
      | some sizes =>
        if sizes.sum ≠ total then pure none
        else
          pure ((checkedPhaseBoundaries total (runningSums 0 sizes) 0 [] (first :: rest)).map
            fun checked =>
            (checked, entries))
    | _ => .ok none
  | _ => .ok none

def manifestReadLayout : Except Raise (Option (Layout F)) :=
  if isV2 manifest then layoutV2 manifest else layoutV1 manifest

structure PhaseRange where
  name : Name
  (startBytes endBytes : Int)

def rangesFrom (previous : Int) : List (Name × Int) → List PhaseRange
  | [] => []
  | (name, cumulative) :: rest =>
    if previous < cumulative then ⟨name, previous, cumulative⟩ :: rangesFrom cumulative rest
    else rangesFrom cumulative rest

def manifestPhaseRanges : Except Raise (List PhaseRange) := do
  match ← manifestReadLayout manifest with
  | none => pure []
  | some layout => pure (rangesFrom 0 layout.1)

def manifestReadEntries : Except Raise (List (Json F)) := do
  match ← manifestReadLayout manifest with
  | none => pure []
  | some layout => pure layout.2

end

section

inductive SplitError
  | value (text : String)
  | entryExceedsWindow (entryIndex : Nat) (startBytes endBytes windowBytes : Int)

/-- The chunks cut so far, where the open one begins, and how far the read order has come. -/
structure Packing where
  chunks : List (Int × Int)
  (cut reached : Option Int)
  position : Int

def spanText (index : Nat) (entryStart entryEnd : Int) : String :=
  "entry " ++ toString index ++ " spans [" ++ toString entryStart ++ ", " ++ toString entryEnd ++
    ")"

/-- One whole entry joins the open chunk, closes it first, or is a chunk of its own. -/
def Packing.pack (chunkBytes entryStart entryEnd : Int) (acc : Packing) : Packing :=
  let cut := acc.cut.getD entryStart
  let full := chunkBytes < entryEnd - cut ∧ cut < entryStart
  let chunks := if full then acc.chunks ++ [(cut, entryStart)] else acc.chunks
  let cut := if full then entryStart else cut
  if chunkBytes < entryEnd - cut then
    ⟨chunks ++ [(cut, entryEnd)], some entryEnd, some entryEnd, entryEnd⟩
  else ⟨chunks, some cut, some entryEnd, entryEnd⟩

def packEntries (startBytes endBytes chunkBytes : Int) (windowBytes : Option Int) :
    Nat → Packing → List Int → Except SplitError Packing
  | _, acc, [] => .ok acc
  | index, acc, size :: rest =>
    let entryStart := acc.position
    let entryEnd := acc.position + size
    if size < 0 then
      .error (.value ("entry " ++ toString
      index ++ " must be a non-negative whole number of bytes"))
    else if entryEnd ≤ startBytes then
      packEntries startBytes endBytes chunkBytes windowBytes (index + 1)
        { acc with position := entryEnd } rest
    else if endBytes ≤ entryStart then .ok { acc with position := entryEnd }
    else if entryStart < startBytes then
      .error (.value ("start_bytes " ++ toString startBytes ++ " is not an entry boundary: " ++
        spanText index entryStart entryEnd))
    else if endBytes < entryEnd then
      .error (.value ("end_bytes " ++ toString endBytes ++ " is not an entry boundary: " ++
        spanText index entryStart entryEnd))
    else
      match windowBytes.filter (· < size) with
      | some window => .error (.entryExceedsWindow index entryStart entryEnd window)
      | none =>
        packEntries startBytes endBytes chunkBytes windowBytes (index + 1)
          (acc.pack chunkBytes entryStart entryEnd) rest

def Packing.finish (endBytes : Int) (packed : Packing) : Except SplitError (List (Int × Int)) :=
  let unaligned := SplitError.value ("end_bytes " ++ toString endBytes ++
    " is not an entry boundary of the read order, which reaches " ++ toString packed.position ++
    " bytes")
  match packed.cut with
  | none => .error unaligned
  | some cut =>
    if packed.reached ≠ some endBytes then .error unaligned
    else if cut < endBytes then .ok (packed.chunks ++ [(cut, endBytes)])
    else .ok packed.chunks

def splitRangeIntoChunks (startBytes endBytes chunkBytes : Int) (entryBytes : List Int)
    (windowBytes : Option Int) :
    Except SplitError (List (Int × Int)) :=
  if chunkBytes ≤ 0 then .error (.value "chunk_bytes must be a positive whole number of bytes")
  else if startBytes < 0 then .error
    (.value "start_bytes must be a non-negative whole number of bytes")
  else if endBytes < 0 then .error (.value "end_bytes must be a non-negative whole number of bytes")
  else if endBytes ≤ startBytes then
    .error (.value "a chunked range must be non-empty and half-open")
  else if windowBytes.any (· ≤ 0) then
    .error (.value "window_bytes must be a positive whole number of bytes")
  else do
    let packed ← packEntries startBytes endBytes chunkBytes windowBytes 0 ⟨[], none, none, 0⟩
      entryBytes
    packed.finish endBytes

/-- `entries_between`, from the entries that end at `position` on. -/
def entriesFrom {α : Type} (size : α → Int) (startBytes endBytes : Int) (position : Int) :
    List α → List α
  | [] => []
  | e :: rest =>
    if endBytes ≤ position then []
    else if startBytes < position + size e then
      e :: entriesFrom size startBytes endBytes (position + size e) rest
    else entriesFrom size startBytes endBytes (position + size e) rest

def entriesBetween {α : Type} (size : α → Int) (entries : List α) (startBytes endBytes : Int) :
    List α :=
  entriesFrom size startBytes endBytes 0 entries

end

end PrismaBuild.DataManifest
