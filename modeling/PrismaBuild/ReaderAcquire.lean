import PrismaBuild.Json
import PrismaBuild.ReaderLease

namespace PrismaBuild.ReaderLease

/-- What `stat_identity` compares of a staged file. -/
structure FileId where
  (ino size mtimeNs ctimeNs : Nat)
  deriving DecidableEq

structure Mention where
  stagePath : Name
  bytes : Nat
  sha256 : Name
  fileId : FileId
  deriving DecidableEq

structure Vouch where
  stagePath : Name
  bytes : Nat
  sha256 : Name
  deriving DecidableEq

/-- A material sidecar that `validate_material` accepts. -/
structure Material where
  (manifestSha256 generation : Name)
  epoch : Option Name
  entries : List (Name × Mention)
  distinct : (entries.map Prod.fst).Nodup
  nonempty : entries ≠ []
  deriving DecidableEq

/-- A fragment that `validate_fragment` accepts. -/
structure Fragment where
  (tierId stageRoot manifestSha256 : Name)
  epoch : Option Name
  entries : List (Name × Vouch)
  distinct : (entries.map Prod.fst).Nodup
  deriving DecidableEq

/-- What `_reused_cover_doc` answers. -/
inductive Read (α : Type)
  | absent
  | broken (error : String)
  | doc (value : α)
  deriving DecidableEq

structure Cover where
  (mover manifestSha256 : Name)

structure Want where
  bytes : Nat
  sha256 : Option Name

/-- The arguments of `acquire`. -/
structure Call where
  consumer : Name
  owner : Option Name
  (tier epoch : Name)
  (start stop : Int)
  covers : List Cover
  expected : Option (List (Name × Want))
  ref : Ref
  filePin : Bool

def Call.movers (c : Call) : List Name := c.covers.map Cover.mover

def Call.pinOwner (c : Call) : Name :=
  match c.owner with
  | none => c.consumer
  | some owner => if owner = [] then c.consumer else owner

def Call.ram (c : Call) : Bool := ("ram:" : Name).isPrefixOf c.tier

structure Context where
  material : AList fun _ : Name => Material
  fragment : AList fun _ : Name => Fragment

/-- What the unlocked reads for one cover return, whatever was republished between them. -/
structure CoverReads where
  marks : Except String (List Name)
  material : Read Material
  fragment : Read Fragment
  announcedEpoch : Except String (Option Name)

/-- The documents, marks and files as they stand under the stage ownership lock. -/
structure Snapshot where
  material : Name → Read Material
  fragment : Name → Read Fragment
  marks : Name → Except String (List Name)
  stat : Name → Option FileId

structure Source where
  stagePath : Name
  bytes : Nat
  sha256 : Name
  fileId : FileId
  (mover generation : Name)
  deriving DecidableEq

abbrev Sources := AList fun _ : Name => Source

abbrev Acquires (α : Type) := Except String α

def refuseUnless (c : Prop) [Decidable c] (refusal : String) : Acquires Unit :=
    if c then .ok () else .error refusal

def uncertain (detail : String) : String := "ownership-uncertain: " ++ detail

/-- Two documents equal as Python objects: the order of their entries does not count. -/
def Material.same (a b : Material) : Bool :=
  a.manifestSha256 = b.manifestSha256 && a.generation = b.generation && a.epoch = b.epoch &&
    a.entries.isPerm b.entries

/-- `cached_material`: a changed sidecar drops the cached fragment. -/
def Context.cachedMaterial (ctx : Context) (mover : Name) (read : Read Material) :
    Context × Read Material :=
  match read with
  | .doc fresh =>
    match ctx.material.lookup mover with
    | some held =>
      if held.same fresh then (ctx, .doc held)
      else (⟨ctx.material.insert mover fresh, ctx.fragment.erase mover⟩, .doc fresh)
    | none => (⟨ctx.material.insert mover fresh, ctx.fragment.erase mover⟩, .doc fresh)
  | missing => (ctx, missing)

def Context.cachedFragment (ctx : Context) (mover : Name) (read : Read Fragment) :
    Context × Read Fragment :=
  match ctx.fragment.lookup mover, read with
  | some held, _ => (ctx, .doc held)
  | none, .doc fresh => (⟨ctx.material, ctx.fragment.insert mover fresh⟩, .doc fresh)
  | none, missing => (ctx, missing)

variable (call : Call)

def coverFragment (manifest : Name) : Read Fragment → Acquires Fragment
  | .absent => .error "unpublished"
  | .broken error => .error (uncertain error)
  | .doc fragment => do
    refuseUnless (fragment.tierId = call.tier) "unpublished"
    refuseUnless (fragment.manifestSha256 = manifest) "unpublished"
    refuseUnless (fragment.epoch.getD [] = call.epoch) "stale-epoch"
    pure fragment

def coverEpoch (fragment : Fragment) (announced : Except String (Option Name)) : Acquires Unit :=
  if call.ram then
    match announced with
    | .error detail => .error ("stale-epoch: " ++ detail)
    | .ok live => refuseUnless (live = some (fragment.epoch.getD [])) "stale-epoch"
  else .ok ()

def coverMaterial (manifest : Name) (retiring : List Name) (fragment : Fragment) :
    Read Material → Acquires Material
  | .absent => .error "no-file-identity"
  | .broken error => .error (uncertain error)
  | .doc material => do
    refuseUnless (material.generation ∉ retiring) "retiring"
    refuseUnless (material.manifestSha256 = manifest) "unpublished"
    if call.ram then
      refuseUnless (material.epoch = some (fragment.epoch.getD []))
        (uncertain "sidecar/fragment disagree")
    else refuseUnless (material.epoch.getD [] = []) (uncertain "staged epoch set")
    pure material

def Vouch.agrees (v : Vouch) (m : Mention) : Bool :=
  v.stagePath = m.stagePath && v.bytes = m.bytes && v.sha256 = m.sha256

def Source.agrees (s : Source) (m : Mention) : Bool :=
  s.stagePath = m.stagePath && s.bytes = m.bytes && s.sha256 = m.sha256

def Mention.source (m : Mention) (mover generation : Name) : Source :=
  ⟨m.stagePath, m.bytes, m.sha256, m.fileId, mover, generation⟩

/-- The entries of one sidecar that its fragment also vouches for, joined to the union. -/
def joinEntries (fragment : Fragment) (mover generation : Name) : List (Name × Mention) → Sources →
    Acquires Sources
  | [], union => .ok union
  | (key, mention) :: rest, union =>
    match fragment.entries.lookup key with
    | none => joinEntries fragment mover generation rest union
    | some vouched => do
      refuseUnless (vouched.agrees mention = true) (uncertain "sidecar/fragment disagree")
      refuseUnless (∀ held ∈ union.lookup key, held.agrees mention = true)
        (uncertain "covers disagree")
      joinEntries fragment mover generation rest
        (union.insert key (mention.source mover generation))

structure Gathered where
  context : Context
  stageRoot : Name
  union : Sources
  generations : AList fun _ : Name => Name

def joinStage (held : Name) (fragment : Fragment) : Acquires Name :=
  if held = [] then .ok fragment.stageRoot
  else if fragment.stageRoot = held then .ok held
  else .error (uncertain "covers disagree on stage")

def gatherCover (retiring : List Name) (cover : Cover) (reads : CoverReads) (g : Gathered) :
    Acquires Gathered := do
  let (context, material) := g.context.cachedMaterial cover.mover reads.material
  let (context, fragment) := context.cachedFragment cover.mover reads.fragment
  let fragment ← coverFragment call cover.manifestSha256 fragment
  coverEpoch call fragment reads.announcedEpoch
  let material ← coverMaterial call cover.manifestSha256 retiring fragment material
  let stageRoot ← joinStage g.stageRoot fragment
  let union ← joinEntries fragment cover.mover material.generation material.entries g.union
  pure ⟨context, stageRoot, union, g.generations.insert cover.mover material.generation⟩

def readMarks (reads : Nat → CoverReads) : Nat → List Cover → (AList fun _ : Name => List Name) →
    Acquires (AList fun _ : Name => List Name)
  | _, [], marks => .ok marks
  | index, cover :: rest, marks =>
    match (reads index).marks with
    | .error tainted => .error (uncertain tainted)
    | .ok generations => readMarks reads (index + 1) rest (marks.insert cover.mover generations)

def gatherCovers (call : Call) (marks : AList fun _ : Name => List Name)
    (reads : Nat → CoverReads) :
    Nat → List Cover → Gathered → Acquires Gathered
  | _, [], g => .ok g
  | index, cover :: rest, g => do
    let g ← gatherCover call ((marks.lookup cover.mover).getD []) cover (reads index) g
    gatherCovers call marks reads (index + 1) rest g

def checkWants (union : Sources) : List (Name × Want) → Acquires Unit
  | [] => .ok ()
  | (key, want) :: rest =>
    match union.lookup key with
    | none => .error "source-coverage-gap"
    | some got => do
      refuseUnless (got.bytes = want.bytes) "source-coverage-gap"
      refuseUnless (∀ declared ∈ want.sha256, declared ≠ [] → got.sha256 = declared)
        "source-coverage-gap"
      checkWants union rest

def pinnedKeys (expected : Option (List (Name × Want))) (union : Sources) : Acquires (List Name) :=
  match expected with
  | some wants => do
    checkWants union wants
    pure (wants.map Prod.fst)
  | none => do
    refuseUnless (union.keys ≠ []) "unpublished"
    pure (sortNames union.keys)

structure Checked where
  stageRoot : Name
  union : Sources
  generations : AList fun _ : Name => Name
  keys : List Name

/-- `acquire` up to the lock. -/
def precheck (context : Context) (reads : Nat → CoverReads) : Acquires Checked := do
  refuseUnless (call.movers ≠ [] ∧ call.movers.all fun mover => mover.length = 64)
    (uncertain "bad covers")
  refuseUnless (call.pinOwner.length = 64 ∧ call.pinOwner.all fun c =>
    ("0123456789abcdef" : Name).contains c)
    (uncertain "bad owner")
  let marks ← readMarks reads 0 call.covers ∅
  let g ← gatherCovers call marks reads 0 call.covers ⟨context, [], ∅, ∅⟩
  let keys ← pinnedKeys call.expected g.union
  refuseUnless (g.stageRoot ≠ []) (uncertain "covers name no stage")
  pure ⟨g.stageRoot, g.union, g.generations, keys⟩

def relockFragment (manifest : Name) : Read Fragment → Acquires Unit
  | .absent => .error "unpublished"
  | .broken error => .error (uncertain error)
  | .doc fragment =>
    refuseUnless (fragment.tierId = call.tier ∧ fragment.manifestSha256 = manifest ∧
      fragment.epoch.getD [] = call.epoch) "unpublished"

def relockMaterial (generation : Option Name) : Read Material → Acquires Unit
  | .doc material => refuseUnless (some material.generation = generation) "unpublished"
  | _ => .error "unpublished"

def relockMarks (generation : Option Name) : Except String (List Name) → Acquires Unit
  | .error tainted => .error (uncertain tainted)
  | .ok marks => refuseUnless (∀ g ∈ generation, g ∉ marks) "retiring"

def relock (call : Call) (under : Snapshot) (generations : AList fun _ : Name => Name) :
    List Cover → Acquires Unit
  | [] => .ok ()
  | cover :: rest => do
    relockFragment call cover.manifestSha256 (under.fragment cover.mover)
    relockMaterial (generations.lookup cover.mover) (under.material cover.mover)
    relockMarks (generations.lookup cover.mover) (under.marks cover.mover)
    relock call under generations rest

def Source.entry (s : Source) (key : Name) : Entry :=
    ⟨key, s.stagePath, s.bytes, s.sha256, s.mover, s.generation⟩

/-- The staged file of one key still has the identity its sidecar published. -/
def statEntry (under : Snapshot) (union : Sources) (key : Name) : Acquires Entry :=
  match union.lookup key with
  | none => .error "KeyError"
  | some source =>
    match under.stat source.stagePath with
    | none => .error "file-missing"
    | some identity => do
      refuseUnless (identity.size = source.bytes ∧ identity.ino = source.fileId.ino ∧
        identity.mtimeNs = source.fileId.mtimeNs ∧ identity.ctimeNs = source.fileId.ctimeNs)
        "file-identity-changed"
      pure (source.entry key)

def statEntries (under : Snapshot) (union : Sources) : List Name → Acquires (List Entry)
  | [] => .ok []
  | key :: rest => do
    let entry ← statEntry under union key
    let entries ← statEntries under union rest
    pure (entry :: entries)

structure Acquired where
  entries : List Entry
  covers : List (Name × Name)
  pin : Option (PinId × RefId)

def Checked.generation (c : Checked) (mover : Name) : Name := (c.generations.lookup mover).getD []

def Checked.window (c : Checked) (call : Call) (entries : List Entry) : Window where
  consumer := call.consumer
  tier := call.tier
  epoch := call.epoch
  stageRoot := c.stageRoot
  start := call.start
  stop := call.stop
  movers := call.movers
  generation := c.generation
  entries := entries

def lockedEntries (under : Snapshot) (c : Checked) : Acquires (List Entry) := do
  relock call under c.generations call.covers
  statEntries under c.union c.keys

/-- `acquire` under the lock. A pin that stands already is answered as it stands. -/
def acquireLocked (leases : Leases) (call : Call) (under : Snapshot) (c : Checked) :
    Leases × Acquires Acquired :=
  match lockedEntries call under c with
  | .error refusal => (leases, .error refusal)
  | .ok entries =>
    let covers := call.movers.map fun mover => (mover, c.generation mover)
    if call.filePin = false then (leases, .ok ⟨entries, covers, none⟩)
    else
      let w := c.window call entries
      match filePin leases w call.pinOwner call.ref with
      | (leases, .error refusal) => (leases, .error refusal)
      | (leases, .ok ref) =>
        match leases.readPin call.pinOwner (pinIdFor w) with
        | none => (leases, .error "unpublished")
        | some pin => (leases, .ok ⟨pin.entries, covers, some (pinIdFor w, ref)⟩)

/-- `acquire`: the unlocked reads, then the check and the filing under the lock. -/
def acquire (leases : Leases) (call : Call) (context : Context) (reads : Nat → CoverReads)
    (under : Snapshot) :
    Leases × Acquires Acquired :=
  match precheck call context reads with
  | .error refusal => (leases, .error refusal)
  | .ok c => acquireLocked leases call under c

end PrismaBuild.ReaderLease
