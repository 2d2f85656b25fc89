import PrismaBuild.NameOrder

namespace PrismaBuild.ReaderLease

/-- `_canonical_pin_body`: what the name of a pin file is the digest of. The owner is not in it. -/
structure PinId where
  (consumer tier epoch stageRoot : Name)
  (start stop : Int)
  movers : List Name
  generations : List (Name × Name)
  objects : List (Name × Nat × Name × Name)
  deriving DecidableEq

structure Entry where
  (key stagePath : Name)
  bytes : Nat
  (sha256 mover generation : Name)
  deriving DecidableEq

structure Window where
  (consumer tier epoch stageRoot : Name)
  (start stop : Int)
  movers : List Name
  generation : Name → Name
  entries : List Entry

def entriesByKey (entries : List Entry) : List Entry :=
  (sortNames (entries.map Entry.key)).filterMap fun key =>
    entries.reverse.find? (fun e => e.key = key)

def pinIdFor (w : Window) : PinId where
  consumer := w.consumer
  tier := w.tier
  epoch := w.epoch
  stageRoot := w.stageRoot
  start := w.start
  stop := w.stop
  movers := w.movers.insertionSort (fun a b => nameLe a b)
  generations := (sortNames w.movers).map fun mover => (mover, w.generation mover)
  objects := (entriesByKey w.entries).map fun e => (e.key, e.bytes, e.sha256, e.generation)

abbrev RefId := Name

/-- `"|".join((acquire_token, host, nonce, scope_id))`. -/
def refIdFor (acquireToken host nonce scopeId : Name) : RefId :=
  acquireToken ++ '|' :: host ++ '|' :: nonce ++ '|' :: scopeId

structure Ref where
  (acquireToken nonce scopeId host : Name)
  deriving DecidableEq

/-- A pin file. `validate_pin` lets no pin without a ref be read or written. -/
structure Pin where
  (owner tier epoch stageRoot : Name)
  covers : List (Name × Name)
  entries : List Entry
  refs : AList fun _ : RefId => Ref
  refs_ne : refs.keys ≠ []

/-- The leases root: whether it exists, its owner directories and the pin files in them. -/
structure Leases where
  root : Bool
  owners : List Name
  pins : AList fun _ : Name × PinId => Pin
  rooted : ∀ k ∈ pins, k.1 ∈ owners
  root_of_owner : ∀ o ∈ owners, root = true

namespace Leases

def empty : Leases := ⟨false, [], ∅, by simp, by simp⟩

def readPin (s : Leases) (owner : Name) (id : PinId) : Option Pin := s.pins.lookup (owner, id)

def refAt (s : Leases) (owner : Name) (id : PinId) (ref : RefId) : Option Ref :=
  (s.readPin owner id).bind fun pin => pin.refs.lookup ref

/-- Every writer has made the owner directory or found the file in it. -/
def writePin (s : Leases) (owner : Name) (id : PinId) (pin : Pin) : Leases where
  root := true
  owners := owner :: s.owners
  pins := s.pins.insert (owner, id) pin
  rooted := by
    intro k hk
    rcases (AList.mem_insert _).mp hk with rfl | hk
    · exact List.mem_cons_self
    · exact List.mem_cons_of_mem _ (s.rooted k hk)
  root_of_owner := fun _ _ => rfl

def unlinkPin (s : Leases) (owner : Name) (id : PinId) : Leases where
  root := s.root
  owners := s.owners
  pins := s.pins.erase (owner, id)
  rooted := fun k hk => s.rooted k (AList.mem_erase.mp hk).2
  root_of_owner := s.root_of_owner

def mkdirOwner (s : Leases) (owner : Name) : Leases where
  root := true
  owners := owner :: s.owners
  pins := s.pins
  rooted := fun k hk => List.mem_cons_of_mem _ (s.rooted k hk)
  root_of_owner := fun _ _ => rfl

end Leases

def Pin.withRef (pin : Pin) (id : RefId) (ref : Ref) : Pin :=
  { pin with refs := pin.refs.insert id ref, refs_ne := by simp }

/-- `same_window`: a pin of this name names the material the acquire read. -/
def sameWindow (pin : Pin) (w : Window) (owner : Name) : Bool :=
  pin.tier = w.tier && pin.epoch = w.epoch && pin.stageRoot = w.stageRoot && pin.owner = owner &&
    pin.covers = w.movers.map (fun mover => (mover, w.generation mover)) && pin.entries.isPerm
    w.entries

variable (s : Leases)

/-- The pin filing of `acquire`, under the stage ownership lock. -/
def filePin (w : Window) (owner : Name) (ref : Ref) : Leases × Except String RefId :=
  let id := pinIdFor w
  let refId := refIdFor ref.acquireToken ref.host ref.nonce ref.scopeId
  let s := s.mkdirOwner owner
  match s.readPin owner id with
  | some pin =>
    if sameWindow pin w owner then
      match pin.refs.lookup refId with
      | some held =>
        if held.acquireToken = ref.acquireToken then (s, .ok refId)
        else (s, .error "ownership-uncertain: ref collision")
      | none => (s.writePin owner id (pin.withRef refId ref), .ok refId)
    else (s, .error "generation-changed")
  | none =>
    (s.writePin owner id
      { owner := owner, tier := w.tier, epoch := w.epoch, stageRoot := w.stageRoot,
        covers := w.movers.map (fun mover => (mover, w.generation mover)), entries := w.entries,
        refs := AList.singleton refId ref, refs_ne := by simp }, .ok refId)

def registerAt (s : Leases) (id : PinId) (ref : RefId) (childToken childHost : Name) :
    List Name → Except String (Leases × RefId)
  | [] => .error "unpublished"
  | owner :: owners =>
    match s.readPin owner id with
    | none => registerAt s id ref childToken childHost owners
    | some pin =>
      if pin.stageRoot = [] then .error "ownership-uncertain: pin names no stage"
      else
        match pin.refs.lookup ref with
        | none => registerAt s id ref childToken childHost owners
        | some parent =>
          let childRef := refIdFor childToken childHost parent.nonce []
          let child : Ref := ⟨childToken, parent.nonce, parent.scopeId, childHost⟩
          .ok (s.writePin owner id (pin.withRef childRef child), childRef)

def registerInheritedRef (id : PinId) (ref : RefId) (childToken childHost : Name)
    (consumer : Option Name) : Except String (Leases × RefId) :=
  let census :=
    if s.root then registerAt s id ref childToken childHost (sortNames s.owners)
    else .error "ownership-uncertain: pin census unreadable"
  match consumer with
  | none => census
  | some consumer =>
    if (s.readPin consumer id).isSome then registerAt s id ref childToken childHost [consumer] else
      census

def Leases.withoutRef (owner : Name) (id : PinId) (pin : Pin) (ref : RefId) : Leases :=
  if h : (pin.refs.erase ref).keys = [] then s.unlinkPin owner id
  else s.writePin owner id { pin with refs := pin.refs.erase ref, refs_ne := h }

inductive DropOutcome
  | absent
  | moved (stageRoot : Name)
  | gone (s : Leases)

/-- `_drop_ref`: the locked half of one release. -/
def dropRef (owner : Name) (id : PinId) (ref : RefId) (stageRoot : Name) (hinted : Bool) :
    DropOutcome :=
  match s.readPin owner id with
  | none => if hinted then .absent else .gone s
  | some pin =>
    if pin.stageRoot ≠ stageRoot then .moved pin.stageRoot
    else if ref ∉ pin.refs then .gone s
    else .gone (s.withoutRef owner id pin ref)

inductive ReleaseStep
  | census
  | stageRoot
  deriving DecidableEq

inductive PinOutcome
  | absent
  | gone (s : Leases)
  | fault (step : ReleaseStep)

/-- The two rounds of `_release_pin` from the stage root to lock first. -/
def dropRounds (s : Leases) (owner : Name) (id : PinId) (ref : RefId) (stageRoot : Name)
    (hinted : Bool) : Nat → PinOutcome
  | 0 => .fault .stageRoot
  | rounds + 1 =>
    match dropRef s owner id ref stageRoot hinted with
    | .absent => .absent
    | .gone s => .gone s
    | .moved stageRoot => dropRounds s owner id ref stageRoot false rounds

def releasePin (owner : Name) (id : PinId) (ref : RefId) (stageRoot : Option Name) :
    PinOutcome :=
  match stageRoot with
  | some stageRoot => dropRounds s owner id ref stageRoot true 2
  | none =>
    match s.readPin owner id with
    | none => .absent
    | some pin => dropRounds s owner id ref pin.stageRoot false 2

def releaseAt (s : Leases) (id : PinId) (ref : RefId) : List Name → Except ReleaseStep Leases
  | [] => .ok s
  | owner :: owners =>
    match releasePin s owner id ref none with
    | .absent => releaseAt s id ref owners
    | .gone s => .ok s
    | .fault step => .error step

def releaseCensus (id : PinId) (ref : RefId) (own : Option Name) :
    Except ReleaseStep Leases :=
  if s.root then releaseAt s id ref ((sortNames s.owners).filter fun owner => own ≠ some owner)
  else .error .census

/-- `release`: `ok` is the answer `True`, an error the step of the `ReleaseFailure`. -/
def release (id : PinId) (ref : RefId) (consumer stageRoot : Option Name) :
    Except ReleaseStep Leases :=
  match consumer with
  | none => releaseCensus s id ref none
  | some own =>
    match releasePin s own id ref stageRoot with
    | .absent => releaseCensus s id ref (some own)
    | .gone s => .ok s
    | .fault step => .error step

inductive LeaseCall
  | acquire (w : Window) (owner : Name) (ref : Ref)
  | registerInheritedRef (id : PinId) (ref : RefId) (childToken childHost : Name)
    (consumer : Option Name)
  | release (id : PinId) (ref : RefId) (consumer stageRoot : Option Name)

/-- The leases root after one call; a refused or failed call leaves the pin files alone. -/
def LeaseCall.run : LeaseCall → Leases
  | acquire w owner ref => (filePin s w owner ref).1
  | registerInheritedRef id ref childToken childHost consumer =>
    match ReaderLease.registerInheritedRef s id ref childToken childHost consumer with
    | .ok (s, _) => s
    | .error _ => s
  | release id ref consumer stageRoot =>
    match ReaderLease.release s id ref consumer stageRoot with
    | .ok s => s
    | .error _ => s

end PrismaBuild.ReaderLease
