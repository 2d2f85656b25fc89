import PrismaBuild.ActionKey
import PrismaBuild.ReaderAcquire
import PrismaBuild.ReaderRelease

namespace PrismaBuild.ReaderLease

open List

/-- The documents of one cover that `acquire` read before the lock, the fragment perhaps from the
caller's cache. -/
structure CoverDocs where
  mover : Name
  fragment : Fragment
  material : Material

/-- What the sidecar says of a key that the fragment names too. -/
def CoverDocs.mention (d : CoverDocs) (key : Name) : Option Mention :=
  if (d.fragment.entries.lookup key).isSome then d.material.entries.lookup key else none

def CoverDocs.source (named : CoverDocs × Mention) : Source :=
    named.2.source named.1.mover named.1.material.generation

variable {call : Call} {under : Snapshot} {c : Checked} {key : Name} {source : Source}
    {covers : List Cover}
  {reads : Nat → CoverReads} {union : Sources} {context : Context}

/-- The keys that a call asks for: those expected, or any. -/
def Call.asks (call : Call) (key : Name) : Prop :=
    ∀ wants, call.expected = some wants → key ∈ wants.map Prod.fst

/-- The documents under the lock say of the key what its sidecar said, under the same generation. -/
def Snapshot.Keeps (under : Snapshot) (key : Name) (d : CoverDocs) (m : Mention) : Prop :=
  ∃ fragment material mention, under.fragment d.mover = .doc fragment ∧
    under.material d.mover = .doc material ∧
    fragment.entries.lookup key = some ⟨m.stagePath, m.bytes, m.sha256⟩ ∧
    material.entries.lookup key = some mention ∧
    (mention.stagePath, mention.bytes, mention.sha256) = (m.stagePath, m.bytes, m.sha256) ∧
    material.generation = d.material.generation

open PrismaBuild.Action (hexDigits)

def demoMover : Name := hexDigits 1

def demoEntry : Entry := ⟨"a", "/stage/f", 1, "d", demoMover, "g"⟩

end PrismaBuild.ReaderLease
