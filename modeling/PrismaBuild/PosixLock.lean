import PrismaBuild.NameOrder
import PrismaBuild.Trace

namespace PrismaBuild.PosixLock

abbrev Ino := Nat

def tombstone : Name := "prismabuild posix_lock retired\n"

structure Inode (P : Type) where
  content : Name
  lock : Option P

structure Disk (P : Type) where
  name : Option Ino
  inodes : Ino → Inode P
  next : Ino

/-- Where a process stands: the system call it makes next, and in which call. -/
inductive Pc
  | idle (answer : String)
  | dead
  | opening (blocking : Bool)
  | locking (blocking : Bool) (fd : Ino)
  | checking (blocking : Bool) (fd : Ino)
  | reading (blocking : Bool) (fd : Ino)
  | finishing (blocking : Bool) (fd : Ino)
  | naming (blocking : Bool) (fd : Ino)
  | unlinking (blocking : Bool) (fd : Ino)
  | letting (blocking : Bool) (fd : Ino)
  | closing (blocking : Bool) (fd : Ino)
  | inside (fd : Ino)
  | leaving (fd : Ino)
  | refused (fd : Ino)
  | shutting (fd : Ino)
  | retireOpening
  | retireStat (fd : Ino)
  | retireLocking (fd : Ino)
  | retireChecking (fd : Ino)
  | retireReading (fd : Ino) (linked : Bool)
  | retireNaming (fd : Ino) (residue : Bool)
  | retireWriting (fd : Ino)
  | retireUnlinking (fd : Ino)
  | retireUnlocking (fd : Ino) (answer : String)
  | retireClosing (fd : Ino) (answer : String)
  deriving DecidableEq

variable {P : Type} [DecidableEq P]

namespace Disk

variable (d : Disk P)

def content (fd : Ino) : Name := (d.inodes fd).content

def lock (fd : Ino) : Option P := (d.inodes fd).lock

def write (fd : Ino) (text : Name) : Disk P :=
  { d with inodes := Function.update d.inodes fd ⟨text, d.lock fd⟩ }

def setLock (fd : Ino) (p : P) : Disk P :=
  { d with inodes := Function.update d.inodes fd ⟨d.content fd, some p⟩ }

/-- Whether `lockf` grants the file to the process. -/
def grants (fd : Ino) (p : P) : Bool := d.lock fd = none ∨ d.lock fd = some p

/-- `LOCK_UN`, or the close of a descriptor: the process's own lock is let go. -/
def unlock (fd : Ino) (p : P) : Disk P :=
  { d with inodes := Function.update d.inodes fd ⟨d.content fd, if d.lock fd = some p then
    none else d.lock fd⟩ }

def unlink : Disk P := { d with name := none }

def create : Disk P :=
  ⟨some d.next, Function.update d.inodes d.next ⟨[], none⟩, d.next + 1⟩

def release (p : P) : Disk P :=
  { d with inodes := fun i => ⟨d.content i, if d.lock i = some p then none else d.lock i⟩ }

end Disk

/-- One system call of a process. A blocking `lockf` on a file another process has locked is not
answered. -/
def Pc.step (p : P) (d : Disk P) : Pc → Disk P × Pc
  | .idle answer => (d, .idle answer)
  | .dead => (d, .dead)
  -- held: open with O_CREAT, lock, and look at the inode that was locked
  | .opening b =>
    match d.name with
    | some fd => (d, .locking b fd)
    | none => (d.create, .locking b d.next)
  | .locking b fd =>
    if d.grants fd p then (d.setLock fd p, .checking b fd)
    else if b then (d, .locking b fd)
    else (d, .refused fd)
  | .checking b fd =>
    if d.name ≠ some fd then (d, .finishing b fd)
    else if (d.content fd).length = tombstone.length then (d, .reading b fd)
    else (d, .inside fd)
  | .reading b fd => if d.content fd = tombstone then (d, .finishing b fd) else (d, .inside fd)
  -- a retired inode: finish the retirement, let go and open the name again
  | .finishing b fd => if d.name = some fd then (d, .naming b fd) else (d, .letting b fd)
  | .naming b fd => if d.name = some fd then (d, .unlinking b fd) else (d, .letting b fd)
  | .unlinking b fd => (d.unlink, .letting b fd)
  | .letting b fd => (d.unlock fd p, .closing b fd)
  | .closing b fd => (d.unlock fd p, .opening b)
  | .inside fd => (d, .leaving fd)
  | .leaving fd => (d.unlock fd p, .shutting fd)
  | .refused fd => (d, .shutting fd)
  | .shutting fd => (d.unlock fd p, .idle "")
  | .retireOpening =>
    match d.name with
    | none => (d, .idle "absent")
    | some fd => (d, .retireStat fd)
  | .retireStat fd =>
    if d.name = some fd then (d, .retireLocking fd) else
      (d, .retireClosing fd "not a single-link regular file")
  | .retireLocking fd =>
    if d.grants fd p then (d.setLock fd p, .retireChecking fd) else (d, .retireClosing fd "held")
  | .retireChecking fd =>
    if (d.content fd).length = tombstone.length then (d, .retireReading fd (d.name = some fd))
    else if d.name ≠ some fd ∨ d.content fd ≠ [] then
      (d, .retireUnlocking fd "not an empty live lock file")
    else (d, .retireNaming fd false)
  | .retireReading fd linked =>
    if linked = false ∨ d.content fd ≠ tombstone then
      (d, .retireUnlocking fd "not an empty live lock file")
    else (d, .retireNaming fd true)
  | .retireNaming fd residue =>
    match d.name with
    | none => (d, .retireUnlocking fd "cannot retire: no such file")
    | some named =>
      if named ≠ fd then (d, .retireUnlocking fd "the name moved to another inode")
      else if residue then (d, .retireUnlinking fd)
      else (d, .retireWriting fd)
  | .retireWriting fd => (d.write fd tombstone, .retireUnlinking fd)
  | .retireUnlinking fd => (d.unlink, .retireUnlocking fd "")
  | .retireUnlocking fd answer => (d.unlock fd p, .retireClosing fd answer)
  | .retireClosing fd answer => (d.unlock fd p, .idle answer)

/-- A process that dies in the tombstone write leaves any part of it. -/
def Pc.dying (d : Disk P) (written : Nat) : Pc → Disk P
  | .retireWriting fd => d.write fd (tombstone.take written)
  | _ => d

structure State (P : Type) where
  disk : Disk P
  procs : P → Pc

/-- What happens next: a process calls `held` or `retire`, makes its next system call, or dies. -/
inductive Event (P : Type)
  | held (p : P) (blocking : Bool)
  | retire (p : P)
  | step (p : P)
  | die (p : P) (written : Nat)

def State.goto (s : State P) (p : P) (d : Disk P) (pc : Pc) : State P :=
    ⟨d, Function.update s.procs p pc⟩

def Pc.resting : Pc → Bool
  | .idle _ => true
  | _ => false

def State.next (s : State P) : Event P → State P
  | .held p b => if (s.procs p).resting then s.goto p s.disk (.opening b) else s
  | .retire p => if (s.procs p).resting then s.goto p s.disk .retireOpening else s
  | .step p => s.goto p ((s.procs p).step p s.disk).1 ((s.procs p).step p s.disk).2
  | .die p written => s.goto p (((s.procs p).dying s.disk written).release p) .dead

/-- No process runs yet, and the lock file is absent or holds any bytes. -/
structure State.Initial (s : State P) : Prop where
  resting : ∀ p, (s.procs p).resting = true
  unlocked : ∀ i, s.disk.lock i = none
  named : s.disk.next = 0 ∧ s.disk.name = none ∨ s.disk.next = 1 ∧ s.disk.name = some 0

end PrismaBuild.PosixLock
