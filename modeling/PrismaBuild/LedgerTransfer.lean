import PrismaBuild.LedgerMoves

namespace PrismaBuild

namespace ResourceLedger

open Prog

/-- The rename loop between two holder directories. A name already under the destination and a
rename that fails both leave the token where it is; `limit` is the count at which the loop stops. -/
def moveLoop (source destination : Place) (pick : Name → Bool) (worth : Name → Int)
    (limit : Option Int) : List Name → Int → LedgerProg Int
  | [], moved => pure moved
  | token :: tokens, moved =>
    if limit.any (fun count => moved ≥ count) then pure moved
    else if pick token then do
      if ← exist destination token then moveLoop source destination pick worth limit tokens moved
      else
        match ← rename source token destination token with
        | .error _ => moveLoop source destination pick worth limit tokens moved
        | .ok _ => moveLoop source destination pick worth limit tokens (moved + worth token)
    else moveLoop source destination pick worth limit tokens moved

def moveHolder (source destination : Place) (pick : Name → Bool) (worth : Name → Int)
    (limit : Option Int) : LedgerProg (Except Failure Int) := do
  if ← isDir source then
    (mkdir destination).andThen fun _ =>
      (scanOptional source).andThen fun listing => do
        let moved ← moveLoop source destination pick worth limit listing 0
        let _ ← rmdir source
        pure (.ok moved)
  else pure (.ok 0)

/-- `borrowed` is what a moved metadata record says it borrows; a token counts as one. -/
def commitAcquire (key handle : Name) (borrowed : Name → Int) : LedgerProg (Except Failure Int) :=
  moveHolder (.held handle) (.held key) (fun _ => true)
    (fun token => if isMetadata token then borrowed token else 1) none

def privateTransfer : Failure :=
  .contract ("a reservation transfer names two action keys, never a " ++
    "claimant-private acquisition")

def transfer (fromKey toKey : Name) : LedgerProg (Except Failure Int) :=
  if fromKey = [] ∨ toKey = [] ∨ fromKey = toKey then pure (.ok 0)
  else if isPrivateHolder fromKey || isPrivateHolder toKey then pure (.error privateTransfer)
  else
    moveHolder (.held fromKey) (.held toKey) (fun _ => true)
      (fun token => if isMetadata token then 0 else 1) none

def transferCount (fromKey toKey : Name) (count : Int) : LedgerProg (Except Failure Int) :=
  if fromKey = [] ∨ toKey = [] ∨ fromKey = toKey then pure (.ok 0)
  else if isPrivateHolder fromKey || isPrivateHolder toKey then pure (.error privateTransfer)
  else if count ≤ 0 then pure (.ok 0)
  else
    moveHolder (.held fromKey) (.held toKey) (fun token => !isMetadata token) (fun _ => 1)
      (some count)

def namedLoop (source destination : Place) : List Name → Nat → LedgerProg Nat
  | [], done => pure done
  | name :: names, done => do
    if ← exist destination name then
      if ← exist source name then namedLoop source destination names done
      else namedLoop source destination names (done + 1)
    else if ← exist source name then
      match ← rename source name destination name with
      | .error _ => namedLoop source destination names done
      | .ok _ => namedLoop source destination names (done + 1)
    else namedLoop source destination names done

def refusedName (name : Name) : Bool :=
  name.isEmpty || '/' ∈ name || isMetadata name || !isToken name

def transferTokens (fromKey toKey : Name) (names : List Name) : LedgerProg (Except Failure Nat) :=
  if fromKey = [] ∨ toKey = [] ∨ fromKey = toKey then
    pure (.error (.contract "a token-subset transfer names two distinct holders"))
  else if isPrivateHolder fromKey || isPrivateHolder toKey then pure (.error privateTransfer)
  else if names = [] ∨ ¬ names.Nodup then
    pure (.error (.contract "transfer_tokens needs a non-empty list of distinct token names"))
  else
    match names.find? refusedName with
    | some name =>
      pure (.error (.contract ("transfer_tokens refuses token name '" ++ String.ofList
        name ++ "'")))
    | none =>
      (mkdir (.held toKey)).andThen fun _ => do
        let done ← namedLoop (.held fromKey) (.held toKey) names 0
        let _ ← rmdir (.held fromKey)
        pure (.ok done)

inductive MoveCall
  | commitAcquire (key handle : Name) (borrowed : Name → Int)
  | transfer (fromKey toKey : Name)
  | transferCount (fromKey toKey : Name) (count : Int)
  | transferTokens (fromKey toKey : Name) (names : List Name)

namespace MoveCall

def source : MoveCall → Place
  | commitAcquire _ handle _ => .held handle
  | transfer fromKey _ | transferCount fromKey _ _ | transferTokens fromKey _ _ => .held fromKey

def destination : MoveCall → Place
  | commitAcquire key _ _ => .held key
  | transfer _ toKey | transferCount _ toKey _ | transferTokens _ toKey _ => .held toKey

def prog : MoveCall → LedgerProg (Except Failure Int)
  | commitAcquire key handle borrowed => ResourceLedger.commitAcquire key handle borrowed
  | transfer fromKey toKey => ResourceLedger.transfer fromKey toKey
  | transferCount fromKey toKey count => ResourceLedger.transferCount fromKey toKey count
  | transferTokens fromKey toKey names =>
    (ResourceLedger.transferTokens fromKey toKey names).andThen fun done => pure (.ok done)

/-- The call to make after the state went from `s` to `t` under an interrupted one: the same
call, a count lowered by what has arrived at the destination. -/
def resume (c : MoveCall) (s t : Ledger) : MoveCall :=
  match c with
  | transferCount fromKey toKey count =>
    transferCount fromKey toKey
      (count - ((t.names (.held toKey)).length - (s.names (.held toKey)).length : Nat))
  | other => other

end MoveCall

end ResourceLedger

def LedgerOp.TouchesNoFile : LedgerOp → Prop
  | create _ _ | rename _ _ _ _ | unlink _ _ => False
  | _ => True

/-- Operations that move files between holder directories and nowhere else. -/
def LedgerOp.WithinHeld : LedgerOp → Prop
  | create _ _ | unlink _ _ => False
  | rename p n q m => ∃ a b, p = .held a ∧ q = .held b ∧ n = m
  | _ => True

namespace Ledger

/-- `free/` and the union of the holder directories are the same in both states. -/
def SameCustody (s t : Ledger) : Prop :=
  (∀ n, (.free, n) ∈ t.files ↔ (.free, n) ∈ s.files) ∧
    ∀ n, (∃ h, (.held h, n) ∈ t.files) ↔ ∃ h, (.held h, n) ∈ s.files

variable {s t u : Ledger}

theorem SameCustody.step {o : LedgerOp} (ho : o.WithinHeld) (f : Option Fault)
    (h : SameCustody s t) : SameCustody s (step o f t).2 := by
  obtain he | ⟨p, n, rfl, -, -⟩ | ⟨p, n, q, m, rfl, hpn, he⟩ | ⟨p, n, rfl, -⟩ := step_files o f t
  · simpa only [SameCustody, he] using h
  · exact absurd ho id
  · obtain ⟨a, b, rfl, rfl, rfl⟩ := ho
    constructor
    · intro k
      rw [he, ← h.1 k]
      simp
    · intro k
      rw [he, ← h.2 k]
      by_cases hk : k = n
      · subst hk
        exact ⟨fun _ => ⟨a, hpn⟩, fun _ => ⟨b, by simp⟩⟩
      · simp [hk]
  · exact absurd ho id

def Moved (source destination : Place) (M : List Name) (s t : Ledger) : Prop :=
  ∀ p n, (p, n) ∈ t.files ↔
    p = destination ∧ n ∈ M ∨ (p, n) ∈ s.files ∧ ¬ (p = source ∧ n ∈ M)

def SameFiles (s t : Ledger) : Prop := ∀ e, e ∈ s.files ↔ e ∈ t.files

def quiet (o : LedgerOp) (_ : Unit) (s : Ledger) : o.Answer × Ledger := step o none s

variable {source destination : Place}

theorem Moved.refl (s : Ledger) : Moved source destination [] s s := by
  simp [Moved]

theorem Moved.of_files_eq {M : List Name} (h : Moved source destination M s t)
    (he : u.files = t.files) : Moved source destination M s u := by
  simpa only [Moved, he] using h

theorem Moved.trans {A B : List Name} (hA : Moved source destination A s t)
    (hB : Moved source destination B t u) (hne : source ≠ destination) :
    Moved source destination (A ++ B) s u := by
  intro p n
  rw [hB p n, hA p n]
  simp only [List.mem_append]
  by_cases hs : p = source
  · subst hs
    simp only [hne, false_and, false_or, true_and]
    tauto
  · tauto

theorem Moved.later {n : Name} {names : List Name} (h : Moved source destination [n] s t)
    (hn : n ∉ names) :
    ∀ m ∈ names, ∀ p, (p, m) ∈ t.files ↔ (p, m) ∈ s.files := by
  intro m hm p
  have hne : m ≠ n := fun heq => hn (heq ▸ hm)
  rw [h p m, List.mem_singleton]
  simp [hne]

end Ledger

end PrismaBuild
