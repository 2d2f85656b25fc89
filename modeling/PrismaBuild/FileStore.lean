import PrismaBuild.Program

namespace PrismaBuild

/-- An `OSError` that says nothing about which files exist. -/
inductive Fault
  | perm
  | io
  deriving DecidableEq

inductive Failure
  | noent
  | exist
  | notempty
  | fault (f : Fault)
  | contract (text : String)
  deriving DecidableEq

/-- Single operations on a tree of files with whole contents. `create` publishes a finished
file under a name that must be free and answers whether it won; `replace` renames a finished
file over whatever has the name. -/
inductive FileOp (P C : Type)
  | read (p : P)
  | create (p : P) (c : C)
  | replace (p : P) (c : C)
  | rename (p q : P)
  | link (p q : P)
  | unlink (p : P)
  | list (select : P → Bool)

abbrev FileOp.Answer {P C : Type} : FileOp P C → Type
  | read _ => Except Failure (Option C)
  | create _ _ => Except Failure Bool
  | list _ => Except Failure (List P)
  | _ => Except Failure Unit

abbrev FileStore (P C : Type) := AList fun _ : P => C

namespace FileStore

variable {P C : Type} [DecidableEq P]

/-- The effect of one operation; a fault is the operation failing and changing nothing. -/
def step : (o : FileOp P C) → Option Fault → FileStore P C → o.Answer × FileStore P C
  | .read _, some f, s => (.error (.fault f), s)
  | .read p, none, s => (.ok (s.lookup p), s)
  | .create _ _, some f, s => (.error (.fault f), s)
  | .create p c, none, s => if p ∈ s then (.ok false, s) else (.ok true, s.insert p c)
  | .replace _ _, some f, s => (.error (.fault f), s)
  | .replace p c, none, s => (.ok (), s.insert p c)
  | .rename _ _, some f, s => (.error (.fault f), s)
  | .rename p q, none, s =>
    match s.lookup p with
    | none => (.error .noent, s)
    | some c => (.ok (), (s.erase p).insert q c)
  | .link _ _, some f, s => (.error (.fault f), s)
  | .link p q, none, s =>
    match s.lookup p with
    | none => (.error .noent, s)
    | some c => if q ∈ s then (.error .exist, s) else (.ok (), s.insert q c)
  | .unlink _, some f, s => (.error (.fault f), s)
  | .unlink p, none, s => if p ∈ s then (.ok (), s.erase p) else (.error .noent, s)
  | .list _, some f, s => (.error (.fault f), s)
  | .list select, none, s => (.ok (s.keys.filter select), s)

theorem step_cases (o : FileOp P C) (f : Option Fault) (s : FileStore P C) : (step o f s).2 = s ∨
    (∃ p c, o = .create p c ∧ p ∉ s ∧ (step o f s).2 = s.insert p c) ∨
    (∃ p c, o = .replace p c ∧ (step o f s).2 = s.insert p c) ∨
    (∃ p q c, o = .rename p q ∧ s.lookup p = some c ∧ (step o f s).2 = (s.erase p).insert q c) ∨
    (∃ p q c, o = .link p q ∧ s.lookup p = some c ∧ q ∉ s ∧ (step o f s).2 = s.insert q c) ∨
    ∃ p, o = .unlink p ∧ (step o f s).2 = s.erase p := by
  cases f with
  | some f =>
    left
    cases o <;> rfl
  | none =>
    cases o with
    | read p => exact .inl rfl
    | list select => exact .inl rfl
    | create p c =>
      by_cases hp : p ∈ s
      · left; simp [step, hp]
      · right; left
        exact ⟨p, c, rfl, hp, by simp [step, hp]⟩
    | replace p c => exact .inr (.inr (.inl ⟨p, c, rfl, rfl⟩))
    | rename p q =>
      cases hp : s.lookup p with
      | none => left; simp [step, hp]
      | some c => exact .inr (.inr (.inr (.inl ⟨p, q, c, rfl, hp, by simp [step, hp]⟩)))
    | link p q =>
      cases hp : s.lookup p with
      | none => left; simp [step, hp]
      | some c =>
        by_cases hq : q ∈ s
        · left; simp [step, hp, hq]
        · exact .inr (.inr (.inr (.inr (.inl ⟨p, q, c, rfl, hp, hq, by simp [step, hp, hq]⟩))))
    | unlink p =>
      by_cases hp : p ∈ s
      · exact .inr (.inr (.inr (.inr (.inr ⟨p, rfl, by simp [step, hp]⟩))))
      · left; simp [step, hp]

theorem lookup_insert_eq (s : FileStore P C) (p q : P) (c : C) :
    (s.insert p c).lookup q = if q = p then some c else s.lookup q := by
  split
  next h =>
    rw [h]
    exact AList.lookup_insert s
  next h => exact AList.lookup_insert_ne h

theorem lookup_erase_eq (s : FileStore P C) (p q : P) : (s.erase p).lookup q = if q = p then
    none else s.lookup q := by
  split
  next h =>
    rw [h]
    exact AList.lookup_erase p s
  next h => exact AList.lookup_erase_ne h

end FileStore

end PrismaBuild
