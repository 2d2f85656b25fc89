import PrismaBuild.FileStore
import PrismaBuild.NameOrder

namespace PrismaBuild

/-- The directories of one reservation ledger that hold token files. -/
inductive Place
  | minted
  | dead
  | free
  | held (holder : Name)
  deriving DecidableEq

instance : LawfulBEq (Place × Name) := inferInstance

/-- One `ResourceLedger` on disk: which of its directories exist and which file names each
of them holds. A file lies in a directory that exists. -/
structure Ledger where
  dirs : List Place
  files : List (Place × Name)
  rooted : ∀ e ∈ files, e.1 ∈ dirs

inductive LedgerOp
  | mkdir (p : Place)
  | rmdir (p : Place)
  | isDir (p : Place)
  | statDir (p : Place)
  | exist (p : Place) (n : Name)
  | stat (p : Place) (n : Name)
  | scan (p : Place)
  | glob (p : Place)
  | holders
  | create (p : Place) (n : Name)
  | rename (p : Place) (n : Name) (q : Place) (m : Name)
  | unlink (p : Place) (n : Name)

abbrev LedgerOp.Answer : LedgerOp → Type
  | isDir _ | exist _ _ => Bool
  | statDir _ => Except Failure Bool
  | scan _ | glob _ | holders => Except Failure (List Name)
  | _ => Except Failure Unit

abbrev LedgerProg := Prog LedgerOp LedgerOp.Answer

namespace Ledger

def empty : Ledger := ⟨[], [], by simp⟩

def names (s : Ledger) (p : Place) : List Name :=
  sortNames ((s.files.filter (fun e => e.1 = p)).map Prod.snd)

def holderOf : Place → Option Name
  | .held h => some h
  | _ => none

def holderNames (s : Ledger) : List Name :=
  sortNames (s.dirs.filterMap holderOf)

variable {m n : Name} {p q : Place} {s : Ledger}

theorem mem_names : n ∈ s.names p ↔ (p, n) ∈ s.files := by
  simp [names]

theorem mem_holderNames {h : Name} : h ∈ s.holderNames ↔ Place.held h ∈ s.dirs := by
  simp only [holderNames, mem_sortNames, List.mem_filterMap]
  constructor
  · rintro ⟨p, hp, hh⟩
    cases p <;> simp_all [holderOf]
  · intro hp
    exact ⟨_, hp, rfl⟩

def withDir (s : Ledger) (p : Place) : Ledger :=
  { s with dirs := p :: s.dirs, rooted := fun e he => List.mem_cons_of_mem _ (s.rooted e he) }

def withoutDir (s : Ledger) (p : Place) (h : s.names p = []) : Ledger where
  dirs := s.dirs.filter (fun q => q ≠ p)
  files := s.files
  rooted := by
    intro e he
    have hne : e.1 ≠ p := by
      intro heq
      have hmem : e.2 ∈ s.names p := mem_names.mpr (heq ▸ he)
      simp [h] at hmem
    simp [s.rooted e he, hne]

def put (s : Ledger) (p : Place) (n : Name) (h : p ∈ s.dirs) : Ledger where
  dirs := s.dirs
  files := (p, n) :: s.files
  rooted := by
    intro e he
    rcases List.mem_cons.mp he with rfl | he
    · exact h
    · exact s.rooted e he

def drop (s : Ledger) (p : Place) (n : Name) : Ledger where
  dirs := s.dirs
  files := s.files.filter (fun e => e ≠ (p, n))
  rooted := fun e he => s.rooted e (List.mem_of_mem_filter he)

theorem mem_put {h : p ∈ s.dirs} : (q, m) ∈ (s.put p n h).files ↔ (q, m) = (p, n) ∨
    (q, m) ∈ s.files := by
  simp [put]

theorem mem_drop : (q, m) ∈ (s.drop p n).files ↔ (q, m) ∈ s.files ∧ (q, m) ≠ (p, n) := by
  simp only [drop, List.mem_filter, decide_eq_true_eq]

/-- The effect of one file operation. A fault is the operation failing and changing nothing:
`Path.is_dir` and `Path.exists` then answer `False`, and a glob swallows a permission error
as an empty match. -/
def step : (o : LedgerOp) → Option Fault → Ledger → o.Answer × Ledger
  | .mkdir _, some e, s => (.error (.fault e), s)
  | .mkdir p, none, s => (.ok (), s.withDir p)
  | .rmdir _, some e, s => (.error (.fault e), s)
  | .rmdir p, none, s =>
    if p ∉ s.dirs then (.error .noent, s)
    else if h : s.names p = [] then (.ok (), s.withoutDir p h)
    else (.error .notempty, s)
  | .isDir _, some _, s => (false, s)
  | .isDir p, none, s => (decide (p ∈ s.dirs), s)
  | .statDir _, some e, s => (.error (.fault e), s)
  | .statDir p, none, s => (.ok (decide (p ∈ s.dirs)), s)
  | .exist _ _, some _, s => (false, s)
  | .exist p n, none, s => (decide ((p, n) ∈ s.files), s)
  | .stat _ _, some e, s => (.error (.fault e), s)
  | .stat p n, none, s => (if (p, n) ∈ s.files then .ok () else .error .noent, s)
  | .scan _, some e, s => (.error (.fault e), s)
  | .scan p, none, s => (if p ∈ s.dirs then .ok (s.names p) else .error .noent, s)
  | .glob _, some .perm, s => (.ok [], s)
  | .glob _, some e, s => (.error (.fault e), s)
  | .glob p, none, s => (.ok (s.names p), s)
  | .holders, some e, s => (.error (.fault e), s)
  | .holders, none, s => (.ok s.holderNames, s)
  | .create _ _, some e, s => (.error (.fault e), s)
  | .create p n, none, s =>
    if h : p ∈ s.dirs then
      if (p, n) ∈ s.files then (.error .exist, s) else (.ok (), s.put p n h)
    else (.error .noent, s)
  | .rename _ _ _ _, some e, s => (.error (.fault e), s)
  | .rename p n q m, none, s =>
    if h : (p, n) ∈ s.files ∧ q ∈ s.dirs then (.ok (), (s.drop p n).put q m h.2)
    else (.error .noent, s)
  | .unlink _ _, some e, s => (.error (.fault e), s)
  | .unlink p n, none, s =>
    if (p, n) ∈ s.files then (.ok (), s.drop p n) else (.error .noent, s)

theorem step_files (o : LedgerOp) (f : Option Fault) (s : Ledger) : (step o f s).2.files = s.files ∨
    (∃ p n, o = .create p n ∧ (p, n) ∉ s.files ∧ (step o f s).2.files = (p, n) :: s.files) ∨
    (∃ p n q m, o = .rename p n q m ∧ (p, n) ∈ s.files ∧
    (step o f s).2.files = (q, m) :: s.files.filter (fun e => e ≠ (p, n))) ∨
    (∃ p n, o = .unlink p n ∧ (step o f s).2.files = s.files.filter (fun e => e ≠ (p, n))) := by
  cases f with
  | some f =>
    left
    cases o <;> cases f <;> rfl
  | none =>
    cases o with
    | create p n =>
      by_cases hp : p ∈ s.dirs
      · by_cases hn : (p, n) ∈ s.files
        · left; simp [step, hp, hn]
        · right; left
          exact ⟨p, n, rfl, hn, by simp [step, hp, hn, put]⟩
      · left; simp [step, hp]
    | rename p n q m =>
      by_cases h : (p, n) ∈ s.files ∧ q ∈ s.dirs
      · right; right; left
        exact ⟨p, n, q, m, rfl, h.1, by simp [step, h, put, drop]⟩
      · left; simp [step, h]
    | unlink p n =>
      by_cases hn : (p, n) ∈ s.files
      · right; right; right
        exact ⟨p, n, rfl, by simp [step, hn, drop]⟩
      · left; simp [step, hn]
    | rmdir p =>
      left
      by_cases hp : p ∈ s.dirs
      · by_cases hn : s.names p = [] <;> simp [step, hp, hn, withoutDir]
      · simp [step, hp]
    | _ => left; rfl

end Ledger

end PrismaBuild
