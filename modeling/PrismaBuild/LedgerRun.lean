import PrismaBuild.LedgerMint
import PrismaBuild.LedgerInterval

namespace PrismaBuild.ResourceLedger

open Prog Ledger

inductive LedgerCall
  | ensureCapacity (strict : Bool) (capacity : List (Name × Int))
  | retireFreeCapacity (capacity : List (Name × Int))
  | retireHeld (key : Name) (counts : List (Name × Int))
  | beginAcquire (handle : Name) (demand : List (Name × Int)) (a : Admission)
  | abandonAcquire (handle : Name)
  | move (c : MoveCall)
  | release (key : Name)
  | releaseKinds (key : Name) (kinds : List Name)
  | releaseCount (key : Name) (counts : List (Name × Int))
  | releaseExcept (key : Name) (keep : List Name)
  | sweepStaleAcquisitions (stale : Name → Bool)

namespace LedgerCall

/-- The ledger after one call. The process dies where the faults run out. -/
def run (faults : List (Option Fault)) (s : Ledger) : LedgerCall → Ledger
  | ensureCapacity strict capacity =>
    (play step faults (ResourceLedger.ensureCapacity strict capacity) s).2
  | retireFreeCapacity capacity =>
    (play step faults (ResourceLedger.retireFreeCapacity capacity) s).2
  | retireHeld key counts => (play step faults (ResourceLedger.retireHeld key counts) s).2
  | beginAcquire handle demand a =>
    (play step faults (ResourceLedger.beginAcquire handle demand a) s).2
  | abandonAcquire handle => (play step faults (ResourceLedger.abandonAcquire handle) s).2
  | move c => (play step faults c.prog s).2
  | release key => (play step faults (ResourceLedger.release key) s).2
  | releaseKinds key kinds => (play step faults (ResourceLedger.releaseKinds key kinds) s).2
  | releaseCount key counts => (play step faults (ResourceLedger.releaseCount key counts) s).2
  | releaseExcept key keep => (play step faults (ResourceLedger.releaseExcept key keep) s).2
  | sweepStaleAcquisitions stale =>
    (play step faults (ResourceLedger.sweepStaleAcquisitions stale) s).2

/-- A call that mints starts where every dead name it declares still has its marker. -/
def MarkersIntact (s : Ledger) : LedgerCall → Prop
  | ensureCapacity _ capacity => DeadMarked (declaredNames capacity) s
  | _ => True

/-- The calls that neither mint tokens nor delete any. -/
def Custody : LedgerCall → Prop
  | ensureCapacity _ _ | retireFreeCapacity _ => False
  | _ => True

theorem Custody.run_keeps {c : LedgerCall} (hc : c.Custody) {I : Ledger → Prop}
    (keep : ∀ o f t, o.Conserves → I t → I (step o f t).2) {s : Ledger} (h : I s)
    (faults : List (Option Fault)) :
    I (c.run faults s) := by
  have kept : ∀ {α : Type} {p : LedgerProg α}, Issues LedgerOp.Conserves p →
    I (play step faults p s).2 := by
    intro α p hp
    exact (hp.along keep h).play faults
  cases c with
  | ensureCapacity strict capacity => exact absurd hc id
  | retireFreeCapacity capacity => exact absurd hc id
  | retireHeld key counts =>
    exact kept (drains_conserves (by simp) (retireHeld_drains (.inr rfl) _ _))
  | beginAcquire handle demand a => exact kept (beginAcquire_conserves _ _ _)
  | abandonAcquire handle => exact kept (emptyIntoFree_conserves (by simp))
  | move c =>
    refine kept ((MoveCall.prog_withinHeld c).mono fun o ho => ?_)
    cases o with
    | create p n => exact absurd ho id
    | rename p n q m =>
      obtain ⟨a, b, rfl, rfl, rfl⟩ := ho
      exact Or.inl ⟨rfl, by simp, by simp⟩
    | unlink p n => exact absurd ho id
    | _ => trivial
  | release key => exact kept (emptyIntoFree_conserves (by simp))
  | releaseKinds key kinds =>
    exact kept (drains_conserves (by simp) (releasePicked_drains (.inl rfl) _ _))
  | releaseCount key counts =>
    exact kept (drains_conserves (by simp) (releaseCount_drains (.inl rfl) _ _))
  | releaseExcept key keep =>
    exact kept (drains_conserves (by simp) (releasePicked_drains (.inl rfl) _ _))
  | sweepStaleAcquisitions stale =>
    exact kept (Issues.andThen (Issues.perform trivial) fun _ => sweepHolders_conserves _ _ _)

theorem run_unique {c : LedgerCall} {s : Ledger} (hu : s.Unique) (hm : c.MarkersIntact s)
    (faults : List (Option Fault)) : (c.run faults s).Unique := by
  have custody : c.Custody → (c.run faults s).Unique := fun hc =>
    hc.run_keeps (fun o f t ho ht => ht.step (ho.harmless o) f) hu faults
  cases c with
  | ensureCapacity strict capacity =>
    exact ((ensureCapacity_along ⟨hu, hm⟩).play faults).1
  | retireFreeCapacity capacity =>
    exact ((retireFreeCapacity_keeps capacity).along (fun o f t ho ht => ht.step ho f) hu).play
      faults
  | _ => exact custody trivial

end LedgerCall

abbrev History := List (LedgerCall × List (Option Fault))

/-- One call after another, each with the faults it meets and possibly cut off by a death. -/
def runAll : History → Ledger → Ledger
  | [], s => s
  | (c, faults) :: rest, s => runAll rest (c.run faults s)

def MarkersKept : History → Ledger → Prop
  | [], _ => True
  | (c, faults) :: rest, s => c.MarkersIntact s ∧ MarkersKept rest (c.run faults s)

instance (names : List Name) (s : Ledger) : Decidable (DeadMarked names s) :=
  inferInstanceAs (Decidable (∀ n ∈ names, (.dead, n) ∈ s.files → (.minted, n) ∈ s.files))

instance (s : Ledger) : (c : LedgerCall) → Decidable (c.MarkersIntact s)
  | .ensureCapacity _ capacity =>
    inferInstanceAs (Decidable (DeadMarked (declaredNames capacity) s))
  | .retireFreeCapacity _ | .retireHeld _ _ | .beginAcquire _ _ _ | .abandonAcquire _ | .move _
  | .release _ | .releaseKinds _ _ | .releaseCount _ _ | .releaseExcept _ _
  | .sweepStaleAcquisitions _ => .isTrue trivial

instance decidableMarkersKept : (calls : History) → (s : Ledger) → Decidable (MarkersKept calls s)
  | [], _ => .isTrue trivial
  | (c, faults) :: rest, s =>
    have := decidableMarkersKept rest (c.run faults s)
    inferInstanceAs (Decidable (c.MarkersIntact s ∧ MarkersKept rest (c.run faults s)))

theorem runAll_unique {calls : History} {s : Ledger} (hu : s.Unique) (hm : MarkersKept calls s) :
    (runAll calls s).Unique := by
  induction calls generalizing s with
  | nil => exact hu
  | cons call rest ih => exact ih (LedgerCall.run_unique hu hm.1 call.2) hm.2

theorem empty_unique : Ledger.empty.Unique := by
  intro n _ p q _ _ hp
  simp [Ledger.empty] at hp

/-- From an empty ledger, whatever calls follow, fail and die, no token is in two places as long as,
whenever a capacity is declared, its dead tokens still have their minted markers. -/
theorem token_unique_of_markersKept (calls : History) (hm : MarkersKept calls Ledger.empty) :
    (runAll calls Ledger.empty).Unique :=
  runAll_unique empty_unique hm

/-- However calls that only move tokens follow on one another, fail and die, no token is lost, made
or in two places. -/
theorem custody_conserves (calls : History) (hc : ∀ call ∈ calls, call.1.Custody) (s : Ledger)
    (hu : s.Unique) (n : Name)
    (hn : isToken n = true) : (runAll calls s).Unique ∧ ((runAll calls s).Has n ↔ s.Has n) := by
  induction calls generalizing s with
  | nil => exact ⟨hu, Iff.rfl⟩
  | cons call rest ih =>
    obtain ⟨c, faults⟩ := call
    have hcall := hc _ (.head _)
    have hk : (c.run faults s).Unique ∧ ((c.run faults s).Has n ↔ s.Has n) := by
      refine hcall.run_keeps (I := fun t => t.Unique ∧ (t.Has n ↔ s.Has n)) (fun o f t ho ht => ?_)
        ⟨hu, Iff.rfl⟩ faults
      exact ⟨ht.1.step (ho.harmless o) f, (has_step ho f t hn).trans ht.2⟩
    obtain ⟨hr, hi⟩ := ih (fun call hm => hc call (.tail _ hm)) _ hk.1
    exact ⟨hr, hi.trans hk.2⟩

def twoHeld : Ledger := heldBy ['k'] [['m', '-', '0'], ['m', '-', '1']]

def cutRelease : History := [(.release ['k'], [none, none, none, none])]

/-- A release of two tokens that dies after moving the first of them: both are still there. -/
theorem cut_release_conserves : (.free, ['m', '-', '0']) ∈ (runAll cutRelease twoHeld).files ∧
    (.held ['k'], ['m', '-', '1']) ∈ (runAll cutRelease twoHeld).files ∧
    ∀ n ∈ [['m', '-', '0'], ['m', '-', '1']], (runAll cutRelease twoHeld).Has n := by
  refine ⟨by decide, by decide, fun n hn => ?_⟩
  have ht : isToken n = true := by
    rcases List.mem_pair.mp hn with rfl | rfl <;> rfl
  have hh : twoHeld.Has n := by
    rcases List.mem_pair.mp hn with rfl | rfl
    · exact ⟨.held ['k'], by simp, by decide⟩
    · exact ⟨.held ['k'], by simp, by decide⟩
  exact (custody_conserves _ (by simp [cutRelease, LedgerCall.Custody]) _ (unique_heldBy _ _) n
    ht).2.mpr hh

def plainAdmission : Admission where
  cpuBorrow := 0
  cpuSelectable := true
  cpuEligible := fun _ => true
  cpuBorrowing := false
  gpuProbe := false
  funded := false
  gpuRecord := false
  cpuRecord := false
  cpuOutcome := .complete
  pid := 1
  nonce := 1

/-- A declared token is minted, what `between` does happens, and then a worker acquires the
token, an egress files it dead and the capacity is declared again. -/
def retiredToken (between : History) : History :=
  let kind : Name := ['m']
  let handle : Name := acquiringPrefix ++ ['h']
  let whole : List (Option Fault) := List.replicate 20 none
  (.ensureCapacity true [(kind, 1)], whole) :: between ++
    [(.beginAcquire handle [(kind, 1)] plainAdmission, whole),
     (.move (.commitAcquire ['k'] handle fun _ => 0), whole),
     (.retireHeld ['k'] [(kind, 1)], whole),
     (.ensureCapacity true [(kind, 1)], whole)]

theorem retiredToken_unique : MarkersKept (retiredToken []) Ledger.empty ∧
    (runAll (retiredToken []) Ledger.empty).Unique :=
  ⟨by decide, token_unique_of_markersKept _ (by decide)⟩

/-- A retirement of the free token that dies after it removed the marker and before it removed
the token makes the later death of the token reversible: the name is in `minted/dead/` and in
`free/`. -/
theorem retiredToken_minted_again :
    ¬ (runAll (retiredToken [(.retireFreeCapacity [(['m'], 0)], List.replicate 3 none)])
      Ledger.empty).Unique := by
  intro hu
  have hd := hu (tokenName ['m'] 0) (by decide) .dead .free (by decide) (by decide)
    (by decide) (by decide)
  cases hd

end PrismaBuild.ResourceLedger
