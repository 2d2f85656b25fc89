import PrismaBuild.Window

namespace PrismaBuild.Residency

open Contract List Option

structure AdvanceEntry where
  (phase moverActionKey egressActionKey : Name)
  stageGib : Nat
  chunkIndex : Option Nat
  (startBytes endBytes : Nat)
  deriving DecidableEq

structure PriorEntry where
  (moverActionKey egressActionKey : Name)
  stageGib : Nat
  deriving DecidableEq

def Leg.egressKey (leg : Leg) : Except WindowError Name :=
  match leg.egressRow with
  | some row => .ok row.actionKey.1
  | none => .error (.undefinedLeg leg.phase)

def Leg.advanceEntry (leg : Leg) : Except WindowError AdvanceEntry := do
  let egress ← leg.egressKey
  pure ⟨leg.phase, leg.key, egress, leg.stageGib, leg.chunkIndex, leg.startBytes, leg.endBytes⟩

def Leg.priorEntry (leg : Leg) : Except WindowError PriorEntry := do
  let egress ← leg.egressKey
  pure ⟨leg.key, egress, leg.stageGib⟩

def entryList : List Leg → Except WindowError (List AdvanceEntry)
  | [] => .ok []
  | leg :: rest => do
    let entry ← leg.advanceEntry
    let entries ← entryList rest
    pure (entry :: entries)

def advancePrior : List Leg → Except WindowError (List PriorEntry)
  | [] => .ok []
  | leg :: rest => do
    let entry ← leg.priorEntry
    let entries ← advancePrior rest
    pure (entry :: entries)

section

variable {legs : List Leg} {leg : Leg}

theorem exists_egressKey_iff : (∃ key, leg.egressKey = .ok key) ↔ leg.egressRow.isSome := by
  unfold Leg.egressKey
  cases leg.egressRow with
  | none => simp
  | some row => simp

/-- What follows is defined or not whatever is passed to it. -/
theorem exists_bind_iff {ε α β : Type} {x : Except ε α} {f : α → Except ε β} {D : Prop}
    (h : ∀ a, x = .ok a → ((∃ b, f a = .ok b) ↔ D)) : (∃ b, (x >>= f) = .ok b) ↔ (∃ a, x = .ok a) ∧
    D := by
  constructor
  · rintro ⟨b, hb⟩
    obtain ⟨a, ha, hb⟩ := bind_ok.mp hb
    exact ⟨⟨a, ha⟩, (h a ha).mp ⟨b, hb⟩⟩
  · rintro ⟨⟨a, ha⟩, hd⟩
    obtain ⟨b, hb⟩ := (h a ha).mpr hd
    exact ⟨b, bind_ok.mpr ⟨a, ha, hb⟩⟩

theorem exists_bind_pure_iff {ε α β : Type} {x : Except ε α} {f : α → β} :
    (∃ b, (x >>= fun a => pure (f a)) = .ok b) ↔ ∃ a, x = .ok a :=
  (exists_bind_iff fun a _ => iff_of_true ⟨f a, rfl⟩ trivial).trans (and_iff_left trivial)

theorem exists_entry_iff {α : Type} {f : Name → α} :
    (∃ entry, (leg.egressKey >>= fun egress => pure (f egress)) = .ok entry) ↔
    leg.egressRow.isSome :=
  exists_bind_pure_iff.trans exists_egressKey_iff

theorem exists_entryList_iff : (∃ entries, entryList legs = .ok entries) ↔
    ∀ leg ∈ legs, leg.egressRow.isSome := by
  induction legs with
  | nil => exact iff_of_true ⟨[], rfl⟩ (forall_mem_nil _)
  | cons leg legs ih =>
    rw [entryList, forall_mem_cons, ← ih, ← exists_entry_iff]
    exact exists_bind_iff fun entry _ => exists_bind_pure_iff

theorem exists_advancePrior_iff : (∃ entries, advancePrior legs = .ok entries) ↔
    ∀ leg ∈ legs, leg.egressRow.isSome := by
  induction legs with
  | nil => exact iff_of_true ⟨[], rfl⟩ (forall_mem_nil _)
  | cons leg legs ih =>
    rw [advancePrior, forall_mem_cons, ← ih, ← exists_entry_iff]
    exact exists_bind_iff fun entry _ => exists_bind_pure_iff

end

structure Fence where
  target : Option AdvanceEntry
  prior : List PriorEntry

structure Advance where
  currentMinGib : Nat
  nextMinGib : Option Nat
  final : Bool
  (readingPhase nextPhase nextMoverActionKey : Option Name)
  nextChunkIndex : Option Nat
  leadMoverActionKey : Option Name
  waiting : List AdvanceEntry
  prior : List PriorEntry
  queued : List AdvanceEntry
  queuedPrior : List PriorEntry
  fence : Fence
  prelaunchLegs : Option (List AdvanceEntry)
  prelaunchGib : Option Nat

namespace ConsumerWindow

variable (w : ConsumerWindow)

/-- The horizon as `advance` reads it: the phase its progress names is never past it. -/
def within (leg : Leg) : Bool :=
  some leg.phase = w.currentName ∨ ∀ h ∈ w.leg.horizonEndBytes, (leg.startBytes : Int) < h

def streamLegs (legs : List Leg) : List Leg := legs.filter (·.phase ∉ w.plan.declared)

def waiting (legs : List Leg) : List Leg :=
  (w.streamLegs legs).filter fun leg => leg.phase ∈ w.aheadNames ∧ leg.key ∉ w.leg.published ∧
    w.within leg

def queued (legs : List Leg) : List Leg :=
  (w.streamLegs legs).filter fun leg => leg.phase ∈ w.aheadNames ∧ leg.key ∈ w.leg.rowed

def frontier (stream : List Leg) : Option Nat :=
  stream.findIdx? fun leg => leg.phase ∈ w.aheadNames ∧ leg.key ∉ w.leg.staged

def fence (stream : List Leg) : Except WindowError Fence :=
  match w.frontier stream with
  | none => .ok ⟨none, []⟩
  | some index =>
    match stream[index + 1]? with
    | none => .ok ⟨none, []⟩
    | some candidate =>
      if candidate.phase ∈ w.aheadNames ∧ w.within candidate then do
        let target ← candidate.advanceEntry
        let prior ← advancePrior (stream.take index)
        pure ⟨some target, prior⟩
      else .ok ⟨none, []⟩

def prelaunch (legs : List Leg) : Except WindowError (Option (List AdvanceEntry)) :=
  if w.plan.declared = [] then .ok none
  else (entryList (legs.filter (·.phase ∈ w.plan.declared))).map some

def prelaunchGib (legs : List Leg) : Option Nat :=
  if w.plan.declared = [] then none else some (gibOf (legs.filter (·.phase ∈ w.plan.declared)))

def before (stream : List Leg) : List Leg → List Leg
  | [] => []
  | first :: _ => stream.takeWhile (·.key ≠ first.key)

def advance : Except WindowError Advance := do
  let legs ← w.plan.legs w.leg.moverRole
  let stream := w.streamLegs legs
  let queued ← entryList (w.queued legs)
  let fence ← w.fence stream
  let prelaunch ← w.prelaunch legs
  match w.waiting legs with
  | [] =>
    pure {
      currentMinGib := 0, nextMinGib := none, final := true, readingPhase :=
        w.currentName, nextPhase := none,
      nextMoverActionKey := none, nextChunkIndex := none, leadMoverActionKey := none, waiting :=
        [], prior := [],
      queued := queued, queuedPrior := [], fence := fence, prelaunchLegs := prelaunch,
      prelaunchGib := w.prelaunchGib legs }
  | first :: rest => do
    let waiting ← entryList (first :: rest)
    let prior ← advancePrior (before stream (first :: rest))
    let queuedPrior ← advancePrior (before stream (w.queued legs))
    pure {
      currentMinGib := first.stageGib, nextMinGib := rest.head?.map Leg.stageGib, final :=
        rest.isEmpty,
      readingPhase := w.currentName, nextPhase := rest.head?.map Leg.phase,
      nextMoverActionKey := rest.head?.map Leg.key, nextChunkIndex :=
        rest.head?.bind Leg.chunkIndex,
      leadMoverActionKey := stream.head?.map Leg.key, waiting := waiting, prior := prior, queued :=
        queued,
      queuedPrior := queuedPrior, fence := fence, prelaunchLegs := prelaunch, prelaunchGib :=
        w.prelaunchGib legs }

/-- The legs that the fence lists: its target and those before the frontier. -/
def fenced (stream : List Leg) : List Leg :=
  match w.frontier stream with
  | none => []
  | some index =>
    match stream[index + 1]? with
    | none => []
    | some candidate =>
      if candidate.phase ∈ w.aheadNames ∧ w.within candidate then candidate :: stream.take index
        else []

/-- Every leg that `advance` lists with its egress row. -/
def listed (legs : List Leg) : List Leg :=
  w.queued legs ++ (w.fenced (w.streamLegs legs) ++ (legs.filter (·.phase ∈ w.plan.declared) ++
    match w.waiting legs with
    | [] => []
    | first :: rest => first :: rest ++
        (before (w.streamLegs legs) (first :: rest) ++ before (w.streamLegs legs) (w.queued legs))))

variable {w} {legs : List Leg}

theorem exists_fence_iff {stream : List Leg} :
    (∃ f, w.fence stream = .ok f) ↔ ∀ leg ∈ w.fenced stream, leg.egressRow.isSome := by
  have hn : (∃ f : Fence, Except.ok (ε := WindowError) ⟨none, []⟩ = .ok f) ↔
      ∀ leg ∈ ([] : List Leg), leg.egressRow.isSome := iff_of_true ⟨_, rfl⟩ (forall_mem_nil _)
  unfold fence fenced
  split
  next => exact hn
  next index _ =>
    split
    next => exact hn
    next candidate _ =>
      split
      · rw [forall_mem_cons, ← exists_advancePrior_iff, ← exists_entry_iff]
        exact exists_bind_iff fun target _ => exists_bind_pure_iff
      · exact hn

theorem exists_prelaunch_iff : (∃ entries, w.prelaunch legs = .ok entries) ↔
    ∀ leg ∈ legs.filter (·.phase ∈ w.plan.declared), leg.egressRow.isSome := by
  unfold prelaunch
  split
  next hd =>
    refine iff_of_true ⟨_, rfl⟩ fun leg hl => ?_
    have hin := of_decide_eq_true (mem_filter.mp hl).2
    rw [hd] at hin
    cases hin
  next =>
    rw [← exists_entryList_iff]
    cases entryList (legs.filter (·.phase ∈ w.plan.declared)) with
    | error e => simp [Except.map]
    | ok entries => simp [Except.map]

/-- `advance` answers exactly when every leg that it lists has its egress row. -/
theorem exists_advance_iff (hl : w.plan.legs w.leg.moverRole = .ok legs) :
    (∃ a, w.advance = .ok a) ↔ ∀ leg ∈ w.listed legs, leg.egressRow.isSome := by
  have hb : ∀ {α β : Type} (value : α) (next : α → Except WindowError β),
    (Except.ok value >>= next) = next value :=
    fun _ _ => rfl
  unfold advance listed
  rw [hl, hb]
  have hq : (∃ entries, entryList (w.queued legs) = .ok entries) ↔
      ∀ leg ∈ w.queued legs, leg.egressRow.isSome := exists_entryList_iff
  simp only [forall_mem_append, ← hq, ← exists_fence_iff, ← exists_prelaunch_iff]
  refine exists_bind_iff fun queued _ => exists_bind_iff fun fence _ =>
    exists_bind_iff fun prelaunch _ => ?_
  cases w.waiting legs with
  | nil => exact iff_of_true ⟨_, rfl⟩ (forall_mem_nil _)
  | cons first rest =>
    rw [forall_mem_append, forall_mem_append, ← exists_entryList_iff, ← exists_advancePrior_iff,
      ← exists_advancePrior_iff]
    exact exists_bind_iff fun waiting _ => exists_bind_iff fun prior _ => exists_bind_pure_iff

theorem mem_listed_of_declared {leg : Leg} (hl : leg ∈ legs) (hd : leg.phase ∈ w.plan.declared) :
    leg ∈ w.listed legs :=
  mem_append_right _ (mem_append_right _
    (mem_append_left _ (mem_filter.mpr ⟨hl, decide_eq_true hd⟩)))

theorem mem_listed_of_waiting {leg : Leg} (hl : leg ∈ w.waiting legs) : leg ∈ w.listed legs := by
  refine mem_append_right _ (mem_append_right _ (mem_append_right _ ?_))
  split
  next hw =>
    rw [hw] at hl
    cases hl
  next first rest hw =>
    rw [hw] at hl
    exact mem_append_left _ hl

theorem listed_subset : ∀ leg ∈ w.listed legs, leg ∈ legs := by
  have hs : ∀ leg ∈ w.streamLegs legs, leg ∈ legs := fun leg => mem_of_mem_filter
  have hb : ∀ list, ∀ leg ∈ before (w.streamLegs legs) list, leg ∈ legs := by
    intro list leg hle
    cases list with
    | nil => cases hle
    | cons first rest => exact hs leg ((takeWhile_sublist _).subset hle)
  unfold listed
  simp only [forall_mem_append]
  refine ⟨fun leg hle => hs leg (mem_of_mem_filter hle), fun leg hle => ?_, fun leg =>
    mem_of_mem_filter, ?_⟩
  · unfold fenced at hle
    repeat' split at hle
    any_goals cases hle
    next hc _ => exact hs leg (mem_of_getElem? hc)
    next hin => exact hs leg (mem_of_mem_take hin)
  · split
    next => exact forall_mem_nil _
    next first rest hw =>
      simp only [forall_mem_append]
      refine ⟨fun leg hle => hs leg (mem_of_mem_filter (hw ▸ hle)), hb _, hb _⟩

end ConsumerWindow

end PrismaBuild.Residency
