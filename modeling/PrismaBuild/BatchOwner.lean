import PrismaBuild.BatchQuota

namespace PrismaBuild.Batch

variable {t : Template} {i : Instance} {s : Ledger} {w : Surroundings}

def Answer.isReserved : Answer → Bool
  | .reserved _ _ _ _ => true
  | _ => false

/-- Surroundings in which a prewrite can be ended: everything can be read, no funding intent names
it and nothing is at its planned paths. -/
structure Endable (t : Template) (i : Instance) (w : Surroundings) (id : Name) (p : Prewrite) :
    Prop where
  bound : w.bound = true
  commitments : w.commitments = none
  prewrites : w.prewrites = none
  census : ∃ intents, w.census = .ok (intents, false) ∧ ∀ r ∈ intents, ¬ r.namesPrewrite t i id p
  absent : ∀ path ∈ p.paths, w.disk path = .absent
  unlinking : w.unlinking = none

/-- Every outstanding prewrite can be aborted where it can be ended. -/
def ReservationsEnd (t : Template) (i : Instance) (s : Ledger) : Prop :=
  ∀ id p w, s.prewrites.lookup id = some p → Endable t i w id p →
    (abort t i s w id).1 = .aborted id true ∧ (abort t i s w id).2.prewrites.lookup id = none

/-- A reservation that is granted names no path of a committed batch whose origin is not reclaimed.
-/
def SparesOrigins [ManifestDigest] (t : Template) (i : Instance) (s : Ledger) (e : Event) : Prop :=
  match e.call with
  | .reserve _ _ _ paths =>
    (perform t i s e).1.isReserved = true → ∀ path ∈ paths, ∀ owner entry,
      s.batches.lookup owner = some entry →
      entry.originReclaimed = false → path ∉ entry.paths
  | _ => True

/-- A reservation that is granted names no such path of another batch. -/
def SparesOthers [ManifestDigest] (t : Template) (i : Instance) (s : Ledger) (e : Event) : Prop :=
  match e.call with
  | .reserve id _ _ paths =>
    (perform t i s e).1.isReserved = true → ∀ path ∈ paths, ∀ owner entry, owner ≠ id →
      s.batches.lookup owner = some entry → entry.originReclaimed = false → path ∉ entry.paths
  | _ => True

def Named (s : Ledger) : Prop := ∀ id p, s.prewrites.lookup id = some p → id ≠ [] ∧ '/' ∉ id

section

theorem requireAbsent_ok {present : String} {paths : List Name}
    (h : ∀ path ∈ paths, w.disk path = .absent) :
    requireAbsent w present paths = .ok () := by
  induction paths with
  | nil => rfl
  | cons path rest ih =>
    unfold requireAbsent
    rw [h path (.head _)]
    exact ih fun other ho => h other (.tail _ ho)

variable {id : Name}

theorem authorizeAbort_of_endable {p : Prewrite} (hn : id ≠ [] ∧ '/' ∉ id)
    (hfr : s.batches.lookup id = none) (hp : s.prewrites.lookup id = some p)
    (hw : Endable t i w id p) :
    authorizeAbort t i s w id = .ok true := by
  obtain ⟨intents, hc, hi⟩ := hw.census
  have hf : (intents.find? fun r => decide (r.namesPrewrite t i id p)) = none :=
    List.find?_eq_none.mpr fun r hr => by simpa using hi r hr
  unfold authorizeAbort outputName
  rw [demand_of hw.bound, demand_of hn, hw.commitments, demand_of hfr, hw.prewrites, hp]
  simp only [bind, Except.bind, hc]
  rw [hf]
  rw [requireAbsent_ok hw.absent, hw.unlinking]
  rfl

def clearWorld : Surroundings :=
  { bound := true, contained := fun _ => true, locks := none, liveOwner := none, commitments := none, prewrites := none,
    batchRecord := none, foreignOwner := .ok none, disk := fun _ => .absent, census :=
      .ok ([], false),
    publishing := .works, filing := none, unlinking := none, death := none }

theorem clearWorld_endable (t : Template) (i : Instance) (id : Name) (p : Prewrite) :
    Endable t i clearWorld id p :=
  ⟨rfl, rfl, rfl, ⟨[], rfl, nofun⟩, fun _ _ => rfl, rfl⟩

theorem abort_committed {e : Entry} (h : s.batches.lookup id = some e) :
    (abort t i s w id).1 ≠ .aborted id true := by
  have hs : ∃ stop, authorizeAbort t i s w id = .error stop := by
    cases ha : authorizeAbort t i s w id with
    | error stop => exact ⟨stop, rfl⟩
    | ok b =>
      obtain ⟨_, -, ha⟩ := bind_ok.mp ha
      obtain ⟨_, -, ha⟩ := bind_ok.mp ha
      obtain ⟨_, -, ha⟩ := bind_ok.mp ha
      obtain ⟨_, hn, -⟩ := bind_ok.mp ha
      rw [demand_ok.mp hn] at h
      cases h
  obtain ⟨stop, hs⟩ := hs
  unfold abort
  rw [hs]
  nofun

theorem abort_iff_uncommitted {p : Prewrite} (hn : id ≠ [] ∧ '/' ∉ id)
    (hp : s.prewrites.lookup id = some p)
    (hw : Endable t i w id p) :
    (abort t i s w id).1 = .aborted id true ∧ (abort t i s w id).2.prewrites.lookup id = none ↔
      s.batches.lookup id = none := by
  constructor
  · intro ha
    cases he : s.batches.lookup id with
    | none => rfl
    | some e => exact absurd ha.1 (abort_committed he)
  · intro hf
    unfold abort
    rw [authorizeAbort_of_endable hn hf hp hw]
    exact ⟨rfl, AList.lookup_erase _ _⟩

end

section

theorem reserve_cases (t : Template) (i : Instance) (s : Ledger) (w : Surroundings) (id tier : Name)
    (given : AList fun _ : Name => Int) (paths : List Name) :
    (∃ p, Authorised t s id paths p ∧ (reserve t i s w id tier given paths).1.isReserved = true ∧
        ((∃ q, s.prewrites.lookup id = some q) ∧ (reserve t i s w id tier given paths).2 = s ∨
        s.prewrites.lookup id = none ∧
            (reserve t i s w id tier given paths).2 =
            { s with prewrites := s.prewrites.insert id p })) ∨
      (reserve t i s w id tier given paths).1.isReserved = false ∧
        (reserve t i s w id tier given paths).2 = s := by
  unfold reserve
  split
  next => exact .inr ⟨rfl, rfl⟩
  next p hp =>
    have ha := authorizeReserve_ok hp
    unfold publishPrewrite
    cases hl : s.prewrites.lookup id with
    | none =>
      cases w.publishing with
      | works => exact .inl ⟨p, ha, rfl, .inr ⟨rfl, rfl⟩⟩
      | raises message landed =>
        cases landed with
        | false =>
          dsimp only
          rw [hl]
          exact .inr ⟨rfl, rfl⟩
        | true =>
          dsimp only
          have hs : sameReservation ((s.prewrites.insert id p).lookup id) p = true := by
            rw [AList.lookup_insert]
            simp [sameReservation]
          rw [if_pos hs]
          exact .inl ⟨p, ha, rfl, .inr ⟨rfl, rfl⟩⟩
    | some q =>
      cases w.publishing with
      | works =>
        dsimp only
        by_cases hq : q = p
        · rw [if_pos hq]
          exact .inl ⟨p, ha, rfl, .inl ⟨⟨q, rfl⟩, rfl⟩⟩
        · rw [if_neg hq]
          dsimp only
          split
          · exact .inl ⟨p, ha, rfl, .inl ⟨⟨q, rfl⟩, rfl⟩⟩
          · exact .inr ⟨rfl, rfl⟩
      | raises message landed =>
        dsimp only
        split
        · exact .inl ⟨p, ha, rfl, .inl ⟨⟨q, rfl⟩, rfl⟩⟩
        · exact .inr ⟨rfl, rfl⟩

end

section

theorem Named.change {s' : Ledger} (hs : Named s) (h : Change t s s') : Named s' := by
  intro id p hp
  cases h with
  | @reserve new q name _ _ _ =>
    by_cases hid : id = new
    · rw [hid]
      exact name
    · rw [AList.lookup_insert_ne hid] at hp
      exact hs id p hp
  | record _ _ => exact hs id p hp
  | commit _ _ _ _ => exact hs id p hp
  | unlink gone =>
    by_cases hid : id = gone
    · rw [hid, Ledger.unlinkPrewrite, AList.lookup_erase] at hp
      cases hp
    · rw [Ledger.unlinkPrewrite, AList.lookup_erase_ne hid] at hp
      exact hs id p hp
  | reclaim _ => exact hs id p hp

variable [ManifestDigest]

theorem sparesOthers (t : Template) (i : Instance) (s : Ledger) (e : Event) :
    SparesOthers t i s e := by
  obtain ⟨call, w⟩ := e
  cases call with
  | reserve id tier given paths =>
    intro ha path hpa owner entry hne he hl hn
    rcases reserve_cases t i s w id tier given paths with ⟨p, hau, -, -⟩ | ⟨hr, -⟩
    · have hp : path ∈ p.paths := by
        rw [hau.planned, mem_sortNames]
        exact hpa
      exact not_owns_of_ownWriteOwner hau.free hne hp (.batch he hl hn)
    · have hb := ha.symm.trans hr
      cases hb
  | commitOrigin descriptors id landed lifetime => trivial
  | abort id => trivial
  | reclaim id => trivial

end

theorem named_admission : Named Ledger.admission := by
  intro id p hp
  cases hp

section

variable [ManifestDigest]

theorem named_batchRun (t : Template) (i : Instance) (events : List Event) :
    Named (batchRun t i events) :=
  runTrace_keeps Named (fun _ e hs => next_keeps (fun _ _ => Named.change) i hs e) named_admission
    events

/-- In every run a granted reservation names no path of another committed origin, and a reservation
that can be ended is ended by an abort exactly when its id is not committed. -/
theorem othersSpared_and_abort_iff (t : Template) (i : Instance) (events : List Event) :
    Throughout (next t i) (SparesOthers t i) Ledger.admission events ∧
      ∀ id p w, (batchRun t i events).prewrites.lookup id = some p → Endable t i w id p →
        ((abort t i (batchRun t i events) w id).1 = .aborted id true ∧
            (abort t i (batchRun t i events) w id).2.prewrites.lookup id = none ↔
          (batchRun t i events).batches.lookup id = none) := by
  constructor
  · exact (Throughout.of_forall fun _ _ => trivial).mono fun s e _ => sparesOthers t i s e
  · intro id p w hp hw
    exact abort_iff_uncommitted (named_batchRun t i events id p hp) hp hw

end

section

def demoInstance : Instance := ⟨"owner", ⟨"nonce", "scope"⟩⟩

def demoTemplate : Template :=
  { sha256 := "template"
    permittedTiers := ["ssd"]
    slots := AList.insert "out".toList .payload ∅
    maxima := ⟨8, 0, 0⟩
    writeOnly := true }

def demoDescriptor : Descriptor :=
  { slot := "out", artifactClass := .payload, path := "/out/part", bytes := 4, sha256 := some (List.replicate 64 '0')
    producerGeneration := "g", ownerActionKey := "owner", ownerAttempt := ⟨"nonce", "scope"⟩ }

def demoCeilings : AList fun _ : Name => Int :=
  AList.insert "payload".toList 4 (AList.insert "checkpoint".toList 0
    (AList.insert "temp".toList 0 ∅))

def demoReserve (id : Name) : Event :=
    ⟨.reserve id "ssd" demoCeilings ["/out/part".toList], clearWorld⟩

def demoCommit : Event :=
  ⟨.commitOrigin [demoDescriptor] "b" none .retain,
    { clearWorld with disk := fun _ => .present 4 7 }⟩

variable [ManifestDigest]

def demoEntry : Entry := originEntry
    (originRecord [demoDescriptor] "ssd" [("/out/part", 7)] .retain)

end

/-- A batch is reserved and committed, and its id is reserved again: the reservation is granted for
the committed path, and no abort ends it once the file is gone. -/
theorem reserve_committed_granted : ∃ _ : ManifestDigest,
    ¬ Throughout (next demoTemplate demoInstance) (SparesOrigins demoTemplate demoInstance)
        Ledger.admission [demoReserve "b", demoCommit, demoReserve "b"] ∧
      ¬ ReservationsEnd demoTemplate demoInstance
        (batchRun demoTemplate demoInstance [demoReserve "b", demoCommit, demoReserve "b"]) := by
  let digest : ManifestDigest := ⟨fun _ => []⟩
  refine ⟨digest, ?_⟩
  have he : (batchRun demoTemplate demoInstance [demoReserve "b", demoCommit]).batches.lookup
    "b".toList =
      some demoEntry := by rfl
  constructor
  · intro hs
    obtain ⟨-, -, hag, -⟩ := hs
    have hg : (perform demoTemplate demoInstance
      (batchRun demoTemplate demoInstance [demoReserve "b", demoCommit])
        (demoReserve "b")).1.isReserved = true := by rfl
    have hp : "/out/part".toList ∈ demoEntry.paths := .head _
    exact hag hg _ (.head _) _ demoEntry he rfl hp
  · intro hen
    have hf : (batchRun demoTemplate demoInstance [demoReserve "b", demoCommit,
      demoReserve "b"]).prewrites.lookup
        "b".toList = some ⟨"ssd", ⟨4, 0, 0⟩, ["/out/part".toList], "owner",
        ⟨"nonce", "scope"⟩⟩ := by rfl
    have hst : (batchRun demoTemplate demoInstance [demoReserve "b", demoCommit,
      demoReserve "b"]).batches.lookup
        "b".toList = some demoEntry := by rfl
    obtain ⟨ha, -⟩ := hen _ _ clearWorld hf (clearWorld_endable _ _ _ _)
    exact abort_committed hst ha

theorem rival_spared_and_aborted : ∃ _ : ManifestDigest,
    Throughout (next demoTemplate demoInstance) (SparesOthers demoTemplate demoInstance)
        Ledger.admission [demoReserve "b", demoCommit, demoReserve "c"] ∧
      (abort demoTemplate demoInstance (batchRun demoTemplate demoInstance [demoReserve "b"])
        clearWorld "b".toList).1 = .aborted "b".toList true := by
  let digest : ManifestDigest := ⟨fun _ => []⟩
  refine ⟨digest, (othersSpared_and_abort_iff demoTemplate demoInstance _).1, ?_⟩
  have hp : (batchRun demoTemplate demoInstance [demoReserve "b"]).prewrites.lookup "b".toList =
      some ⟨"ssd", ⟨4, 0, 0⟩, ["/out/part".toList], "owner", ⟨"nonce", "scope"⟩⟩ := by rfl
  exact (((othersSpared_and_abort_iff demoTemplate demoInstance [demoReserve "b"]).2 _ _ clearWorld
    hp
    (clearWorld_endable _ _ _ _)).mpr rfl).1

end PrismaBuild.Batch
