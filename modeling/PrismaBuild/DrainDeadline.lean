import PrismaBuild.Drain

namespace PrismaBuild.Drain

open Option

/-- How an assessment goes on after it was prepared: it fails at once, or it begins, adds holders,
and ends or fails. -/
inductive Observation
  | failed (error : DrainError)
  | observed (available : List (Name × Int)) (gpuSample : Option GpuSample)
    (holders : List (Bound × List (Name × Int)))
      (failure : Option DrainError)

/-- One assessment, with what else the stored record has then, and whether its notes get stored. -/
structure Assessment where
  question : DrainQuestion
  now : Rat
  passes : Int
  firstUnix : Option Rat
  clocks : Clocks
  observation : Observation
  stored : Bool

def addHolders (p : PendingDrain) (holders : List (Bound × List (Name × Int))) :
    Except Outcome PendingDrain :=
  holders.foldlM (fun p holder => addHolder p holder.1 holder.2) p

section

variable (host : Name) (generation : Option Name)

def Assessment.prepare (a : Assessment) (episodes : List (Name × Episode)) : PreparedDrain :=
  prepareDrain { a.question with measurementGeneration := generation } ⟨episodes, a.passes,
    a.firstUnix, a.clocks⟩ a.now host

def observe (prepared : PreparedDrain) : Observation → Outcome
  | .failed error => failedDrain { prepared := prepared } error
  | .observed available gpuSample holders failure =>
    match beginDrain prepared available gpuSample >>= fun p => addHolders p holders with
    | .error outcome => outcome
    | .ok p =>
      match failure with
      | none => finishDrain p
      | some error => failedDrain p error

def Assessment.outcome (a : Assessment) (episodes : List (Name × Episode)) : Outcome :=
  observe (a.prepare host generation episodes) a.observation

def Outcome.notes : Outcome → Option DrainNotes
  | .assessment _ notes => notes
  | .failure _ notes => notes

def Outcome.withhold : Outcome → Bool
  | .assessment verdict _ => verdict.withhold
  | .failure _ _ => false

def store (episodes : List (Name × Episode)) (a : Assessment) : List (Name × Episode) :=
  if a.stored then measurementNoteFields episodes (a.outcome host generation episodes).notes else
    episodes

def storeAll (episodes : List (Name × Episode)) (assessments : List Assessment) :
    List (Name × Episode) :=
  assessments.foldl (store host generation) episodes

def storedAt (episodes : List (Name × Episode)) (field : NoteField) : Option Rat :=
  (episodeClocks episodes host generation field).stamp

end

structure Fair (p : PendingDrain) : Prop where
  untilNote : ∀ ending, p.prepared.stamp .measurementUntilUnix = some ending →
    ∀ value, p.notes.lookup .measurementUntilUnix = some value → value = some ending
  ceilingNote : ∀ ceiling, p.prepared.stamp .unmeasuredUntilUnix = some ceiling →
    p.notes.lookup .unmeasuredUntilUnix = none
  withheld : p.prepared.measurementWait = true → p.verdict.withhold = true →
    ∀ ending, p.prepared.stamp .measurementUntilUnix = some ending → p.prepared.now < ending
  ceiling : ∀ ceiling, p.prepared.stamp .unmeasuredUntilUnix = some ceiling →
    ∀ value, p.unmeasuredUntil = some value → value = ceiling

structure Sound (prepared : PreparedDrain) (outcome : Outcome) : Prop where
  noted : ∀ host generation changes, outcome.notes = some (.measurement host generation changes) →
    prepared.measurementWait = true ∧ host = prepared.host ∧
    generation = prepared.question.measurementGeneration ∧
      (∀ ending, prepared.stamp .measurementUntilUnix = some ending →
        ∀ value, changes.lookup .measurementUntilUnix = some value → value = some ending) ∧
      ∀ ceiling, prepared.stamp .unmeasuredUntilUnix = some ceiling →
        changes.lookup .unmeasuredUntilUnix = none
  withheld : prepared.measurementWait = true → outcome.withhold = true →
    ∀ ending, prepared.stamp .measurementUntilUnix = some ending → prepared.now < ending
  ceiled : prepared.measurementWait = true → outcome.withhold = true →
    prepared.question.measurementUnmeasured = true →
    ∀ ceiling, prepared.stamp .unmeasuredUntilUnix = some ceiling → prepared.now < ceiling

structure Beginning (prepared : PreparedDrain) (p : PendingDrain) : Prop where
  same : p.prepared = prepared
  fair : Fair p

structure Begun (prepared : PreparedDrain) (p : PendingDrain) : Prop where
  same : p.prepared = prepared
  fair : Fair p
  until? : p.until? = prepared.stamp .measurementUntilUnix
  early : prepared.measurementWait = true →
    ∀ ending, prepared.stamp .measurementUntilUnix = some ending → prepared.now < ending

section

variable {p : PendingDrain}

theorem Fair.note (h : Fair p) {field : NoteField} (hu : NoteField.measurementUntilUnix ≠ field)
    (hc : NoteField.unmeasuredUntilUnix ≠ field) (value : Option Rat) :
    Fair (p.note field value) where
  untilNote ending hending v hv := by
    have hv : (Dict.set field value p.notes).lookup .measurementUntilUnix = some v := hv
    rw [Dict.lookup_set_of_ne hu] at hv
    exact h.untilNote ending hending v hv
  ceilingNote ceiling hceiling := (Dict.lookup_set_of_ne hc value p.notes).trans
    (h.ceilingNote ceiling hceiling)
  withheld := h.withheld
  ceiling := h.ceiling

variable {verdict : Verdict}

theorem Fair.judge (h : Fair p) (hw : verdict.withhold = true → p.verdict.withhold = true) :
    Fair (p.judge verdict) :=
  ⟨h.untilNote, h.ceilingNote, fun hwa hwi => h.withheld hwa (hw hwi), h.ceiling⟩

theorem fair_initial (prepared : PreparedDrain) (short : List (Name × Int))
    (hve : verdict.withhold = false) :
    Fair { prepared := prepared, short := short, verdict := verdict } := by
  refine ⟨?_, fun _ _ => rfl, ?_, ?_⟩
  · intro ending _ value hv
    cases hv
  · intro _ hw
    cases hve.symm.trans hw
  · intro ceiling _ value hv
    cases hv

theorem ceiled_withhold (h : p.ceiled.withhold = true) :
    p.verdict.withhold = true ∧ (p.prepared.measurementWait = true →
    p.prepared.question.measurementUnmeasured = true →
      ∃ ceiling, p.unmeasuredUntil = some ceiling ∧ p.prepared.now < ceiling) := by
  unfold PendingDrain.ceiled at h
  split at h
  next hf =>
    dsimp only at h
    split at h
    next => cases h
    next ho =>
      cases hun : p.unmeasuredUntil with
      | none =>
        rw [hun] at ho
        exact absurd rfl ho
      | some ceiling =>
        rw [hun] at h ho
        refine ⟨h, fun _ _ => ⟨ceiling, rfl, ?_⟩⟩
        simpa using ho
  next hf => exact ⟨h, fun hw hu => absurd ⟨hw, hu⟩ hf⟩

theorem drainNotes_measurement {host : Name} {generation : Option Name} {changes : Changes}
    (h : p.drainNotes = some (.measurement host generation changes)) :
    p.prepared.measurementWait = true ∧ host = p.prepared.host ∧
      generation = p.prepared.question.measurementGeneration ∧ changes = p.notes := by
  unfold PendingDrain.drainNotes at h
  split at h
  · cases h
  split at h
  next hw =>
    cases h
    exact ⟨hw, rfl, rfl, rfl⟩
  next => cases h

theorem complete_sound (h : Fair p) (error : Option DrainError) :
    Sound p.prepared (complete p error) := by
  refine ⟨fun host generation changes hno => ?_, fun hwa hw => ?_, fun hwa hw hf ceiling hc => ?_⟩
  · have hno : p.drainNotes = some (.measurement host generation changes) := by
      cases error <;> exact hno
    obtain ⟨hwa, hh, hg, rfl⟩ := drainNotes_measurement hno
    exact ⟨hwa, hh, hg, h.untilNote, h.ceilingNote⟩
  · cases error with
    | some error => cases hw
    | none => exact h.withheld hwa (ceiled_withhold hw).1
  · cases error with
    | some error => cases hw
    | none =>
      obtain ⟨value, hv, hlt⟩ := (ceiled_withhold hw).2 hwa hf
      rw [← h.ceiling ceiling hc value hv]
      exact hlt

theorem failedDrain_sound (h : Fair p) (error : DrainError) :
    Sound p.prepared (failedDrain p error) := by
  cases error with
  | soft =>
    have hf : Fair (p.judge { p.verdict with withhold := false, why := some .verdictUnreadable }) :=
      h.judge fun hw => by cases hw
    exact complete_sound hf none
  | hard => exact complete_sound h (some .hard)

end

def Meets {ε α : Type} (onError : ε → Prop) (onOk : α → Prop) : Except ε α → Prop
  | .error e => onError e
  | .ok a => onOk a

theorem Meets.bind {ε α β : Type} {onError : ε → Prop} {onOk : α → Prop} {onNext : β → Prop}
    {x : Except ε α}
    {next : α → Except ε β} (h : Meets onError onOk x)
      (hn : ∀ a, onOk a → Meets onError onNext (next a)) :
    Meets onError onNext (x >>= next) := by
  cases x with
  | error e => exact h
  | ok a => exact hn a h

section

variable {prepared : PreparedDrain} {p : PendingDrain} {field : NoteField} {verdict : Verdict}

theorem Beginning.note (h : Beginning prepared p) (hu : NoteField.measurementUntilUnix ≠ field)
    (hc : NoteField.unmeasuredUntilUnix ≠ field) (value : Option Rat) :
    Beginning prepared (p.note field value) :=
  ⟨h.same, h.fair.note hu hc value⟩

theorem Beginning.judge (h : Beginning prepared p)
    (hw : verdict.withhold = true → p.verdict.withhold = true) :
    Beginning prepared (p.judge verdict) :=
  ⟨h.same, h.fair.judge hw⟩

theorem Beginning.complete_sound (h : Beginning prepared p) : Sound prepared (complete p none) := by
  obtain ⟨rfl, hf⟩ := h
  exact Drain.complete_sound hf none

theorem Beginning.refuse (h : Beginning prepared p) (hw : verdict.withhold = p.verdict.withhold) :
    Sound prepared (complete (p.judge verdict) none) :=
  (h.judge (Eq.trans hw.symm)).complete_sound

theorem Beginning.noteCeiling (h : Beginning prepared p)
    (hn : prepared.stamp .unmeasuredUntilUnix = none) (ceiling : Option Rat)
    (value : Option Rat) : Beginning prepared
      ({ p with unmeasuredUntil := ceiling }.note .unmeasuredUntilUnix value) := by
  obtain ⟨rfl, hf⟩ := h
  refine ⟨rfl, fun ending he v hv => ?_, fun stored hs => ?_, hf.withheld, fun stored hs => ?_⟩
  · have hv : (Dict.set .unmeasuredUntilUnix value p.notes).lookup .measurementUntilUnix = some v :=
      hv
    rw [Dict.lookup_set_of_ne (by decide)] at hv
    exact hf.untilNote ending he v hv
  · cases hn.symm.trans hs
  · cases hn.symm.trans hs

theorem armMeasurement_beginning (h : Beginning prepared p) :
    Meets (Beginning prepared) (Beginning prepared) (armMeasurement p) := by
  unfold armMeasurement
  split
  · exact h
  split
  · exact h
  split
  · exact h
  have hsa := h.same
  split
  next hc =>
    have hn : prepared.stamp .unmeasuredUntilUnix = none := by
      rw [← hsa, PreparedDrain.stamp, hc]; rfl
    exact h.noteCeiling hn _ _
  next hc =>
    have hn : prepared.stamp .unmeasuredUntilUnix = none := by
      rw [← hsa, PreparedDrain.stamp, hc]; rfl
    exact h.noteCeiling hn p.unmeasuredUntil _
  next ceiling hc =>
    refine ⟨hsa, h.fair.untilNote, h.fair.ceilingNote, h.fair.withheld, fun stored hs value hv =>
      ?_⟩
    have hs : (p.prepared.clocks .unmeasuredUntilUnix).stamp = some stored := hs
    rw [hc] at hs
    cases hs
    cases hv
    rfl

theorem refuseForeign_beginning (h : Beginning prepared p) (foreignUnix : Option Rat) :
    Meets (Sound prepared) (Beginning prepared) (refuseForeign p foreignUnix) := by
  cases foreignUnix with
  | none => exact h
  | some seen =>
    rw [refuseForeign]
    split
    · cases p.prepared.measurementWait with
      | true => exact h.refuse rfl
      | false =>
        exact Beginning.refuse ((h.note (by decide) (by decide) none).note (by decide) (by decide)
          none) rfl
    · exact h

theorem settleForeign_beginning (h : Beginning prepared p) (foreign gpuForeignClear : Bool) :
    Meets (Sound prepared) (Beginning prepared) (settleForeign p foreign gpuForeignClear) := by
  refine refuseForeign_beginning ?_ _
  split
  · exact h.note (by decide) (by decide) none
  · exact h

theorem openWindow_begun (h : Beginning prepared p) :
    Meets (Sound prepared) (Begun prepared) (openWindow p) := by
  obtain ⟨rfl, hf⟩ := h
  have ho : Beginning p.prepared { p with
      until? := p.prepared.stamp .measurementUntilUnix
      epoch := p.prepared.stamp .epochUnix } := ⟨rfl, hf.untilNote, hf.ceilingNote, hf.withheld,
        hf.ceiling⟩
  unfold openWindow
  dsimp only
  split
  next ending hso _ =>
    split
    next => exact Beginning.refuse (ho.judge id) rfl
    next hea =>
      refine ⟨rfl, ho.fair.judge id, rfl, fun _ stored hs => ?_⟩
      cases hso.symm.trans hs
      exact not_le.mp hea
  next hn =>
    exact ⟨rfl, ho.fair, rfl, fun hw ending he => absurd hw (hn ending he)⟩

theorem openCounts_begun (h : Begun prepared p) :
    Meets (Sound prepared) (Begun prepared) (openCounts p) := by
  obtain ⟨rfl, hf, hu, he⟩ := h
  have hc : Fair { p with covered := p.short.map fun item => (item.1, 0) } :=
    ⟨hf.untilNote, hf.ceilingNote, hf.withheld, hf.ceiling⟩
  unfold openCounts
  dsimp only
  split
  · split
    · exact ⟨rfl, ⟨hf.untilNote, hf.ceilingNote, hf.withheld, hf.ceiling⟩, hu, he⟩
    · exact failedDrain_sound hc .soft
  · exact ⟨rfl, hc, hu, he⟩

theorem beginEligible_begun (h : Beginning prepared p) (foreign eligible gpuForeignClear : Bool) :
    Meets (Sound prepared) (Begun prepared) (beginEligible p foreign eligible gpuForeignClear) := by
  have ha := armMeasurement_beginning h
  unfold beginEligible
  split
  next q hq =>
    rw [hq] at ha
    obtain ⟨rfl, hf⟩ := ha
    exact failedDrain_sound hf .soft
  next q hq =>
    rw [hq] at ha
    have hn : Beginning prepared (if foreign then q.note .foreignUnix (some q.prepared.now) else
      q) := by
      split
      · exact Beginning.note ha (by decide) (by decide) _
      · exact ha
    dsimp only
    split
    · exact hn.complete_sound
    · have ho := Meets.bind (settleForeign_beginning hn foreign gpuForeignClear) fun _ hp =>
        openWindow_begun hp
      exact ho.bind fun _ hp => openCounts_begun hp

theorem beginDrain_begun (prepared : PreparedDrain) (available : List (Name × Int))
    (gpuSample : Option GpuSample) :
    Meets (Sound prepared) (Begun prepared) (beginDrain prepared available gpuSample) := by
  unfold beginDrain
  dsimp only
  split
  · exact complete_sound (fair_initial prepared _ rfl) none
  · exact beginEligible_begun ⟨rfl, fair_initial prepared _ rfl⟩ _ _ _

theorem addHolder_begun (h : Begun prepared p) (bound : Bound) (counts : List (Name × Int)) :
    Meets (Sound prepared) (Begun prepared) (addHolder p bound counts) := by
  obtain ⟨rfl, hf, hu, he⟩ := h
  have hk : ∀ bounds draining inWay covered,
      Fair { p with bounds := bounds, draining := draining, inWay := inWay, covered := covered } :=
    fun _ _ _ _ => ⟨hf.untilNote, hf.ceilingNote, hf.withheld, hf.ceiling⟩
  unfold addHolder
  dsimp only
  split
  · split
    · exact failedDrain_sound (hk _ _ _ _) .hard
    · exact ⟨rfl, hk _ _ _ _, hu, he⟩
  · exact ⟨rfl, hk _ _ _ _, hu, he⟩

theorem addHolders_begun (h : Begun prepared p) (holders : List (Bound × List (Name × Int))) :
    Meets (Sound prepared) (Begun prepared) (addHolders p holders) := by
  induction holders generalizing p with
  | nil => exact h
  | cons holder holders ih =>
    rw [addHolders, List.foldlM_cons]
    exact (addHolder_begun h holder.1 holder.2).bind fun q hq => ih hq

theorem Begun.note (h : Begun prepared p) (hu : NoteField.measurementUntilUnix ≠ field)
    (hc : NoteField.unmeasuredUntilUnix ≠ field) (value : Option Rat) :
    Begun prepared (p.note field value) :=
  ⟨h.same, h.fair.note hu hc value, h.until?, h.early⟩

theorem Begun.judge (h : Begun prepared p) (verdict : Verdict) :
    Begun prepared (p.judge verdict) := by
  obtain ⟨rfl, hf, hu, he⟩ := h
  exact ⟨rfl, ⟨hf.untilNote, hf.ceilingNote, fun hw _ => he hw, hf.ceiling⟩, hu, he⟩

theorem Begun.complete_sound (h : Begun prepared p) : Sound prepared (complete p none) := by
  obtain ⟨rfl, hf, _, _⟩ := h
  exact Drain.complete_sound hf none

theorem finishMeasurement_sound (h : Begun prepared p) : Sound prepared (finishMeasurement p) := by
  have hn : ∀ (epoch : Option Rat) (ending : Rat),
    (∀ stored, prepared.stamp .measurementUntilUnix = some stored → ending = stored) →
      Begun prepared ((p.note .epochUnix epoch).note .measurementUntilUnix (some ending)) := by
    intro epoch ending he
    obtain ⟨hsa, hf, hu, hea⟩ := h.note (by decide)
      (by decide : NoteField.unmeasuredUntilUnix ≠ .epochUnix) epoch
    refine ⟨hsa, ⟨fun stored hs value hv => ?_, fun ceiling hc => ?_, hf.withheld, hf.ceiling⟩, hu,
      hea⟩
    · have hv : (Dict.set .measurementUntilUnix (some ending) _).lookup
        NoteField.measurementUntilUnix = some value := hv
      rw [Dict.lookup_set_self] at hv
      have hs := hsa ▸ hs
      rw [← some.inj hv, he stored hs]
    · exact (Dict.lookup_set_of_ne (by decide) _ _).trans (hf.ceilingNote ceiling hc)
  unfold finishMeasurement
  split
  next ending hso =>
    refine ((hn _ ending fun stored hs => ?_).judge _).complete_sound
    exact some.inj (hso.symm.trans (h.until?.trans hs))
  next hno =>
    refine ((hn _ _ fun stored hs => ?_).judge _).complete_sound
    cases hno.symm.trans (h.until?.trans hs)

theorem finishEmpty_sound (h : Begun prepared p) : Sound prepared (finishEmpty p) := by
  unfold finishEmpty
  dsimp only
  split
  · split
    · exact (h.judge _).complete_sound
    · have hn := h.note (by decide) (by decide : NoteField.unmeasuredUntilUnix ≠ .foreignUnix)
        (some p.prepared.now)
      split
      · exact (hn.judge _).complete_sound
      · have hc : Begun prepared
            (((p.note .foreignUnix (some p.prepared.now)).note .epochUnix none).note .expiredUnix
            none) :=
          (hn.note (by decide) (by decide) none).note (by decide) (by decide) none
        exact (hc.judge _).complete_sound
  · exact (h.judge _).complete_sound

theorem finishHolders_sound (h : Begun prepared p) : Sound prepared (finishHolders p) := by
  have hn : ∀ epoch expired, Begun prepared ((p.note .epochUnix epoch).note .expiredUnix expired) :=
    fun epoch expired =>
    (h.note (by decide) (by decide) epoch).note (by decide) (by decide) expired
  unfold finishHolders
  split
  · exact ((hn none none).judge _).complete_sound
  · unfold settleRefills
    have hj := (hn (some p.refilled.1) p.refilled.2).judge
    split
    · exact ((hj _).judge _).complete_sound
    · exact ((hj _).judge _).complete_sound

theorem noteBlocked_begun (h : Begun prepared p) : Begun prepared p.noteBlocked := by
  unfold PendingDrain.noteBlocked
  split
  · exact h.note (by decide) (by decide) _
  · exact h

theorem finishDrain_sound (h : Begun prepared p) : Sound prepared (finishDrain p) := by
  have hn := noteBlocked_begun h
  unfold finishDrain finishNoted
  split
  · exact finishMeasurement_sound hn
  split
  · exact finishEmpty_sound hn
  · exact finishHolders_sound hn

theorem observe_sound (prepared : PreparedDrain) (observation : Observation) :
    Sound prepared (observe prepared observation) := by
  cases observation with
  | failed error => exact failedDrain_sound (fair_initial prepared [] rfl) error
  | observed available gpuSample holders failure =>
    have hb := (beginDrain_begun prepared available gpuSample).bind fun p hp =>
      addHolders_begun hp holders
    rw [observe]
    split
    next outcome ho =>
      rw [ho] at hb
      exact hb
    next p hp =>
      rw [hp] at hb
      have hb := hb
      cases failure with
      | none => exact finishDrain_sound hb
      | some error =>
        obtain ⟨rfl, hf, _, _⟩ := hb
        exact failedDrain_sound hf error

end

section

variable {host : Name} {generation : Option Name} {episodes : List (Name × Episode)}

theorem episodeClocks_set (clocks : Clocks) :
    episodeClocks (Dict.set host ⟨generation, clocks⟩ episodes) host generation = clocks := by
  unfold episodeClocks
  rw [Dict.lookup_set_self]
  exact if_pos rfl

variable {field : NoteField} {stored : Rat}

theorem noteField_stamp {changes : Changes} {previous : Clocks}
    (hp : (previous field).stamp = some stored)
    (hch : ∀ value, changes.lookup field = some value → value = some stored) :
    (noteField changes previous field).stamp = some stored := by
  have hc : previous field = .time stored := by
    cases hc : previous field with
    | time t =>
      rw [hc] at hp
      rw [some.inj hp]
    | absent => rw [hc] at hp; cases hp
    | unreadable => rw [hc] at hp; cases hp
  unfold noteField
  cases hl : changes.lookup field with
  | none =>
    rw [hc]
    rfl
  | some value =>
    rw [hch value hl]
    rfl

theorem prepare_stamp {a : Assessment}
    (hw : (a.prepare host generation episodes).measurementWait = true) (field : NoteField) :
    (a.prepare host generation episodes).stamp field = storedAt host generation episodes field := by
  have hc : (a.prepare host generation episodes).clocks = episodeClocks episodes host generation :=
    if_pos hw
  unfold PreparedDrain.stamp
  rw [hc]
  rfl

theorem store_keeps (a : Assessment)
    (hf : field = .measurementUntilUnix ∨ field = .unmeasuredUntilUnix)
    (h : storedAt host generation episodes field = some stored) :
    storedAt host generation (store host generation episodes a) field = some stored := by
  unfold store
  split
  · have hs := observe_sound (a.prepare host generation episodes) a.observation
    cases hn : (a.outcome host generation episodes).notes with
    | none => exact h
    | some notes =>
      cases notes with
      | ordinary changes => exact h
      | measurement host' generation' changes =>
        obtain ⟨hw, hh, hg, hu, hc⟩ := hs.noted host' generation' changes hn
        have hh : host' = host := hh
        have hg : generation' = generation := hg
        rw [hh, hg, storedAt, measurementNoteFields, episodeClocks_set]
        refine noteField_stamp h fun value hv => ?_
        rw [← prepare_stamp hw] at h
        rcases hf with rfl | rfl
        · exact hu stored h value hv
        · cases (hc stored h).symm.trans hv
  · exact h

theorem storeAll_keeps (assessments : List Assessment)
    (hf : field = .measurementUntilUnix ∨ field = .unmeasuredUntilUnix)
    (h : storedAt host generation episodes field = some stored) :
    storedAt host generation (storeAll host generation episodes assessments) field =
      some stored := by
  induction assessments generalizing episodes with
  | nil => exact h
  | cons a assessments ih => exact ih (store_keeps a hf h)

end

/-- From any stored notes on: a deadline of the generation that is stored stays as it is through any
assessments, and none of them withholds for the measurement at or after it; and so does the ceiling
of a baseline that was never measured, for the assessments that are flagged so. -/
theorem measurement_deadline_fixed (host : Name) (generation : Option Name)
    (episodes : List (Name × Episode))
    (assessments : List Assessment) (next : Assessment) :
    (∀ ending, storedAt host generation episodes .measurementUntilUnix = some ending →
      storedAt host generation (storeAll host generation episodes assessments)
      .measurementUntilUnix = some ending ∧
        ((next.prepare host generation (storeAll host generation episodes
        assessments)).measurementWait = true → ending ≤ next.now →
          (next.outcome host generation (storeAll host generation episodes assessments)).withhold =
          false)) ∧
      ∀ ceiling, storedAt host generation episodes .unmeasuredUntilUnix = some ceiling →
        storedAt host generation (storeAll host generation episodes assessments)
        .unmeasuredUntilUnix = some ceiling ∧
          ((next.prepare host generation (storeAll host generation episodes
          assessments)).measurementWait = true →
            next.question.measurementUnmeasured = true → ceiling ≤ next.now →
              (next.outcome host generation (storeAll host generation episodes
              assessments)).withhold = false) := by
  have hs := observe_sound (next.prepare host generation
    (storeAll host generation episodes assessments)) next.observation
  constructor
  · intro ending he
    have hk := storeAll_keeps assessments (.inl rfl) he
    refine ⟨hk, fun hwa hl => Bool.eq_false_iff.mpr fun hw => ?_⟩
    exact absurd hl (not_le.mpr (hs.withheld hwa hw ending ((prepare_stamp hwa _).trans hk)))
  · intro ceiling hc
    have hk := storeAll_keeps assessments (.inr rfl) hc
    refine ⟨hk, fun hwa hf hl => Bool.eq_false_iff.mpr fun hw => ?_⟩
    exact absurd hl (not_le.mpr (hs.ceiled hwa hw hf ceiling ((prepare_stamp hwa _).trans hk)))

end PrismaBuild.Drain
