import PrismaBuild.Json

namespace PrismaBuild.Progress

open Finset

structure Phase where
  name : Name
  requested : ℚ
  positive : 0 < requested

structure Policy where
  phases : List Phase
  declared : 0 < phases.length
  ceiling : Option ℚ
  cycle : Bool

def effectiveGrace (ceiling : Option ℚ) (phase : Phase) : ℚ :=
    (ceiling.map (min phase.requested)).getD phase.requested

def Policy.grace (policy : Policy) (i : ℕ) : ℚ :=
    ((policy.phases[i]?).map (effectiveGrace policy.ceiling)).getD 0

def Policy.noProgressBound (policy : Policy) : ℚ :=
    ∑ i ∈ Finset.range policy.phases.length, policy.grace i

def Policy.indexOf (policy : Policy) (name : Name) : Option ℕ :=
    policy.phases.findIdx? (·.name = name)

/-- The parsed fields of a report. `units` is `none` for what is no finite number. -/
structure Report where
  schema : Option Name
  token : Option Name
  phase : Name
  units : Option ℚ

inductive Reading where
  | absent | churning | unreadable | unparsable | notObject
  | record (r : Report)

inductive Rejection where
  | unreadable | unparsable | notObject | wrongSchema | foreignToken | undeclaredPhase | notFiniteCount | regressing | replayed

inductive Exemption where
  | stagedWait | exportWait | readerPlan | queuedChildWait | poolContention | startGate
  deriving DecidableEq

structure Watch where
  unitsHighWater : ℚ := 0
  phaseIndex : ℕ := 0
  phasesGranted : Finset ℕ := {0}
  phasesEntered : ℕ := 1
  (lastAdvance lastReal exemptThrough : ℚ)
  exempt : Exemption → ℚ := fun _ => 0
  accepted : ℕ := 0
  rejected : ℕ := 0
  lastRejection : Option Rejection := none

def progressSchema : Name := "prismabuild.action_progress.v1"

section

variable (policy : Policy) (token : Name)

def stallDeadline (w : Watch) : ℚ := w.lastAdvance + policy.grace w.phaseIndex

def advancedPhase (w : Watch) (index : ℕ) : Prop :=
    if policy.cycle then index ∉ w.phasesGranted else w.phaseIndex < index

instance (w : Watch) (index : ℕ) : Decidable (advancedPhase policy w index) := by
  unfold advancedPhase
  infer_instance

/-- What `sample` makes of its reading: a silent `none`, a counted rejection, or the phase and count
it accepts. -/
def judge (w : Watch) : Reading → Except (Option Rejection) (ℕ × ℚ)
  | .absent | .churning => .error none
  | .unreadable => .error (some .unreadable)
  | .unparsable => .error (some .unparsable)
  | .notObject => .error (some .notObject)
  | .record r =>
    if r.schema ≠ some progressSchema then .error (some .wrongSchema)
    else if r.token ≠ some token then .error (some .foreignToken)
    else match policy.indexOf r.phase, r.units with
      | none, _ => .error (some .undeclaredPhase)
      | some _, none => .error (some .notFiniteCount)
      | some index, some units =>
        if units < 0 then .error (some .notFiniteCount)
        else if policy.cycle ∧ units < w.unitsHighWater then .error (some .regressing)
        else if ¬ w.unitsHighWater < units ∧ ¬ advancedPhase policy w index then
          .error (some .replayed)
        else .ok (index, units)

def accept (now : ℚ) (index : ℕ) (units : ℚ) (w : Watch) : Watch :=
  { w with
    unitsHighWater := max w.unitsHighWater units
    phasesGranted :=
      if policy.cycle then insert index (if w.unitsHighWater < units then ∅ else w.phasesGranted)
        else w.phasesGranted
    phasesEntered :=
      if policy.cycle then (if index ≠ w.phaseIndex then w.phasesEntered + 1 else w.phasesEntered)
      else w.phasesEntered + (index - w.phaseIndex)
    phaseIndex := if policy.cycle then index else max w.phaseIndex index
    accepted := w.accepted + 1
    lastAdvance := now
    lastReal := now }

def reject (w : Watch) (reason : Rejection) : Watch :=
  { w with rejected := w.rejected + 1, lastRejection := some reason }

def sample (now : ℚ) (reading : Reading) (w : Watch) : Watch :=
  match judge policy token w reading with
  | .ok (index, units) => accept policy now index units w
  | .error none => w
  | .error (some reason) => reject w reason

def creditStart (w : Watch) (since : ℚ) : ℚ := max since (max w.exemptThrough w.lastReal)

def credit (kind : Exemption) (now since : ℚ) (w : Watch) : Watch :=
  let seconds := max 0 (now - creditStart w since)
  { w with
    lastAdvance := w.lastAdvance + seconds
    exemptThrough := max w.exemptThrough now
    exempt := Function.update w.exempt kind (w.exempt kind + seconds) }

def shift (seconds : ℚ) (w : Watch) : Watch := { w with lastAdvance := w.lastAdvance + seconds }

/-- The watch, the clock readings taken, and what the bounds count: the seconds credited or shifted,
the lateness of the accepted samples, how many of them raised the count, when the last read that
took any time ended, and for every credit that end and the start of the wait its verdict states. -/
structure Audit where
  watch : Watch
  reads : ℕ := 0
  moved : ℚ := 0
  late : ℚ := 0
  raised : ℕ := 0
  busy : Option ℚ := none
  credits : List (Option ℚ × ℚ) := []

inductive Move where
  | sample (now : ℚ) (reading : Reading)
  | shift (seconds : ℚ)
  | credit (kind : Exemption) (now since : ℚ)

def Audit.move (a : Audit) : Move → Audit
  | .sample now reading =>
    match judge policy token a.watch reading with
    | .ok (_, units) =>
      { a with
        watch := sample policy token now reading a.watch
        late := a.late + max 0 (now - stallDeadline policy a.watch)
        raised := if a.watch.unitsHighWater < units then a.raised + 1 else a.raised }
    | .error _ => { a with watch := sample policy token now reading a.watch }
  | .shift seconds => { a with watch := shift seconds a.watch, moved := a.moved + seconds }
  | .credit kind now since =>
    { a with
      watch := credit kind now since a.watch
      moved := a.moved + max 0 (now - creditStart a.watch since)
      credits := (a.busy, since) :: a.credits }

/-- The queued children's verdict states its start on the clock itself, the others in unix time. -/
inductive Verdict where
  | wait (exempt : Bool) (since : Option ℚ) (nowUnix : ℚ)
  | queued (exempt : Bool) (since : Option ℚ)

def Verdict.since (started : ℚ) : Verdict → Option ℚ
  -- since_unix or now_unix: a stated start of 0 is no start
  | .wait exempt since nowUnix =>
    if exempt then some (started - max 0 (nowUnix - (since.filter (· ≠ 0)).getD nowUnix)) else none
  | .queued exempt since => if exempt then since else none

variable (clock : ℕ → ℚ)

def Audit.readFor (a : Audit) (started ended : ℚ) (reads : ℕ) : Audit :=
  { a.move policy token (.shift (ended - started)) with
    reads
    busy := if started < ended then some ended else a.busy }

def waitCheckpoint (kind : Exemption) (verdict : Option Verdict) (a : Audit) : Audit :=
  let started := clock a.reads
  let credited := ((verdict.bind (Verdict.since started)).map fun since =>
    a.move policy token (.credit kind started since)).getD a
  credited.readFor policy token started (clock (a.reads + 1)) (a.reads + 2)

def Audit.due (a : Audit) : Prop := stallDeadline policy a.watch ≤ clock a.reads

instance (a : Audit) : Decidable (a.due policy clock) := inferInstanceAs (Decidable (_ ≤ _))

def Audit.tick (a : Audit) : Audit := { a with reads := a.reads + 1 }

/-- The checkpoints in turn while the deadline has passed, with the seconds spent and whether it
still has. -/
def checkpoints : List (Exemption × Option Verdict) → ℚ → Audit → Audit × ℚ × Bool
  | [], spent, a => (a, spent, true)
  | (kind, verdict) :: rest, spent, a =>
    let checked := waitCheckpoint policy token clock kind verdict a
    let spent := spent + (clock (a.reads + 1) - clock a.reads)
    if checked.due policy clock then checkpoints rest spent checked.tick else
      (checked.tick, spent, false)

structure StallCheck where
  expired : Bool
  (checkpoint checked : ℚ)

def checkStall (reading : Reading) (verdicts : Exemption → Option Verdict) (a : Audit) :
    Audit × Option StallCheck :=
  if a.due policy clock then
    let started := clock (a.reads + 1)
    let spent := clock (a.reads + 2) - started
    let checked := clock (a.reads + 3)
    let sampled := (a.move policy token (.sample started reading)).readFor policy token started
      (clock (a.reads + 2))
      (a.reads + 4)
    if (judge policy token a.watch reading).isOk then (sampled, some ⟨false, spent, checked⟩)
    else
      let waits := [.stagedWait, .exportWait, .readerPlan, .queuedChildWait].map fun kind =>
        (kind, verdicts kind)
      let (a, spent, expired) := checkpoints policy token clock waits spent sampled
      (a, some ⟨expired, spent, checked⟩)
  else (a.tick, none)

inductive Call where
  | move (move : Move)
  | checkStall (reading : Reading) (verdicts : Exemption → Option Verdict)

def Audit.call (a : Audit) : Call → Audit
  | .move move => a.move policy token move
  | .checkStall reading verdicts => (checkStall policy token clock reading verdicts a).1

def launch (started : ℚ) : Audit :=
    { watch := { lastAdvance := started, lastReal := started, exemptThrough := started } }

def run (a : Audit) (calls : List Call) : Audit := calls.foldl (Audit.call policy token clock) a

end

section

variable {policy : Policy} {token : Name} {clock : ℕ → ℚ} {I : Audit → Prop} {a : Audit}
  (hmove : ∀ a move, I a → I (a.move policy token move))
  (hreads : ∀ a reads busy, I a → I { a with reads, busy })

include hmove hreads

theorem checkpoints_keep {waits : List (Exemption × Option Verdict)} {spent : ℚ} (h : I a) :
    I (checkpoints policy token clock waits spent a).1 := by
  induction waits generalizing spent a with
  | nil => exact h
  | cons wait waits ih =>
    have hw : I (waitCheckpoint policy token clock wait.1 wait.2 a) := by
      refine hreads _ _ _ (hmove _ _ ?_)
      cases wait.2.bind (Verdict.since (clock a.reads)) with
      | none => exact h
      | some since => exact hmove a (.credit wait.1 (clock a.reads) since) h
    simp only [checkpoints]
    split
    · exact ih (hreads _ _ _ hw)
    · exact hreads _ _ _ hw

theorem call_keeps (call : Call) (h : I a) : I (a.call policy token clock call) := by
  cases call with
  | move move => exact hmove a move h
  | checkStall reading verdicts =>
    simp only [Audit.call, checkStall]
    split
    · have hs := hmove _ (.shift (clock (a.reads + 2) - clock (a.reads + 1)))
        (hmove _ (.sample (clock (a.reads + 1)) reading) h)
      split
      · exact hreads _ _ _ hs
      · exact checkpoints_keep hmove hreads (hreads _ _ _ hs)
    · exact hreads _ _ _ h

theorem run_keeps (calls : List Call) (h : I a) : I (run policy token clock a calls) := by
  induction calls generalizing a with
  | nil => exact h
  | cons call calls ih => exact ih (call_keeps hmove hreads call h)

end

section

variable {policy : Policy} {token : Name} {w : Watch} {a : Audit} {index : ℕ}
    {units now started : ℚ} {reading : Reading}

/-- A report that is foreign, undeclared, or behind the watch: its count is not above the highest,
and is below it in cyclic mode or of a phase that grants nothing. -/
def Idle (policy : Policy) (token : Name) (w : Watch) (r : Report) : Prop :=
  r.token ≠ some token ∨ policy.indexOf r.phase = none ∨
    ∃ index units, policy.indexOf r.phase = some index ∧
    r.units = some units ∧ units ≤ w.unitsHighWater ∧
    (policy.cycle = true ∧ units < w.unitsHighWater ∨ ¬ advancedPhase policy w index)

theorem judge_ok (h : judge policy token w reading = .ok (index, units)) :
    ∃ r, reading = .record r ∧ r.token = some token ∧ policy.indexOf r.phase = some index ∧
    r.units = some units ∧
      ¬ (policy.cycle = true ∧ units < w.unitsHighWater) ∧
      (w.unitsHighWater < units ∨ advancedPhase policy w index) := by
  cases reading with
  | record r =>
    simp only [judge] at h
    obtain ⟨-, h⟩ := guard_ok.mp h
    obtain ⟨ht, h⟩ := guard_ok.mp h
    split at h
    · cases h
    · cases h
    next i u hi hu =>
      obtain ⟨-, h⟩ := guard_ok.mp h
      obtain ⟨hc, h⟩ := guard_ok.mp h
      obtain ⟨ha, h⟩ := guard_ok.mp h
      cases h
      refine ⟨r, rfl, not_not.mp ht, hi, hu, hc, ?_⟩
      by_contra hnot
      exact ha (not_or.mp hnot)
  | absent => cases h
  | churning => cases h
  | unreadable => cases h
  | unparsable => cases h
  | notObject => cases h

theorem Idle.rejected {r : Report} (h : Idle policy token w r) :
    ∃ e, judge policy token w (.record r) = .error e := by
  cases hj : judge policy token w (.record r) with
  | error e => exact ⟨e, rfl⟩
  | ok accepted =>
    obtain ⟨r', hr, ht, hi, hu, hc, ha⟩ := judge_ok hj
    cases hr
    rcases h with hf | hn | ⟨index, units, hi', hu', hle, hb⟩
    · exact absurd ht hf
    · rw [hn] at hi
      cases hi
    · cases hi.symm.trans hi'
      cases hu.symm.trans hu'
      rcases hb with hlt | hp
      · exact absurd hlt hc
      · exact absurd ha (not_or.mpr ⟨not_lt.mpr hle, hp⟩)

theorem grace_nonneg (hce : ∀ c ∈ policy.ceiling, 0 ≤ c) (i : ℕ) : 0 ≤ policy.grace i := by
  unfold Policy.grace effectiveGrace
  cases policy.phases[i]? with
  | none => exact le_rfl
  | some phase =>
    cases hc : policy.ceiling with
    | none => exact phase.positive.le
    | some c => exact le_min phase.positive.le (hce c hc)

def granted (policy : Policy) (a : Audit) : ℚ :=
  if policy.cycle then ∑ i ∈ a.watch.phasesGranted,
    policy.grace i + a.raised * policy.noProgressBound
  else ∑ i ∈ Finset.range (a.watch.phaseIndex + 1), policy.grace i

structure Within (policy : Policy) (started : ℚ) (a : Audit) : Prop where
  entered : a.watch.phaseIndex < policy.phases.length
  allowed : a.watch.phasesGranted ⊆ Finset.range policy.phases.length
  bounded : policy.cycle = true ∨ a.raised = 0 →
    stallDeadline policy a.watch ≤ started + granted policy a + a.moved + a.late

theorem move_sample_ok (h : judge policy token a.watch reading = .ok (index, units)) :
    a.move policy token (.sample now reading) =
      { a with
        watch := accept policy now index units a.watch
        late := a.late + max 0 (now - stallDeadline policy a.watch)
        raised := if a.watch.unitsHighWater < units then a.raised + 1 else a.raised } := by
  simp only [Audit.move, sample, h]

theorem move_sample_error {e : Option Rejection}
    (h : judge policy token a.watch reading = .error e) :
    a.move policy token (.sample now reading) =
      { a with watch := (e.map (reject a.watch)).getD a.watch } := by
  cases e <;> simp only [Audit.move, sample, h] <;> rfl

theorem granted_accept (now : ℚ) (hg : ∀ i, 0 ≤ policy.grace i) (h : Within policy started a)
    (hj : judge policy token a.watch reading = .ok (index, units))
    (hm : policy.cycle = true ∨ (a.move policy token (.sample now reading)).raised = 0) :
    (a.move policy token (.sample now reading)).watch.phaseIndex = index ∧
      granted policy a + policy.grace index ≤
      granted policy (a.move policy token (.sample now reading)) := by
  rw [move_sample_ok hj] at hm ⊢
  obtain ⟨-, -, -, -, -, -, ha⟩ := judge_ok hj
  unfold advancedPhase at ha
  by_cases hr : a.watch.unitsHighWater < units
  · rw [if_pos hr] at hm
    have hc := hm.resolve_right (Nat.succ_ne_zero _)
    have hro : ∑ i ∈ a.watch.phasesGranted, policy.grace i ≤ policy.noProgressBound :=
      sum_le_sum_of_subset_of_nonneg h.allowed fun i _ _ => hg i
    refine ⟨if_pos hc, ?_⟩
    simp only [granted, accept, hc, hr, if_true, sum_insert (notMem_empty _), sum_empty]
    push_cast
    linarith
  · have hp := ha.resolve_left hr
    cases hc : policy.cycle with
    | true =>
      rw [hc, if_pos rfl] at hp
      refine ⟨if_pos hc, ?_⟩
      simp only [granted, accept, hc, hr, if_true, if_false, sum_insert hp]
      linarith
    | false =>
      rw [hc, if_neg Bool.false_ne_true] at hp
      have hs := range_subset_range.mpr hp
      have hsu := sum_le_sum_of_subset_of_nonneg hs fun i _ _ => hg i
      simp only [granted, accept, hc, Bool.false_eq_true, if_false, max_eq_right hp.le,
        sum_range_succ _ index]
      exact ⟨trivial, by linarith⟩

theorem Within.move (hgr : ∀ i, 0 ≤ policy.grace i) (h : Within policy started a) (move : Move) :
    Within policy started (a.move policy token move) := by
  cases move with
  | shift seconds =>
    refine ⟨h.entered, h.allowed, fun hm => ?_⟩
    have hb := h.bounded hm
    simp only [Audit.move, shift, stallDeadline, granted] at hb ⊢
    linarith
  | credit kind now since =>
    refine ⟨h.entered, h.allowed, fun hm => ?_⟩
    have hb := h.bounded hm
    simp only [Audit.move, credit, stallDeadline, granted] at hb ⊢
    linarith
  | sample now reading =>
    cases hj : judge policy token a.watch reading with
    | error e =>
      rw [move_sample_error hj]
      cases e with
      | none => exact h
      | some reason => exact ⟨h.entered, h.allowed, h.bounded⟩
    | ok accepted =>
      obtain ⟨index, units⟩ := accepted
      have hg := granted_accept now hgr h hj
      obtain ⟨r, -, -, hf, -⟩ := judge_ok hj
      have hi := (List.findIdx?_eq_some_iff_findIdx_eq.mp hf).1
      rw [move_sample_ok hj] at hg ⊢
      refine ⟨?_, ?_, fun hm => ?_⟩
      · simp only [accept]
        split
        · exact hi
        · exact max_lt h.entered hi
      · simp only [accept]
        split
        · refine insert_subset (mem_range.mpr hi) ?_
          split
          · exact empty_subset _
          · exact h.allowed
        · exact h.allowed
      · obtain ⟨hp, hg⟩ := hg hm
        have hb := h.bounded (hm.imp_right fun hr => ?_)
        · have hl := le_max_right 0 (now - stallDeadline policy a.watch)
          have hd : stallDeadline policy (accept policy now index units a.watch) = now +
            policy.grace index :=
            congrArg (now + policy.grace ·) hp
          rw [hd]
          linarith
        · dsimp only at hr
          split at hr
          · cases hr
          · exact hr

theorem granted_le (hg : ∀ i, 0 ≤ policy.grace i) (h : Within policy started a)
    (hm : policy.cycle = true ∨ a.raised = 0) :
    granted policy a ≤ (a.raised + 1) * policy.noProgressBound := by
  have hr : ∀ phases ⊆ range policy.phases.length, ∑ i ∈ phases,
    policy.grace i ≤ policy.noProgressBound :=
    fun phases hs => sum_le_sum_of_subset_of_nonneg hs fun i _ _ => hg i
  unfold granted
  split
  · have := hr _ h.allowed
    linarith
  next hl =>
    rw [hm.resolve_left hl]
    have := hr _ (range_subset_range.mpr h.entered)
    push_cast
    linarith

theorem launch_within (started : ℚ) : Within policy started (launch started) := by
  refine ⟨policy.declared, singleton_subset_iff.mpr (mem_range.mpr policy.declared), fun _ => ?_⟩
  simp [granted, launch, stallDeadline]

theorem idle_deadline {reports : List (ℚ × Report)} (h : ∀ r ∈ reports, Idle policy token w r.2) :
    stallDeadline policy (reports.foldl (fun w r => sample policy token r.1 (.record r.2) w) w) =
    stallDeadline policy w := by
  induction reports generalizing w with
  | nil => rfl
  | cons report reports ih =>
    obtain ⟨e, he⟩ := (h report (.head _)).rejected
    rw [List.foldl_cons, sample, he]
    cases e with
    | none => exact ih fun r hr => h r (.tail _ hr)
    | some reason => exact ih fun r hr => h r (.tail _ hr)

/-- An action that commits nothing is stopped within its declared bound: the deadline stays within
one round of graces, or one for each count passed in cyclic mode, of the launch, beside what was
credited, shifted or accepted late. -/
theorem stall_bounded (policy : Policy) (hceiling : ∀ c ∈ policy.ceiling, 0 ≤ c) (token : Name)
    (clock : ℕ → ℚ) :
    (∀ (started : ℚ) (calls : List Call) (a : Audit),
      a = run policy token clock (launch started) calls →
      policy.cycle = true ∨ a.raised = 0 →
        stallDeadline policy a.watch ≤ started + (a.raised + 1) * policy.noProgressBound + a.moved +
        a.late) ∧
    ∀ (w : Watch) (reports : List (ℚ × Report)), (∀ r ∈ reports, Idle policy token w r.2) →
      stallDeadline policy (reports.foldl (fun w r => sample policy token r.1 (.record r.2) w) w) =
      stallDeadline policy w := by
  have hg := grace_nonneg hceiling
  refine ⟨?_, fun w reports h => idle_deadline h⟩
  rintro started calls a rfl hm
  have hw : Within policy started (run policy token clock (launch started) calls) :=
    run_keeps (fun a move h => h.move hg move) (fun _ _ _ h => ⟨h.entered, h.allowed, h.bounded⟩)
      calls (launch_within started)
  have hb := hw.bounded hm
  have hle := granted_le hg hw hm
  linarith

end

section

variable {policy : Policy} {token : Name} {clock : ℕ → ℚ} {a b : Audit}

/-- Every credited wait began after the reads before it: none that took any time ended later. -/
def Clear (a : Audit) : Prop := ∀ credit ∈ a.credits, ∀ ended ∈ credit.1, ended ≤ credit.2

/-- A credit of a wait that began after the reads would begin at or after the last advance. -/
def Uncredited (a : Audit) : Prop :=
  ∀ since, (∀ ended ∈ a.busy, ended ≤ since) → a.watch.lastAdvance ≤ creditStart a.watch since

structure Timely (clock : ℕ → ℚ) (a : Audit) : Prop where
  passed : a.watch.lastAdvance ≤ clock (a.reads - 1)
  uncredited : Uncredited a

def Follows (clock : ℕ → ℚ) (a b : Audit) : Prop :=
    Clear b → Clear a ∧ (Timely clock a → Timely clock b)

theorem Follows.trans {c : Audit} (h : Follows clock a b) (h' : Follows clock b c) :
    Follows clock a c := by
  intro hc
  obtain ⟨hb, hbc⟩ := h' hc
  obtain ⟨ha, hab⟩ := h hb
  exact ⟨ha, fun ht => hbc (hab ht)⟩

variable (hclock : Monotone clock)

include hclock

end

def quiet (ceiling : Option ℚ) : Policy :=
    ⟨[⟨"run", 10, by norm_num⟩, ⟨"end", 10, by norm_num⟩], by decide, ceiling, false⟩

def slowRead (i : ℕ) : ℚ := if i < 5 then 10 else if i < 7 then 11 else 21

def staged (since nowUnix : ℚ) : Exemption → Option Verdict
  | .stagedWait => some (.wait true (some since) nowUnix)
  | _ => none

/-- Under a negative ceiling every grace is the ceiling, and two of them together are less than one.
-/
theorem negative_ceiling : (quiet (some (-5))).noProgressBound < stallDeadline (quiet (some (-5)))
    (launch 0).watch := by
  decide +kernel

def busyCalls : List Call :=
  [.move (.sample 3 (.record ⟨some progressSchema, some "t", "end", some 0⟩)),
    .move (.credit .poolContention 4 3),
    .checkStall .absent (staged 1 12)]

/-- An accepted sample, a credit, and a check that credits and shifts once more. -/
theorem busyCalls_bounded : ∃ a, a = run (quiet (some 5)) "t" slowRead (launch 0) busyCalls ∧
    (a.watch.accepted = 1 ∧ a.watch.lastAdvance = 11 ∧ a.moved = 8) ∧
      stallDeadline (quiet (some 5)) a.watch ≤ 0 + (a.raised + 1) *
      (quiet (some 5)).noProgressBound + a.moved + a.late :=
  ⟨_, rfl, by decide +kernel, (stall_bounded (quiet (some 5)) (by simp [quiet]) "t"
    slowRead).1 0 busyCalls _ rfl
    (.inr (by decide +kernel))⟩

end PrismaBuild.Progress
