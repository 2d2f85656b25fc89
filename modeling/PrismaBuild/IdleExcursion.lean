import PrismaBuild.IdleBaseline

namespace PrismaBuild.Idle

open List

variable {F I : Type} [DecidableEq I]

/-- One judgement of a run: the history before it, the sample, and what was said about it against
which samples. -/
structure Pass (F I : Type) where
  history : IdleState F I
  sample : HostSample F
  verdict : Verdict
  reference : Option (List (IdleSample F))

/-- Judge samples one after the other, all of this host and with no holders. -/
def judgeAll (fields : List F) (priorRule : Option ((F → Rat) → Bool)) :
    IdleState F I → List (HostSample F) → List (Pass F I)
  | _, [] => []
  | state, sample :: samples =>
    let (verdict, next, reference) := idleJudgement fields priorRule state.identity false
      (some state) sample
    ⟨state, sample, verdict, reference⟩ :: judgeAll fields priorRule next samples

section

theorem foldl_max_greatest (a : Rat) (values : List Rat) :
    values.foldl max a ∈ a :: values ∧ ∀ b ∈ a :: values, b ≤ values.foldl max a :=
  max?_eq_some_iff.mp max?_cons'

theorem recordedMax_le {field : F} {fewer samples : List (IdleSample F)} (hne : fewer ≠ [])
    (hs : fewer ⊆ samples) :
    recordedMax field fewer ≤ recordedMax field samples := by
  cases fewer with
  | nil => exact absurd rfl hne
  | cons s fewer =>
    cases samples with
    | nil => cases hs (.head _)
    | cons s' samples =>
      refine Rounding.round_mono ((foldl_max_greatest _ _).2 _ ?_) 6
      have hin : ((fewer.map fun s => s.value field).foldl max (s.value field)) ∈ (s :: fewer).map
        fun s => s.value field :=
        (foldl_max_greatest _ _).1
      obtain ⟨top, ht, heq⟩ := mem_map.mp hin
      rw [← heq]
      have ht : top.value field ∈ (s' :: samples).map fun s => s.value field :=
        mem_map_of_mem (hs ht)
      exact ht

end

section

variable {samples : List (IdleSample F)} {s : IdleSample F} {run : Rat}

theorem remember_concat (samples : List (IdleSample F)) (s : IdleSample F) :
    remember (samples ++ [s]) = samples.drop (samples.length + 1 - idleWindow) ++ [s] := by
  have hle : samples.length + 1 - idleWindow ≤ samples.length := by
    unfold idleWindow
    omega
  rw [remember, length_append, length_singleton, drop_append_of_le_length hle]

theorem older_remember_suffix (hl : run ≤ s.sampledUnix) :
    older run (firm (remember (samples ++ [s]))) <:+ older run (firm samples) := by
  have hn : older run (firm [s]) = [] := by
    refine filter_eq_nil_iff.mpr fun x hx => ?_
    obtain rfl := mem_singleton.mp (mem_of_mem_filter hx)
    simpa using hl
  have ha : older run (firm (samples.drop (samples.length + 1 - idleWindow) ++ [s])) =
      older run (firm (samples.drop (samples.length + 1 - idleWindow))) := by
    unfold firm older at hn ⊢
    rw [filter_append, filter_append, hn, append_nil]
  rw [remember_concat, ha]
  exact ((drop_suffix _ samples).filter _).filter _

theorem mem_firm_remember (hf : s.provisional = false) : s ∈ firm (remember (samples ++ [s])) := by
  rw [remember_concat]
  exact mem_filter.mpr ⟨mem_append_right _ (.head _), by rw [hf]; rfl⟩

theorem older_older {run now : Rat} (h : run ≤ now) (samples : List (IdleSample F)) :
    older run (older now samples) = older run samples := by
  unfold older
  rw [filter_filter]
  refine filter_congr fun s _ => ?_
  rw [Bool.and_eq_left_iff_imp]
  intro hr
  exact decide_eq_true (lt_of_lt_of_le (of_decide_eq_true hr) h)

end

section

variable {fields : List F} {priorRule : Option ((F → Rat) → Bool)} {state next : IdleState F I}
  {sample : HostSample F} {field : F} {reference : List (IdleSample F)}

theorem idleJudgement_of_firm (ht : ∀ seen ∈ state.holdersSeenUnix,
    seen < sample.sampledUnix - sample.intervalS)
    (hf : firm state.samples ≠ []) {run : Option Rat}
    (hr : idleReference (firm state.samples) sample.sampledUnix state.excursionUnix = (reference,
      run))
    (hne : reference ≠ []) {verdict : Verdict} {judged : Option (List (IdleSample F))}
    (h : idleJudgement fields priorRule state.identity false (some state) sample = (verdict, next,
      judged)) :
    judged = some reference ∧ verdict.exceeds =
      (fields.any fun field => recordedMax field reference < sample.value field) ∧
      next = join state sample reference run false .measured verdict.exceeds priorRule.isSome := by
  have hno : (state.holdersSeenUnix.any fun seen =>
    decide (sample.sampledUnix - sample.intervalS ≤ seen)) = false := by
    cases hs : state.holdersSeenUnix with
    | none => rfl
    | some seen => exact decide_eq_false (not_le.mpr (ht seen hs))
  have ho : ofIdentity (some state) state.identity = state := if_pos rfl
  have hc : chooseReference state sample.sampledUnix = (reference, run, false) := by
    rw [chooseReference, if_pos hf, hr]
  have hju : judgeIdle reference sample.value fields priorRule =
      (.measured, fields.any fun field => recordedMax field reference < sample.value field) :=
      if_pos hne
  simp only [idleJudgement, ho, hc, hju, hno, Bool.false_eq_true, if_false] at h
  obtain ⟨hv, h⟩ := Prod.mk.inj h
  obtain ⟨hn, hj⟩ := Prod.mk.inj h
  subst hv hn hj
  exact ⟨rfl, rfl, rfl⟩

omit [DecidableEq I] in
theorem join_measured_cases (run : Option Rat) (exceeds ha : Bool)
    (h : next = join state sample reference run false .measured exceeds ha) :
    ((∃ s ∈ state.samples, s.sampledUnix = sample.sampledUnix) ∧ next = state) ∨
      (next.samples = remember (state.samples ++ [⟨sample.sampledUnix, sample.value, false⟩]) ∧
        next.holdersSeenUnix = state.holdersSeenUnix ∧
        next.excursionUnix = if exceeds ∧ reference ≠ [] then some (run.getD sample.sampledUnix)
          else none) := by
  by_cases hse : (state.samples.any fun s => decide (s.sampledUnix = sample.sampledUnix)) = true
  · left
    obtain ⟨s, hs, ht⟩ := any_eq_true.mp hse
    exact ⟨⟨s, hs, of_decide_eq_true ht⟩, h.trans (if_pos hse)⟩
  · right
    have hj : (decide (Basis.measured = .unmeasured) && exceeds && ha) = false := rfl
    simp only [join, hj, hse, Bool.false_eq_true, if_false, Bool.not_false, if_true] at h
    rw [h]
    dsimp only
    exact ⟨rfl, rfl, rfl⟩

theorem idleReference_cases (samples : List (IdleSample F)) (now : Rat)
    (excursionUnix : Option Rat) :
    idleReference samples now excursionUnix = (older now samples, none) ∨
      ∃ run, excursionUnix = some run ∧ older run (older now samples) ≠ [] ∧
        idleReference samples now excursionUnix = (older run (older now samples), some run) := by
  cases excursionUnix with
  | none => exact .inl rfl
  | some run =>
    unfold idleReference
    cases hold : older run (older now samples) with
    | nil =>
      left
      simp only [hold]
    | cons oldest rest =>
      simp only [hold]
      split
      · right
        exact ⟨run, rfl, hold ▸ cons_ne_nil _ _, by rw [hold]⟩
      · exact .inl rfl

end

structure Running (start : List (IdleSample F)) (run last : Rat) (holdersSeenUnix : Option Rat)
    (state : IdleState F I) : Prop where
  suffix : older run (firm state.samples) <:+ start
  recent : ∃ s ∈ firm state.samples, s.sampledUnix ≤ last
  held : state.holdersSeenUnix = holdersSeenUnix
  running : state.excursionUnix = some run ∨
    ∀ oldest ∈ (older run (firm state.samples)).head?, run - oldest.sampledUnix ≤ last - run

section

variable {fields : List F} {priorRule : Option ((F → Rat) → Bool)} {field : F}
    {start : List (IdleSample F)} {run last : Rat}
  {holdersSeenUnix : Option Rat} {state next : IdleState F I} {sample : HostSample F}
    {verdict : Verdict}
  {reference : Option (List (IdleSample F))}

/-- What is asked of a judgement while the run is shorter than the reach of the oldest sample before
it. -/
def Refused (run : Rat) (pass : Pass F I) : Prop :=
  ∀ oldest ∈ older run (firm pass.history.samples),
    (∀ s ∈ older run (firm pass.history.samples), oldest.sampledUnix ≤ s.sampledUnix) →
    pass.sample.sampledUnix - run < run - oldest.sampledUnix →
    pass.verdict.exceeds = true ∧
      ∃ reference, pass.reference = some reference ∧ ∀ s ∈ reference, s.sampledUnix < run

variable {samples : List (IdleSample F)}

theorem lt_of_mem_older {time : Rat} {s : IdleSample F} (h : s ∈ older time samples) :
    s.sampledUnix < time := of_decide_eq_true (mem_filter.mp h).2

theorem exceeds_of_above (hf : field ∈ fields) (ha : recordedMax field start < sample.value field)
    {reference : List (IdleSample F)} (hne : reference ≠ []) (hs : reference ⊆ start) :
    (fields.any fun field => decide (recordedMax field reference < sample.value field)) = true :=
  any_eq_true.mpr ⟨field, hf, decide_eq_true (lt_of_le_of_lt (recordedMax_le hne hs) ha)⟩

theorem head_le_of_mem (hso : samples.Pairwise fun s s' => s.sampledUnix ≤ s'.sampledUnix)
    {oldest s : IdleSample F} (hh : oldest ∈ samples.head?) (hs : s ∈ samples) :
    oldest.sampledUnix ≤ s.sampledUnix := by
  cases samples with
  | nil => cases hs
  | cons first rest =>
    obtain rfl := Option.some.inj hh
    rcases mem_cons.mp hs with rfl | hs
    · exact le_refl _
    · exact (pairwise_cons.mp hso).1 s hs

omit [DecidableEq I] in
theorem Running.join (h : Running start run last holdersSeenUnix state)
    (hso : start.Pairwise fun s s' => s.sampledUnix ≤ s'.sampledUnix) (hr : run ≤ last)
    (hla : last ≤ sample.sampledUnix)
    {against : List (IdleSample F)} {run' : Option Rat} {exceeds ha : Bool}
    (hn : next = Idle.join state sample against run' false .measured exceeds ha)
    (hst : (state.excursionUnix = some run ∧ exceeds = true ∧ against ≠ [] ∧ run' = some run) ∨
      ∀ oldest ∈ (older run (firm state.samples)).head?,
      run - oldest.sampledUnix ≤ sample.sampledUnix - run) :
    Running start run sample.sampledUnix holdersSeenUnix next := by
  obtain ⟨s, hs, hsl⟩ := h.recent
  rcases join_measured_cases run' exceeds ha hn with ⟨-, rfl⟩ | ⟨hsa, hh, he⟩
  · exact ⟨h.suffix, ⟨s, hs, hsl.trans hla⟩, h.held, hst.imp (·.1) id⟩
  · have hsu : older run (firm next.samples) <:+ older run (firm state.samples) := by
      rw [hsa]
      exact older_remember_suffix (hr.trans hla)
    have hin : ⟨sample.sampledUnix, sample.value, false⟩ ∈ firm next.samples := by
      rw [hsa]
      exact mem_firm_remember rfl
    refine ⟨hsu.trans h.suffix, ⟨_, hin, le_refl _⟩, hh.trans h.held, ?_⟩
    rcases hst with ⟨-, hex, hne, hr'⟩ | hl
    · left
      rw [he, if_pos ⟨hex, hne⟩, hr']
      rfl
    · -- the oldest sample can only be dropped, so the reach of the run only shrinks
      right
      intro oldest ho
      have hm := hsu.mem (mem_of_mem_head? ho)
      obtain ⟨first, hf⟩ := Option.isSome_iff_exists.mp (isSome_head?.mpr (ne_nil_of_mem hm))
      have hle := head_le_of_mem (hso.sublist h.suffix.sublist) hf hm
      have := hl first hf
      linarith

theorem Running.step (h : Running start run last holdersSeenUnix state)
    (hso : start.Pairwise fun s s' => s.sampledUnix ≤ s'.sampledUnix) (hru : run ≤ last)
    (hla : last < sample.sampledUnix)
    (hfie : field ∈ fields) (ha : recordedMax field start < sample.value field)
    (ht : ∀ seen ∈ holdersSeenUnix, seen < sample.sampledUnix - sample.intervalS)
    (hj : idleJudgement fields priorRule state.identity false (some state) sample = (verdict, next,
      reference)) :
    Refused run ⟨state, sample, verdict, reference⟩ ∧
      Running start run sample.sampledUnix holdersSeenUnix next := by
  obtain ⟨s, hs, hsl⟩ := h.recent
  have hf := ne_nil_of_mem hs
  have hb : older sample.sampledUnix (firm state.samples) ≠ [] :=
    ne_nil_of_mem (mem_filter.mpr ⟨hs, decide_eq_true (lt_of_le_of_lt hsl hla)⟩)
  have ht' : ∀ seen ∈ state.holdersSeenUnix, seen < sample.sampledUnix - sample.intervalS := by
    rw [h.held]
    exact ht
  by_cases hsh : ∃ oldest ∈ (older run (firm state.samples)).head?,
    sample.sampledUnix - run < run - oldest.sampledUnix
  · obtain ⟨oldest, ho, hsh⟩ := hsh
    have hex : state.excursionUnix = some run := by
      refine h.running.resolve_right fun hl => ?_
      have := hl oldest ho
      linarith
    obtain ⟨rest, hold⟩ := head?_eq_some_iff.mp ho
    have hr : idleReference (firm state.samples) sample.sampledUnix state.excursionUnix =
        (older run (firm state.samples), some run) := by
      rw [hex]
      unfold idleReference
      simp only [older_older (hru.trans hla.le), hold]
      exact if_pos hsh
    have hne := hold ▸ cons_ne_nil _ _
    obtain ⟨rfl, he, hn⟩ := idleJudgement_of_firm ht' hf hr hne hj
    rw [exceeds_of_above hfie ha hne h.suffix.subset] at he
    refine ⟨fun _ _ _ _ => ⟨he, _, rfl, fun s hs => lt_of_mem_older hs⟩, ?_⟩
    exact h.join hso hru hla.le hn (.inl ⟨hex, he, hne, rfl⟩)
  · have hl : ∀ oldest ∈ (older run (firm state.samples)).head?,
      run - oldest.sampledUnix ≤ sample.sampledUnix - run :=
      fun oldest ho => not_lt.mp fun hlt => hsh ⟨oldest, ho, hlt⟩
    constructor
    · intro oldest hm hlea hlt
      obtain ⟨first, hfi⟩ := Option.isSome_iff_exists.mp (isSome_head?.mpr (ne_nil_of_mem hm))
      have hle := head_le_of_mem (hso.sublist h.suffix.sublist) hfi hm
      have := hl first hfi
      exfalso
      simp only at hlt
      linarith
    · have hn : ∃ against run', next = Idle.join state sample against run' false .measured
        verdict.exceeds priorRule.isSome := by
        rcases idleReference_cases (firm state.samples) sample.sampledUnix
          state.excursionUnix with heq | ⟨r, -, hne, heq⟩
        · exact ⟨_, _, (idleJudgement_of_firm ht' hf heq hb hj).2.2⟩
        · exact ⟨_, _, (idleJudgement_of_firm ht' hf heq hne hj).2.2⟩
      obtain ⟨against, run', hn⟩ := hn
      exact h.join hso hru hla.le hn (.inr hl)

theorem Running.first (hq : state.excursionUnix = none)
    (hne : older sample.sampledUnix (firm state.samples) ≠ [])
    (hnew : ∀ s ∈ state.samples, s.sampledUnix ≠ sample.sampledUnix) (hfi : field ∈ fields)
    (ha : recordedMax field (older sample.sampledUnix (firm state.samples)) < sample.value field)
    (hta : ∀ seen ∈ state.holdersSeenUnix, seen < sample.sampledUnix - sample.intervalS)
    (hj : idleJudgement fields priorRule state.identity false (some state) sample = (verdict, next,
      reference)) :
    Refused sample.sampledUnix ⟨state, sample, verdict, reference⟩ ∧
      Running (older sample.sampledUnix (firm state.samples)) sample.sampledUnix sample.sampledUnix
      state.holdersSeenUnix next := by
  have hf : firm state.samples ≠ [] := by
    intro hni
    exact hne (by rw [hni]; rfl)
  have hr : idleReference (firm state.samples) sample.sampledUnix state.excursionUnix =
      (older sample.sampledUnix (firm state.samples), none) := by
    rw [hq]
    rfl
  obtain ⟨rfl, he, hn⟩ := idleJudgement_of_firm hta hf hr hne hj
  rw [exceeds_of_above hfi ha hne (List.Subset.refl _)] at he
  refine ⟨fun _ _ _ _ => ⟨he, _, rfl, fun s hs => lt_of_mem_older hs⟩, ?_⟩
  rcases join_measured_cases none _ _ hn with ⟨⟨s, hs, ht⟩, -⟩ | ⟨hsa, hh, hex⟩
  · exact absurd ht (hnew s hs)
  · have hsu : older sample.sampledUnix (firm next.samples) <:+ older sample.sampledUnix
      (firm state.samples) := by
      rw [hsa]
      exact older_remember_suffix (le_refl _)
    have hin : ⟨sample.sampledUnix, sample.value, false⟩ ∈ firm next.samples := by
      rw [hsa]
      exact mem_firm_remember rfl
    exact ⟨hsu, ⟨_, hin, le_refl _⟩, hh, .inl (hex.trans (if_pos ⟨he, hne⟩))⟩

theorem Running.all {samples : List (HostSample F)}
    (h : Running start run last holdersSeenUnix state)
    (hso : start.Pairwise fun s s' => s.sampledUnix ≤ s'.sampledUnix) (hru : run ≤ last)
    (hti : samples.Pairwise fun s s' => s.sampledUnix < s'.sampledUnix)
      (hl : ∀ sample ∈ samples, last < sample.sampledUnix)
    (hfi : field ∈ fields) (ha : ∀ sample ∈ samples, recordedMax field start < sample.value field)
    (ht : ∀ sample ∈ samples, ∀ seen ∈ holdersSeenUnix,
      seen < sample.sampledUnix - sample.intervalS) :
    ∀ pass ∈ judgeAll fields priorRule state samples, Refused run pass := by
  induction samples generalizing state last with
  | nil => exact forall_mem_nil _
  | cons sample samples ih =>
    obtain ⟨hf, hre⟩ := pairwise_cons.mp hti
    have hlt := hl sample (.head _)
    obtain ⟨verdict, next, reference, hj⟩ :
        ∃ verdict next reference, idleJudgement fields priorRule state.identity false (some state)
        sample = (verdict, next, reference) :=
      ⟨_, _, _, rfl⟩
    obtain ⟨hr, hn⟩ := h.step hso hru hlt hfi (ha sample (.head _)) (ht sample (.head _)) hj
    rw [judgeAll, hj]
    refine forall_mem_cons.mpr ⟨hr, ?_⟩
    exact ih hn (hru.trans hlt.le) hre hf (fun s hs => ha s (.tail _ hs)) fun s hs =>
      ht s (.tail _ hs)

end

/-- While a run above the recorded maximum is shorter than the time from its first sample back to
the oldest firm one, the run is judged by what came before it and refused. -/
theorem run_judged_by_earlier_samples (fields : List F) (priorRule : Option ((F → Rat) → Bool))
    (state : IdleState F I)
    (first : HostSample F) (rest : List (HostSample F)) (field : F) (hfield : field ∈ fields)
      (hquiet : state.excursionUnix = none)
    (hordered : state.samples.Pairwise fun s s' => s.sampledUnix ≤ s'.sampledUnix)
    (hnew : ∀ s ∈ state.samples, s.sampledUnix ≠ first.sampledUnix)
      (hbefore : older first.sampledUnix (firm state.samples) ≠ [])
    (htimes : (first :: rest).Pairwise fun s s' => s.sampledUnix < s'.sampledUnix)
    (htail : ∀ sample ∈ first :: rest, ∀ seen ∈ state.holdersSeenUnix,
      seen < sample.sampledUnix - sample.intervalS)
    (habove : ∀ sample ∈ first :: rest,
      recordedMax field (older first.sampledUnix (firm state.samples)) < sample.value field) :
    ∀ pass ∈ judgeAll fields priorRule state (first :: rest),
      ∀ oldest ∈ older first.sampledUnix (firm pass.history.samples),
      (∀ s ∈ older first.sampledUnix (firm pass.history.samples),
      oldest.sampledUnix ≤ s.sampledUnix) →
      pass.sample.sampledUnix - first.sampledUnix < first.sampledUnix - oldest.sampledUnix →
      pass.verdict.exceeds = true ∧ ∃ reference, pass.reference = some reference ∧ ∀ s ∈ reference,
      s.sampledUnix < first.sampledUnix := by
  obtain ⟨hf, hre⟩ := pairwise_cons.mp htimes
  obtain ⟨verdict, next, reference, hj⟩ :
      ∃ verdict next reference, idleJudgement fields priorRule state.identity false (some state)
      first = (verdict, next, reference) :=
    ⟨_, _, _, rfl⟩
  obtain ⟨hr, hn⟩ := Running.first hquiet hbefore hnew hfield (habove first (.head _))
    (htail first (.head _)) hj
  have hso : (older first.sampledUnix (firm state.samples)).Pairwise fun s s' =>
    s.sampledUnix ≤ s'.sampledUnix :=
    (hordered.filter _).filter _
  rw [judgeAll, hj]
  refine forall_mem_cons.mpr ⟨hr, ?_⟩
  exact hn.all hso (le_refl _) hre hf hfield (fun s hs => habove s (.tail _ hs)) fun s hs =>
    htail s (.tail _ hs)

section

def historyOf (samples : List (Rat × Rat × Bool)) : IdleState Unit Unit where
  identity := ()
  samples := samples.map fun (time, value, provisional) => ⟨time, fun _ => value, provisional⟩

def loadAt (time : Rat) : HostSample Unit := ⟨time, 10, fun _ => 2⟩

theorem load_refused_at_250 :
    ∃ pass, (judgeAll [()] none (historyOf [(0, 1, false), (100, 1, false)])
    [loadAt 200, loadAt 250])[1]? = some pass ∧
      pass.verdict.exceeds = true ∧ ∃ reference, pass.reference = some reference ∧ ∀ s ∈ reference,
      s.sampledUnix < 200 := by
  refine ⟨_, rfl, ?_⟩
  have hold : ⟨0, fun _ => 1, false⟩ ∈ older 200
    (firm (historyOf [(0, 1, false), (100, 1, false)]).samples) :=
    mem_filter.mpr ⟨mem_filter.mpr ⟨.head _, rfl⟩, by decide +kernel⟩
  refine run_judged_by_earlier_samples [()] none (historyOf [(0, 1, false), (100, 1, false)])
    (loadAt 200) [loadAt 250] () (.head _) rfl
    ?_ ?_ ?_ ?_ ?_ ?_ _ (.tail _ (.head _)) ⟨0, fun _ => 1, false⟩ ?_ ?_ ?_
  · decide +kernel
  · decide +kernel
  · exact ne_nil_of_mem hold
  · decide +kernel
  · exact fun _ _ _ hs => nomatch hs
  · decide +kernel
  · exact hold
  · decide +kernel
  · decide +kernel

/-- A pass within the reach of the oldest sample before the run that does not refuse, in a run above
the recorded maximum. -/
def Missed (state : IdleState Unit Unit) (first : HostSample Unit) (rest : List (HostSample Unit)) :
    Prop :=
  (∀ sample ∈ first :: rest, recordedMax () (older first.sampledUnix (firm state.samples)) <
    sample.value ()) ∧
    ∃ pass ∈ judgeAll [()] none state (first :: rest),
    ∃ oldest ∈ older first.sampledUnix pass.history.samples,
      pass.sample.sampledUnix - first.sampledUnix < first.sampledUnix - oldest.sampledUnix ∧
      pass.verdict.exceeds = false

instance (state : IdleState Unit Unit) (first : HostSample Unit) (rest : List (HostSample Unit)) :
    Decidable (Missed state first rest) :=
  inferInstanceAs (Decidable (_ ∧ _))

/-- The oldest sample still waits for the gate; a sample of the run's first time is remembered; the
clock went back. -/
theorem load_becomes_baseline : Missed (historyOf [(0, 1, true), (100, 1, false)]) (loadAt 200)
    [loadAt 350] ∧
      Missed (historyOf [(0, 1, false), (200, 2, false)]) (loadAt 200) [loadAt 250] ∧
      Missed (historyOf [(100, 1, false), (50, 1, false)]) (loadAt 200) [loadAt 320] := by
  decide +kernel

end

end PrismaBuild.Idle
