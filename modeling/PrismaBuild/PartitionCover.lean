import PrismaBuild.PartitionRun
import PrismaBuild.ActionKey

namespace PrismaBuild.Decomposition

open List

variable {F : Type} [FloatFormat F]

inductive RunsFrom (tasks : List (LogicalTask F)) : Nat → List Run → Prop
  | done : RunsFrom tasks tasks.length []
  | run {r : Run} {rest : List Run} (nonempty : r.first < r.stop) (inside : r.stop ≤ tasks.length)
      (shared : ∀ i, r.first ≤ i → i < r.stop → residencyAt tasks i = r.key)
      (maximal : r.stop < tasks.length → residencyAt tasks r.stop ≠ r.key)
        (later : RunsFrom tasks r.stop rest) :
      RunsFrom tasks r.first (r :: rest)

theorem runs_loop (tasks : List (LogicalTask F)) {m : Nat} (hm : m ≤ tasks.length)
    (hne : tasks ≠ []) :
    ∃ start acc, (List.range' 1 m).foldl (fun (state : Nat × List Run) index =>
        if index = tasks.length ∨ residencyAt tasks index ≠ residencyAt tasks state.1 then
          (index, state.2 ++ [⟨state.1, index, residencyAt tasks state.1⟩]) else state)
            (0, []) = (start, acc) ∧
      start ≤ m ∧ (m = tasks.length → start = m) ∧
        (∀ i, start ≤ i → i ≤ m → residencyAt tasks i = residencyAt tasks start) ∧
      ∀ rest, RunsFrom tasks start rest → RunsFrom tasks 0 (acc ++ rest) := by
  have hl := length_pos_iff.mpr hne
  induction m with
  | zero =>
    refine ⟨0, [], rfl, Nat.le_refl _, fun h => ?_, fun i _ hi => ?_, fun rest h => h⟩
    · omega
    · rw [Nat.le_zero.mp hi]
  | succ m ih =>
    obtain ⟨start, acc, hf, hsm, -, hs, ha⟩ := ih (by omega)
    rw [range'_1_concat, foldl_append, hf, foldl_cons, foldl_nil]
    have hid : 1 + m = m + 1 := by omega
    rw [hid]
    split
    next hc =>
      refine ⟨m + 1, _, rfl, Nat.le_refl _, fun _ => rfl, fun i hi hi' => ?_, fun rest hr => ?_⟩
      · rw [show i = m + 1 by omega]
      · rw [append_assoc]
        refine ha _ (.run (r := ⟨start, m + 1, residencyAt tasks start⟩) (by dsimp only; omega) hm
          ?_ ?_ hr)
        · intro i hi hi'
          dsimp only at hi'
          exact hs i hi (by omega)
        · intro hlt
          rcases hc with hc | hc
          · dsimp only at hlt
            omega
          · exact hc
    next hc =>
      rw [not_or, not_not] at hc
      refine ⟨start, acc, rfl, by omega, fun h => absurd h hc.1, fun i hi hi' => ?_, ha⟩
      by_cases him : i ≤ m
      · exact hs i hi him
      · rw [show i = m + 1 by omega]
        exact hc.2

variable {tasks : List (LogicalTask F)} {l : Limits} {start : Nat}

theorem runs_from (hne : tasks ≠ []) : RunsFrom tasks 0 (runs tasks) := by
  obtain ⟨start, acc, hf, -, he, -, ha⟩ := runs_loop tasks (Nat.le_refl _) hne
  have h := ha [] (he rfl ▸ .done)
  rw [append_nil] at h
  rw [runs, hf]
  exact h

/-- A batch of estimated work `w` keeps to the limits of its residency. -/
def Limits.Within (l : Limits) (w : ℚ) : Prop :=
    l.setup + w ≤ l.wall ∧ l.setup ≤ l.fraction * (l.setup + w)

theorem Limits.within_iff (hf : 0 < l.fraction) {w : ℚ} : l.Within w ↔ l.minWork ≤ w ∧
    w ≤ l.maxWork := by
  unfold Limits.Within Limits.minWork Limits.maxWork
  rw [div_le_iff₀ hf]
  constructor
  · rintro ⟨h1, h2⟩
    exact ⟨by linarith, by linarith⟩
  · rintro ⟨h1, h2⟩
    exact ⟨by linarith, by linarith⟩

def estimate (g : List (LogicalTask F)) : ℚ := (g.map LogicalTask.seconds).sum

theorem work_slice (sl : List (LogicalTask F)) {a b : Nat} (hab : a ≤ b) (hb : b ≤ sl.length) :
    work (sl.map LogicalTask.seconds) a b = estimate ((sl.drop a).take (b - a)) := by
  rw [work_eq hab (by rwa [length_map]), ← map_drop, ← map_take]
  rfl

variable {sl : List (LogicalTask F)}

theorem pieces_groups (hf : 0 < l.fraction)
    {pairs : List (Nat × Nat)} (h : Pieces l (sl.map LogicalTask.seconds) start pairs) :
    (pairs.map fun c => (sl.drop c.1).take (c.2 - c.1)).flatten = sl.drop start ∧
      ∀ g ∈ pairs.map fun c => (sl.drop c.1).take (c.2 - c.1), g ≠ [] ∧ l.Within (estimate g) := by
  induction h with
  | done => simp
  | @batch start finish rest hfe _ ih =>
    have hlt := hfe.lt
    have hle : finish ≤ sl.length := by simpa using hfe.le
    obtain ⟨hfl, hgr⟩ := ih
    refine ⟨?_, ?_⟩
    · rw [map_cons, flatten_cons, hfl]
      have hd : sl.drop finish = (sl.drop start).drop (finish - start) := by
        rw [drop_drop]
        congr 1
        omega
      rw [hd, take_append_drop]
    · intro g hg
      rcases mem_cons.mp hg with rfl | hg
      · refine ⟨?_, ?_⟩
        · intro hn
          have hl := congrArg length hn
          simp only [length_take, length_drop, length_nil] at hl
          omega
        · rw [Limits.within_iff hf]
          have hw := work_slice sl hlt.le hle
          exact ⟨hw ▸ hfe.floor, hw ▸ hfe.ceiling⟩
      · exact hgr g hg

variable {groups : List (List (LogicalTask F))}

theorem cuttable_of_groups (hf : 0 < l.fraction) (hs : start ≤ sl.length)
    (hfl : groups.flatten = sl.drop start)
    (hgr : ∀ g ∈ groups, g ≠ [] ∧ l.Within (estimate g)) :
      Cuttable l (sl.map LogicalTask.seconds) start := by
  induction groups generalizing start with
  | nil =>
    have hl := congrArg length hfl
    simp only [flatten_nil, length_nil, length_drop] at hl
    have heq : start = (sl.map LogicalTask.seconds).length := by
      rw [length_map]
      omega
    rw [heq]
    exact .done
  | cons g groups ih =>
    rw [flatten_cons] at hfl
    have hl := congrArg length hfl
    simp only [length_append, length_drop] at hl
    obtain ⟨hne, hwi⟩ := hgr g (by simp)
    have hp := length_pos_iff.mpr hne
    have hg : g = (sl.drop start).take (start + g.length - start) := by
      rw [← hfl, Nat.add_sub_cancel_left, take_left]
    have hr : groups.flatten = sl.drop (start + g.length) := by
      rw [← drop_drop, ← hfl, drop_left]
    have hw := work_slice sl (show start ≤ start + g.length by omega) (by omega)
    rw [← hg] at hw
    rw [Limits.within_iff hf] at hwi
    have hfe : Feasible l (sl.map LogicalTask.seconds) start (start + g.length) :=
      ⟨by omega, by rw [length_map]; omega, by rw [hw]; exact hwi.1, by rw [hw]; exact hwi.2⟩
    exact .batch hfe (ih (by omega) hr fun g' hg' => hgr g' (by simp [hg']))

def BatchPolicy.limits (policy : BatchPolicy F) (setup : ℚ) : Limits :=
  ⟨setup, FloatFormat.value policy.maxSetupFraction.1,
    FloatFormat.value policy.maxEstimatedWallSeconds.1⟩

/-- Tasks of one residency whose setup and work keep to the policy's limits. -/
structure Batch (policy : BatchPolicy F) (g : List (LogicalTask F)) : Prop where
  nonempty : g ≠ []
  within : ∃ key setup, (∀ t ∈ g, t.residencyKey.1 = key) ∧ policy.setupSeconds key = some setup ∧
    (policy.limits setup).Within (estimate g)

/-- Groups that hold the tasks in their order, each once, and each group a batch. -/
structure Covers (policy : BatchPolicy F) (tasks : List (LogicalTask F))
    (groups : List (List (LogicalTask F))) : Prop where
  exact : groups.flatten = tasks
  batch : ∀ g ∈ groups, Batch policy g

theorem groups_split {run rest : List (LogicalTask F)} {key : Name}
    (hr : ∀ t ∈ run, t.residencyKey.1 = key)
    (hre : ∀ t, rest.head? = some t → t.residencyKey.1 ≠ key) (hf : groups.flatten = run ++ rest)
    (hgr : ∀ g ∈ groups, g ≠ [] ∧ ∃ k, ∀ t ∈ g, t.residencyKey.1 = k) :
    ∃ before after, groups = before ++ after ∧ before.flatten = run ∧ after.flatten = rest := by
  induction groups generalizing run with
  | nil =>
    obtain ⟨rfl, rfl⟩ := append_eq_nil_iff.mp hf.symm
    exact ⟨[], [], rfl, rfl, rfl⟩
  | cons g groups ih =>
    obtain ⟨hne, k, hk⟩ := hgr g (by simp)
    rw [flatten_cons] at hf
    rcases append_eq_append_iff.mp hf with ⟨more, hru', hm⟩ | ⟨spill, hg, hr'⟩
    · obtain ⟨before, after, rfl, hb, ha⟩ :=
        ih (fun t ht => hr t (by rw [hru']; exact mem_append_right _ ht)) hm
        fun g' hg' => hgr g' (by simp [hg'])
      exact ⟨g :: before, after, rfl, by rw [flatten_cons, hb, hru'], ha⟩
    · cases run with
      | nil => exact ⟨[], g :: groups, rfl, rfl, by rw [flatten_cons, hf, nil_append]⟩
      | cons x run =>
        cases spill with
        | nil =>
          rw [append_nil] at hg
          exact ⟨[g], groups, rfl, by simp [hg], by rw [hr', nil_append]⟩
        | cons y spill =>
          have hx := hr x (by simp)
          have hkx := hk x (by rw [hg]; simp)
          have hky := hk y (by rw [hg]; simp)
          exact absurd (hky.trans (hkx.symm.trans hx)) (hre y (by rw [hr']; rfl))

theorem residencyAt_eq {i : Nat} (hi : i < tasks.length) :
    residencyAt tasks i = (tasks.get ⟨i, hi⟩).residencyKey.1 := by
  simp [residencyAt, getElem?_eq_getElem hi]

section

variable {tasks : List (LogicalTask F)} {r : Run}

theorem slice_append_drop (h : r.first ≤ r.stop) :
    slice tasks r ++ tasks.drop r.stop = tasks.drop r.first := by
  have hd : tasks.drop r.stop = (tasks.drop r.first).drop (r.stop - r.first) := by
    rw [drop_drop]
    congr 1
    omega
  rw [slice, hd, take_append_drop]

theorem slice_shared (hin : r.stop ≤ tasks.length)
    (h : ∀ i, r.first ≤ i → i < r.stop → residencyAt tasks i = r.key)
    {t : LogicalTask F} (ht : t ∈ slice tasks r) : t.residencyKey.1 = r.key := by
  obtain ⟨i, hi, rfl⟩ := getElem_of_mem ht
  have hl : i < r.stop - r.first := by
    simp only [slice, length_take] at hi
    omega
  rw [← h (r.first + i) (by omega) (by omega), residencyAt_eq (by omega)]
  simp [slice]

theorem slice_ne_nil (h : r.first < r.stop) (hin : r.stop ≤ tasks.length) : slice tasks r ≠ [] := by
  intro hn
  have hl := congrArg length hn
  simp only [slice, length_take, length_drop, length_nil] at hl
  omega

theorem idsAt_range' (tasks : List (LogicalTask F)) (i n : Nat) :
    idsAt tasks (List.range' i n) = ((tasks.drop i).take n).map fun t => t.id.1 := by
  induction n generalizing i with
  | zero => simp [idsAt]
  | succ n ih =>
    have ih' := ih (i + 1)
    rw [idsAt] at ih'
    rw [range'_succ, idsAt, filterMap_cons, ih']
    by_cases hi : i < tasks.length
    · rw [getElem?_eq_getElem hi, drop_eq_getElem_cons hi]
      rfl
    · rw [getElem?_eq_none (by omega), drop_eq_nil_of_le (by omega), drop_eq_nil_of_le (by omega)]
      simp

theorem Pieces.le {l : Limits} {seconds : List ℚ} {start : Nat} {pairs : List (Nat × Nat)}
    (h : Pieces l seconds start pairs) : ∀ c ∈ pairs, c.2 ≤ seconds.length := by
  induction h with
  | done => simp
  | batch hf _ ih => exact forall_mem_cons.mpr ⟨hf.le, ih⟩

end

variable {policy : BatchPolicy F}

theorem partitionRuns_cases
    (hpr : ∀ t ∈ tasks, (policy.setupSeconds t.residencyKey.1).isSome = true) {b : Nat}
    {rs : List Run}
    (h : RunsFrom tasks b rs) : (∃ groups, Covers policy (tasks.drop b) groups ∧
      partitionRuns tasks policy rs = .ok (groups.map fun g => g.map fun t => t.id.1)) ∨
    ∃ refusal, partitionRuns tasks policy rs = .error (.refused refusal) ∧
      ¬ ∃ groups, Covers policy (tasks.drop b) groups := by
  have hfr : ∀ setup, 0 < (policy.limits setup).fraction :=
    fun _ => (fraction_of_accepted policy.maxSetupFraction).1
  induction h with
  | done => exact .inl ⟨[], ⟨by simp, by simp⟩, rfl⟩
  | @run r rest hlt hin hsh hm _ ih =>
    have hke : ∀ t ∈ slice tasks r, t.residencyKey.1 = r.key := fun t ht => slice_shared hin hsh ht
    obtain ⟨setup, hse⟩ : ∃ setup, policy.setupSeconds r.key = some setup := by
      obtain ⟨t, ht⟩ := exists_mem_of_ne_nil _ (slice_ne_nil hlt hin)
      have hme : t ∈ tasks := mem_of_mem_drop (mem_of_mem_take ht)
      rw [← hke t ht]
      exact Option.isSome_iff_exists.mp (hpr t hme)
    -- a cover of what is left begins with a cover of this run
    have hsp : ∀ groups, Covers policy (tasks.drop r.first) groups →
        Cuttable (policy.limits setup) ((slice tasks r).map LogicalTask.seconds) 0 ∧
          ∃ after, Covers policy (tasks.drop r.stop) after := by
      rintro groups ⟨hf, hgr⟩
      rw [← slice_append_drop hlt.le] at hf
      have hh : ∀ t, (tasks.drop r.stop).head? = some t → t.residencyKey.1 ≠ r.key := by
        intro t ht
        rw [head?_drop] at ht
        obtain ⟨hst, rfl⟩ := List.getElem?_eq_some_iff.mp ht
        have := hm hst
        rwa [residencyAt_eq hst] at this
      obtain ⟨before, after, rfl, hb, ha⟩ := groups_split hke hh hf fun g hg =>
        ⟨(hgr g hg).nonempty, by
          obtain ⟨k, -, hk, -⟩ := (hgr g hg).within
          exact ⟨k, hk⟩⟩
      refine ⟨cuttable_of_groups (hfr setup) (Nat.zero_le _) hb ?_, after, ha, fun g hg =>
        hgr g (by simp [hg])⟩
      intro g hg
      obtain ⟨k, s, hk, hs, hw⟩ := (hgr g (by simp [hg])).within
      have hne := (hgr g (by simp [hg])).nonempty
      obtain ⟨t, ht⟩ := exists_mem_of_ne_nil _ hne
      have htr : t ∈ slice tasks r := by
        rw [← hb]
        exact mem_flatten.mpr ⟨g, hg, ht⟩
      rw [← hk t ht, hke t htr, hse] at hs
      cases hs
      exact ⟨hne, hw⟩
    rw [partitionRuns, hse]
    dsimp only
    rcases partitionRun_chosen tasks r (policy.limits setup) (slice_ne_nil hlt hin) with
      ⟨refusal, hr, -, hn⟩ | ⟨pairs, hch, hr⟩
    · refine .inr ⟨refusal, ?_, fun ⟨groups, hc⟩ => hn (hsp groups hc).1⟩
      rw [BatchPolicy.limits] at hr
      rw [hr]
    · rw [BatchPolicy.limits] at hr
      rw [hr]
      have hp := hch.pieces
      rcases ih with ⟨groups, hc, hok⟩ | ⟨refusal, he, hn⟩
      · obtain ⟨hf, hal⟩ := pieces_groups (hfr setup) hp
        refine .inl ⟨(pairs.map fun c => ((slice tasks r).drop c.1).take (c.2 - c.1)) ++ groups,
          ⟨?_, ?_⟩, ?_⟩
        · rw [flatten_append, hf, hc.exact, drop_zero, slice_append_drop hlt.le]
        · intro g hg
          rcases mem_append.mp hg with hg | hg
          · obtain ⟨hne, hw⟩ := hal g hg
            refine ⟨hne, r.key, setup, fun t ht => hke t ?_, hse, hw⟩
            obtain ⟨c, -, rfl⟩ := mem_map.mp hg
            exact mem_of_mem_drop (mem_of_mem_take ht)
          · exact hc.batch g hg
        · dsimp only
          rw [hok, map_append, map_map, map_map]
          have hi : pairs.map (idsAt tasks ∘ fun c => range' (r.first + c.1) (c.2 - c.1)) =
              pairs.map ((fun g => g.map fun t => t.id.1) ∘ fun c =>
              ((slice tasks r).drop c.1).take (c.2 - c.1)) := by
            refine map_congr_left fun c hcm => ?_
            have hle := hp.le c hcm
            simp only [length_map, slice, length_take] at hle
            rw [Function.comp_apply, Function.comp_apply, idsAt_range', slice, drop_take, drop_drop,
              take_take]
            congr 2
            omega
          rw [hi]
          rfl
      · refine .inr ⟨refusal, ?_, fun ⟨groups, hc⟩ => hn (hsp groups hc).2⟩
        rw [he]
        rfl

/-- The batches are a cover of the roster: its task ids in order, and each batch within its limits.
-/
def ExactCover (roster : Roster F) (policy : BatchPolicy F) (batches : List (List Name)) : Prop :=
  batches.flatten = roster.tasks.map (fun t => t.id.1) ∧
    ∃ groups, Covers policy roster.tasks groups ∧ batches = groups.map fun g => g.map fun t =>
    t.id.1

variable {roster : Roster F}

theorem Covers.exactCover
    (h : Covers policy roster.tasks groups) :
    ExactCover roster policy (groups.map fun g => g.map fun t => t.id.1) :=
  ⟨by rw [← map_flatten, h.exact], groups, h, rfl⟩

theorem partitionRoster_cases (hp : policy.Prices roster) :
    (∃ groups, Covers policy roster.tasks groups ∧
      partitionRoster roster policy = .ok (groups.map fun g => g.map fun t => t.id.1)) ∨
    ∃ refusal, partitionRoster roster policy = .error (.refused refusal) ∧
      ¬ ∃ groups, Covers policy roster.tasks groups :=
  partitionRuns_cases hp (runs_from roster.nonempty)

/-- The partitioner answers a cover of the roster whenever there is one, and refuses exactly when
there is none. -/
theorem partitionRoster_exact (roster : Roster F) (policy : BatchPolicy F)
    (hprices : policy.Prices roster) :
    (∀ batches, partitionRoster roster policy = .ok batches → ExactCover roster policy batches) ∧
    ((∃ refusal, partitionRoster roster policy = .error (.refused refusal)) ↔
    ¬ ∃ batches, ExactCover roster policy batches) := by
  rcases partitionRoster_cases hprices with ⟨groups, hc, hok⟩ | ⟨refusal, he, hn⟩
  · rw [hok]
    refine ⟨fun batches h => ?_, ?_⟩
    · cases h
      exact hc.exactCover
    · constructor
      · rintro ⟨refusal, h⟩
        cases h
      · intro hno
        exact absurd ⟨_, hc.exactCover⟩ hno
  · rw [he]
    refine ⟨fun batches h => ?_, ?_⟩
    · cases h
    · constructor
      · rintro - ⟨batches, -, groups, hc, -⟩
        exact hn ⟨groups, hc⟩
      · exact fun _ => ⟨refusal, rfl⟩

section

open Contract
open PrismaBuild.Action (ZeroOne accepted_a accepted_b accepted_x accepted_y accepted_model
    accepted_measured)

theorem oneSecond_positive : positiveProblem ZeroOne.one = none := by decide +kernel

def oneSecondTask (id outputId : Text idText) : LogicalTask ZeroOne where
  id := id
  payload := .null
  residencyKey := ⟨"model", accepted_model⟩
  estimatedSeconds := ⟨.one, oneSecond_positive⟩
  estimateEvidence := ⟨"measured", accepted_measured⟩
  outputId := outputId

def twoTasks : Roster ZeroOne where
  tasks := [oneSecondTask ⟨"a", accepted_a⟩ ⟨"x", accepted_x⟩,
    oneSecondTask ⟨"b", accepted_b⟩ ⟨"y", accepted_y⟩]
  nonempty := by simp
  ids := by decide +kernel
  outputs := by decide +kernel

def oneSecondPolicy : BatchPolicy ZeroOne where
  residencies := [⟨⟨"model", accepted_model⟩, ⟨.zero, by decide +kernel⟩,
    ⟨"measured", accepted_measured⟩⟩]
  keys := by decide +kernel
  declaredFraction := .int 1
  maxSetupFraction := ⟨.one, by decide +kernel⟩
  maxEstimatedWallSeconds := ⟨.one, by decide +kernel⟩

theorem oneSecondPolicy_prices : oneSecondPolicy.Prices twoTasks := by
  simp only [BatchPolicy.Prices, twoTasks, forall_mem_cons, not_mem_nil, false_implies,
    implies_true, and_true]
  decide +kernel

theorem twoTasks_batches : partitionRoster twoTasks oneSecondPolicy =
    .ok [[("a" : Name)], [("b" : Name)]] := by
  have h : (partitionRoster twoTasks oneSecondPolicy).toOption =
    some [[("a" : Name)], [("b" : Name)]] := by decide +kernel
  cases hp : partitionRoster twoTasks oneSecondPolicy with
  | error e => rw [hp] at h; cases h
  | ok batches => rw [hp] at h; exact congrArg Except.ok (Option.some.inj h)

theorem twoTasks_partitioned : ∃ batches, partitionRoster twoTasks oneSecondPolicy = .ok batches ∧
    ExactCover twoTasks oneSecondPolicy batches ∧ batches = [[("a" : Name)], [("b" : Name)]] :=
  ⟨_, twoTasks_batches, (partitionRoster_exact twoTasks oneSecondPolicy oneSecondPolicy_prices).1 _
    twoTasks_batches, rfl⟩

end

end PrismaBuild.Decomposition
