import PrismaBuild.Cover

namespace PrismaBuild.Decomposition

open Contract List

theorem index_unique {α : Type} {lists : List (List α)} (hn : lists.flatten.Nodup) {i j : Nat}
    {a b : List α}
    (hi : lists[i]? = some a) (hj : lists[j]? = some b) {x : α} (ha : x ∈ a) (hb : x ∈ b) :
      i = j := by
  obtain ⟨hli, rfl⟩ := List.getElem?_eq_some_iff.mp hi
  obtain ⟨hlj, rfl⟩ := List.getElem?_eq_some_iff.mp hj
  have hp := pairwise_iff_getElem.mp (nodup_flatten.mp hn).2
  rcases Nat.lt_trichotomy i j with hlt | heq | hgt
  · exact absurd hb (hp i j hli hlj hlt ha)
  · exact heq
  · exact absurd ha (hp j i hlj hli hgt hb)

section

variable {F : Type} [FloatFormat F] [HashFunction]

section

variable {plan : Plan F}

structure OfPlan (plan : Plan F) (m : Manifest) : Prop where
  ordinal : m.childOrdinal < plan.partitions.1.length
  parent : m.parentKey = plan.parentKey
  plan : m.planKey = plan.planKey

theorem checkManifest_ok_iff {j : Json F} {m : Manifest} :
    checkManifest plan j = .ok m ↔ validateChildResultManifest j = .ok m ∧ OfPlan plan m := by
  constructor
  · intro h
    obtain ⟨m', hm, h1⟩ := bind_ok.mp h
    obtain ⟨ho, h1⟩ := guard_ok.mp h1
    obtain ⟨hp, h1⟩ := guard_ok.mp h1
    obtain ⟨hpl, h1⟩ := guard_ok.mp h1
    cases h1
    exact ⟨except_mapError_ok hm, Nat.lt_of_not_le ho, Subtype.ext (not_not.mp hp),
      Subtype.ext (not_not.mp hpl)⟩
  · rintro ⟨hm, ho, hp, hpl⟩
    rw [checkManifest, hm]
    simp only [Except.mapError, bind, Except.bind]
    rw [if_neg (Nat.not_le.mpr ho), if_neg (not_not.mpr (congrArg _ hp)),
      if_neg (not_not.mpr (congrArg _ hpl))]

variable {js : List (Json F)} {ms : List Manifest}

theorem checkManifests_ok_iff :
    checkManifests plan js = .ok ms ↔ List.Forall₂ (fun j m => checkManifest plan j = .ok m) js
    ms := by
  induction js generalizing ms with
  | nil =>
    rw [checkManifests, forall₂_nil_left_iff]
    exact ⟨fun h => (Except.ok.inj h).symm, fun h => h ▸ rfl⟩
  | cons j js ih =>
    rw [checkManifests, forall₂_cons_left_iff]
    constructor
    · intro h
      obtain ⟨m, hm, h1⟩ := bind_ok.mp h
      obtain ⟨rest, hr, he⟩ := bind_ok.mp h1
      cases he
      exact ⟨m, rest, hm, ih.mp hr, rfl⟩
    · rintro ⟨m, rest, hm, hr, rfl⟩
      rw [hm, ih.mpr hr]
      rfl

def Manifests (js : List (Json F)) (ms : List Manifest) : Prop :=
  List.Forall₂ (fun j m => validateChildResultManifest j = .ok m) js ms

theorem checkManifests_iff : checkManifests plan js = .ok ms ↔ Manifests js ms ∧
    ∀ m ∈ ms, OfPlan plan m := by
  rw [checkManifests_ok_iff]
  constructor
  · intro h
    refine ⟨h.imp fun j m hm => (checkManifest_ok_iff.mp hm).1, fun m hm => ?_⟩
    obtain ⟨i, hi, rfl⟩ := getElem_of_mem hm
    exact (checkManifest_ok_iff.mp (h.get (by rw [h.length_eq]; exact hi) hi)).2
  · rintro ⟨h, ha⟩
    refine forall₂_iff_get.mpr ⟨h.length_eq, fun i h1 h2 => ?_⟩
    exact checkManifest_ok_iff.mpr ⟨h.get h1 h2, ha _ (get_mem _ _)⟩

end

theorem verifyExactCover_ok_iff {rows : List RosterRow} {plan : Plan F} {js : List (Json F)}
    {receipt : GroupReceipt} :
    verifyExactCover rows plan js = .ok receipt ↔
      js.length = plan.partitions.1.length ∧ ∃ ms, Manifests js ms ∧ (∀ m ∈ ms, OfPlan plan m) ∧
        (ms.map Manifest.childOrdinal).Nodup ∧
        coverReceipt rows plan (byOrdinal ms) = .ok receipt := by
  unfold verifyExactCover
  split
  next hl => simp [hl]
  next hl =>
    rw [bind_ok]
    simp only [not_not.mp hl, true_and, bind_ok, checkManifests_iff]
    constructor
    · rintro ⟨ms, ⟨hms, ha⟩, u, ho, h⟩
      exact ⟨ms, hms, ha, (checkOrdinals_ok_iff.mp ho).1, h⟩
    · rintro ⟨ms, hms, ha, ho, h⟩
      exact ⟨ms, ⟨hms, ha⟩, (), checkOrdinals_ok_iff.mpr ⟨ho, by simp⟩, h⟩

omit [HashFunction] in
theorem reportedRows_printable (es : List Reported) :
    (Json.arr (es.map Reported.row) : Json F).printable = true := by
  refine Json.printableItems_iff.mpr fun v hv => ?_
  obtain ⟨e, -, rfl⟩ := mem_map.mp hv
  rfl

section

variable {rows : List RosterRow} {plan : Plan F} {manifestAt : Nat → Option Manifest}

theorem coverReceipt_ok {receipt : GroupReceipt}
    (h : coverReceipt rows plan manifestAt = .ok receipt) :
    Answers rows manifestAt 0 [] plan.ids ∧
      ∀ r ∈ rows, r.id ∈ (mergedResults manifestAt plan.ids.length).map Reported.id := by
  obtain ⟨answered, han, h1⟩ := bind_ok.mp h
  obtain ⟨ha, ht⟩ := answerBatches_ok (show (Answered.tasks []).Nodup from nodup_nil) han
  split at h1
  next => cases h1
  next hn =>
    refine ⟨ha, fun r hr => ?_⟩
    have hm := unanswered_nil.mp hn r hr
    rw [ht, ← mergedResults_eq] at hm
    exact hm

theorem coverReceipt_of (h : Answers rows manifestAt 0 [] plan.ids)
    (hro : ∀ r ∈ rows, r.id ∈ (mergedResults manifestAt plan.ids.length).map Reported.id) :
    ∃ receipt, coverReceipt rows plan manifestAt = .ok receipt := by
  obtain ⟨answered, ha⟩ := Answers.ok (show (Answered.tasks []).Nodup from nodup_nil) h
  have ht := (answerBatches_ok (show (Answered.tasks []).Nodup from nodup_nil) ha).2
  have hn : (rows.filter fun r => decide (r.id ∉ answered.tasks)) = [] :=
    unanswered_nil.mpr fun r hr => by
      rw [ht, ← mergedResults_eq]
      exact hro r hr
  rw [coverReceipt, ha]
  simp only [bind, Except.bind, hn, canonicalSha256, canonicalBytes_of (reportedRows_printable _)]
  exact ⟨_, rfl⟩

end

/-- The results of all manifests name every roster task exactly once and nothing else, each under
the roster's output id and from the one child whose batch contains it, for this plan. -/
structure ExactAnswers (rows : List RosterRow) (plan : Plan F) (ms : List Manifest) : Prop where
  tasks : ((ms.flatMap Manifest.results).map Reported.id).Perm (rows.map RosterRow.id)
  outputs : ∀ m ∈ ms, ∀ e ∈ m.results, ⟨e.id, e.outputId.1⟩ ∈ rows
  children : (ms.map Manifest.childOrdinal).Nodup
  batches : ∀ m ∈ ms, ∀ e ∈ m.results, ∃ batch, plan.ids[m.childOrdinal]? = some batch ∧
    e.id ∈ batch
  parent : ∀ m ∈ ms, m.parentKey = plan.parentKey
  plan : ∀ m ∈ ms, m.planKey = plan.planKey

theorem Plan.length_ids (plan : Plan F) : plan.ids.length = plan.partitions.1.length := length_map _

section

variable {rows : List RosterRow} {plan : Plan F} {ms : List Manifest}

theorem ordinals_perm (hof : ∀ m ∈ ms, OfPlan plan m) (hn : (ms.map Manifest.childOrdinal).Nodup)
    (hl : ms.length = plan.partitions.1.length) :
    (ms.map Manifest.childOrdinal).Perm (List.range plan.ids.length) := by
  refine (subperm_of_subset hn fun o ho => ?_).perm_of_length_le ?_
  · obtain ⟨m, hm, rfl⟩ := mem_map.mp ho
    rw [mem_range, plan.length_ids]
    exact (hof m hm).ordinal
  · rw [length_range, length_map, plan.length_ids, hl]

theorem exactAnswers_of_receipt (hi : (rows.map RosterRow.id).Nodup) (hof : ∀ m ∈ ms, OfPlan plan m)
    (hn : (ms.map Manifest.childOrdinal).Nodup) (hl : ms.length = plan.partitions.1.length)
    {receipt : GroupReceipt}
    (h : coverReceipt rows plan (byOrdinal ms) = .ok receipt) :
    ExactAnswers rows plan ms ∧ ∀ m ∈ ms, ∀ e ∈ m.results, ∀ k < m.childOrdinal, ∀ earlier,
      plan.ids[k]? = some earlier → e.id ∉ earlier := by
  obtain ⟨ha, hro⟩ := coverReceipt_ok h
  have hme := merged_perm (ordinals_perm hof hn hl)
  have hc : ∀ m ∈ ms, ∀ e ∈ m.results, ∃ batch, plan.ids[m.childOrdinal]? = some batch ∧
    e.Fits rows batch ∧
      ∀ k < m.childOrdinal, ∀ earlier, plan.ids[k]? = some earlier → e.id ∉ earlier := by
    intro m hm e he
    have hlt : m.childOrdinal < plan.ids.length := by
      rw [plan.length_ids]
      exact (hof m hm).ordinal
    obtain ⟨m', hm', hal⟩ := ha.child (getElem?_eq_getElem hlt)
    rw [Nat.zero_add, (byOrdinal_iff hn).mpr ⟨hm, rfl⟩] at hm'
    cases hm'
    obtain ⟨hf, -, hea⟩ := hal e he
    exact ⟨_, getElem?_eq_getElem hlt, hf, hea⟩
  have ho : ∀ m ∈ ms, ∀ e ∈ m.results, ⟨e.id, e.outputId.1⟩ ∈ rows := by
    intro m hm e he
    obtain ⟨batch, -, hf, -⟩ := hc m hm e he
    exact outputByTask_mem hf.2
  have hno : ((mergedResults (byOrdinal ms) plan.ids.length).map Reported.id).Nodup := by
    rw [mergedResults_eq]
    exact ha.nodup nodup_nil
  have hta := hme.map Reported.id
  refine ⟨⟨?_, ho, hn, ?_, fun m hm => (hof m hm).parent, fun m hm => (hof m hm).plan⟩, ?_⟩
  · refine (perm_ext_iff_of_nodup (hta.nodup_iff.mp hno) hi).mpr fun task =>
      ⟨fun ht => ?_, fun ht => ?_⟩
    · obtain ⟨e, he, rfl⟩ := mem_map.mp ht
      obtain ⟨m, hm, he⟩ := mem_flatMap.mp he
      exact mem_map.mpr ⟨_, ho m hm e he, rfl⟩
    · obtain ⟨r, hr, rfl⟩ := mem_map.mp ht
      exact hta.mem_iff.mp (hro r hr)
  · intro m hm e he
    obtain ⟨batch, hb, hf, -⟩ := hc m hm e he
    exact ⟨batch, hb, hf.1⟩
  · intro m hm e he
    obtain ⟨batch, -, -, hea⟩ := hc m hm e he
    exact hea

variable {batch : List Name}

theorem ExactAnswers.answered (h : ExactAnswers rows plan ms) (hi : (rows.map RosterRow.id).Nodup)
    (hp : plan.ids.flatten = rows.map RosterRow.id) {k : Nat} (hk : plan.ids[k]? = some batch)
    {task : Name} (ht : task ∈ batch) : ∃ m ∈ ms, m.childOrdinal = k ∧ ∃ e ∈ m.results,
      e.id = task := by
  have hme : task ∈ rows.map RosterRow.id := by
    rw [← hp]
    exact mem_flatten.mpr ⟨batch, mem_of_getElem? hk, ht⟩
  obtain ⟨e, he, rfl⟩ := mem_map.mp (h.tasks.mem_iff.mpr hme)
  obtain ⟨m, hm, he⟩ := mem_flatMap.mp he
  obtain ⟨batch', hb', he'⟩ := h.batches m hm e he
  exact ⟨m, hm, index_unique (hp ▸ hi) hb' hk he' ht, e, he, rfl⟩

theorem Plan.batch_ne_nil (plan : Plan F) (h : batch ∈ plan.ids) : batch ≠ [] := by
  obtain ⟨b, hb, rfl⟩ := mem_map.mp h
  exact fun hn => plan.partitions.2.2 b hb (map_eq_nil_iff.mp hn)

theorem ExactAnswers.ofPlan (h : ExactAnswers rows plan ms) {m : Manifest} (hm : m ∈ ms) :
    OfPlan plan m := by
  obtain ⟨e, he⟩ := exists_mem_of_ne_nil _ m.nonempty
  obtain ⟨batch, hb, -⟩ := h.batches m hm e he
  obtain ⟨hlt, -⟩ := List.getElem?_eq_some_iff.mp hb
  exact ⟨plan.length_ids ▸ hlt, h.parent m hm, h.plan m hm⟩

theorem ExactAnswers.length_eq (h : ExactAnswers rows plan ms) (hi : (rows.map RosterRow.id).Nodup)
    (hpl : plan.ids.flatten = rows.map RosterRow.id) : ms.length = plan.partitions.1.length := by
  have hp : (ms.map Manifest.childOrdinal).Perm (range plan.partitions.1.length) := by
    refine (perm_ext_iff_of_nodup h.children nodup_range).mpr fun k => ⟨fun hk => ?_, fun hk => ?_⟩
    · obtain ⟨m, hm, rfl⟩ := mem_map.mp hk
      exact mem_range.mpr (h.ofPlan hm).ordinal
    · rw [mem_range, ← plan.length_ids] at hk
      obtain ⟨task, ht⟩ := exists_mem_of_ne_nil _ (plan.batch_ne_nil (getElem_mem hk))
      obtain ⟨m, hm, ho, -⟩ := h.answered hi hpl (getElem?_eq_getElem hk) ht
      exact mem_map.mpr ⟨m, hm, ho⟩
  simpa using hp.length_eq

theorem ExactAnswers.receipt (h : ExactAnswers rows plan ms) (hi : (rows.map RosterRow.id).Nodup)
    (hp : plan.ids.flatten = rows.map RosterRow.id) :
    ∃ receipt, coverReceipt rows plan (byOrdinal ms) = .ok receipt := by
  have hme := (merged_perm (ordinals_perm (fun m hm => h.ofPlan hm) h.children
    (h.length_eq hi hp))).map Reported.id
  refine coverReceipt_of (answers_of ?_ fun k batch hk => ?_) fun r hr => ?_
  · rw [nil_append, ← mergedResults_eq]
    exact (hme.trans h.tasks).nodup_iff.mpr hi
  · obtain ⟨task, ht⟩ := exists_mem_of_ne_nil _ (plan.batch_ne_nil (mem_of_getElem? hk))
    obtain ⟨m, hm, ho, -⟩ := h.answered hi hp hk ht
    refine ⟨m, (byOrdinal_iff h.children).mpr ⟨hm, by omega⟩, fun e he => ⟨?_, ?_⟩, fun task' ht' =>
      ?_⟩
    · obtain ⟨batch', hb', he'⟩ := h.batches m hm e he
      rw [ho, hk] at hb'
      cases hb'
      exact he'
    · exact outputByTask_of_mem hi (h.outputs m hm e he)
    · obtain ⟨m', hm', ho', e, he, rfl⟩ := h.answered hi hp hk ht'
      rw [inj_on_of_nodup_map h.children hm hm' (ho.trans ho'.symm)]
      exact mem_map_of_mem he
  · exact (hme.trans h.tasks).mem_iff.mpr (mem_map_of_mem hr)

end

/-- A receipt is for exact answers, exact answers of a plan of the roster get one, and the order of
the manifests does not matter. -/
theorem verifyExactCover_exact (rows : List RosterRow) (hids : (rows.map RosterRow.id).Nodup)
    (plan : Plan F) :
    (∀ js receipt, verifyExactCover rows plan js = .ok receipt →
      ∃ ms, Manifests js ms ∧ ExactAnswers rows plan ms ∧ ∀ m ∈ ms, ∀ e ∈ m.results,
      ∀ k < m.childOrdinal, ∀ earlier,
        plan.ids[k]? = some earlier → e.id ∉ earlier) ∧
    (plan.ids.flatten = rows.map RosterRow.id → ∀ js ms, Manifests js ms →
      ExactAnswers rows plan ms →
      ∃ receipt, verifyExactCover rows plan js = .ok receipt) ∧
    (∀ js js', js.Perm js' → (verifyExactCover rows plan js).toOption =
      (verifyExactCover rows plan js').toOption) := by
  refine ⟨?_, ?_, ?_⟩
  · intro js receipt h
    obtain ⟨hl, ms, hms, hof, hn, hr⟩ := verifyExactCover_ok_iff.mp h
    exact ⟨ms, hms, exactAnswers_of_receipt hids hof hn (hms.length_eq ▸ hl) hr⟩
  · intro hpl js ms hms h
    obtain ⟨receipt, hr⟩ := h.receipt hids hpl
    exact ⟨receipt, verifyExactCover_ok_iff.mpr ⟨hms.length_eq.trans (h.length_eq hids hpl), ms,
      hms,
      fun m hm => h.ofPlan hm, h.children, hr⟩⟩
  · intro js js' hpe
    have hi : ∀ {js js' : List (Json F)}, js.Perm js' →
      ∀ receipt, verifyExactCover rows plan js = .ok receipt →
        verifyExactCover rows plan js' = .ok receipt := by
      intro js js' hpe receipt h
      obtain ⟨hl, ms, hms, hof, hn, hr⟩ := verifyExactCover_ok_iff.mp h
      obtain ⟨ms', hms', hp⟩ := perm_comp_forall₂ hpe.symm hms
      refine verifyExactCover_ok_iff.mpr ⟨hpe.length_eq ▸ hl, ms', hms', fun m hm =>
        hof m (hp.mem_iff.mp hm),
        (hp.map _).nodup_iff.mpr hn, ?_⟩
      rw [← byOrdinal_perm hn hp.symm]
      exact hr
    cases h : verifyExactCover rows plan js with
    | ok receipt => rw [hi hpe receipt h]
    | error e =>
      cases h' : verifyExactCover rows plan js' with
      | ok receipt =>
        rw [hi hpe.symm receipt h'] at h
        cases h
      | error e' => rfl

end

section

open PrismaBuild.Action (ZeroOne zeros hexDigits hexDigits_accepted digest_encodeUtf8 accepted_a
    accepted_b accepted_x accepted_y)

def demoBlueprint : Blueprint where
  parentKey := zeros
  algorithmVersion := algorithmVersion
  partitions := ⟨[[⟨"a", accepted_a⟩], [⟨"b", accepted_b⟩]], by decide +kernel, by simp⟩

def demoPlan : Plan ZeroOne where
  toBlueprint := demoBlueprint
  planKey := ⟨hexDigits (demoBlueprint.toJson : Json ZeroOne).text.length, hexDigits_accepted _⟩
  bound := by
    rw [canonicalSha256, canonicalBytes_of (by decide +kernel)]
    simp only [bind, Except.bind, pure, Except.pure, digest_encodeUtf8]

def oneAnswer (parentKey planKey : Text sha256Text) (ordinal : Nat) (task output : Text idText) :
    Manifest :=
  ⟨parentKey, planKey, ordinal, [⟨task, output, zeros⟩], List.cons_ne_nil _ _⟩

def demoManifest (ordinal : Nat) (task output : Text idText) : Manifest :=
    oneAnswer zeros demoPlan.planKey ordinal task output

def demoManifests : List Manifest :=
  [demoManifest 1 ⟨"b", accepted_b⟩ ⟨"y", accepted_y⟩,
    demoManifest 0 ⟨"a", accepted_a⟩ ⟨"x", accepted_x⟩]

def demoRows : List RosterRow := [⟨"a", "x"⟩, ⟨"b", "y"⟩]

theorem demoManifests_exact : ExactAnswers demoRows demoPlan demoManifests where
  tasks := List.Perm.swap _ _ _
  outputs := by
    simp [demoManifests, demoManifest, oneAnswer, demoRows]
  children := by decide +kernel
  batches := by
    simp [demoManifests, demoManifest, oneAnswer, demoPlan, demoBlueprint, Plan.ids]
  parent := by
    simp [demoManifests, demoManifest, oneAnswer, demoPlan, demoBlueprint]
  plan := by
    simp [demoManifests, demoManifest, oneAnswer]

theorem demoManifests_covered : ∃ receipt,
    verifyExactCover demoRows demoPlan (demoManifests.map Manifest.toJson) = .ok receipt :=
  (verifyExactCover_exact demoRows (by decide +kernel) demoPlan).2.1 (by decide +kernel) _
    demoManifests
    (by simp only [Manifests, forall₂_map_left_iff, forall₂_same,
      validateChildResultManifest_toJson, implies_true])
    demoManifests_exact

end

end PrismaBuild.Decomposition
