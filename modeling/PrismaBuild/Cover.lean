import PrismaBuild.Manifest

namespace PrismaBuild.Decomposition

open Contract List

theorem Answered.tasks_add (answered : Answered) (ordinal : Nat) (es : List Reported) :
    Answered.tasks (answered ++ es.map fun e => (e.id, ordinal)) = answered.tasks ++
    es.map Reported.id := by
  simp [Answered.tasks]

theorem unanswered_nil {α : Type} {key : α → Name} {l : List α} {tasks : List Name} :
    (l.filter fun a => decide (key a ∉ tasks)) = [] ↔ ∀ a ∈ l, key a ∈ tasks := by
  simp [filter_eq_nil_iff]

def Reported.Fits (rows : List RosterRow) (batch : List Name) (e : Reported) : Prop :=
  e.id ∈ batch ∧ outputByTask rows e.id = some e.outputId.1

section

variable {rows : List RosterRow} {ordinal : Nat} {batch : List Name} {answered answered' : Answered}

theorem find_answered {task : Name} : (answered.find? fun p => p.1 == task) = none ↔
    task ∉ answered.tasks := by
  simp only [find?_eq_none, beq_iff_eq, Answered.tasks, mem_map, not_exists, not_and]

variable {es : List Reported}

theorem answerResults_cons {e : Reported} :
    answerResults rows ordinal batch answered (e :: es) = .ok answered' ↔ e.Fits rows batch ∧
    e.id ∉ answered.tasks ∧
        answerResults rows ordinal batch (answered ++ [(e.id, ordinal)]) es = .ok answered' := by
  constructor
  · intro h
    unfold answerResults at h
    obtain ⟨hb, h⟩ := guard_ok.mp h
    split at h
    next => cases h
    next output ho =>
      obtain ⟨he, h⟩ := guard_ok.mp h
      split at h
      next => cases h
      next hf =>
        exact ⟨⟨not_not.mp hb, ho.trans (congrArg some (not_not.mp he))⟩, find_answered.mp hf, h⟩
  · rintro ⟨⟨hb, ho⟩, hn, h⟩
    have hf := find_answered.mpr hn
    have ho' := ho
    rw [answerResults, if_neg (not_not.mpr hb), ho']
    dsimp only
    rw [if_neg (not_not.mpr rfl), hf]
    exact h

theorem answerResults_ok_iff (hn : answered.tasks.Nodup) :
    answerResults rows ordinal batch answered es = .ok answered' ↔
      answered' = answered ++ es.map (fun e => (e.id, ordinal)) ∧ (∀ e ∈ es, e.Fits rows batch) ∧
        (answered.tasks ++ es.map Reported.id).Nodup := by
  induction es generalizing answered with
  | nil => simp [answerResults, hn, eq_comm]
  | cons e es ih =>
    have ht := answered.tasks_add ordinal [e]
    have hs : answered.tasks ++ (e :: es).map Reported.id = (answered.tasks ++ [e.id]) ++
      es.map Reported.id := by simp
    rw [answerResults_cons, hs, forall_mem_cons]
    constructor
    · rintro ⟨hf, hne, h⟩
      have hn' : (answered.tasks ++ [e.id]).Nodup := by
        rw [nodup_append_comm]
        exact nodup_cons.mpr ⟨hne, hn⟩
      obtain ⟨rfl, ha, hno⟩ := (ih (ht ▸ hn')).mp h
      exact ⟨by simp, ⟨hf, ha⟩, ht ▸ hno⟩
    · rintro ⟨rfl, ⟨hf, ha⟩, hno⟩
      have hn' := hno.sublist (sublist_append_left _ _)
      refine ⟨hf, fun hm => ?_, (ih (ht ▸ hn')).mpr ⟨by simp, ha, ht ▸ hno⟩⟩
      exact (nodup_append.mp hn').2.2 e.id hm e.id (by simp) rfl

end

section

variable (rows : List RosterRow) (manifestAt : Nat → Option Manifest)

def mergedFrom (ordinal count : Nat) : List Reported :=
  (List.range' ordinal count).flatMap fun o => (manifestAt o).elim [] Manifest.results

theorem mergedResults_eq (count : Nat) :
    mergedResults manifestAt count = mergedFrom manifestAt 0 count := by
  rw [mergedResults, mergedFrom, range_eq_range']

variable {ordinal : Nat}

theorem mergedFrom_succ {count : Nat} {m : Manifest} (h : manifestAt ordinal = some m) :
    mergedFrom manifestAt ordinal (count + 1) = m.results ++ mergedFrom manifestAt (ordinal + 1)
    count := by
  simp [mergedFrom, range'_succ, h]

inductive Answers : Nat → List Name → List (List Name) → Prop
  | done {ordinal : Nat} {before : List Name} : Answers ordinal before []
  | batch {ordinal : Nat} {before : List Name} {batch : List Name} {rest : List (List Name)}
    {m : Manifest}
      (child : manifestAt ordinal = some m) (fits : ∀ e ∈ m.results, e.Fits rows batch)
      (fresh : (before ++ m.results.map Reported.id).Nodup)
      (full : ∀ task ∈ batch, task ∈ before ++ m.results.map Reported.id)
      (later : Answers (ordinal + 1) (before ++ m.results.map Reported.id) rest) :
        Answers ordinal before (batch :: rest)

variable {rows manifestAt} {batches : List (List Name)}

theorem answerBatches_ok {answered answered' : Answered}
    (hn : answered.tasks.Nodup) (h : answerBatches rows manifestAt ordinal answered batches = .ok
    answered') :
    Answers rows manifestAt ordinal answered.tasks batches ∧
      answered'.tasks = answered.tasks ++ (mergedFrom manifestAt ordinal batches.length).map
      Reported.id := by
  induction batches generalizing ordinal answered with
  | nil =>
    cases h
    exact ⟨.done, by simp [mergedFrom]⟩
  | cons batch rest ih =>
    unfold answerBatches at h
    split at h
    next => cases h
    next m hm =>
      obtain ⟨mid, hmi, h1⟩ := bind_ok.mp h
      obtain ⟨rfl, hf, hno⟩ := (answerResults_ok_iff hn).mp hmi
      have hta := answered.tasks_add ordinal m.results
      split at h1
      next => cases h1
      next hnon =>
        obtain ⟨hr, ha⟩ := ih (hta ▸ hno) h1
        rw [hta] at hr ha
        refine ⟨.batch hm hf hno (fun task ht => ?_) hr, ?_⟩
        · exact hta ▸ unanswered_nil.mp hnon task ht
        · rw [ha, length_cons, mergedFrom_succ manifestAt hm, map_append, append_assoc]

theorem Answers.ok {answered : Answered} (hn : answered.tasks.Nodup)
    (h : Answers rows manifestAt ordinal answered.tasks batches) :
    ∃ answered', answerBatches rows manifestAt ordinal answered batches = .ok answered' := by
  induction batches generalizing ordinal answered with
  | nil => exact ⟨answered, rfl⟩
  | cons batch rest ih =>
    cases h with
    | @batch _ _ _ _ m hm hfi hf hfu hr =>
      have hta := answered.tasks_add ordinal m.results
      obtain ⟨answered', hok⟩ := ih (hta ▸ hf) (hta ▸ hr)
      have hno := unanswered_nil.mpr fun task ht => hta ▸ hfu task ht
      refine ⟨answered', ?_⟩
      rw [answerBatches, hm]
      dsimp only
      rw [(answerResults_ok_iff hn).mpr ⟨rfl, hfi, hf⟩]
      simp only [bind, Except.bind, hno]
      exact hok

variable {before : List Name}

theorem Answers.nodup (hn : before.Nodup) (h : Answers rows manifestAt ordinal before batches) :
    (before ++ (mergedFrom manifestAt ordinal batches.length).map Reported.id).Nodup := by
  induction h with
  | done => simpa [mergedFrom] using hn
  | batch hm _ hf _ _ ih =>
    rw [length_cons, mergedFrom_succ manifestAt hm, map_append, ← append_assoc]
    exact ih hf

theorem Answers.child
    (h : Answers rows manifestAt ordinal before batches) {i : Nat} {batch : List Name}
    (hi : batches[i]? = some batch) :
    ∃ m, manifestAt (ordinal + i) = some m ∧ ∀ e ∈ m.results, e.Fits rows batch ∧ e.id ∉ before ∧
      ∀ k < i, ∀ earlier, batches[k]? = some earlier → e.id ∉ earlier := by
  induction h generalizing i with
  | done => cases hi
  | @batch ordinal before b rest m hm hfi hfr hfu _ ih =>
    cases i with
    | zero =>
      cases hi
      refine ⟨m, hm, fun e he => ⟨hfi e he, fun hb => ?_, fun k hk =>
        absurd hk (Nat.not_lt_zero k)⟩⟩
      exact (nodup_append.mp hfr).2.2 e.id hb e.id (mem_map_of_mem he) rfl
    | succ i =>
      obtain ⟨m', hm', ha⟩ := ih hi
      refine ⟨m', by rw [← hm']; congr 1; omega, fun e he => ?_⟩
      obtain ⟨hf, hb, hea⟩ := ha e he
      refine ⟨hf, fun h => hb (mem_append_left _ h), fun k hk earlier hg => ?_⟩
      cases k with
      | zero =>
        cases hg
        exact fun h => hb (hfu _ h)
      | succ k => exact hea k (by omega) earlier hg

theorem answers_of (hn : (before ++ (mergedFrom manifestAt ordinal batches.length).map
    Reported.id).Nodup)
    (h : ∀ i batch, batches[i]? = some batch → ∃ m, manifestAt (ordinal + i) = some m ∧
      (∀ e ∈ m.results, e.Fits rows batch) ∧ ∀ task ∈ batch, task ∈ m.results.map Reported.id) :
    Answers rows manifestAt ordinal before batches := by
  induction batches generalizing ordinal before with
  | nil => exact .done
  | cons batch rest ih =>
    obtain ⟨m, hm, hf, hfu⟩ := h 0 batch rfl
    rw [Nat.add_zero] at hm
    rw [length_cons, mergedFrom_succ manifestAt hm, map_append, ← append_assoc] at hn
    refine .batch hm hf (hn.sublist (sublist_append_left _ _))
      (fun task ht => mem_append_right _ (hfu task ht)) (ih hn fun i b hb => ?_)
    obtain ⟨m', hm', hb'⟩ := h (i + 1) b hb
    exact ⟨m', by rw [← hm']; congr 1; omega, hb'⟩

end

section

theorem checkOrdinals_ok_iff {seen : List Nat} {ms : List Manifest} :
    checkOrdinals seen ms = .ok () ↔ (ms.map Manifest.childOrdinal).Nodup ∧
    ∀ m ∈ ms, m.childOrdinal ∉ seen := by
  induction ms generalizing seen with
  | nil => simp [checkOrdinals]
  | cons m ms ih =>
    unfold checkOrdinals
    split
    next hm => simp [hm]
    next hm =>
      rw [ih]
      simp only [map_cons, nodup_cons, mem_map, mem_cons, not_exists, not_and, not_or,
        forall_eq_or_imp]
      constructor
      · rintro ⟨hn, hal⟩
        exact ⟨⟨fun a ha => (hal a ha).1, hn⟩, hm, fun a ha => (hal a ha).2⟩
      · rintro ⟨⟨hne, hn⟩, -, hal⟩
        exact ⟨hn, fun a ha => ⟨hne a ha, hal a ha⟩⟩

variable {ms : List Manifest}

theorem byOrdinal_iff (hn : (ms.map Manifest.childOrdinal).Nodup) {ordinal : Nat} {m : Manifest} :
    byOrdinal ms ordinal = some m ↔ m ∈ ms ∧ m.childOrdinal = ordinal := by
  constructor
  · intro h
    exact ⟨mem_of_find?_eq_some h, by simpa using find?_some h⟩
  · rintro ⟨hm, rfl⟩
    cases hf : byOrdinal ms m.childOrdinal with
    | none => exact absurd (beq_self_eq_true _) (find?_eq_none.mp hf m hm)
    | some m' =>
      have ho : m'.childOrdinal = m.childOrdinal := by simpa using find?_some hf
      rw [inj_on_of_nodup_map hn (mem_of_find?_eq_some hf) hm ho]

theorem byOrdinal_perm {ms' : List Manifest} (hn : (ms.map Manifest.childOrdinal).Nodup)
    (h : ms.Perm ms') :
    byOrdinal ms = byOrdinal ms' := by
  funext ordinal
  refine Option.ext fun m => ?_
  rw [byOrdinal_iff hn, byOrdinal_iff ((h.map _).nodup_iff.mp hn), h.mem_iff]

theorem merged_perm {count : Nat} (h : (ms.map Manifest.childOrdinal).Perm (List.range count)) :
    (mergedResults (byOrdinal ms) count).Perm (ms.flatMap Manifest.results) := by
  have hn := h.nodup_iff.mpr nodup_range
  have heq : (ms.map Manifest.childOrdinal).flatMap
    (fun o => (byOrdinal ms o).elim [] Manifest.results) =
      ms.flatMap Manifest.results := by
    rw [flatMap_map]
    refine flatMap_congr fun m hm => ?_
    rw [(byOrdinal_iff hn).mpr ⟨hm, rfl⟩]
    rfl
  rw [← heq]
  exact (h.symm.flatMap_right _)

end

section

variable {rows : List RosterRow}

theorem outputByTask_mem {task output : Name} (h : outputByTask rows task = some output) :
    ⟨task, output⟩ ∈ rows := by
  obtain ⟨r, hr, rfl⟩ := Option.map_eq_some_iff.mp h
  have hid : r.id = task := by simpa using find?_some hr
  rw [← hid]
  exact mem_reverse.mp (mem_of_find?_eq_some hr)

theorem outputByTask_of_mem (hn : (rows.map RosterRow.id).Nodup) {r : RosterRow} (hr : r ∈ rows) :
    outputByTask rows r.id = some r.outputId := by
  cases hf : rows.reverse.find? fun row => row.id == r.id with
  | none => exact absurd (beq_self_eq_true _) (find?_eq_none.mp hf r (mem_reverse.mpr hr))
  | some r' =>
    have hid : r'.id = r.id := by simpa using find?_some hf
    have hm : r' ∈ rows := mem_reverse.mp (mem_of_find?_eq_some hf)
    rw [outputByTask, hf, inj_on_of_nodup_map hn hm hr hid]
    rfl

end

end PrismaBuild.Decomposition
