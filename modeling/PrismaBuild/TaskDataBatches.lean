import PrismaBuild.ActionKey
import PrismaBuild.TaskData

namespace PrismaBuild.Decomposition

open Contract DataManifest List

variable {F : Type}

section

def Within (mount : Name) (e : Entry) : Prop := (mount ++ ['/']).isPrefixOf e.path.1 = true ∧
    normpath e.path.1 = e.path.1

variable {mount path : Name} {e : Entry} {entries : List Entry} {seen : List (Name × Nat)}

theorem checkEntry_within {raw : Json F} (h : checkEntry mount path raw = .ok e) :
    Within mount e := by
  obtain ⟨fields, _, h⟩ := bind_ok.mp h
  obtain ⟨name, hn, h⟩ := bind_ok.mp h
  obtain ⟨offset, _, h⟩ := bind_ok.mp h
  obtain ⟨size, _, h⟩ := bind_ok.mp h
  split at h
  · cases h
  · obtain ⟨digest, _, h⟩ := bind_ok.mp h
    cases h
    obtain ⟨t, _, hn⟩ := bind_ok.mp hn
    obtain ⟨hin, hn⟩ := guard_ok.mp hn
    obtain ⟨hn, hn⟩ := guard_ok.mp hn
    cases hn
    exact ⟨Bool.eq_true_of_not_eq_false hin, not_not.mp hn⟩

theorem checkEntries_within {index : Nat} {raw : List (Json F)}
    (h : checkEntries mount index seen raw = .ok entries) : ∀ e ∈ entries, Within mount e := by
  induction raw generalizing index seen entries with
  | nil =>
    cases h
    exact forall_mem_nil _
  | cons value raw ih =>
    obtain ⟨e, he, h⟩ := bind_ok.mp h
    obtain ⟨-, h⟩ := guard_ok.mp h
    obtain ⟨more, hm, h⟩ := bind_ok.mp h
    cases h
    exact forall_mem_cons.mpr ⟨checkEntry_within he, ih hm⟩

theorem entryKeys_sorted : KeysSorted entryKeys := by decide +kernel

theorem checkEntry_toJson (h : Within mount e) (path : Name) :
    checkEntry mount path (e.toJson : Json F) = .ok e := by
  obtain ⟨name, offset, bytes, digest, hpo⟩ := e
  obtain ⟨hin, hn⟩ := h
  have hk := entryKeys_sorted
  have hp : checkPath mount (field path "path") (.str name.1 : Json F) = .ok name := by
    unfold checkPath
    rw [text_str]
    show (if (mount ++ ['/']).isPrefixOf name.1 = false then _ else if normpath name.1 ≠ name.1 then
      _ else _) = _
    rw [if_neg (by rw [hin]; exact Bool.noConfusion), if_neg (not_not.mpr hn)]
    rfl
  obtain ⟨value, hj, hd⟩ : ∃ value : Json F, Entry.toJson ⟨name, offset, bytes, digest, hpo⟩ =
      .obj [("bytes", .int bytes), ("offset", .int offset), ("path", .str name.1),
      ("sha256", value)] ∧
      checkDigest (field path "sha256") value = .ok digest := by
    cases digest with
    | none => exact ⟨.null, rfl, rfl⟩
    | some digest =>
      refine ⟨.str digest.1, rfl, ?_⟩
      show (sha256 _ _ >>= _) = _
      rw [sha256, text_str]
      rfl
  have hke : ([("bytes", .int bytes), ("offset", .int offset), ("path", .str name.1),
    ("sha256", value)] :
      List (Name × Json F)).map Prod.fst = entryKeys := rfl
  rw [hj, checkEntry, exactMapping_obj _ hke]
  simp only [bind, Except.bind, entry_at hk hke (i := 0) rfl, entry_at hk hke (i := 1) rfl,
    entry_at hk hke (i := 2) rfl, entry_at hk hke (i := 3) rfl, nonnegativeInteger_int, hp, hd]
  rw [dif_neg (Nat.pos_iff_ne_zero.mp hpo)]
  rfl

theorem checkEntries_toJson (h : ∀ e ∈ entries, Within mount e) (index : Nat)
    (hn : (entries.map identity).Nodup) (hse : ∀ e ∈ entries, identity e ∉ seen) :
    checkEntries mount index seen (entries.map (Entry.toJson : Entry → Json F)) = .ok entries := by
  induction entries generalizing index seen with
  | nil => rfl
  | cons e entries ih =>
    obtain ⟨he, hr⟩ := forall_mem_cons.mp h
    obtain ⟨hf, hl⟩ := forall_mem_cons.mp hse
    rw [map_cons, nodup_cons] at hn
    have hfr : ∀ other ∈ entries, identity other ∉ identity e :: seen := fun other ho hm => by
      rcases mem_cons.mp hm with hs | hm
      · exact hn.1 (hs ▸ mem_map_of_mem ho)
      · exact hl other ho hm
    rw [map_cons, checkEntries, checkEntry_toJson he]
    show (if identity e ∈ seen then _ else _) = _
    rw [if_neg hf]
    show (checkEntries mount (index + 1) (identity e :: seen) _ >>= _) = _
    rw [ih hr (index + 1) hn.2 hfr]
    rfl

end

section

variable {mount : Name} {producedBy annotations : List (Name × Json F)} {raw : List (Json F)}
    {count : Nat} {total : Int}

theorem manifestV1_sorted : KeysSorted DataManifest.manifestKeys := by decide +kernel

theorem validate_manifestV1_eq : validateDataManifest
    (manifestV1 mount producedBy annotations raw count total) = (do
      let checked ← checkMount (.str mount : Json F)
      let raw ← nonEmptyArray entriesPath (.arr raw)
      if maxEntries < raw.length then fail entriesPath "exceed 1000000"
      else do
        let entries ← checkEntries checked.1 0 [] raw
        if count ≠ entries.length then fail "data manifest entry_count" "disagrees with entries"
        else do
          let sum ← nonnegativeInteger "data manifest total_bytes" (.int total : Json F)
          if sum ≠ (entries.map Entry.bytes).sum then
            fail "data manifest total_bytes" "disagrees with entries"
          else pure ⟨producedBy, annotations, checked, entries, entries.length,
            (entries.map Entry.bytes).sum, none⟩) := by
  have hk := manifestV1_sorted
  have hke : ([("annotations", .obj annotations), ("entries", .arr raw),
    ("entry_count", .int count), ("mount_prefix", .str mount),
      ("produced_by", .obj producedBy), ("schema", .str schemaV1), ("total_bytes", .int total)] :
      List (Name × Json F)).map Prod.fst = DataManifest.manifestKeys := rfl
  have hs : schemaIsV2 (Json.get? ([("annotations", .obj annotations), ("entries", .arr raw),
    ("entry_count", .int count),
      ("mount_prefix", .str mount), ("produced_by", .obj producedBy), ("schema", .str schemaV1),
      ("total_bytes", .int total)] :
      List (Name × Json F)) "schema") = .ok false := rfl
  rw [manifestV1, validateDataManifest, hs]
  simp only [bind, Except.bind, Bool.false_eq_true, if_false, exactMapping_obj _ hke,
    entry_at hk hke (i := 0) rfl, entry_at hk hke (i := 1) rfl, entry_at hk hke (i := 2) rfl,
    entry_at hk hke (i := 3) rfl, entry_at hk hke (i := 4) rfl, entry_at hk hke (i := 6) rfl,
    nonnegativeInteger_int,
    objectFields]
  rfl

theorem validate_manifestV1 {m : DataManifest.Manifest F} :
    validateDataManifest (manifestV1 mount producedBy annotations raw count total) = .ok m ↔
      ∃ checked entries, checkMount (.str mount : Json F) = .ok checked ∧ raw ≠ [] ∧
      raw.length ≤ maxEntries ∧
        checkEntries checked.1 0 [] raw = .ok entries ∧ count = entries.length ∧
        total = ((entries.map Entry.bytes).sum : Nat) ∧
        m = ⟨producedBy, annotations, checked, entries, entries.length,
        (entries.map Entry.bytes).sum, none⟩ := by
  rw [validate_manifestV1_eq]
  constructor
  · intro h
    obtain ⟨checked, hm, h⟩ := bind_ok.mp h
    obtain ⟨found, hf, h⟩ := bind_ok.mp h
    cases raw with
    | nil => cases hf
    | cons first rest =>
      cases hf
      obtain ⟨hfe, h⟩ := guard_ok.mp h
      obtain ⟨entries, he, h⟩ := bind_ok.mp h
      obtain ⟨hc, h⟩ := guard_ok.mp h
      obtain ⟨sum, hs, h⟩ := bind_ok.mp h
      obtain ⟨ht, h⟩ := guard_ok.mp h
      cases h
      have hi := Json.int.inj (nonnegativeInteger_ok hs)
      rw [not_not.mp ht] at hi
      exact ⟨checked, entries, hm, cons_ne_nil _ _, Nat.le_of_not_lt hfe, he, not_not.mp hc, hi,
        rfl⟩
  · rintro ⟨checked, entries, hm, hne, hfe, he, hc, rfl, rfl⟩
    obtain ⟨first, rest, rfl⟩ := exists_cons_of_ne_nil hne
    refine bind_ok.mpr ⟨checked, hm, bind_ok.mpr ⟨first :: rest, rfl, ?_⟩⟩
    rw [if_neg (Nat.not_lt.mpr hfe)]
    refine bind_ok.mpr ⟨entries, he, ?_⟩
    rw [if_neg (not_not.mpr hc), nonnegativeInteger_int]
    show (if _ ≠ _ then _ else _) = _
    rw [if_neg (not_not.mpr rfl)]
    rfl

theorem checkMount_val {checked : Text plainText}
    (h : checkMount (.str mount : Json F) = .ok checked) :
    checked.1 = mount := by
  obtain ⟨t, ht, h⟩ := bind_ok.mp h
  have hv : t.1 = mount := (Json.str.inj (text_ok ht)).symm
  obtain ⟨-, h⟩ := guard_ok.mp h
  obtain ⟨-, h⟩ := guard_ok.mp h
  cases h
  exact hv

end

section

def Agree (entries : List Entry) : Prop := ∀ a ∈ entries, ∀ b ∈ entries, identity a = identity b →
    a = b

variable {entries : List Entry}

theorem Agree.subset {other : List Entry} (h : Agree entries) (hs : ∀ e ∈ other, e ∈ entries) :
    Agree other :=
  fun a ha b hb => h a (hs a ha) b (hs b hb)

theorem mergeEntries_of_agree {rest : List Entry} (h : Agree (entries ++ rest)) :
    mergeEntries entries rest = .ok (entries ++ (rest.filter (· ∉ entries)).eraseDups) := by
  induction rest generalizing entries with
  | nil => simp [mergeEntries]
  | cons e rest ih =>
    unfold mergeEntries
    split
    next other ho =>
      have hm := mem_of_find?_eq_some ho
      have hsa : identity other = identity e := by simpa using find?_some ho
      have heq : other = e := h other (mem_append_left _ hm) e (mem_append_right _ (.head _)) hsa
      have hin := heq ▸ hm
      rw [if_neg (not_not.mpr heq), filter_cons_of_neg (by simpa using hin)]
      refine ih (h.subset fun a ha => ?_)
      rcases mem_append.mp ha with ha | ha
      · exact mem_append_left _ ha
      · exact mem_append_right _ (.tail _ ha)
    next hn =>
      have hno : e ∉ entries := fun hin => by
        have := find?_eq_none.mp hn e hin
        simp at this
      have hs : rest.filter (fun a => decide (a ∉ entries ++ [e])) =
          (rest.filter fun a => decide (a ∉ entries)).filter fun a => !a == e := by
        rw [filter_filter]
        refine filter_congr fun a _ => ?_
        by_cases ha : a = e
        · simp [ha]
        · simp [ha]
      rw [filter_cons_of_pos (by simpa using hno), eraseDups_cons, ih (by simpa using h), hs,
        append_assoc]
      rfl

theorem agree_of_mergeEntries {rest merged : List Entry} (he : Agree entries)
    (h : mergeEntries entries rest = .ok merged) : Agree (entries ++ rest) := by
  induction rest generalizing entries with
  | nil => rwa [append_nil]
  | cons e rest ih =>
    unfold mergeEntries at h
    split at h
    next other ho =>
      obtain ⟨heq, h⟩ := guard_ok.mp h
      have hme := not_not.mp heq ▸ mem_of_find?_eq_some ho
      refine (ih he h).subset fun a ha => ?_
      rcases mem_append.mp ha with ha | ha
      · exact mem_append_left _ ha
      · rcases mem_cons.mp ha with rfl | ha
        · exact mem_append_left _ hme
        · exact mem_append_right _ ha
    next hn =>
      have hne : ∀ a ∈ entries, identity a ≠ identity e := fun a ha => by
        simpa using find?_eq_none.mp hn a ha
      have hm : Agree (entries ++ [e]) := by
        intro a ha b hb hs
        rcases mem_append.mp ha with ha | ha <;> rcases mem_append.mp hb with hb | hb
        · exact he a ha b hb hs
        · rw [mem_singleton.mp hb] at hs
          exact absurd hs (hne a ha)
        · rw [mem_singleton.mp ha] at hs
          exact absurd hs.symm (hne b hb)
        · rw [mem_singleton.mp ha, mem_singleton.mp hb]
      have hal := ih hm h
      rwa [append_assoc, singleton_append] at hal

theorem mergeEntries_append (entries first second : List Entry) :
    mergeEntries entries (first ++ second) = mergeEntries entries first >>= fun merged =>
    mergeEntries merged second := by
  induction first generalizing entries with
  | nil => rfl
  | cons e first ih =>
    rw [cons_append, mergeEntries, mergeEntries]
    split
    next other _ =>
      split
      · rfl
      · exact ih entries
    next => exact ih (entries ++ [e])

theorem nodup_eraseDups (entries : List Entry) : entries.eraseDups.Nodup := by
  induction hlength : entries.length using Nat.strong_induction_on generalizing entries with
  | _ n ih =>
    cases entries with
    | nil => exact nodup_nil
    | cons e rest =>
      rw [eraseDups_cons]
      have hs := length_filter_le (fun b => !b == e) rest
      refine nodup_cons.mpr ⟨fun hm => ?_, ih _ ?_ _ rfl⟩
      · simpa using of_mem_filter (mem_eraseDups.mp hm)
      · rw [← hlength, length_cons]
        omega

theorem Agree.identities (h : Agree entries) : (entries.eraseDups.map identity).Nodup := by
  refine (nodup_map_iff_inj_on (nodup_eraseDups entries)).mpr fun a ha b hb hs => ?_
  exact h a (mem_eraseDups.mp ha) b (mem_eraseDups.mp hb) hs

end

variable [FloatFormat F]

theorem validateTaskDataPolicy_mount {policy : Json F} {checked : TaskDataPolicy}
    (h : validateTaskDataPolicy policy = .ok checked) :
    checkMount (.str checked.mountPrefix.1 : Json F) = .ok checked.mountPrefix := by
  unfold validateTaskDataPolicy at h
  split at h
  next value =>
    obtain ⟨fields, _, h⟩ := bind_ok.mp h
    obtain ⟨-, h⟩ := guard_ok.mp h
    obtain ⟨payloadField, _, h⟩ := bind_ok.mp h
    obtain ⟨tier, _, h⟩ := bind_ok.mp h
    obtain ⟨ram, _, h⟩ := bind_ok.mp h
    obtain ⟨readers, _, h⟩ := bind_ok.mp h
    obtain ⟨memory, _, h⟩ := bind_ok.mp h
    obtain ⟨-, h⟩ := guard_ok.mp h
    obtain ⟨mount, _, h⟩ := bind_ok.mp h
    obtain ⟨m, hm, h⟩ := bind_ok.mp h
    obtain ⟨depth, _, h⟩ := bind_ok.mp h
    obtain ⟨rate, _, h⟩ := bind_ok.mp h
    obtain ⟨-, h⟩ := guard_ok.mp h
    cases h
    obtain ⟨found, _, hmo, _⟩ := validate_manifestV1.mp hm
    have hs := Subtype.ext (checkMount_val hmo)
    rwa [hs] at hmo
  next => cases h

variable {policy : TaskDataPolicy} {entries : List Entry} {task : LogicalTask F}

theorem taskReads_within (h : taskReads policy task = .ok entries) :
    ∀ e ∈ entries, Within policy.mountPrefix.1 e := by
  unfold taskReads at h
  split at h
  next payload _ =>
    split at h
    next =>
      cases h
      exact forall_mem_nil _
    next reads _ _ =>
      obtain ⟨m, hm, h⟩ := bind_ok.mp h
      cases h
      obtain ⟨checked, entries, hmo, _, _, he, _, _, rfl⟩ := validate_manifestV1.mp hm
      rw [← checkMount_val hmo]
      exact checkEntries_within he
    next => cases h
  next => cases h

def declaredReads (policy : TaskDataPolicy) (task : LogicalTask F) : List Entry :=
  match taskReads policy task with
  | .ok entries => entries
  | .error _ => []

def Declares (policy : TaskDataPolicy) (task : LogicalTask F) : Prop :=
    taskReads policy task = .ok (declaredReads policy task)

def declared (policy : TaskDataPolicy) (tasks : List (LogicalTask F)) : List Entry :=
    tasks.flatMap (declaredReads policy)

variable {tasks : List (LogicalTask F)}

theorem projectTasks_ok {merged : List Entry} : projectTasks policy entries tasks = .ok merged ↔
      (∀ t ∈ tasks, Declares policy t) ∧
      mergeEntries entries (declared policy tasks) = .ok merged := by
  induction tasks generalizing entries with
  | nil => exact ⟨fun h => ⟨forall_mem_nil _, h⟩, fun h => h.2⟩
  | cons task tasks ih =>
    have hc : declared policy (task :: tasks) = declaredReads policy task ++ declared policy
      tasks := flatMap_cons
    rw [hc, forall_mem_cons]
    constructor
    · intro h
      obtain ⟨reads, hre, h⟩ := bind_ok.mp h
      obtain ⟨more, hmo, h⟩ := bind_ok.mp h
      obtain ⟨hr, hm⟩ := ih.mp h
      have hd : declaredReads policy task = reads := by rw [declaredReads, hre]
      refine ⟨⟨?_, hr⟩, ?_⟩
      · rw [Declares, hd, hre]
      · rw [hd, mergeEntries_append]
        exact bind_ok.mpr ⟨more, hmo, hm⟩
    · rintro ⟨⟨ht, hr⟩, hm⟩
      rw [mergeEntries_append] at hm
      obtain ⟨more, hmo, hm⟩ := bind_ok.mp hm
      exact bind_ok.mpr ⟨_, ht, bind_ok.mpr ⟨more, hmo, ih.mpr ⟨hr, hm⟩⟩⟩

theorem projectTasks_nil : projectTasks policy [] tasks = .ok entries ↔
      (∀ t ∈ tasks, Declares policy t) ∧ Agree (declared policy tasks) ∧
      entries = (declared policy tasks).eraseDups := by
  rw [projectTasks_ok]
  refine and_congr_right fun _ => ?_
  have hal : (declared policy tasks).filter (fun e => decide (e ∉ ([] : List Entry))) =
      declared policy tasks := filter_eq_self.mpr fun e _ => decide_eq_true not_mem_nil
  constructor
  · intro h
    have hag := agree_of_mergeEntries (fun a ha => absurd ha not_mem_nil) h
    refine ⟨hag, ?_⟩
    rw [mergeEntries_of_agree hag, hal] at h
    exact (Except.ok.inj h).symm
  · rintro ⟨hag, rfl⟩
    rw [mergeEntries_of_agree hag, hal]
    rfl

def entriesOf (m : Option (DataManifest.Manifest F)) : List Entry :=
    (m.map DataManifest.Manifest.entries).getD []

/-- A projection lists what was declared, each entry once and in the order in which it is first
read, with the sums of what it lists. -/
structure Projected (declared : List Entry) (m : Option (DataManifest.Manifest F)) : Prop where
  entries : entriesOf m = declared.eraseDups
  once : ((entriesOf m).map identity).Nodup
  count : ∀ p ∈ m, p.entryCount = p.entries.length
  total : ∀ p ∈ m, p.totalBytes = (p.entries.map Entry.bytes).sum

section

variable {policy : Json F} {checked : TaskDataPolicy} {envelope : Envelope F}

theorem checkEntries_listed {tasks : List (LogicalTask F)} (hd : ∀ t ∈ tasks, Declares checked t)
    (ha : Agree (declared checked tasks)) :
    checkEntries checked.mountPrefix.1 0 []
      ((declared checked tasks).eraseDups.map (Entry.toJson : Entry → Json F)) =
      .ok (declared checked tasks).eraseDups := by
  refine checkEntries_toJson (fun e he => ?_) 0 ha.identities fun e _ => not_mem_nil
  obtain ⟨t, ht, hin⟩ := mem_flatMap.mp (mem_eraseDups.mp he)
  exact taskReads_within (hd t ht) e hin

theorem taskDataManifest_sound {m : Option (DataManifest.Manifest F)}
    (hp : validateTaskDataPolicy policy = .ok checked)
    (h : taskDataManifest policy envelope = .ok m) :
    (∀ t ∈ envelope.tasks, Declares checked t) ∧ Agree (declared checked envelope.tasks) ∧
      (declared checked envelope.tasks).eraseDups.length ≤ maxEntries ∧
      Projected (declared checked envelope.tasks) m := by
  obtain ⟨again, hag, h⟩ := bind_ok.mp h
  cases Except.ok.inj (hp.symm.trans hag)
  obtain ⟨entries, he, h⟩ := bind_ok.mp h
  obtain ⟨hd, ha, rfl⟩ := projectTasks_nil.mp he
  refine ⟨hd, ha, ?_⟩
  split at h
  next hn =>
    cases h
    rw [hn]
    exact ⟨Nat.zero_le _, hn.symm, nodup_nil, nofun, nofun⟩
  next =>
    obtain ⟨manifest, hm, h⟩ := bind_ok.mp h
    cases h
    obtain ⟨mount, found, hmo, _, hfe, hf, _, _, rfl⟩ := validate_manifestV1.mp hm
    rw [length_map] at hfe
    rw [checkMount_val hmo, checkEntries_listed hd ha] at hf
    cases hf
    refine ⟨hfe, rfl, ha.identities, ?_, ?_⟩
    · rintro p ⟨rfl⟩
      rfl
    · rintro p ⟨rfl⟩
      rfl

theorem taskDataManifest_defined (hp : validateTaskDataPolicy policy = .ok checked)
    (hd : ∀ t ∈ envelope.tasks, Declares checked t) (ha : Agree (declared checked envelope.tasks))
    (hf : (declared checked envelope.tasks).eraseDups.length ≤ maxEntries) :
      ∃ m, taskDataManifest policy envelope = .ok m := by
  have he := projectTasks_nil.mpr ⟨hd, ha, rfl⟩
  by_cases hn : (declared checked envelope.tasks).eraseDups = []
  · exact ⟨none, bind_ok.mpr ⟨checked, hp, bind_ok.mpr ⟨_, he, if_pos hn⟩⟩⟩
  · have hmo := validateTaskDataPolicy_mount hp
    refine ⟨some _, bind_ok.mpr ⟨checked, hp, bind_ok.mpr ⟨_, he, (if_neg hn).trans (bind_ok.mpr ⟨_,
      validate_manifestV1.mpr ⟨checked.mountPrefix, _, hmo, ?_, ?_, checkEntries_listed hd ha, rfl,
      rfl, rfl⟩, rfl⟩)⟩⟩⟩
    · exact fun h => hn (map_eq_nil_iff.mp h)
    · rwa [length_map]

end

/-- If the projection of all tasks is made, so is that of any of them; the entries of the whole are
those of batches that cover it, entries of one range are the same in all of them, and every
projection lists what its tasks declare. -/
theorem taskDataManifest_batches (policy : Json F) (whole : Envelope F)
    (m : Option (DataManifest.Manifest F))
    (h : taskDataManifest policy whole = .ok m) :
    ∃ checked, validateTaskDataPolicy policy = .ok checked ∧
      (∀ t ∈ whole.tasks, Declares checked t) ∧
      Projected (declared checked whole.tasks) m ∧
      (∀ batch : Envelope F, (∀ t ∈ batch.tasks, t ∈ whole.tasks) →
        ∃ b, taskDataManifest policy batch = .ok b ∧ Projected (declared checked batch.tasks) b) ∧
      (∀ batches : List (Envelope F), (∀ t, t ∈ whole.tasks ↔ ∃ batch ∈ batches, t ∈ batch.tasks) →
        ∀ e, e ∈ entriesOf m ↔ ∃ batch ∈ batches, ∃ b, taskDataManifest policy batch = .ok b ∧
        e ∈ entriesOf b) ∧
      ∀ batch other : Envelope F, (∀ t ∈ batch.tasks, t ∈ whole.tasks) →
        (∀ t ∈ other.tasks, t ∈ whole.tasks) →
        ∀ b o, taskDataManifest policy batch = .ok b → taskDataManifest policy other = .ok o →
          ∀ e ∈ entriesOf b, ∀ e' ∈ entriesOf o, identity e = identity e' → e = e' := by
  obtain ⟨checked, hp, _⟩ := bind_ok.mp h
  obtain ⟨hd, ha, hf, hpr⟩ := taskDataManifest_sound hp h
  have hsu : ∀ tasks : List (LogicalTask F), (∀ t ∈ tasks, t ∈ whole.tasks) →
      ∀ e ∈ declared checked tasks, e ∈ declared checked whole.tasks := by
    intro tasks hta e he
    obtain ⟨t, ht, hin⟩ := mem_flatMap.mp he
    exact mem_flatMap.mpr ⟨t, hta t ht, hin⟩
  have hm : ∀ batch : Envelope F, (∀ t ∈ batch.tasks, t ∈ whole.tasks) →
      ∃ b, taskDataManifest policy batch = .ok b ∧ Projected (declared checked batch.tasks) b := by
    intro batch hba
    have hs : (declared checked batch.tasks).eraseDups.length ≤
      (declared checked whole.tasks).eraseDups.length := by
      refine (subperm_of_subset (nodup_eraseDups _) fun e he => ?_).length_le
      exact mem_eraseDups.mpr (hsu _ hba e (mem_eraseDups.mp he))
    obtain ⟨b, hb⟩ := taskDataManifest_defined hp (fun t ht => hd t (hba t ht))
      (ha.subset (hsu _ hba)) (hs.trans hf)
    exact ⟨b, hb, (taskDataManifest_sound hp hb).2.2.2⟩
  have hl : ∀ (batch : Envelope F) b, taskDataManifest policy batch = .ok b →
      ∀ e, e ∈ entriesOf b ↔ e ∈ declared checked batch.tasks := by
    intro batch b hb e
    rw [(taskDataManifest_sound hp hb).2.2.2.entries, mem_eraseDups]
  refine ⟨checked, hp, hd, hpr, hm, fun batches hc e => ?_, ?_⟩
  · rw [hl whole m h e]
    constructor
    · intro he
      obtain ⟨t, ht, hin⟩ := mem_flatMap.mp he
      obtain ⟨batch, hba, htb⟩ := (hc t).mp ht
      obtain ⟨b, hb, _⟩ := hm batch fun t ht => (hc t).mpr ⟨batch, hba, ht⟩
      exact ⟨batch, hba, b, hb, (hl batch b hb e).mpr (mem_flatMap.mpr ⟨t, htb, hin⟩)⟩
    · rintro ⟨batch, hba, b, hb, he⟩
      exact hsu _ (fun t ht => (hc t).mpr ⟨batch, hba, ht⟩) e ((hl batch b hb e).mp he)
  · intro batch other hba hot b o hb ho e he e' he' hsa
    exact ha e (hsu _ hba e ((hl batch b hb e).mp he)) e' (hsu _ hot e' ((hl other o ho e').mp he'))
      hsa

open PrismaBuild.Action (ZeroOne accepted_a accepted_b accepted_x accepted_y accepted_model
    accepted_measured)

def mountPolicy : Json ZeroOne :=
  .obj [("mount_prefix", .str "/mnt/data"), ("mover_mem_gb", .int 1), ("mover_readers", .int 1),
    ("payload_field", .str "reads"),
    ("residency_ram", .str "auto"), ("residency_tier", .null), ("schema", .str taskDataSchema)]

def demoRead (path : String) (offset : Nat) : Json ZeroOne :=
  .obj [("bytes", .int 4096), ("offset", .int offset), ("path", .str path), ("sha256", .null)]

theorem readingSeconds_positive : positiveProblem ZeroOne.one = none := by decide +kernel

def readingTask (id outputId : Text idText) (reads : List (Json ZeroOne)) :
    LogicalTask ZeroOne where
  id := id
  payload := .obj [("reads", .arr reads)]
  residencyKey := ⟨"model", accepted_model⟩
  estimatedSeconds := ⟨.one, readingSeconds_positive⟩
  estimateEvidence := ⟨"measured", accepted_measured⟩
  outputId := outputId

def firstReader : LogicalTask ZeroOne :=
  readingTask ⟨"a", accepted_a⟩ ⟨"x", accepted_x⟩ [demoRead "shard" 0, demoRead "shard" 4096]

/-- The second task names a range of the first by its whole path. -/
def secondReader : LogicalTask ZeroOne :=
  readingTask ⟨"b", accepted_b⟩ ⟨"y", accepted_y⟩ [demoRead "/mnt/data/shard" 4096,
    demoRead "other" 0]

theorem secondReader_projected : ∃ m checked b,
    taskDataManifest mountPolicy ⟨[firstReader, secondReader], .null, .null, .null⟩ = .ok m ∧
    (entriesOf m).length = 3 ∧ taskDataManifest mountPolicy ⟨[secondReader], .null, .null, .int 1⟩ =
    .ok b ∧
    Projected (declared checked [secondReader]) b := by
  have hm : ((taskDataManifest mountPolicy ⟨[firstReader, secondReader], .null, .null, .null⟩).map
      fun m => (entriesOf m).length).toOption = some 3 := by decide +kernel
  cases hw : taskDataManifest mountPolicy ⟨[firstReader, secondReader], .null, .null, .null⟩ with
  | error e =>
    rw [hw] at hm
    cases hm
  | ok m =>
    rw [hw] at hm
    obtain ⟨checked, _, _, _, hba, _⟩ :=
      taskDataManifest_batches mountPolicy ⟨[firstReader, secondReader], .null, .null, .null⟩ m hw
    obtain ⟨b, hb, hp⟩ := hba ⟨[secondReader], .null, .null, .int 1⟩ fun t ht => .tail _ ht
    exact ⟨m, checked, b, rfl, Option.some.inj hm, hb, hp⟩

end PrismaBuild.Decomposition
