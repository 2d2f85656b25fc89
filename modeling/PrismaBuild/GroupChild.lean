import PrismaBuild.Group
import PrismaBuild.CoverExact

namespace PrismaBuild.Decomposition

open Contract List

theorem sorted_eq_iff {a b : List Name} : sorted a = sorted b ↔ a.Perm b := by
  constructor
  · intro h
    have ha : (sorted a).Perm a := perm_insertionSort _ a
    have hb : (sorted b).Perm b := perm_insertionSort _ b
    exact ha.symm.trans (h ▸ hb)
  · intro h
    refine List.Perm.eq_of_pairwise (fun x y _ _ => nameLe_antisymm) (pairwise_insertionSort _ a)
      (pairwise_insertionSort _ b) ?_
    exact (perm_insertionSort _ a).trans (h.trans (perm_insertionSort _ b).symm)

theorem sameTasks_iff {reported tasks : List Name} : sameTasks reported tasks = true ↔
    reported.Perm tasks ∧ reported.Nodup := by
  simp only [sameTasks, Bool.and_eq_true, beq_iff_eq, sorted_eq_iff]
  refine and_congr_right fun h => ?_
  rw [← h.length_eq]
  constructor
  · intro hl
    rw [← (dedup_sublist reported).eq_of_length hl]
    exact nodup_dedup reported
  · intro hn
    rw [hn.dedup]

variable {F : Type}

theorem int_printable [FloatFormat F] {n : Nat} (h : n < 2 ^ 63) :
    (Json.int n : Json F).printable = true := by
  have hl := Nat.toDigits_length 10 n 19 (by omega) (by omega)
  exact decide_eq_true (hl.trans (by decide))

theorem taskNames_batch (batch : List (Text idText)) :
    taskNames (batch.map fun id => (.str id.1 : Json F)) = some (batch.map Subtype.val) := by
  induction batch with
  | nil => rfl
  | cons id batch ih => rw [map_cons, taskNames, ih]; rfl

def membershipKeys : List Name :=
  ["batch_policy_sha256", "child_ordinal", "ordered_task_ids", "parent_key", "plan_key",
    "roster_sha256", "schema"]

theorem membershipKeys_sorted : KeysSorted membershipKeys := by decide +kernel

section

variable {F : Type} [FloatFormat F] [HashFunction]

structure Answering (plan : Plan F) (ordinal : Nat) (m : Manifest) : Prop where
  child : m.childOrdinal = ordinal
  parentKey : m.parentKey = plan.parentKey
  planKey : m.planKey = plan.planKey
  tasks : ∀ batch, plan.ids[ordinal]? = some batch → (m.results.map Reported.id).Perm batch
  nodup : (m.results.map Reported.id).Nodup

variable {b : PreparedBatches} {plan : Plan F} {ordinal count : Nat} {index : Json F} {key : Name}
    {m : Manifest}

theorem carriesMembership_iff {batch : List (Text idText)}
    (hb : plan.partitions.1[ordinal]? = some batch) :
    carriesMembership key (membershipFields b plan ordinal batch) plan.toJson index m = true ↔
      Answering plan ordinal m ∧ ∃ i, validatePublicationIndex (some plan) index = .ok i ∧
      key ≠ [] ∧
        i.childActionKeys[ordinal]?.map Subtype.val = some key := by
  have hk := membershipKeys_sorted
  have hke : (membershipFields b plan ordinal batch).map Prod.fst = membershipKeys := rfl
  have hid : plan.ids[ordinal]? = some (batch.map Subtype.val) := by simp [Plan.ids, hb]
  obtain ⟨first, more, rfl⟩ := exists_cons_of_ne_nil
    (plan.partitions.2.2 batch (mem_of_getElem? hb))
  have hn := taskNames_batch (F := F) (first :: more)
  rw [map_cons] at hn
  simp only [carriesMembership, entry_at hk hke (i := 3) rfl, entry_at hk hke (i := 4) rfl,
    entry_at hk hke (i := 1) rfl, entry_at hk hke (i := 2) rfl, batchJson, map_cons, hn,
    validatePlan_toJson,
    Bool.and_eq_true, beq_iff_eq, pyEq_str, Json.str.injEq, Nat.cast_inj]
  constructor
  · rintro ⟨⟨⟨hp, hpl⟩, hkey⟩, rfl, h⟩
    split at h
    next i hi =>
      simp only [Bool.and_eq_true, beq_iff_eq, hid, Option.some.injEq] at h
      obtain ⟨⟨⟨-, hf⟩, -⟩, ht⟩ := h
      obtain ⟨hpe, hno⟩ := sameTasks_iff.mp ht
      refine ⟨⟨rfl, Subtype.ext hp.symm, Subtype.ext hpl.symm, ?_, hno⟩, i,
        hi, by simpa using hkey, ?_⟩
      · intro batch hba
        cases hid.symm.trans hba
        exact hpe
      · exact hf
    next => cases h
  · rintro ⟨hm, i, hi, hkey, hf⟩
    rw [hi]
    simp only [Bool.and_eq_true, beq_iff_eq, hm.child, hid, hf, hm.parentKey, hm.planKey, true_and]
    exact ⟨by simpa using hkey, rfl, sameTasks_iff.mpr ⟨hm.tasks _ hid, hm.nodup⟩⟩

/-- A child whose parameters hold the plan's membership of its ordinal. -/
def SealsMembership (b : PreparedBatches) (plan : Plan F) (ordinal : Nat) (c : Child F) : Prop :=
  ∃ params batch, c.params = .obj params ∧ b.membership plan ordinal = .ok batch ∧
    Json.get? params logicalBatchParam = some batch

def Holds (c : Child F) (m : Manifest) : Prop :=
  ∃ receipt value, c.document = .stored receipt value ∧ validateChildResultManifest value = .ok m

variable {v : Json F}

theorem membership_ok (h : b.membership plan ordinal = .ok v) :
    ∃ batch, plan.partitions.1[ordinal]? = some batch ∧
    v = .obj (membershipFields b plan ordinal batch) := by
  unfold PreparedBatches.membership at h
  split at h
  next => cases h
  next batch hb => exact ⟨batch, hb, (Except.ok.inj h).symm⟩

variable {c : Child F}

theorem childResult_iff (hc : SealsMembership b plan ordinal c) :
    (∃ receipt, childResult c key plan.toJson index = .ok (some ⟨receipt, m⟩)) ↔
      Holds c m ∧ Answering plan ordinal m ∧
      ∃ i, validatePublicationIndex (some plan) index = .ok i ∧ key ≠ [] ∧
        i.childActionKeys[ordinal]?.map Subtype.val = some key := by
  obtain ⟨params, v, hp, hv, hg⟩ := hc
  obtain ⟨batch, hb, rfl⟩ := membership_ok hv
  have hba : c.logicalBatch = some (membershipFields b plan ordinal batch) := by
    simp only [Child.logicalBatch, hp, hg]
  rw [← carriesMembership_iff hb]
  unfold childResult
  constructor
  · rintro ⟨receipt, h⟩
    split at h
    next => cases h
    next => cases h
    next value hd =>
      obtain ⟨m', hm', h1⟩ := bind_ok.mp h
      simp only [hba] at h1
      split at h1
      next hca =>
        cases h1
        exact ⟨⟨_, value, hd, except_mapError_ok hm'⟩, hca⟩
      next => cases h1
  · rintro ⟨⟨receipt, value, hd, hm⟩, hca⟩
    refine ⟨receipt, ?_⟩
    simp only [hd, hm, Except.mapError, bind, Except.bind, hba, hca, if_true]
    rfl

omit [HashFunction] in
theorem validateChildResultManifest_null :
    ¬ ∃ m, validateChildResultManifest (.null : Json F) = .ok m := by
  rintro ⟨m, h⟩
  obtain ⟨fields, hf, -⟩ := bind_ok.mp h
  cases hf

theorem groupChild_ok {found : Json F × Json F}
    (h : groupChild b plan count ordinal c = .ok found) :
    ∃ m, Holds c m ∧ validateChildResultManifest found.1 = .ok m ∧ m.childOrdinal = ordinal := by
  obtain ⟨expected, -, h1⟩ := bind_ok.mp h
  split at h1
  · obtain ⟨-, h1⟩ := guard_ok.mp h1
    split at h1
    next => cases h1
    next => cases h1
    next => cases h1
    next receipt value _ hd =>
      obtain ⟨m, hm, h2⟩ := bind_ok.mp h1
      obtain ⟨ho, h2⟩ := guard_ok.mp h2
      obtain ⟨raw, -, he⟩ := bind_ok.mp h2
      cases he
      exact ⟨m, ⟨receipt, value, hd, except_mapError_ok hm⟩, except_mapError_ok hm, not_not.mp ho⟩
  · cases h1

theorem membership_printable (hs : plan.partitions.1.length < 2 ^ 63)
    (h : b.membership plan ordinal = .ok v) : v.printable = true := by
  obtain ⟨batch, hb, rfl⟩ := membership_ok h
  obtain ⟨hlt, -⟩ := List.getElem?_eq_some_iff.mp hb
  refine Json.printableFields_iff.mpr ?_
  simp only [membershipFields, forall_mem_cons, not_mem_nil, false_implies, implies_true, and_true]
  refine ⟨rfl, int_printable (by omega), Json.printableItems_iff.mpr fun w hw => ?_, rfl, rfl, rfl,
    rfl⟩
  obtain ⟨id, -, rfl⟩ := mem_map.mp hw
  rfl

theorem groupChild_of (hs : plan.partitions.1.length < 2 ^ 63)
    (hc : SealsMembership b plan ordinal c) (hm : Holds c m) (ho : m.childOrdinal = ordinal)
    (count : Nat) :
    ∃ found, groupChild b plan count ordinal c = .ok found ∧ found.2.printable = true := by
  obtain ⟨params, v, hp, hv, hg⟩ := hc
  obtain ⟨receipt, value, hd, hva⟩ := hm
  have he : (entry params logicalBatchParam).pyEq v = true := by
    rw [entry, hg]
    exact Json.pyEq_refl (membership_printable hs hv)
  have hr : canonicalFileBytes receipt.1 = .ok (encodeUtf8 (receipt.1.text ++ ['\n'])) :=
    if_pos receipt.2
  refine ⟨(value, .obj [("action_key", .str c.actionKey),
    ("receipt_sha256", .str (HashFunction.digest (encodeUtf8 (receipt.1.text ++ ['\n']))).1)]), ?_,
    rfl⟩
  rw [groupChild, hv]
  simp only [Except.mapError, bind, Except.bind, hp, he, Bool.true_eq_false, if_false, hd]
  cases value with
  | null => exact absurd ⟨m, hva⟩ validateChildResultManifest_null
  | bool x => cases hva
  | int x => cases hva
  | float x => cases hva
  | str x => cases hva
  | arr x => cases hva
  | obj fields => simp only [hva, ho, ne_eq, not_true, if_false, hr]; rfl

variable {children : List (Child F)}

theorem groupChildren_ok
    {found : List (Json F × Json F)} (h : groupChildren b plan count ordinal children = .ok found) :
    ∃ ms, List.Forall₂ Holds children ms ∧ Manifests (found.map Prod.fst) ms ∧
      ms.map Manifest.childOrdinal = List.range' ordinal children.length := by
  induction children generalizing ordinal found with
  | nil =>
    cases h
    exact ⟨[], .nil, .nil, rfl⟩
  | cons c children ih =>
    obtain ⟨first, hf, h1⟩ := bind_ok.mp h
    obtain ⟨rest, hr, he⟩ := bind_ok.mp h1
    cases he
    obtain ⟨m, hm, hv, ho⟩ := groupChild_ok hf
    obtain ⟨ms, hms, hvs, hos⟩ := ih hr
    exact ⟨m :: ms, .cons hm hms, .cons hv hvs, by rw [map_cons, ho, hos]; rfl⟩

theorem groupChildren_of (hs : plan.partitions.1.length < 2 ^ 63) (count : Nat)
    (h : ∀ i c, children[i]? = some c → SealsMembership b plan (ordinal + i) c ∧ ∃ m, Holds c m ∧
    m.childOrdinal = ordinal + i) :
    ∃ found, groupChildren b plan count ordinal children = .ok found ∧
      ∀ p ∈ found, p.2.printable = true := by
  induction children generalizing ordinal with
  | nil => exact ⟨[], rfl, by simp⟩
  | cons c children ih =>
    obtain ⟨hc, m, hm, ho⟩ := h 0 c rfl
    obtain ⟨first, hf, hp⟩ := groupChild_of hs hc hm ho count
    obtain ⟨rest, hr, hps⟩ := @ih (ordinal + 1) fun i c hi => by
      have := h (i + 1) c hi
      rwa [← Nat.add_assoc, Nat.add_right_comm] at this
    refine ⟨first :: rest, ?_, forall_mem_cons.mpr ⟨hp, hps⟩⟩
    rw [Nat.add_zero] at hf
    rw [groupChildren, hf, hr]
    rfl

end

end PrismaBuild.Decomposition
