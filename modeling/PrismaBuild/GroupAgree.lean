import PrismaBuild.GroupChild

namespace PrismaBuild.Decomposition

open Contract List

variable {α β : Type}

theorem forall₂_at {R : α → β → Prop} {as : List α} {bs : List β} (h : List.Forall₂ R as bs)
    {k : Nat} {a : α}
    (ha : as[k]? = some a) : ∃ b, bs[k]? = some b ∧ R a b := by
  obtain ⟨hk, rfl⟩ := List.getElem?_eq_some_iff.mp ha
  have hk' := h.length_eq ▸ hk
  exact ⟨bs[k], getElem?_eq_getElem hk', h.get hk hk'⟩

theorem exists_forall₂ {R : α → β → Prop} {as : List α} (h : ∀ a ∈ as, ∃ b, R a b) :
    ∃ bs, List.Forall₂ R as bs := by
  induction as with
  | nil => exact ⟨[], .nil⟩
  | cons a as ih =>
    obtain ⟨b, hb⟩ := h a (by simp)
    obtain ⟨bs, hbs⟩ := ih fun a' ha' => h a' (by simp [ha'])
    exact ⟨b :: bs, .cons hb hbs⟩

theorem ordinal_at {ms : List Manifest} {n k : Nat}
    (h : ms.map Manifest.childOrdinal = List.range' 0 n) (hk : k < n)
    {m : Manifest} (hm : ms[k]? = some m) : m.childOrdinal = k := by
  have hg := congrArg (fun l => l[k]?) h
  simpa [hm, getElem?_range', hk] using hg

section

variable {F : Type} [FloatFormat F] [HashFunction]

/-- A child sealed with the membership the request's plan gives its ordinal. -/
def SealedFor (r : LogicalRequest F) (plan : Plan F) (ordinal : Nat) (c : Child F) : Prop :=
  ∃ b, prepareBatches r = .ok b ∧ SealsMembership b plan ordinal c

variable {plan : Plan F} {receipt : GroupReceipt}

theorem coverReceipt_counts {rows : List RosterRow} {manifestAt : Nat → Option Manifest}
    (h : coverReceipt rows plan manifestAt = .ok receipt) :
    receipt.taskCount = rows.length ∧ receipt.childCount = plan.ids.length := by
  obtain ⟨answered, -, h1⟩ := bind_ok.mp h
  split at h1
  · cases h1
  · obtain ⟨merged, -, he⟩ := bind_ok.mp h1
    cases he
    exact ⟨rfl, rfl⟩

omit [HashFunction] in
theorem holds_unique : Relator.RightUnique (Holds (F := F)) := by
  intro c m m' h h'
  obtain ⟨receipt, value, hd, hm⟩ := h
  obtain ⟨receipt', value', hd', hm'⟩ := h'
  cases hd.symm.trans hd'
  exact Except.ok.inj (hm.symm.trans hm')

theorem planJson_injective {p q : Plan F} (h : p.toJson = q.toJson) : p = q := by
  have hp := validatePlan_toJson p
  rw [h, validatePlan_toJson] at hp
  exact (Except.ok.inj hp).symm

section

variable {rows : List RosterRow} {plan : Plan F} {ms : List Manifest}

theorem ExactAnswers.answering (h : ExactAnswers rows plan ms) (hi : (rows.map RosterRow.id).Nodup)
    (hp : plan.ids.flatten = rows.map RosterRow.id) {m : Manifest} (hm : m ∈ ms) :
    Answering plan m.childOrdinal m := by
  have hn : (m.results.map Reported.id).Nodup := by
    refine (h.tasks.nodup_iff.mpr hi).sublist (List.Sublist.map _ ?_)
    exact sublist_flatten_of_mem (mem_map_of_mem hm)
  refine ⟨rfl, h.parent m hm, h.plan m hm, fun batch hb => ?_, hn⟩
  have hba : batch.Nodup := by
    have := (hp ▸ hi : plan.ids.flatten.Nodup)
    exact this.sublist (sublist_flatten_of_mem (mem_of_getElem? hb))
  refine (perm_ext_iff_of_nodup hn hba).mpr fun task => ⟨fun ht => ?_, fun ht => ?_⟩
  · obtain ⟨e, he, rfl⟩ := mem_map.mp ht
    obtain ⟨batch', hb', he'⟩ := h.batches m hm e he
    cases hb.symm.trans hb'
    exact he'
  · obtain ⟨m', hm', ho, e, he, rfl⟩ := h.answered hi hp hb ht
    rw [inj_on_of_nodup_map h.children hm hm' ho.symm]
    exact mem_map_of_mem he

theorem exactAnswers_of_answering (hpl : plan.ids.flatten = rows.map RosterRow.id)
    (ho : ms.map Manifest.childOrdinal = List.range' 0 plan.ids.length)
    (ha : ∀ m ∈ ms, Answering plan m.childOrdinal m)
    (hou : ∀ m ∈ ms, ∀ e ∈ m.results, outputByTask rows e.id = some e.outputId.1) :
      ExactAnswers rows plan ms where
  tasks := by
    have hl : ms.length = plan.ids.length := by simpa using congrArg length ho
    have hp : List.Forall₂ List.Perm (ms.map fun m => m.results.map Reported.id) plan.ids := by
      refine forall₂_iff_get.mpr ⟨by rw [length_map, hl], fun i h1 h2 => ?_⟩
      have hi := hl ▸ h2
      have hoi : (ms.get ⟨i, hi⟩).childOrdinal = i := by
        have := congrArg (fun l => l[i]?) ho
        simpa [hi, h2] using this
      have hm := ha _ (get_mem ms ⟨i, hi⟩)
      rw [hoi] at hm
      simpa using hm.tasks _ (getElem?_eq_getElem h2)
    have hf : (ms.flatMap Manifest.results).map Reported.id =
      (ms.map fun m => m.results.map Reported.id).flatten := by
      rw [map_flatMap, flatMap_def]
    rw [hf, ← hpl]
    exact List.Perm.flatten_congr hp
  outputs m hm e he := outputByTask_mem (hou m hm e he)
  children := by
    rw [ho]
    exact nodup_range'
  batches m hm e he := by
    have hme := ho ▸ mem_map_of_mem hm
    have hlt : m.childOrdinal < plan.ids.length := by simpa using hme
    refine ⟨_, getElem?_eq_getElem hlt, ?_⟩
    exact ((ha m hm).tasks _ (getElem?_eq_getElem hlt)).mem_iff.mp (mem_map_of_mem he)
  parent m hm := (ha m hm).parentKey
  plan m hm := (ha m hm).planKey

end

section

variable {plan : Plan F} {children : List (Child F)} {fields : List (Name × Json F)}
    {i : PublicationIndex}

def NamesChildren (fields : List (Name × Json F)) (children : List (Child F)) : Prop :=
  entry fields "child_action_keys" = .arr (children.map fun c => .str c.actionKey)

theorem NamesChildren.keys (hk : NamesChildren fields children)
    (h : validatePublicationIndex (some plan) (.obj fields) = .ok i) :
    i.childActionKeys.map Subtype.val = children.map Child.actionKey := by
  obtain ⟨-, -, -, -, -, hke⟩ := validatePublicationIndex_ok h
  have hj := Json.arr.inj (hk.symm.trans hke)
  have hi : Function.Injective (Json.str : Name → Json F) := fun a b hab => Json.str.inj hab
  refine map_injective_iff.mpr hi ?_
  rw [map_map, map_map]
  exact hj.symm

theorem NamesChildren.key (hk : NamesChildren fields children)
    (h : validatePublicationIndex (some plan) (.obj fields) = .ok i)
    {k : Nat} {c : Child F} (hc : children[k]? = some c) :
    c.actionKey ≠ [] ∧ i.childActionKeys[k]?.map Subtype.val = some c.actionKey := by
  have hg : i.childActionKeys[k]?.map Subtype.val = some c.actionKey := by
    rw [← getElem?_map, hk.keys h, getElem?_map, hc]
    rfl
  obtain ⟨key, -, hke⟩ := Option.map_eq_some_iff.mp hg
  refine ⟨fun hn => ?_, hg⟩
  have hp := key.2
  rw [hke, hn] at hp
  cases hp

theorem NamesChildren.matches (hk : NamesChildren fields children)
    (h : validatePublicationIndex (some plan) (.obj fields) = .ok i) :
    matchesIndex plan children fields = true := by
  obtain ⟨hpa, hpla, -, hp, hpl, -⟩ := validatePublicationIndex_ok h
  rw [matchesIndex, hp, hpl, hpa, hpla, hk]
  simp only [Bool.and_eq_true]
  refine ⟨⟨pyEq_str.mpr rfl, pyEq_str.mpr rfl⟩,
    Json.pyEq_refl (Json.printableItems_iff.mpr fun v hv => ?_)⟩
  obtain ⟨c, -, rfl⟩ := mem_map.mp hv
  rfl

end

omit [HashFunction] in
theorem rows_ids (r : LogicalRequest F) : r.rows.map RosterRow.id = r.roster.tasks.map fun t =>
    t.id.1 := by
  rw [LogicalRequest.rows, map_map]
  rfl

variable {common : FrozenCommon F} {r : LogicalRequest F}

theorem buildPlan_ids
    (h : buildPlan r common = .ok plan.toJson) : plan.ids.flatten = r.rows.map RosterRow.id ∧
    plan.partitions.1.length < 2 ^ 63 := by
  obtain ⟨p, hp, hf, -⟩ := buildPlan_ok h
  cases planJson_injective hp
  constructor
  · rw [rows_ids, Plan.ids, ← map_flatten, hf, map_map]
    rfl
  · have hle : plan.partitions.1.length ≤ plan.partitions.1.flatten.length := by
      rw [length_flatten, ← length_map]
      refine length_le_sum_of_one_le _ fun n hn => ?_
      obtain ⟨batch, hb, rfl⟩ := mem_map.mp hn
      exact length_pos_iff.mpr (plan.partitions.2.2 batch hb)
    rw [hf, length_map] at hle
    exact lt_of_le_of_lt hle r.sized

omit [HashFunction] in
theorem publishGroupReceipt_none {evidence : List (Json F)} (ht : receipt.taskCount < 2 ^ 63)
    (hc : receipt.childCount < 2 ^ 63) (he : ∀ v ∈ evidence, v.printable = true) :
    publishGroupReceipt none (receipt.toJson evidence) = .ok (receipt.toJson evidence) := by
  have hp : (receipt.toJson evidence).printable = true := by
    refine Json.printableFields_iff.mpr ?_
    simp only [forall_mem_cons, not_mem_nil, false_implies, implies_true, and_true]
    exact ⟨int_printable hc, Json.printableItems_iff.mpr he, rfl, rfl, rfl, rfl, int_printable ht⟩
  rw [publishGroupReceipt, canonicalFileBytes, if_pos hp]
  rfl

theorem completeGroup_iff (hpl : buildPlan r common = .ok plan.toJson) {children : List (Child F)}
    (hl : children.length = plan.partitions.1.length)
    (hs : ∀ k c, children[k]? = some c → SealedFor r plan k c)
    {fields : List (Name × Json F)} (hke : NamesChildren fields children) :
    (∃ receipt, completeGroup r plan children (some (.obj fields)) none = .ok receipt) ↔
      (∃ i, validatePublicationIndex (some plan) (.obj fields) = .ok i) ∧
        ∃ ms, List.Forall₂ Holds children ms ∧
        ms.map Manifest.childOrdinal = List.range' 0 children.length ∧
          ExactAnswers r.rows plan ms := by
  obtain ⟨hfl, hsm⟩ := buildPlan_ids hpl
  have hid := rows_ids r ▸ r.roster.ids
  unfold completeGroup
  rw [if_neg (not_not.mpr hl)]
  dsimp only
  constructor
  · rintro ⟨receipt, h⟩
    obtain ⟨-, h⟩ := guard_ok.mp h
    obtain ⟨i, hi, h1⟩ := bind_ok.mp h
    obtain ⟨b, -, h2⟩ := bind_ok.mp h1
    obtain ⟨found, hf, h3⟩ := bind_ok.mp h2
    obtain ⟨cover, hco, -⟩ := bind_ok.mp h3
    obtain ⟨ms, hh, hms, ho⟩ := groupChildren_ok hf
    obtain ⟨-, ms', hms', hof, hn, hr⟩ := verifyExactCover_ok_iff.mp (except_mapError_ok hco)
    have hsa : ms' = ms := by
      refine right_unique_forall₂' (fun j m m' hm hm' => ?_) hms' hms
      exact Except.ok.inj (hm.symm.trans hm')
    subst hsa
    refine ⟨⟨i, except_mapError_ok hi⟩, ms', hh, ho, ?_⟩
    exact (exactAnswers_of_receipt hid hof hn (hh.length_eq ▸ hl) hr).1
  · rintro ⟨⟨i, hi⟩, ms, hh, ho, he⟩
    have hma := hke.matches hi
    obtain ⟨first, rest, rfl⟩ : ∃ first rest, children = first :: rest := by
      cases children with
      | nil => exact absurd hl.symm (by simpa using plan.partitions.2.1)
      | cons first rest => exact ⟨first, rest, rfl⟩
    obtain ⟨b, hb, -⟩ := hs 0 first rfl
    have hre : ∀ k c, (first :: rest)[k]? = some c →
        SealsMembership b plan (0 + k) c ∧ ∃ m, Holds c m ∧ m.childOrdinal = 0 + k := by
      intro k c hc
      obtain ⟨b', hb', hse⟩ := hs k c hc
      cases hb.symm.trans hb'
      obtain ⟨m, hm, hho⟩ := forall₂_at hh hc
      obtain ⟨hk, -⟩ := List.getElem?_eq_some_iff.mp hc
      exact ⟨(Nat.zero_add k).symm ▸ hse, m, hho, (ordinal_at ho hk hm).trans (Nat.zero_add k).symm⟩
    obtain ⟨found, hf, hev⟩ := groupChildren_of hsm (first :: rest).length hre
    obtain ⟨ms', hh', hms, -⟩ := groupChildren_ok hf
    cases right_unique_forall₂' holds_unique hh hh'
    obtain ⟨receipt, hr⟩ := he.receipt hid hfl
    have hco := verifyExactCover_ok_iff.mpr ⟨hms.length_eq.trans (hh.length_eq ▸ hl), ms, hms,
      fun m hm => he.ofPlan hm, he.children, hr⟩
    obtain ⟨ht, hcou⟩ := coverReceipt_counts hr
    refine ⟨receipt.toJson (found.map Prod.snd), ?_⟩
    rw [hma, hi, hb]
    simp only [Except.mapError, bind, Except.bind, hf, hco, Bool.true_eq_false, if_false]
    refine publishGroupReceipt_none ?_ ?_ ?_
    · rw [ht, LogicalRequest.rows, length_map]
      exact r.sized
    · rw [hcou, plan.length_ids]
      exact hsm
    · intro v hv
      obtain ⟨p, hp, rfl⟩ := mem_map.mp hv
      exact hev p hp

/-- A group completes exactly when every child's result is accepted by itself and reports its tasks
under the roster's output ids. -/
theorem completeGroup_iff_childResults (r : LogicalRequest F) (common : FrozenCommon F)
    (plan : Plan F)
    (hplan : buildPlan r common = .ok plan.toJson) (children : List (Child F))
    (hlen : children.length = plan.partitions.1.length)
      (hsealed : ∀ k c, children[k]? = some c → SealedFor r plan k c)
    (fields : List (Name × Json F)) (hkeys : NamesChildren fields children) :
    (∃ receipt, completeGroup r plan children (some (.obj fields)) none = .ok receipt) ↔
      ∀ c ∈ children, ∃ result, childResult c c.actionKey plan.toJson (.obj fields) =
      .ok (some result) ∧
        ∀ e ∈ result.manifest.results, outputByTask r.rows e.id = some e.outputId.1 := by
  obtain ⟨hf, -⟩ := buildPlan_ids hplan
  have hid := rows_ids r ▸ r.roster.ids
  rw [completeGroup_iff hplan hlen hsealed hkeys]
  constructor
  · rintro ⟨⟨i, hi⟩, ms, hh, ho, hex⟩ c hc
    obtain ⟨k, hk, rfl⟩ := getElem_of_mem hc
    have hg := getElem?_eq_getElem hk
    obtain ⟨m, hm, hho⟩ := forall₂_at hh hg
    obtain ⟨b, -, hs⟩ := hsealed k _ hg
    have hme : m ∈ ms := mem_of_getElem? hm
    have hmk := ordinal_at ho hk hm
    have ha := hex.answering hid hf hme
    rw [hmk] at ha
    obtain ⟨hne, hke⟩ := hkeys.key hi hg
    obtain ⟨receipt, hok⟩ := (childResult_iff hs).mpr ⟨hho, ha, i, hi, hne, hke⟩
    exact ⟨⟨receipt, m⟩, hok, fun e he => outputByTask_of_mem hid (hex.outputs m hme e he)⟩
  · intro hal
    have hch : ∀ k c, children[k]? = some c → ∃ m, Holds c m ∧ Answering plan k m ∧
        (∃ i, validatePublicationIndex (some plan) (.obj fields) = .ok i) ∧
        ∀ e ∈ m.results, outputByTask r.rows e.id = some e.outputId.1 := by
      intro k c hc
      obtain ⟨⟨receipt, m⟩, hok, hou⟩ := hal c (mem_of_getElem? hc)
      obtain ⟨b, -, hs⟩ := hsealed k c hc
      obtain ⟨hh, ha, i, hi, -⟩ := (childResult_iff hs).mp ⟨receipt, hok⟩
      exact ⟨m, hh, ha, ⟨i, hi⟩, hou⟩
    obtain ⟨ms, hh⟩ : ∃ ms, List.Forall₂ Holds children ms := exists_forall₂ fun c hc => by
      obtain ⟨k, hk, rfl⟩ := getElem_of_mem hc
      obtain ⟨m, hm, -⟩ := hch k _ (getElem?_eq_getElem hk)
      exact ⟨m, hm⟩
    have hms : ∀ k m, ms[k]? = some m → Answering plan k m ∧ ∀ e ∈ m.results,
      outputByTask r.rows e.id = some e.outputId.1 := by
      intro k m hm
      obtain ⟨hk, rfl⟩ := List.getElem?_eq_some_iff.mp hm
      have hk' := hh.length_eq.symm ▸ hk
      obtain ⟨m', hm', ha, -, hou⟩ := hch k _ (getElem?_eq_getElem hk')
      have heq : ms[k] = m' := holds_unique (hh.get hk' hk) hm'
      rw [heq]
      exact ⟨ha, hou⟩
    have ho : ms.map Manifest.childOrdinal = range' 0 children.length := by
      refine ext_getElem (by simp [hh.length_eq]) fun k h1 h2 => ?_
      have hk : k < ms.length := by simpa using h1
      simpa using (hms k _ (getElem?_eq_getElem hk)).1.child
    obtain ⟨-, -, -, hi, -⟩ := hch 0 _ (getElem?_eq_getElem (by
      rw [hlen]
      exact length_pos_iff.mpr plan.partitions.2.1))
    refine ⟨hi, ms, hh, ho, exactAnswers_of_answering hf ?_ (fun m hm => ?_) fun m hm => ?_⟩
    · rw [ho, hlen, plan.length_ids]
    · obtain ⟨k, hk, rfl⟩ := getElem_of_mem hm
      have ha := (hms k _ (getElem?_eq_getElem hk)).1
      rw [ha.child]
      exact ha
    · obtain ⟨k, hk, rfl⟩ := getElem_of_mem hm
      exact (hms k _ (getElem?_eq_getElem hk)).2

end

section

open PrismaBuild.Action (ZeroOne zeros digest_encodeUtf8 hexKey accepted_a accepted_b accepted_x
    accepted_y)

def demoDigest (v : Json ZeroOne) : Text sha256Text := hexKey v.text.length

theorem canonicalSha256_demo {v : Json ZeroOne} (h : v.printable = true) :
    canonicalSha256 v = .ok (demoDigest v) := by
  rw [canonicalSha256, canonicalBytes_of h]
  simp only [bind, Except.bind, pure, Except.pure, digest_encodeUtf8, demoDigest, hexKey]

def demoRequest : LogicalRequest ZeroOne where
  argv := []
  roster := twoTasks
  batchPolicy := oneSecondPolicy
  priced := oneSecondPolicy_prices
  sized := by decide +kernel
  taskDataManifest := none

def demoCommon : FrozenCommon ZeroOne := ⟨[], []⟩

def builtBlueprint : Blueprint where
  parentKey := demoDigest (parentIdentity demoCommon demoRequest)
  algorithmVersion := algorithmVersion
  partitions := demoBlueprint.partitions

def builtPlan : Plan ZeroOne where
  toBlueprint := builtBlueprint
  planKey := demoDigest builtBlueprint.toJson
  bound := canonicalSha256_demo (by decide +kernel)

theorem demoRequest_built : buildPlan demoRequest demoCommon = .ok builtPlan.toJson := by
  have hp : canonicalSha256 (parentIdentity demoCommon demoRequest) = .ok builtPlan.parentKey :=
    canonicalSha256_demo (by decide +kernel)
  have hk : canonicalSha256 (blueprintJson builtPlan.parentKey
    [[("a" : Name)], [("b" : Name)]] : Json ZeroOne) =
      .ok builtPlan.planKey := builtPlan.bound
  rw [buildPlan, if_neg (show ¬ demoCommon.argv ≠ demoRequest.argv from not_not.mpr rfl),
    if_neg (by decide +kernel)]
  change (Except.mapError _ (partitionRoster twoTasks oneSecondPolicy) >>= _) = _
  rw [twoTasks_batches]
  simp only [Except.mapError, bind, Except.bind, hp, hk]
  rfl

def demoPrepared : PreparedBatches :=
    ⟨demoDigest twoTasks.toJson, demoDigest oneSecondPolicy.toJson⟩

theorem demoRequest_prepared : prepareBatches demoRequest = .ok demoPrepared := by
  have hr : canonicalSha256 demoRequest.roster.toJson = .ok (demoDigest twoTasks.toJson) :=
    canonicalSha256_demo (by decide +kernel)
  have hp : canonicalSha256 demoRequest.batchPolicy.toJson =
    .ok (demoDigest oneSecondPolicy.toJson) :=
    canonicalSha256_demo (by decide +kernel)
  simp only [prepareBatches, hr, hp, bind, Except.bind]
  rfl

def builtManifest (ordinal : Nat) (task output : Text idText) : Manifest :=
  oneAnswer builtPlan.parentKey builtPlan.planKey ordinal task output

def builtChild (key : Text sha256Text) (ordinal : Nat) (task output : Text idText) :
    Child ZeroOne where
  actionKey := key.1
  params := .obj [(logicalBatchParam,
    .obj (membershipFields demoPrepared builtPlan ordinal [task]))]
  document := .stored ⟨.null, rfl⟩ (builtManifest ordinal task output).toJson

def otherKey : Text sha256Text := hexKey 1

def builtChildren : List (Child ZeroOne) :=
  [builtChild zeros 0 ⟨"a", accepted_a⟩ ⟨"x", accepted_x⟩,
    builtChild otherKey 1 ⟨"b", accepted_b⟩ ⟨"y", accepted_y⟩]

def builtIndex : List (Name × Json ZeroOne) :=
  indexFields builtPlan.parentKey builtPlan.planKey [zeros, zeros] [zeros, otherKey]

variable {ordinal : Nat} {output task : Text idText}

theorem builtChild_seals {key : Text sha256Text}
    (h : builtPlan.partitions.1[ordinal]? = some [task]) :
    SealsMembership demoPrepared builtPlan ordinal (builtChild key ordinal task output) :=
  ⟨_, _, rfl, by rw [PreparedBatches.membership, h], rfl⟩

theorem builtManifest_answering
    (h : builtPlan.partitions.1[ordinal]? = some [task]) :
    Answering builtPlan ordinal (builtManifest ordinal task output) where
  child := rfl
  parentKey := rfl
  planKey := rfl
  tasks batch hb := by
    rw [Plan.ids, getElem?_map, h] at hb
    cases hb
    exact .refl _
  nodup := nodup_singleton _

theorem builtIndex_valid : validatePublicationIndex (some builtPlan) (.obj builtIndex) =
    .ok ⟨builtPlan.parentKey, builtPlan.planKey, [zeros, zeros], [zeros, otherKey], rfl⟩ := by
  rw [builtIndex]
  exact validatePublicationIndex_fields builtPlan _ rfl

theorem builtChild_result (key : Text sha256Text) (ordinal : Nat) (task output : Text idText)
    (h : builtPlan.partitions.1[ordinal]? = some [task])
    (hk : [zeros, otherKey][ordinal]? = some key) :
    ∃ receipt, childResult (builtChild key ordinal task output) key.1 builtPlan.toJson
      (.obj builtIndex) =
      .ok (some ⟨receipt, builtManifest ordinal task output⟩) := by
  refine (childResult_iff (builtChild_seals h)).mpr
    ⟨⟨_, _, rfl, validateChildResultManifest_toJson _⟩,
    builtManifest_answering h, _, builtIndex_valid, ?_, ?_⟩
  · intro hn
    have hp := key.2
    rw [hn] at hp
    cases hp
  · simp only [hk]
    rfl

/-- Two children with their results close the group of a request of two tasks. -/
theorem builtChildren_complete :
    ∃ receipt, completeGroup demoRequest builtPlan builtChildren (some (.obj builtIndex)) none =
    .ok receipt := by
  refine (completeGroup_iff_childResults demoRequest demoCommon builtPlan demoRequest_built
    builtChildren rfl ?_ builtIndex
    ?_).mpr ?_
  · intro k c hc
    refine ⟨demoPrepared, demoRequest_prepared, ?_⟩
    match k, hc with
    | 0, rfl => exact builtChild_seals rfl
    | 1, rfl => exact builtChild_seals rfl
  · exact entry_at publicationKeys_sorted rfl (i := 1) rfl
  · simp only [builtChildren, forall_mem_cons, not_mem_nil, false_implies, implies_true, and_true]
    constructor
    · obtain ⟨receipt, h⟩ := builtChild_result zeros 0 _ ⟨"x", accepted_x⟩ rfl rfl
      exact ⟨_, h, by simp [builtManifest, oneAnswer]; decide +kernel⟩
    · obtain ⟨receipt, h⟩ := builtChild_result otherKey 1 _ ⟨"y", accepted_y⟩ rfl rfl
      exact ⟨_, h, by simp [builtManifest, oneAnswer]; decide +kernel⟩

end

end PrismaBuild.Decomposition
