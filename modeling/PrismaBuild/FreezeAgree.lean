import PrismaBuild.Freeze
import PrismaBuild.GroupAgree

namespace PrismaBuild.Decomposition

open Contract List

def Grows (s t : Records) : Prop := ∀ path raw, s path = some raw → t path = some raw

theorem grows_update {s : Records} {path : RecordPath} (h : s path = none) (raw : ByteArray) :
    Grows s (Function.update s path (some raw)) := by
  intro other raw' ho
  rw [Function.update_apply]
  split
  next he =>
    rw [he, h] at ho
    cases ho
  next => exact ho

theorem records_protocol : Protocol recordsWorld (fun _ => True) (fun _ => Grows) fun _ =>
    Grows where
  refl _ _ _ _ h := h
  trans h h' path raw hs := h' path raw (h path raw hs)
  others _ h := h
  exit _ := ⟨trivial, fun _ _ h => h⟩

section

variable {F : Type} [FloatFormat F] [HashFunction] [JsonLoads F]

def Reads (s : Records) (path : RecordPath) (d : Document F) : Prop :=
  ∃ raw, s path = some raw ∧ JsonLoads.loads raw = some d

variable {s : Records}

omit [HashFunction] in
theorem Reads.grows {t : Records} {path : RecordPath} {d : Document F} (h : Reads s path d)
    (hst : Grows s t) : Reads t path d := by
  obtain ⟨raw, hraw, hd⟩ := h
  exact ⟨raw, hst path raw hraw, hd⟩

omit [HashFunction] in
theorem Reads.unique {path : RecordPath} {d d' : Document F} (h : Reads s path d)
    (h' : Reads s path d') : d = d' := by
  obtain ⟨raw, hraw, hd⟩ := h
  obtain ⟨raw', hr', hd'⟩ := h'
  cases hraw.symm.trans hr'
  exact Option.some.inj (hd.symm.trans hd')

def Promise : RecordCall F → Except RecordError (Frozen F) → Records → Prop
  | .freezePlan key _, .ok (.plan p), s =>
    ∃ d : Document F, Reads s ⟨key, .plan⟩ d ∧ validatePlan d.1 = .ok p
  | .publishChildren plan digests keys, .ok _, s =>
    ∃ d : Document F, Reads s ⟨plan.parentKey, .publication⟩ d ∧
      publicationIndex plan digests keys = .ok d.1
  | _, _, _ => True

theorem Promise.grows {c : RecordCall F} {r : Except RecordError (Frozen F)} {t : Records}
    (h : Promise c r s)
    (hst : Grows s t) : Promise c r t := by
  cases c with
  | freezePlan key derived =>
    cases r with
    | error e => trivial
    | ok v =>
      cases v with
      | plan p =>
        obtain ⟨d, hd, hp⟩ := h
        exact ⟨d, hd.grows hst, hp⟩
      | published => trivial
  | publishChildren plan digests keys =>
    cases r with
    | error e => trivial
    | ok v =>
      obtain ⟨d, hd, hp⟩ := h
      exact ⟨d, hd.grows hst, hp⟩

def Derives : RecordCall F → Prop
  | .freezePlan key (.ok p) => p.parentKey = key
  | _ => True

abbrev Conforming (i : Nat) {α : Type} (Q : Except RecordError α → Records → Prop)
    (p : RecordProg α) (s : Records) : Prop :=
  p.Conforms recordsWorld (fun _ => True) (fun _ => Grows) (fun _ => Grows) i Q s

omit [HashFunction] in
theorem storedRecord_conforms (i : Nat) (path : RecordPath) (s : Records) :
    Conforming i (fun r t => ∀ d : Document F, r = .ok (some d) → Reads t path d)
    (storedRecord path) s := by
  intro t _ _ fault a u hst
  refine ⟨trivial, ?_⟩
  cases fault with
  | true =>
    cases hst
    exact ⟨fun _ _ h => h, fun v _ _ d hd => nomatch hd⟩
  | false =>
    cases hs : t path with
    | none =>
      simp only [recordsWorld, hs] at hst
      cases hst
      exact ⟨fun _ _ h => h, fun v _ _ d hd => nomatch hd⟩
    | some raw =>
      simp only [recordsWorld, hs] at hst
      cases hst
      refine ⟨fun _ _ h => h, ?_⟩
      dsimp only
      split
      next => exact fun v _ _ d hd => nomatch hd
      next d' hd' =>
        intro v hv _ d hd
        cases hd
        exact ⟨raw, hv path raw hs, hd'⟩

omit [JsonLoads F] in
theorem publishImmutable_conforms {i : Nat} {Q : Except RecordError (Frozen F) → Records → Prop}
    {path : RecordPath}
    {raw : ByteArray} {k : Bool → RecordProg (Frozen F)}
    (hw : ∀ t, t path = some raw → Conforming i Q (k true) t)
      (hl : ∀ t, Conforming i Q (k false) t) :
    Conforming i Q (.call (.publishImmutable path raw) k) s := by
  intro t _ _ fault a u hst
  refine ⟨trivial, ?_⟩
  cases hs : t path with
  | none =>
    simp only [recordsWorld, hs] at hst
    cases hst
    exact ⟨grows_update hs raw, hw _ (Function.update_self path _ t)⟩
  | some present =>
    simp only [recordsWorld, hs] at hst
    cases hst
    exact ⟨fun _ _ h => h, hl _⟩

theorem stored_then {i : Nat} {Q : Except RecordError (Frozen F) → Records → Prop}
    {path : RecordPath}
    {g : Option (Document F) → RecordProg (Frozen F)} (he : ∀ e t, Q (.error e) t)
    (hs : ∀ t d, Reads t path d → Conforming i Q (g (some d)) t)
      (hn : ∀ t, Conforming i Q (g none) t) :
    Conforming i Q ((storedRecord path).andThen g) s := by
  refine Prog.Conforms.andThen records_protocol trivial
    ((storedRecord_conforms i path s).imp fun r t _ hr => ?_)
  cases r with
  | error e => exact fun u _ _ => he e u
  | ok stored =>
    cases stored with
    | none => exact hn t
    | some d => exact hs t d (hr d rfl)

omit [FloatFormat F] [HashFunction] [JsonLoads F] in
theorem strings_sorted {α : Type} (l : List α) (name : α → Name) :
    (Json.arr (l.map fun a => .str (name a)) : Json F).Sorted := by
  refine Json.sortedItems_iff.mpr fun v hv => ?_
  obtain ⟨a, -, rfl⟩ := mem_map.mp hv
  trivial

omit [JsonLoads F] in
theorem Plan.toJson_sorted (p : Plan F) : p.toJson.Sorted := by
  refine obj_sorted planKeys_sorted rfl ?_
  simp only [Plan.fields, forall_mem_cons, not_mem_nil, false_implies, implies_true, and_true]
  refine ⟨trivial, trivial, Json.sortedItems_iff.mpr fun v hv => ?_, trivial, trivial⟩
  obtain ⟨batch, -, rfl⟩ := mem_map.mp hv
  exact strings_sorted batch _

omit [JsonLoads F] in
theorem publicationIndex_sorted {plan : Plan F} {digests keys : List (Json F)} {index : Json F}
    (h : publicationIndex plan digests keys = .ok index) : index.Sorted := by
  unfold publicationIndex at h
  obtain ⟨-, h⟩ := guard_ok.mp h
  obtain ⟨ds, -, h1⟩ := bind_ok.mp h
  obtain ⟨ks, -, he⟩ := bind_ok.mp h1
  cases he
  refine obj_sorted publicationKeys_sorted rfl ?_
  simp only [indexFields, forall_mem_cons, not_mem_nil, false_implies, implies_true, and_true]
  exact ⟨strings_sorted ds _, strings_sorted ks _, trivial, trivial, trivial⟩

variable {derived : Except BuildError (Plan F)}

theorem adoptPlan_promise {key : Text sha256Text} {d : Document F}
    (h : Reads s ⟨key, .plan⟩ d) : Promise (.freezePlan key derived) (adoptPlan key (some d))
    s := by
  cases hr : adoptPlan key (some d) with
  | error e => trivial
  | ok v =>
    obtain ⟨plan, hp, h1⟩ := bind_ok.mp hr
    obtain ⟨-, h1⟩ := guard_ok.mp h1
    cases h1
    exact ⟨d, h, except_mapError_ok hp⟩

theorem promise_error {c : RecordCall F} (e : RecordError) (s : Records) :
    Promise c (.error e) s := by
  cases c <;> trivial

theorem conforming_ret {i : Nat} {c : RecordCall F} {r : Except RecordError (Frozen F)}
    (h : Promise c r s) :
    Conforming i (Promise c) (.ret r) s :=
  fun _ hst _ => h.grows hst

theorem adoptPlan_none {key : Text sha256Text} :
    Promise (.freezePlan key derived) (adoptPlan key none) s := by
  cases hr : adoptPlan (F := F) key none with
  | error e => trivial
  | ok v =>
    obtain ⟨plan, hp, -⟩ := bind_ok.mp hr
    obtain ⟨fields, hf, -⟩ := bind_ok.mp (except_mapError_ok hp)
    cases hf

theorem freezePlan_conforms {key : Text sha256Text} (hd : Derives (.freezePlan key derived))
    (i : Nat) (s : Records) :
    Conforming i (Promise (.freezePlan key derived)) (freezePlan key derived) s := by
  refine stored_then promise_error (fun t d hr => conforming_ret (adoptPlan_promise hr)) fun t => ?_
  cases derived with
  | error e => exact conforming_ret (promise_error _ t)
  | ok plan =>
    dsimp only
    split
    next e _ => exact conforming_ret (promise_error _ t)
    next raw hraw =>
      refine publishImmutable_conforms (fun u hu => conforming_ret ?_) fun u => ?_
      · exact ⟨⟨plan.toJson, plan.toJson_sorted⟩, ⟨raw, hu, JsonLoads.loads_documentBytes hraw⟩,
          validatePlan_toJson plan⟩
      · exact stored_then promise_error (fun t d hr => conforming_ret (adoptPlan_promise hr))
          fun t => conforming_ret adoptPlan_none

omit [JsonLoads F] in
theorem publicationIndex_ne_null {plan : Plan F} {digests keys : List (Json F)} :
    publicationIndex plan digests keys ≠ .ok .null := by
  intro h
  unfold publicationIndex at h
  obtain ⟨-, h⟩ := guard_ok.mp h
  obtain ⟨ds, -, h1⟩ := bind_ok.mp h
  obtain ⟨ks, -, he⟩ := bind_ok.mp h1
  cases he

section

variable {plan : Plan F} {digests keys : List (Json F)} {index : Document F} {raw : ByteArray}
  (hindex : publicationIndex plan digests keys = .ok index.1)
  (hraw : canonicalFileBytes index.1 = .ok raw)

include hindex hraw

theorem sameChildren_promise {s : Records} {stored : Option (Document F)}
    (h : ∀ d, stored = some d → Reads s ⟨plan.parentKey, .publication⟩ d) :
    Promise (.publishChildren plan digests keys)
      (sameChildren ⟨plan.parentKey, .publication⟩ raw stored) s := by
  cases hr : sameChildren ⟨plan.parentKey, .publication⟩ raw stored with
  | error e => trivial
  | ok v =>
    obtain ⟨present, hp, h1⟩ := bind_ok.mp hr
    obtain ⟨he, h1⟩ := guard_ok.mp h1
    cases not_not.mp he
    cases stored with
    | none =>
      have hn := JsonLoads.loads_documentBytes (d := ⟨.null, trivial⟩) (except_mapError_ok hp)
      rw [JsonLoads.loads_documentBytes hraw] at hn
      cases hn
      exact absurd hindex publicationIndex_ne_null
    | some d =>
      have hd := JsonLoads.loads_documentBytes (except_mapError_ok hp)
      rw [JsonLoads.loads_documentBytes hraw] at hd
      cases hd
      exact ⟨index, h index rfl, hindex⟩

theorem publishChildren_conforms_of (i : Nat) (s : Records) :
    Conforming i (Promise (.publishChildren plan digests keys)) (publishChildren plan digests keys)
    s := by
  have hs : ∀ t d, Reads t ⟨plan.parentKey, .publication⟩ d →
    Conforming i (Promise (.publishChildren plan digests keys))
      (.ret (sameChildren ⟨plan.parentKey, .publication⟩ raw (some d))) t := fun t d hr =>
    conforming_ret (sameChildren_promise hindex hraw fun d' hd' => Option.some.inj hd' ▸ hr)
  simp only [publishChildren, hindex, hraw]
  refine stored_then promise_error hs fun t => ?_
  refine publishImmutable_conforms (fun u hu => conforming_ret ?_) fun u => ?_
  · exact ⟨index, ⟨raw, hu, JsonLoads.loads_documentBytes hraw⟩, hindex⟩
  · exact stored_then promise_error hs fun t =>
      conforming_ret (sameChildren_promise hindex hraw nofun)

end

theorem publishChildren_conforms (plan : Plan F) (digests keys : List (Json F)) (i : Nat)
    (s : Records) :
    Conforming i (Promise (.publishChildren plan digests keys)) (publishChildren plan digests keys)
      s := by
  cases hindex : publicationIndex plan digests keys with
  | error e =>
    simp only [publishChildren, hindex]
    exact conforming_ret (promise_error _ s)
  | ok index =>
    cases hraw : canonicalFileBytes index with
    | error e =>
      simp only [publishChildren, hindex, hraw]
      exact conforming_ret (promise_error _ s)
    | ok raw =>
      have hd : publicationIndex plan digests keys =
        .ok (⟨index, publicationIndex_sorted hindex⟩ : Document F).1 := hindex
      exact publishChildren_conforms_of hd hraw i s

theorem recordCall_conforms (i : Nat) (c : RecordCall F) (s : Records) (hc : Derives c) :
    Conforming i (Promise c) c.prog s := by
  cases c with
  | freezePlan key derived => exact freezePlan_conforms hc i s
  | publishChildren plan digests keys => exact publishChildren_conforms plan digests keys i s

/-- A call that returned this in a run of calls on a records directory. -/
def CallReturned (s : Records) (events : List (Event (RecordCall F) Bool)) (i : Nat)
    (c : RecordCall F)
    (r : Except RecordError (Frozen F)) : Prop :=
  Pool.Returned recordsWorld (fun _ c => c.prog) (Pool.empty s) events i c r

theorem CallReturned.promise {events : List (Event (RecordCall F) Bool)}
    (hev : ∀ e ∈ events, Pool.Starts Derives e) {i : Nat} {c : RecordCall F}
    {r : Except RecordError (Frozen F)}
    (h : CallReturned s events i c r) :
      Promise c r ((Pool.empty s).run recordsWorld (fun _ c => RecordCall.prog c)
      events).shared := by
  have hg : (Pool.empty s).Good recordsWorld (fun _ => True) (fun _ => Grows) (fun _ => Grows)
      fun _ => Promise (F := F) := Pool.good_empty trivial
  exact hg.returned records_protocol (fun i c s hc _ => recordCall_conforms i c s hc)
    (fun _ _ _ hst hp => hp.grows hst) hev h

/-- Whoever writes first decides: the plans that are returned for one parent are one plan, and the
publications that succeed are of one index, the one that is stored. -/
theorem first_writer_decides (s : Records) (events : List (Event (RecordCall F) Bool))
    (hev : ∀ e ∈ events, Pool.Starts Derives e) :
    (∀ i j key derived derived' p q, CallReturned s events i (.freezePlan key derived)
      (.ok (.plan p)) →
      CallReturned s events j (.freezePlan key derived') (.ok (.plan q)) → p = q) ∧
    ∀ i plan digests keys v, CallReturned s events i (.publishChildren plan digests keys) (.ok v) →
      ∃ index : Document F, publicationIndex plan digests keys = .ok index.1 ∧
        Reads ((Pool.empty s).run recordsWorld (fun _ c => RecordCall.prog c) events).shared
        ⟨plan.parentKey, .publication⟩ index ∧
        ∀ j digests' keys' v', CallReturned s events j (.publishChildren plan digests' keys')
        (.ok v') →
          publicationIndex plan digests' keys' = .ok index.1 := by
  refine ⟨fun i j key derived derived' p q hp hq => ?_, fun i plan digests keys v h => ?_⟩
  · obtain ⟨d, hd, hpd⟩ := hp.promise hev
    obtain ⟨d', hd', hqd⟩ := hq.promise hev
    cases hd.unique hd'
    exact Except.ok.inj (hpd.symm.trans hqd)
  · obtain ⟨index, hr, hindex⟩ := h.promise hev
    refine ⟨index, hindex, hr, fun j digests' keys' v' h' => ?_⟩
    obtain ⟨index', hr', hi'⟩ := h'.promise hev
    cases hr.unique hr'
    exact hi'

end

section

open PrismaBuild.Action (ZeroOne accepted_a accepted_b)

instance : JsonLoads ZeroOne where
  loads raw :=
    match h : decodeStrictJson (F := ZeroOne) raw [] with
    | .ok v => some ⟨v, decodeStrictJson_sorted h⟩
    | .error _ => none
  loads_documentBytes {d raw} h := by
    have hread : decodeStrictJson raw [] = .ok d.1 := by
      unfold canonicalFileBytes at h
      obtain ⟨hp, h⟩ := ite_ok.mp h
      cases h
      exact decodeStrictJson_encodeUtf8 (Json.scan_text d.2 hp (.inr rfl)) []
    split
    next v hv =>
      cases hread.symm.trans hv
      rfl
    next hv =>
      rw [hread] at hv
      cases hv

def wholeBlueprint : Blueprint where
  parentKey := builtPlan.parentKey
  algorithmVersion := algorithmVersion
  partitions := ⟨[[⟨"a", accepted_a⟩, ⟨"b", accepted_b⟩]], by decide +kernel, by simp⟩

def wholePlan : Plan ZeroOne where
  toBlueprint := wholeBlueprint
  planKey := demoDigest wholeBlueprint.toJson
  bound := canonicalSha256_demo (by decide +kernel)

def twoSubmitters : List (Event (RecordCall ZeroOne) Bool) :=
  [.start (.freezePlan builtPlan.parentKey (.ok builtPlan)),
    .start (.freezePlan builtPlan.parentKey (.ok wholePlan)),
    .run 0 false, .run 1 false, .run 0 false, .run 1 false, .run 1 false]

theorem twoSubmitters_first : CallReturned (fun _ => none) twoSubmitters 0
    (.freezePlan builtPlan.parentKey (.ok builtPlan)) (.ok (.plan builtPlan)) := by
  have hraw : canonicalFileBytes builtPlan.toJson =
    .ok (encodeUtf8 (builtPlan.toJson.text ++ ['\n'])) :=
    if_pos (by decide +kernel)
  refine ⟨twoSubmitters.take 5, twoSubmitters.drop 5, rfl, ?_⟩
  simp [twoSubmitters, Pool.run, Pool.next, Pool.empty, RecordCall.prog, freezePlan, storedRecord,
    Prog.andThen,
    Prog.bind, recordsWorld, hraw]

/-- The submitter that publishes second never returns its own plan. -/
theorem twoSubmitters_agree :
    CallReturned (fun _ => none) twoSubmitters 0 (.freezePlan builtPlan.parentKey (.ok builtPlan))
    (.ok (.plan builtPlan)) ∧
      ∀ q, CallReturned (fun _ => none) twoSubmitters 1
      (.freezePlan builtPlan.parentKey (.ok wholePlan)) (.ok (.plan q)) →
        q = builtPlan := by
  have hs : ∀ e ∈ twoSubmitters, Pool.Starts Derives e := by
    simp [twoSubmitters, Pool.Starts, Derives, wholePlan, wholeBlueprint]
  obtain ⟨ha, -⟩ := first_writer_decides (fun _ => none) twoSubmitters hs
  exact ⟨twoSubmitters_first, fun q h => (ha _ _ _ _ _ _ _ twoSubmitters_first h).symm⟩

end

end PrismaBuild.Decomposition
