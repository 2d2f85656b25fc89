import PrismaBuild.ActionEdges
import PrismaBuild.ActionKey

namespace PrismaBuild.ActionEdges

open Contract Chain List Option

variable {Body : Type} {s t : Records Body} {old id pendingId : SubmissionId}
  {r : Supersession} {kind : ProducerKind}

/-- Only filed submissions are released, and only released ones published. -/
structure Records.Coherent (s : Records Body) : Prop where
  deferred {key : SubmissionId} : (s.releases key).isSome → (s.deferred key).isSome
  released {key : SubmissionId} : (s.published key).isSome → (s.releases key).isSome

variable {R : Type} {what : String} {current : SubmissionId} {n : Nat}
    {path seen : List SubmissionId}

theorem file_ok [DecidableEq R] {filed filed' : SubmissionId → Option R} {r : R}
    (h : file what filed id r = .ok filed') :
    filed id = none ∧ filed' = Function.update filed id (some r) ∨ filed id = some r ∧
      filed' = filed := by
  unfold file at h
  split at h
  next hn =>
    cases h
    exact .inl ⟨hn, rfl⟩
  next winner hs =>
    obtain ⟨heq, h⟩ := ite_ok.mp h
    cases h
    exact .inr ⟨heq ▸ hs, rfl⟩

theorem isSome_file [DecidableEq R] {filed filed' : SubmissionId → Option R} {r : R}
    {key : SubmissionId} (h : file what filed id r = .ok filed') : (filed' key).isSome ↔ key = id ∨
    (filed key).isSome := by
  rcases file_ok h with ⟨-, rfl⟩ | ⟨hs, rfl⟩
  · by_cases hk : key = id
    · simp [hk]
    · simp [hk]
  · by_cases hk : key = id
    · simp [hk, hs]
    · simp [hk]

variable {p : Publication}

theorem filePublished_ok (h : filePublished s pendingId p = .ok t) :
    ∃ published, file "deferred release publication" s.published pendingId p = .ok published ∧
    t = { s with published := published } := by
  obtain ⟨published, hf, h⟩ := bind_ok.mp h
  cases h
  exact ⟨published, hf, rfl⟩

theorem checkSupersession_ok {record : Supersession} (h : checkSupersession s old r = .ok record) :
    record = r ∧ old ≠ r.new ∧ refuseUnended s old = .ok () ∧
    refuseLoop s old r.new maxLinks [r.new] r.new = .ok () := by
  unfold checkSupersession at h
  obtain ⟨hne, h⟩ := guard_ok.mp h
  obtain ⟨_, he, h⟩ := bind_ok.mp h
  obtain ⟨_, hl, h⟩ := bind_ok.mp h
  refine ⟨?_, hne, he, hl⟩
  split at h
  · cases h
    rfl
  · obtain ⟨-, h⟩ := ite_ok.mp h
    cases h
    rfl

theorem fileSupersession_ok (h : fileSupersession s old r = .ok t) :
    old ≠ r.new ∧ refuseUnended s old = .ok () ∧
    refuseLoop s old r.new maxLinks [r.new] r.new = .ok () ∧
      ∃ supersessions, file "supersession" s.supersessions old r = .ok supersessions ∧
      t = { s with supersessions := supersessions } := by
  obtain ⟨record, hc, hre⟩ := bind_ok.mp h
  obtain ⟨rfl, hne, he, hl⟩ := checkSupersession_ok hc
  obtain ⟨supersessions, hf, hr⟩ := bind_ok.mp hre
  cases hr
  exact ⟨hne, he, hl, supersessions, hf, rfl⟩

theorem refuseUnended_ok (hs : s.Coherent) (h : refuseUnended s old = .ok ()) :
    s.published old = none := by
  have hu : s.releases old = none := by
    unfold refuseUnended at h
    split at h
    next =>
      split at h
      next => cases h
      next hn => exact hn
    next hn =>
      by_contra hso
      have hf := hs.deferred (isSome_iff_ne_none.mpr hso)
      rw [hn] at hf
      cases hf
  by_contra hso
  have hr := hs.released (isSome_iff_ne_none.mpr hso)
  rw [hu] at hr
  cases hr

theorem refuseLoop_ok {new : SubmissionId}
    (h : refuseLoop s old new n seen current = .ok ()) : old ∉ trail s.successor n current := by
  induction n generalizing seen current with
  | zero => exact not_mem_nil
  | succ n ih =>
    unfold refuseLoop at h
    split at h
    next hn =>
      have he : s.successor current = none := by simp [Records.successor, hn]
      simp [trail, he]
    next successor hs =>
      have hl : s.successor current = some successor.new := by simp [Records.successor, hs]
      rw [trail_some hl]
      obtain ⟨hne, h⟩ := guard_ok.mp h
      have hold : old ≠ successor.new := fun heq => hne (.inl heq.symm)
      intro hm
      rcases mem_cons.mp hm with heq | hm
      · exact hold heq
      · exact ih h hm

/-- Where a supersession or a publication, if accepted, closes no loop: a way back to `old` is one
that the check walks, and the key of a submission that is not superseded does not lead back to it.
-/
def Clear (s : Records Body) : Call Body → Prop
  | .supersession old r =>
    Leads s.link r.new old → old = r.new ∨ old ∈ trail s.successor maxLinks r.new
  | .published pendingId p =>
    s.supersessions pendingId = none → ¬ Leads s.link p.actionKey pendingId
  | _ => True

theorem link_of_supersession (h : s.supersessions id = some r) : s.link id = some r.new := by
  simp [Records.link, h]

theorem link_of_published (hn : s.supersessions id = none) (h : s.published id = some p) :
    s.link id = some p.actionKey := by
  simp [Records.link, hn, h]

theorem link_update_supersessions :
    { s with supersessions := Function.update s.supersessions old (some r) }.link =
      Function.update s.link old (some r.new) := by
  funext key
  by_cases hk : key = old
  · simp [Records.link, hk]
  · simp [Records.link, hk]

theorem link_update_published (hn : s.supersessions pendingId = none) :
    { s with published := Function.update s.published pendingId (some p) }.link =
      Function.update s.link pendingId (some p.actionKey) := by
  funext key
  by_cases hk : key = pendingId
  · simp [Records.link, hk, hn]
  · simp [Records.link, hk]

theorem link_update_published_of_superseded (h : s.supersessions pendingId = some r) :
    { s with published := Function.update s.published pendingId (some p) }.link = s.link := by
  funext key
  by_cases hk : key = pendingId
  · simp [Records.link, hk, h]
  · simp [Records.link, hk]

theorem ends_update_iff {link : SubmissionId → Option SubmissionId} {u v : SubmissionId}
    (h : Ends link)
    (hn : link u = none) : Ends (Function.update link u (some v)) ↔ ¬ Leads link v u :=
  h.extend_iff (fun _ hx => Function.update_of_ne hx _ _) hn (Function.update_self _ _ _)

theorem supersession_ends_iff (hs : s.Coherent) (hen : Ends s.link)
    (h : fileSupersession s old r = .ok t) :
    Ends t.link ↔ Clear s (.supersession old r) := by
  obtain ⟨hne, he, hl, supersessions, hf, rfl⟩ := fileSupersession_ok h
  have hc : Clear s (.supersession old r) ↔ ¬ Leads s.link r.new old := by
    refine ⟨fun hc hb => ?_, fun hno hb => absurd hb hno⟩
    rcases hc hb with heq | hm
    · exact hne heq
    · exact refuseLoop_ok hl hm
  rw [hc]
  rcases file_ok hf with ⟨hn, rfl⟩ | ⟨hso, rfl⟩
  · have hli : s.link old = none := by simp [Records.link, hn, refuseUnended_ok hs he]
    rw [link_update_supersessions]
    exact ends_update_iff hen hli
  · -- the same record was on file before
    exact ⟨fun _ => hen old r.new (link_of_supersession hso), fun _ => hen⟩

theorem published_ends_iff (he : Ends s.link) (h : filePublished s pendingId p = .ok t) :
    Ends t.link ↔ Clear s (.published pendingId p) := by
  obtain ⟨published, hf, rfl⟩ := filePublished_ok h
  rcases file_ok hf with ⟨hn, rfl⟩ | ⟨hso, rfl⟩
  · cases hs : s.supersessions pendingId with
    | some r =>
      rw [link_update_published_of_superseded hs]
      refine ⟨fun _ hc => ?_, fun _ => he⟩
      rw [hs] at hc
      cases hc
    | none =>
      have hl : s.link pendingId = none := by simp [Records.link, hs, hn]
      rw [link_update_published hs, ends_update_iff he hl]
      exact ⟨fun hno _ => hno, fun hc => hc hs⟩
  · refine ⟨fun _ hs => ?_, fun _ => he⟩
    exact he pendingId p.actionKey (link_of_published hs hso)

theorem hop_link {next : SubmissionId} {nextKind : ProducerKind}
    (h : hop s id kind = some (next, nextKind)) :
    s.link id = some next := by
  unfold hop at h
  split at h
  next successor hs =>
    obtain ⟨rfl, -⟩ := Prod.mk.inj (some.inj h)
    exact link_of_supersession hs
  next hn =>
    cases kind with
    | key => cases h
    | pending =>
      obtain ⟨p, hp, heq⟩ := map_eq_some_iff.mp h
      obtain ⟨rfl, -⟩ := Prod.mk.inj heq
      exact link_of_published hn hp

theorem successorLoop_ok (he : Ends s.link)
    (hs : ∀ x ∈ seen, Leads s.link x current) (hfi : Finishes s.link n current) :
    ∃ answer, successorLoop s old n seen path current kind = .ok answer := by
  induction n generalizing seen path current kind with
  | zero => exact absurd hfi (Nat.not_lt_zero _)
  | succ n ih =>
    unfold successorLoop
    cases hh : hop s current kind with
    | none => exact ⟨_, rfl⟩
    | some step =>
      obtain ⟨next, nextKind⟩ := step
      have hl := hop_link hh
      have hf : next ∉ seen := fun hm => he current next hl (hs next hm)
      simp only [hf, if_false]
      refine ih (fun x hx => ?_) (hfi.next hl)
      rcases mem_cons.mp hx with rfl | hx
      · exact .refl
      · exact (hs x hx).tail hl

theorem resolveKey_state (templateId : Name) (current : SubmissionId) (path : List SubmissionId) :
    (resolveKey s templateId current path).state ≠ .supersededLoop := by
  unfold resolveKey
  repeat' split
  all_goals simp

theorem resolveLoop_state (he : Ends s.link) (templateId : Name)
    (hs : ∀ x ∈ seen, ∃ y, s.link x = some y ∧ Leads s.link y current)
    (hfi : Finishes s.link n current) :
      (resolveLoop s templateId n seen path current kind).state ≠ .supersededLoop := by
  induction n generalizing seen path current kind with
  | zero => exact absurd hfi (Nat.not_lt_zero _)
  | succ n ih =>
    have hf : current ∉ seen := by
      intro hm
      obtain ⟨y, hl, hb⟩ := hs current hm
      exact he current y hl hb
    unfold resolveLoop
    rw [if_neg hf]
    cases hh : hop s current kind with
    | some step =>
      obtain ⟨next, nextKind⟩ := step
      have hl := hop_link hh
      refine ih (fun x hx => ?_) (hfi.next hl)
      rcases mem_cons.mp hx with rfl | hx
      · exact ⟨next, hl, .refl⟩
      · obtain ⟨y, hxy, hy⟩ := hs x hx
        exact ⟨y, hxy, hy.tail hl⟩
    | none =>
      cases kind with
      | pending => nofun
      | key => exact resolveKey_state templateId current _

/-- Following links from any submission never returns to one already visited, and while chains are
shorter than the limit both resolvers come to the end of theirs. -/
structure ChainsEnd (s : Records Body) : Prop where
  noReturn (id : SubmissionId) (n : Nat) : (id :: trail s.link n id).Nodup
  successorOf (hshort : Shorter s.link maxLinks) (old : SubmissionId) :
    ∃ answer, successorOf s old = .ok answer
  resolveProducer (hshort : Shorter s.link maxLinks) (producer : SubmissionId) (kind : ProducerKind)
    (templateId : Name) :
    (resolveProducer s producer kind templateId).state ≠ .supersededLoop

theorem chainsEnd_iff_ends : ChainsEnd s ↔ Ends s.link := by
  refine ⟨fun h => ends_iff_nodup_trail.mpr h.noReturn, fun he => ?_⟩
  refine ⟨fun id n => he.nodup_trail n id, fun hs old => ?_, fun hs producer kind templateId => ?_⟩
  · refine successorLoop_ok he (fun x hx => ?_) (he.finishes hs old)
    rw [mem_singleton.mp hx]
    exact .refl
  · exact resolveLoop_state he templateId (fun x hx => absurd hx not_mem_nil)
      (he.finishes hs producer)

theorem empty_coherent : (Records.empty Body).Coherent := ⟨nofun, nofun⟩

theorem empty_ends : Ends (Records.empty Body).link := nofun

variable [DecidableEq Body]

theorem fileRelease_ok {release : Release Body} (h : fileRelease s pendingId release = .ok t) :
    ∃ releases, file "deferred release" s.releases pendingId release = .ok releases ∧
    t = { s with releases := releases } := by
  obtain ⟨releases, hf, h⟩ := bind_ok.mp h
  cases h
  exact ⟨releases, hf, rfl⟩

variable [Deferral Body]

theorem fileDeferred_ok {body : Body} (h : fileDeferred s body = .ok t) :
    ∃ deferred, file "deferred submission" s.deferred (Deferral.pendingId body) body =
    .ok deferred ∧ t = { s with deferred := deferred } := by
  unfold fileDeferred at h
  split at h
  · cases h
  · obtain ⟨deferred, hf, h⟩ := bind_ok.mp h
    cases h
    exact ⟨deferred, hf, rfl⟩

variable {c : Call Body}

theorem Records.next_ok (h : c.result s = .ok t) : s.next c = t := by
  simp [Records.next, h]

theorem Records.next_error {problem : String} (h : c.result s = .error problem) : s.next c = s := by
  simp [Records.next, h]

theorem Records.Coherent.next (hs : s.Coherent) (hc : Allowed s c) : (s.next c).Coherent := by
  cases hr : c.result s with
  | error problem =>
    rw [Records.next_error hr]
    exact hs
  | ok t =>
    rw [Records.next_ok hr]
    cases c with
    | deferred body =>
      obtain ⟨deferred, hf, rfl⟩ := fileDeferred_ok hr
      exact ⟨fun h => (isSome_file hf).mpr (.inr (hs.deferred h)), hs.released⟩
    | release pendingId release =>
      obtain ⟨releases, hf, rfl⟩ := fileRelease_ok hr
      refine ⟨fun {key} h => ?_, fun h => (isSome_file hf).mpr (.inr (hs.released h))⟩
      rcases (isSome_file hf).mp h with heq | h
      · have hfi := hc
        rw [← heq] at hfi
        exact hfi
      · exact hs.deferred h
    | published pendingId p =>
      obtain ⟨published, hf, rfl⟩ := filePublished_ok hr
      refine ⟨hs.deferred, fun {key} h => ?_⟩
      rcases (isSome_file hf).mp h with heq | h
      · have hp := hc
        rw [← heq] at hp
        obtain ⟨release, hre, -⟩ := map_eq_some_iff.mp hp
        exact isSome_of_eq_some hre
      · exact hs.released h
    | supersession old r =>
      obtain ⟨-, -, -, supersessions, -, rfl⟩ := fileSupersession_ok hr
      exact ⟨hs.deferred, hs.released⟩
    | fleet standing committedAttempt =>
      cases hr
      exact ⟨hs.deferred, hs.released⟩

theorem next_ends_iff (hs : s.Coherent) (he : Ends s.link) :
    Ends (s.next c).link ↔ ((c.result s).isOk → Clear s c) := by
  cases hr : c.result s with
  | error problem =>
    rw [Records.next_error hr]
    exact ⟨fun _ h => (nomatch h), fun _ => he⟩
  | ok t =>
    rw [Records.next_ok hr]
    have hok : (Except.ok t : Except String (Records Body)).isOk = true := rfl
    have hsa : t.link = s.link → Clear s c →
      (Ends t.link ↔ ((Except.ok t : Except String (Records Body)).isOk → Clear s c)) := by
      intro hl hc
      rw [hl]
      exact ⟨fun _ _ => hc, fun _ => he⟩
    cases c with
    | deferred body =>
      obtain ⟨deferred, -, rfl⟩ := fileDeferred_ok hr
      exact hsa rfl trivial
    | release pendingId release =>
      obtain ⟨releases, -, rfl⟩ := fileRelease_ok hr
      exact hsa rfl trivial
    | published pendingId p =>
      rw [published_ends_iff he hr]
      exact ⟨fun h _ => h, fun h => h hok⟩
    | supersession old r =>
      rw [supersession_ends_iff hs he hr]
      exact ⟨fun h _ => h, fun h => h hok⟩
    | fleet standing committedAttempt =>
      cases hr
      exact hsa rfl trivial

/-- From the empty queue, chains end in every state of a run exactly if no accepted call of it
closes a loop that the check does not walk: one through a release, or one longer than its limit. -/
theorem chainsEnd_iff_clear {calls : List (Call Body)}
    (hallowed : Throughout Records.next Allowed (Records.empty Body) calls) :
    (∀ before, before <+: calls → ChainsEnd (runTrace Records.next (Records.empty Body) before)) ↔
      Throughout Records.next (fun s c => (c.result s).isOk → Clear s c) (Records.empty Body)
      calls := by
  simp only [chainsEnd_iff_ends]
  exact forall_state_iff_throughout (I := Records.Coherent)
    (fun _ _ hs hc => hs.next hc) (fun _ _ hs he _ => next_ends_iff hs he) empty_coherent empty_ends
    hallowed

section

instance : Deferral Unit := ⟨fun _ => Action.zeros, fun _ => none⟩

def demoKey (n : Nat) : SubmissionId := ⟨Action.hexDigits n, Action.hexDigits_accepted n⟩

def releasedThenFailed : List (Call Unit) :=
  [.deferred (), .release Action.zeros ⟨demoKey 1, ()⟩, .published Action.zeros ⟨demoKey 1, 0⟩,
    .fleet (fun _ => .row .failed ⟨false, []⟩) fun _ _ => none]

def supersededByKey : List (Call Unit) :=
    releasedThenFailed ++ [.supersession (demoKey 1) ⟨demoKey 2, .key⟩]

/-- Superseding the failed key by the same deferred submission, filed again. -/
def supersededByItsSubmission : List (Call Unit) :=
  releasedThenFailed ++ [.deferred (), .supersession (demoKey 1) ⟨Action.zeros, .pending⟩]

theorem supersededByKey_chainsEnd :
    ChainsEnd (runTrace Records.next (Records.empty Unit) supersededByKey) := by
  have ha : Throughout Records.next Allowed (Records.empty Unit) supersededByKey :=
    ⟨trivial, by decide +kernel, by decide +kernel, trivial, trivial, trivial⟩
  refine (chainsEnd_iff_clear ha).mpr ?_ supersededByKey (prefix_refl _)
  refine ⟨fun _ => trivial, fun _ => trivial, fun _ _ hb => ?_, fun _ => trivial, fun _ hb =>
    ?_, trivial⟩
  · exact absurd (hb.eq_of_none (by decide +kernel)) (by decide +kernel)
  · exact absurd (hb.eq_of_none (by decide +kernel)) (by decide +kernel)

theorem supersededByItsSubmission_returns :
    Throughout Records.next Allowed (Records.empty Unit) supersededByItsSubmission ∧
    Throughout Records.next (fun s c => (c.result s).isOk) (Records.empty Unit)
    supersededByItsSubmission ∧
    ¬ (demoKey 1 :: trail (runTrace Records.next (Records.empty Unit)
    supersededByItsSubmission).link 2 (demoKey 1)).Nodup ∧
    successorOf (runTrace Records.next (Records.empty Unit) supersededByItsSubmission) (demoKey 1) =
      .error "the supersessions of 000000000000 lead back to 000000000000" ∧
    (resolveProducer (runTrace Records.next (Records.empty Unit) supersededByItsSubmission)
      (demoKey 1) .key []).state =
      .supersededLoop :=
  ⟨⟨trivial, by decide +kernel, by decide +kernel, trivial, trivial, trivial, trivial⟩,
    ⟨by decide +kernel, by decide +kernel, by decide +kernel, by decide +kernel, by decide +kernel, by decide +kernel, trivial⟩,
    by decide +kernel, by decide +kernel, by decide +kernel⟩

end

end PrismaBuild.ActionEdges
