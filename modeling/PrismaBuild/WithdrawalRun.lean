import PrismaBuild.WithdrawalKept

namespace PrismaBuild.Withdrawal

open Prog Option

variable {T D : Generation → Prop} {s t : Store} {α : Type}
    {k : Option Doc → WithdrawalProg (Except Failure α)}
  {I : Store → Prop} {Q : Except Failure α → Store → Prop} {p : Path} {g : Generation} {o : Op}
    {β : Type} {m : Doc}

theorem read_along (hs : I s)
    (hf : ∀ f, Q (.error (.fault f)) s) (h : Along FileStore.step I Q (k (s.lookup p)) s) :
    Along FileStore.step I Q ((read p).andThen k) s := by
  refine .perform hs fun f => ?_
  cases f with
  | some f => exact ⟨hs, hf f⟩
  | none => exact h

theorem list_along {select : Path → Bool}
    {k : List Path → WithdrawalProg (Except Failure α)} (hs : I s)
    (hf : ∀ f, Q (.error (.fault f)) s)
    (h : Along FileStore.step I Q (k (s.keys.filter select)) s) :
      Along FileStore.step I Q ((list select).andThen k) s := by
  refine .perform hs fun f => ?_
  cases f with
  | some f => exact ⟨hs, hf f⟩
  | none => exact h

theorem withdrawalDecision_reads (p : Path) (s : Store) :
    Along FileStore.step (· = s) (fun r _ => ∀ d, r = .ok d → s.lookup p = some d)
    (withdrawalDecision p) s := by
  refine read_along rfl (by simp) ?_
  cases hp : s.lookup p with
  | none => exact ⟨rfl, by simp⟩
  | some d =>
    dsimp only
    split
    · exact ⟨rfl, fun d' he => by cases he; rfl⟩
    · exact ⟨rfl, by simp⟩

def markerFor (s : Store) (d : Doc) : Option Doc :=
  (s.lookup .marker).filter fun m =>
    match d.generation, m.generation with
    | some mine, some theirs => mine = theirs
    | _, _ => true

def coveredBy (s : Store) (d : Doc) : Option Doc :=
  (d.generation.bind fun g => s.lookup (.decision g)).or (markerFor s d)

theorem markerCovers_reads (d : Doc) (s : Store) :
    Along FileStore.step (· = s) (fun r _ => ∀ m, r = .ok m → m = markerFor s d) (markerCovers d)
    s := by
  refine read_along rfl (by simp) ?_
  unfold markerFor
  cases s.lookup .marker with
  | none => exact ⟨rfl, by rintro m ⟨⟩; rfl⟩
  | some m =>
    dsimp only
    split
    next mine theirs hd hm => exact ⟨rfl, by rintro m' ⟨⟩; simp [Option.filter, hd, hm]⟩
    next hne =>
      refine ⟨rfl, ?_⟩
      rintro m' ⟨⟩
      cases hd : d.generation with
      | none => simp [Option.filter]
      | some mine =>
        cases hm : m.generation with
        | none => simp [Option.filter, hm]
        | some theirs => exact absurd hm (hne mine theirs hd)

theorem filter_keys_eq_nil : s.keys.filter (fun q => q = p) = [] ↔ s.lookup p = none := by
  rw [List.filter_eq_nil_iff, AList.lookup_eq_none, AList.mem_keys]
  constructor
  · intro h hp
    simpa using h p hp
  · rintro h q hq hqp
    simp only [decide_eq_true_eq] at hqp
    exact h (hqp ▸ hq)

theorem withdrawalCovers_reads (d : Doc) (s : Store) :
    Along FileStore.step (· = s) (fun r _ => ∀ m, r = .ok m → m = coveredBy s d)
    (withdrawalCovers d) s := by
  unfold withdrawalCovers decisionPath coveredBy
  cases hd : d.generation with
  | none => exact markerCovers_reads d s
  | some g =>
    rw [bind_some]
    refine list_along rfl (by simp) ?_
    cases hl : s.keys.filter (fun q => q = Path.decision g) with
    | nil =>
      rw [filter_keys_eq_nil.mp hl]
      exact markerCovers_reads d s
    | cons q rest =>
      refine .andThen ((withdrawalDecision_reads (.decision g) s).imp fun r t ht hr => ?_)
      cases r with
      | error e => simp
      | ok decision =>
        refine ⟨ht, ?_⟩
        rintro m ⟨⟩
        rw [hr decision rfl]
        rfl

def covers (s : Store) (d : Doc) : Except Failure (Option Doc) :=
  (exec FileStore.step none (withdrawalCovers d) s).1

theorem exec_read (p : Path) (s : Store) :
    exec FileStore.step none (read p) s = (.ok (s.lookup p), s) := rfl

theorem exec_list (select : Path → Bool) (s : Store) :
    exec FileStore.step none (list select) s = (.ok (s.keys.filter select), s) := rfl

theorem exec_markerCovers (d : Doc) (s : Store) :
    (exec FileStore.step none (markerCovers d) s).1 = .ok (markerFor s d) := by
  have hr := (markerCovers_reads d s).exec none
  have hok : ∃ m, (exec FileStore.step none (markerCovers d) s).1 = .ok m := by
    rw [markerCovers, exec_andThen, exec_read]
    dsimp only
    split
    · exact ⟨_, rfl⟩
    · split <;> exact ⟨_, rfl⟩
  obtain ⟨m, hm⟩ := hok
  rw [hm, hr m hm]

variable {d : Doc}

theorem exec_withdrawalDecision
    (hl : s.lookup (.decision g) = some d) (hg : d.generation = some g) (hst : d.stamp.isSome) :
    exec FileStore.step none (withdrawalDecision (.decision g)) s = (.ok d, s) := by
  rw [withdrawalDecision, exec_andThen, exec_read]
  simp [hl, hst, decisionPath, hg, exec]

theorem covers_eq (h : Kept T D s) (d : Doc) : covers s d = .ok (coveredBy s d) := by
  unfold covers withdrawalCovers decisionPath coveredBy
  cases hd : d.generation with
  | none => exact exec_markerCovers d s
  | some g =>
    dsimp only [map_some]
    rw [exec_andThen, exec_list, bind_some]
    cases hl : s.keys.filter (fun q => q = Path.decision g) with
    | nil =>
      rw [filter_keys_eq_nil.mp hl]
      exact exec_markerCovers d s
    | cons q rest =>
      obtain ⟨decision, hde⟩ : ∃ decision, s.lookup (.decision g) = some decision := by
        rw [← ne_none_iff_exists']
        intro hn
        rw [filter_keys_eq_nil.mpr hn] at hl
        cases hl
      obtain ⟨hg, hst, -⟩ := h.decided g decision hde
      dsimp only
      rw [exec_andThen, exec_withdrawalDecision hde hg hst, hde]
      rfl

theorem covers_of_decision (h : Kept T D s) (hd : d.generation = some g) (hg : .decision g ∈ s) :
    ∃ decision, covers s d = .ok (some decision) ∧ decision.generation = some g ∧
    decision.stamp.isSome := by
  obtain ⟨decision, hl⟩ := isSome_iff_exists.mp (AList.lookup_isSome.mpr hg)
  obtain ⟨hge, hst, -⟩ := h.decided g decision hl
  refine ⟨decision, ?_, hge, hst⟩
  rw [covers_eq h, coveredBy, hd, bind_some, hl, some_or]

theorem covers_eq_none (h : Kept T D s) (hd : d.generation = some g) (hT : ¬ T g) :
    covers s d = .ok none := by
  have hn : s.lookup (.decision g) = none := by
    cases hl : s.lookup (.decision g) with
    | none => rfl
    | some decision => exact absurd (h.decided g decision hl).2.2 hT
  rw [covers_eq h, coveredBy, hd, bind_some, hn, none_or]
  congr 1
  unfold markerFor
  cases hm : s.lookup .marker with
  | none => rfl
  | some m =>
    obtain ⟨g', hg', -, hme⟩ := h.marked .marker m (.inl rfl) hm
    obtain ⟨decision, hl⟩ := isSome_iff_exists.mp (AList.lookup_isSome.mpr hme)
    have hT' := (h.decided g' decision hl).2.2
    have hne : g ≠ g' := by
      rintro rfl
      exact hT hT'
    simp [Option.filter, hd, hg', hne]

theorem safe_then {k : o.Answer → WithdrawalProg β} {Q : β → Store → Prop} (hs : Kept T D s)
    (ho : Safe T s o)
    (h : ∀ a t, Kept T D t → Along FileStore.step (Kept T D) Q (k a) t) :
      Along FileStore.step (Kept T D) Q (perform o >>= k) s :=
  .perform hs fun f => h _ _ (hs.step ho f)

abbrev Stays (T D : Generation → Prop) (p : WithdrawalProg α) (s : Store) : Prop :=
  Along FileStore.step (Kept T D) (fun _ _ => True) p s

theorem Stays.andThen {p : WithdrawalProg (Except Failure α)}
    {k : α → WithdrawalProg (Except Failure β)} (hp : Stays T D p s)
    (hk : ∀ a t, Kept T D t → Stays T D (k a) t) : Stays T D (p.andThen k) s := by
  refine Along.andThen (hp.imp fun r t ht _ => ?_)
  cases r with
  | ok a => exact hk a t ht
  | error e => trivial

theorem Stays.then {p : WithdrawalProg α} {k : α → WithdrawalProg β} (hp : Stays T D p s)
    (hk : ∀ a t, Kept T D t → Stays T D (k a) t) : Stays T D (p >>= k) s :=
  .bind (hp.imp fun a t ht _ => hk a t ht)

variable (hs : Kept T D s)

include hs

theorem stays_of_safe (ho : Safe T s o) : Stays T D (perform o : WithdrawalProg o.Answer) s :=
  safe_then hs ho fun _ _ ht => ⟨ht, trivial⟩

theorem fileWithdrawalDecision_along
    (hg : d.generation = some g) (hst : d.stamp.isSome) (hT : T g) : Along FileStore.step (Kept T D)
      (fun r t => ∀ d', r = .ok d' → d'.generation = some g ∧ d'.stamp.isSome ∧ .decision g ∈ t)
      (fileWithdrawalDecision d) s := by
  have hp : decisionPath d = some (.decision g) := by simp [decisionPath, hg]
  unfold fileWithdrawalDecision
  rw [hp]
  refine .perform hs fun f => ?_
  have ht := hs.step (o := .create (.decision g) d) ⟨g, rfl, hg, hst, hT⟩ f
  cases f with
  | some f => exact ⟨hs, by simp⟩
  | none =>
    have hm : .decision g ∈ (FileStore.step (.create (.decision g) d) none s).2 := by
      by_cases hin : .decision g ∈ s <;> simp [FileStore.step, hin]
    have hok : ∃ won, (FileStore.step (.create (.decision g) d) none s).1 = .ok won := by
      by_cases hin : .decision g ∈ s <;> simp [FileStore.step, hin]
    obtain ⟨won, hw⟩ := hok
    rw [hw]
    refine ((withdrawalDecision_reads (.decision g) _).imp ?_).weaken fun u hu => hu ▸ ht
    rintro r u rfl hr d' hd'
    obtain ⟨hg', hst', -⟩ := ht.decided g d' (hr d' hd')
    exact ⟨hg', hst', hm⟩

theorem fileMarker_stays (hd : ∃ g, d.generation = some g ∧ d.stamp.isSome ∧ .decision g ∈ s) :
    Stays T D (fileWithdrawalDecision d) s := by
  obtain ⟨g, hg, hst, hm⟩ := hd
  obtain ⟨decision, hl⟩ := isSome_iff_exists.mp (AList.lookup_isSome.mpr hm)
  exact (fileWithdrawalDecision_along hs hg hst (hs.decided g decision hl).2.2).imp fun _ _ _ _ =>
    trivial

theorem read_stays (h : Stays T D (k (s.lookup p)) s) : Stays T D ((read p).andThen k) s :=
  read_along hs (fun _ => trivial) h

theorem covers_stays (h : Stays T D (k (coveredBy s d)) s) :
    Stays T D ((withdrawalCovers d).andThen k) s := by
  refine Along.andThen (((withdrawalCovers_reads d s).imp ?_).weaken fun u hu => hu ▸ hs)
  rintro r u rfl hr
  cases r with
  | ok m => rw [hr m rfl]; exact h
  | error e => trivial

theorem unlinkMissingOk_stays (hp : Safe T s (.unlink p)) : Stays T D (unlinkMissingOk p) s := by
  refine (stays_of_safe hs hp).then fun a t ht => ?_
  split <;> exact ⟨ht, trivial⟩

theorem keepSuperseded_stays (fresh : Nat) : Stays T D (keepSuperseded fresh) s := by
  refine read_stays hs ?_
  cases hm : s.lookup (.capturedMarker fresh) with
  | none => exact ⟨hs, trivial⟩
  | some m =>
    refine (fileMarker_stays hs (hs.marked _ m (.inr ⟨fresh, rfl⟩) hm)).andThen fun _ t ht => ?_
    refine Stays.andThen (stays_of_safe ht (.inr (.inl ⟨fresh, rfl⟩))) fun _ u hu => ?_
    exact ⟨hu, trivial⟩

theorem putMarkerBack_stays (fresh : Nat) : Stays T D (putMarkerBack fresh) s := by
  refine safe_then hs (.inl ⟨fresh, rfl, rfl⟩) fun a t ht => ?_
  split
  · exact ⟨ht, trivial⟩
  · exact ⟨ht, trivial⟩
  · exact stays_of_safe ht (.inl ⟨fresh, rfl⟩)

theorem supersedeWithdrawal_stays (fresh : Nat) : Stays T D (supersedeWithdrawal fresh) s := by
  refine safe_then hs (.inl ⟨fresh, rfl, rfl⟩) fun a t ht => ?_
  split
  · exact ⟨ht, trivial⟩
  · exact ⟨ht, trivial⟩
  · refine (keepSuperseded_stays ht fresh).then fun r u hu => ?_
    split
    · exact (putMarkerBack_stays hu fresh).andThen fun _ v hv => ⟨hv, trivial⟩
    · exact Stays.andThen (stays_of_safe hu (.inl ⟨fresh, rfl⟩)) fun _ v hv => ⟨hv, trivial⟩

theorem coveredBy_marked (h : coveredBy s d = some m) :
    ∃ g, m.generation = some g ∧ m.stamp.isSome ∧ .decision g ∈ s := by
  rcases or_eq_some_iff.mp h with h | ⟨-, h⟩
  · obtain ⟨g, -, hl⟩ := bind_eq_some_iff.mp h
    obtain ⟨hg, hst, -⟩ := hs.decided g m hl
    exact ⟨g, hg, hst, AList.lookup_isSome.mp (by simp [hl])⟩
  · exact hs.marked .marker m (.inl rfl) (filter_eq_some_iff.mp h).1

theorem coveredBy_decided (hd : d.generation = some g) (h : coveredBy s d = some m) :
    .decision g ∈ s := by
  rcases or_eq_some_iff.mp h with h | ⟨-, h⟩
  · rw [hd, bind_some] at h
    exact AList.lookup_isSome.mp (by simp [h])
  · obtain ⟨hm, hsa⟩ := filter_eq_some_iff.mp h
    obtain ⟨g', hg', -, hme⟩ := hs.marked .marker m (.inl rfl) hm
    simp only [hd, hg', decide_eq_true_eq] at hsa
    exact hsa ▸ hme

theorem judgeReady_stays (fresh : Nat) : Stays T D (judgeReady fresh) s := by
  refine read_stays hs ?_
  cases s.lookup (.capturedReady fresh) with
  | none => exact ⟨hs, trivial⟩
  | some moved =>
    refine covers_stays hs ?_
    cases hm : coveredBy s moved with
    | none => exact ⟨hs, trivial⟩
    | some m =>
      refine (fileMarker_stays hs (coveredBy_marked hs hm)).andThen fun _ t ht => ?_
      refine safe_then ht (.inr (.inr ⟨fresh, fresh, rfl, rfl⟩)) fun a u hu => ?_
      split <;> exact ⟨hu, trivial⟩

theorem restoreReady_stays (fresh : Nat) : Stays T D (restoreReady fresh) s := by
  refine safe_then hs (.inr ⟨fresh, rfl, rfl⟩) fun a t ht => ?_
  split
  · exact ⟨ht, trivial⟩
  · exact unlinkMissingOk_stays ht (.inr ⟨fresh, rfl⟩)

theorem withdrawReady_stays (fresh : Nat) : Stays T D (withdrawReady fresh) s := by
  refine safe_then hs (.inr (.inl ⟨fresh, rfl, rfl⟩)) fun a t ht => ?_
  split
  · exact ⟨ht, trivial⟩
  · exact ⟨ht, trivial⟩
  · refine (judgeReady_stays ht fresh).then fun r u hu => ?_
    split
    · exact ⟨hu, trivial⟩
    · exact (restoreReady_stays hu fresh).andThen fun _ v hv => ⟨hv, trivial⟩

theorem publish_stays (generation : Generation) (fresh : Nat) :
    Stays T D (publish generation fresh) s :=
  (supersedeWithdrawal_stays hs fresh).andThen fun _ _ ht =>
    stays_of_safe ht (.inr (.inr ⟨rfl, rfl⟩))

omit hs

def targetOf (q : Request) (s : Store) : Option (Doc × Origin) :=
  match s.lookup .claimed with
  | none => (s.lookup .ready).map fun d => (d, .ready)
  | some c =>
    if q.handoff.isSome then some (c, .claimed)
    else
      match coveredBy s c with
      | none => some (c, .claimed)
      | some _ =>
        match s.lookup .ready with
        | none => some (c, .claimed)
        | some waiting =>
          match coveredBy s waiting with
          | none => some (waiting, .ready)
          | some _ => some (c, .claimed)

theorem targetOf_mem {q : Request} {o : Origin} (h : targetOf q s = some (d, o)) :
    s.lookup .claimed = some d ∨ s.lookup .ready = some d := by
  unfold targetOf at h
  split at h
  next =>
    obtain ⟨d', hd', he⟩ := map_eq_some_iff.mp h
    cases he
    exact .inr hd'
  next c hc =>
    split at h
    · cases h; exact .inl hc
    · split at h
      · cases h; exact .inl hc
      · split at h
        next => cases h; exact .inl hc
        next waiting hw =>
          split at h
          · cases h; exact .inr hw
          · cases h; exact .inl hc

theorem chooseRecord_reads (q : Request) (s : Store) :
    Along FileStore.step (· = s) (fun r _ => ∀ x, r = .ok x → x = targetOf q s)
      (chooseRecord q (s.lookup .claimed)) s := by
  unfold chooseRecord targetOf
  cases s.lookup .claimed with
  | none => exact read_along rfl (by simp) ⟨rfl, by rintro x ⟨⟩; rfl⟩
  | some c =>
    dsimp only
    split
    · exact ⟨rfl, by rintro x ⟨⟩; rfl⟩
    · refine .andThen ((withdrawalCovers_reads c s).imp ?_)
      rintro r u rfl hr
      cases r with
      | error e => simp
      | ok covered =>
        rw [← hr covered rfl]
        cases covered with
        | none => exact ⟨rfl, by rintro x ⟨⟩; rfl⟩
        | some m =>
          refine read_along rfl (by simp) ?_
          cases u.lookup .ready with
          | none => exact ⟨rfl, by rintro x ⟨⟩; rfl⟩
          | some waiting =>
            refine .andThen ((withdrawalCovers_reads waiting u).imp ?_)
            rintro r v rfl hr
            cases r with
            | error e => simp
            | ok covered =>
              dsimp only
              rw [← hr covered rfl]
              cases covered <;> exact ⟨rfl, by rintro x ⟨⟩; rfl⟩

end PrismaBuild.Withdrawal
