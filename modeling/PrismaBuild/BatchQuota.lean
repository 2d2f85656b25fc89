import PrismaBuild.BatchLedger

namespace PrismaBuild.Batch

variable {t : Template} {i : Instance} {s s' : Ledger} {w : Surroundings}

inductive Change (t : Template) (s : Ledger) : Ledger → Prop
  | reserve {id : Name} {p : Prewrite} (name : id ≠ [] ∧ '/' ∉ id)
    (fresh : s.prewrites.lookup id = none)
      (room : ∀ c, outstandingSums s id c + p.classBytes.get c ≤ t.maxima.get c)
      (free : ownWriteOwner s p.paths id = none) :
        Change t s { s with prewrites := s.prewrites.insert id p }
  | record (id : Name) (record : BatchRecord) : Change t s (s.fileRecord id record)
  | commit {id : Name} {p : Prewrite} {e : Entry} (uncommitted : s.batches.lookup id = none)
      (authorised : s.prewrites.lookup id = some p)
      (within : ∀ c, e.classBytes.get c ≤ p.classBytes.get c)
      (planned : ∀ path ∈ e.paths, path ∈ p.paths) : Change t s (s.fileEntry id e)
  | unlink (id : Name) : Change t s (s.unlinkPrewrite id)
  | reclaim {id : Name} {e : Entry} (committed : s.batches.lookup id = some e) :
      Change t s (s.fileEntry id { e with originReclaimed := true })

section

variable {id : Name} {paths : List Name} {p : Prewrite} {descriptors : List Descriptor}
    {lifetime : Lifetime}
  {record : BatchRecord}

theorem checkReservation_ok {planned : ClassBytes} {u : Unit}
    (h : checkReservation t s w id planned paths = .ok u) :
    (∀ c, outstandingSums s id c + planned.get c ≤ t.maxima.get c) ∧
      ownWriteOwner s paths id = none := by
  obtain ⟨_, -, h⟩ := bind_ok.mp h
  obtain ⟨_, -, h⟩ := bind_ok.mp h
  obtain ⟨_, -, h⟩ := bind_ok.mp h
  obtain ⟨_, -, h⟩ := bind_ok.mp h
  split at h
  · cases h
  next hr =>
    split at h
    · cases h
    next hf => exact ⟨le_of_exceeded_none hr, hf⟩

structure Authorised (t : Template) (s : Ledger) (id : Name) (paths : List Name) (p : Prewrite) :
    Prop where
  name : id ≠ [] ∧ '/' ∉ id
  room : ∀ c, outstandingSums s id c + p.classBytes.get c ≤ t.maxima.get c
  free : ownWriteOwner s p.paths id = none
  planned : p.paths = sortNames paths

theorem authorizeReserve_ok {id tier : Name} {given : AList fun _ : Name => Int}
    (h : authorizeReserve t i s w id tier given paths = .ok p) : Authorised t s id paths p := by
  obtain ⟨_, -, h⟩ := bind_ok.mp h
  obtain ⟨_, hn, h⟩ := bind_ok.mp h
  obtain ⟨_, -, h⟩ := bind_ok.mp h
  obtain ⟨planned, -, h⟩ := bind_ok.mp h
  obtain ⟨plannedPaths, hp, h⟩ := bind_ok.mp h
  obtain ⟨_, -, h⟩ := bind_ok.mp h
  obtain ⟨_, hc, h⟩ := bind_ok.mp h
  cases h
  obtain ⟨_, -, hp⟩ := bind_ok.mp hp
  obtain ⟨_, -, hp⟩ := bind_ok.mp hp
  obtain ⟨_, -, hp⟩ := bind_ok.mp hp
  obtain ⟨hr, hf⟩ := checkReservation_ok hc
  exact ⟨demand_ok.mp hn, hr, hf, (Except.ok.inj hp).symm⟩

theorem publishPrewrite_cases (s : Ledger) (w : Surroundings) (id : Name) (p : Prewrite) :
    (publishPrewrite s w id p).2 = s ∨
      s.prewrites.lookup id = none ∧ (publishPrewrite s w id p).2 =
      { s with prewrites := s.prewrites.insert id p } := by
  unfold publishPrewrite
  split
  next hn _ => exact .inr ⟨hn, rfl⟩
  next hn _ => exact .inr ⟨hn, rfl⟩
  next => exact .inl rfl
  next => exact .inl rfl
  next => exact .inl rfl

theorem reserve_changes (t : Template) (i : Instance) (s : Ledger) (w : Surroundings)
    (id tier : Name)
    (given : AList fun _ : Name => Int) (paths : List Name) :
    Relation.ReflTransGen (Change t) s (reserve t i s w id tier given paths).2 := by
  unfold reserve
  split
  next => exact .refl
  next p hp =>
    have ha := authorizeReserve_ok hp
    have hf : Relation.ReflTransGen (Change t) s (publishPrewrite s w id p).2 := by
      rcases publishPrewrite_cases s w id p with hs | ⟨hn, hi⟩
      · rw [hs]
      · rw [hi]
        exact .single (.reserve ha.name hn ha.room ha.free)
    split
    next heq =>
      rw [heq] at hf
      exact hf
    next heq =>
      rw [heq] at hf
      split
      · exact hf
      · exact hf

theorem le_of_actualWithinCeiling
    (h : actualWithinCeiling p descriptors = true) (c : ArtifactClass) :
    (classBytesOf descriptors).get c ≤ p.classBytes.get c := by
  have hc : c ∈ classes := by cases c <;> decide
  rw [classBytesOf_get]
  exact of_decide_eq_true (List.all_eq_true.mp h c hc)

variable [ManifestDigest]

theorem checkCommit_ok {identity : List (Name × Nat)}
    (h : checkCommit t i s w descriptors id identity lifetime = .ok record) :
    ∃ p, s.prewrites.lookup id = some p ∧
      (∀ c, (originEntry record).classBytes.get c ≤ p.classBytes.get c) ∧
      ∀ path ∈ (originEntry record).paths, path ∈ p.paths := by
  obtain ⟨_, -, h⟩ := bind_ok.mp h
  obtain ⟨_, -, h⟩ := bind_ok.mp h
  split at h
  · cases h
  next p hp =>
    obtain ⟨_, hm, h⟩ := bind_ok.mp h
    obtain ⟨-, hc, hpa, -, -⟩ := demand_ok.mp hm
    obtain ⟨_, -, h⟩ := bind_ok.mp h
    split at h
    · cases h
    · obtain ⟨_, -, h⟩ := bind_ok.mp h
      cases h
      refine ⟨p, hp, le_of_actualWithinCeiling hc, fun path hpat => ?_⟩
      obtain ⟨d, hd, rfl⟩ := List.mem_map.mp (mem_sortNames.mp hpat)
      exact hpa d hd

theorem authorizeCommit_fresh {landed : Option Landed}
    (h : authorizeCommit t i s w descriptors id landed lifetime = .ok (.fresh record)) :
    s.batches.lookup id = none ∧ ∃ identity, checkCommit t i s w descriptors id identity lifetime =
      .ok record := by
  obtain ⟨_, -, h⟩ := bind_ok.mp h
  obtain ⟨_, -, h⟩ := bind_ok.mp h
  obtain ⟨identity, -, h⟩ := bind_ok.mp h
  obtain ⟨_, -, h⟩ := bind_ok.mp h
  obtain ⟨_, -, h⟩ := bind_ok.mp h
  split at h
  · obtain ⟨_, -, h⟩ := bind_ok.mp h
    obtain ⟨_, -, h⟩ := bind_ok.mp h
    cases h
  next hn =>
    obtain ⟨_, hc, h⟩ := bind_ok.mp h
    cases h
    exact ⟨hn, identity, hc⟩

theorem commitOrigin_changes (t : Template) (i : Instance) (s : Ledger) (w : Surroundings)
    (descriptors : List Descriptor) (id : Name) (landed : Option Landed) (lifetime : Lifetime) :
    Relation.ReflTransGen (Change t) s (commitOrigin t i s w descriptors id landed lifetime).2 := by
  unfold commitOrigin
  split
  next => exact .refl
  next =>
    split
    · exact .refl
    · exact .single (.unlink id)
  next record hre =>
    obtain ⟨hn, identity, hc⟩ := authorizeCommit_fresh hre
    obtain ⟨p, hp, hw, hpl⟩ := checkCommit_ok hc
    have hr : Relation.ReflTransGen (Change t) s (s.fileRecord id record) :=
      .single (.record id record)
    have hf := hr.tail (.commit hn hp hw hpl)
    split
    · exact hr
    · exact hf
    · exact hf.tail (.unlink id)

theorem authorizeReclaim_some {e : Entry} (h : authorizeReclaim t i s w id = .ok (some e)) :
    s.batches.lookup id = some e := by
  obtain ⟨_, -, h⟩ := bind_ok.mp h
  obtain ⟨_, -, h⟩ := bind_ok.mp h
  obtain ⟨_, -, h⟩ := bind_ok.mp h
  split at h
  · cases h
  next found hf =>
    split at h
    · cases h
    · obtain ⟨_, -, h⟩ := bind_ok.mp h
      obtain ⟨_, -, h⟩ := bind_ok.mp h
      split at h
      · cases h
      · cases h
        exact hf

theorem next_changes (t : Template) (i : Instance) (s : Ledger) (e : Event) :
    Relation.ReflTransGen (Change t) s (next t i s e) := by
  unfold next perform
  split
  next => exact reserve_changes t i s _ _ _ _ _
  next => exact commitOrigin_changes t i s _ _ _ _ _
  next id _ =>
    unfold abort
    split
    · exact .refl
    · exact .refl
    · exact .single (.unlink id)
  next id _ =>
    unfold reclaim
    split
    · exact .refl
    · exact .refl
    next he => exact .single (.reclaim (authorizeReclaim_some he))

theorem next_keeps {I : Ledger → Prop} (hke : ∀ s s', I s → Change t s s' → I s') (i : Instance)
    (hs : I s)
    (e : Event) : I (next t i s e) := by
  have hk : ∀ s', Relation.ReflTransGen (Change t) s s' → I s' := by
    intro s' h
    induction h with
    | refl => exact hs
    | tail _ hl ih => exact hke _ _ ih hl
  exact hk _ (next_changes t i s e)

end

def outstanding (s : Ledger) (c : ArtifactClass) : Nat :=
  weight (fun id p => if (s.batches.lookup id).isSome then 0 else p.classBytes.get c) s.prewrites

/-- No class is charged past its maximum, and no path has two live owners. -/
structure Sound (t : Template) (s : Ledger) : Prop where
  quota : ∀ c, classSums s.batches c + outstanding s c ≤ t.maxima.get c
  apart : ∀ {a b path : Name}, Owns s a path → Owns s b path → a = b

section

variable {id : Name} {e : Entry}

theorem outstanding_insert_le (p : Prewrite) (c : ArtifactClass) :
    outstanding { s with prewrites := s.prewrites.insert id p } c ≤
      p.classBytes.get c + weight (fun other q => if other = id then 0 else q.classBytes.get c)
      s.prewrites := by
  unfold outstanding
  rw [weight_insert]
  have how : (if (s.batches.lookup id).isSome then 0 else p.classBytes.get c) ≤ p.classBytes.get
    c := by
    split <;> omega
  have ho : weight (fun other q => if (s.batches.lookup other).isSome then
    0 else q.classBytes.get c)
      (s.prewrites.erase id) ≤
        weight (fun other q => if other = id then 0 else q.classBytes.get c)
        (s.prewrites.erase id) := by
    refine weight_le fun other q hq => ?_
    have hne : other ≠ id := by
      intro he
      rw [he, AList.lookup_erase] at hq
      cases hq
    rw [if_neg hne]
    split <;> omega
  have her := weight_erase_le (fun other q => if other = id then 0 else q.classBytes.get c)
    s.prewrites id
  exact Nat.add_le_add how (ho.trans her)

theorem charge_commit_le {p : Prewrite} (uncommitted : s.batches.lookup id = none)
    (authorised : s.prewrites.lookup id = some p) (c : ArtifactClass)
    (within : e.classBytes.get c ≤ p.classBytes.get c) :
    classSums (s.fileEntry id e).batches c + outstanding (s.fileEntry id e) c ≤ classSums s.batches
      c + outstanding s c := by
  have hb : classSums (s.fileEntry id e).batches c ≤ e.classBytes.get c + classSums s.batches
    c := by
    unfold classSums
    show weight _ (s.batches.insert id e) ≤ _
    rw [weight_insert]
    refine Nat.add_le_add ?_ (weight_erase_le _ _ _)
    split <;> omega
  have hbe : outstanding s c = p.classBytes.get c +
      weight (fun other q => if (s.batches.lookup other).isSome then 0 else q.classBytes.get c)
        (s.prewrites.erase id) := by
    unfold outstanding
    rw [weight_erase authorised, uncommitted]
    rfl
  have ha : outstanding (s.fileEntry id e) c ≤
      weight (fun other q => if (s.batches.lookup other).isSome then 0 else q.classBytes.get c)
        (s.prewrites.erase id) := by
    unfold outstanding
    show weight (fun other q => if ((s.batches.insert id e).lookup other).isSome then 0 else _)
      s.prewrites ≤ _
    rw [weight_erase authorised, AList.lookup_insert]
    refine (Nat.zero_add _).trans_le (weight_le fun other q hq => ?_)
    have hne : other ≠ id := by
      intro he
      rw [he, AList.lookup_erase] at hq
      cases hq
    rw [AList.lookup_insert_ne hne]
  omega

end

section

variable {a id path : Name} {p : Prewrite} {e : Entry}

theorem Owns.of_reserve (h : Owns { s with prewrites := s.prewrites.insert id p } a path) :
    a = id ∧ path ∈ p.paths ∨ Owns s a path := by
  cases h with
  | prewrite filed named =>
    by_cases ha : a = id
    · rw [ha, AList.lookup_insert] at filed
      cases filed
      exact .inl ⟨ha, named⟩
    · rw [AList.lookup_insert_ne ha] at filed
      exact .inr (.prewrite filed named)
  | batch filed live named => exact .inr (.batch filed live named)

theorem Owns.of_commit (authorised : s.prewrites.lookup id = some p)
    (planned : ∀ path ∈ e.paths, path ∈ p.paths)
    (h : Owns (s.fileEntry id e) a path) : Owns s a path := by
  cases h with
  | prewrite filed named => exact .prewrite filed named
  | batch filed live named =>
    by_cases ha : a = id
    · subst ha
      rw [Ledger.fileEntry, AList.lookup_insert] at filed
      cases filed
      exact .prewrite authorised (planned path named)
    · rw [Ledger.fileEntry, AList.lookup_insert_ne ha] at filed
      exact .batch filed live named

theorem Owns.of_unlink (h : Owns (s.unlinkPrewrite id) a path) : Owns s a path := by
  cases h with
  | prewrite filed named =>
    by_cases ha : a = id
    · rw [ha, Ledger.unlinkPrewrite, AList.lookup_erase] at filed
      cases filed
    · rw [Ledger.unlinkPrewrite, AList.lookup_erase_ne ha] at filed
      exact .prewrite filed named
  | batch filed live named => exact .batch filed live named

theorem Owns.of_reclaim (h : Owns (s.fileEntry id { e with originReclaimed := true }) a path) :
    Owns s a path := by
  cases h with
  | prewrite filed named => exact .prewrite filed named
  | batch filed live named =>
    by_cases ha : a = id
    · rw [ha, Ledger.fileEntry, AList.lookup_insert] at filed
      cases filed
      cases live
    · rw [Ledger.fileEntry, AList.lookup_insert_ne ha] at filed
      exact .batch filed live named

end

theorem Sound.change (hs : Sound t s) (h : Change t s s') : Sound t s' := by
  cases h with
  | @reserve id p name fresh room free =>
    refine ⟨fun c => ?_, fun {a b path} ha hb => ?_⟩
    · have hr := room c
      have had : outstanding { s with prewrites := s.prewrites.insert id p } c ≤ _ :=
        outstanding_insert_le p c
      unfold outstandingSums at hr
      show classSums s.batches c + _ ≤ _
      omega
    · rcases ha.of_reserve with ⟨rfl, hn⟩ | hold <;> rcases hb.of_reserve with ⟨rfl, hn'⟩ | hold'
      · rfl
      · by_contra hne
        exact not_owns_of_ownWriteOwner free (Ne.symm hne) hn hold'
      · by_contra hne
        exact not_owns_of_ownWriteOwner free hne hn' hold
      · exact hs.apart hold hold'
  | record id record =>
    refine ⟨hs.quota, fun {a b path} ha hb => ?_⟩
    have hba : ∀ {o : Name}, Owns (s.fileRecord id record) o path → Owns s o path := by
      intro o ho
      cases ho with
      | prewrite filed named => exact .prewrite filed named
      | batch filed live named => exact .batch filed live named
    exact hs.apart (hba ha) (hba hb)
  | commit uncommitted authorised within planned =>
    refine ⟨fun c => ?_, fun ha hb => hs.apart (ha.of_commit authorised planned)
      (hb.of_commit authorised planned)⟩
    exact (charge_commit_le uncommitted authorised c (within c)).trans (hs.quota c)
  | unlink id =>
    refine ⟨fun c => ?_, fun ha hb => hs.apart ha.of_unlink hb.of_unlink⟩
    exact (Nat.add_le_add_left (weight_erase_le _ _ _) _).trans (hs.quota c)
  | @reclaim id e committed =>
    refine ⟨fun c => ?_, fun ha hb => hs.apart ha.of_reclaim hb.of_reclaim⟩
    refine le_trans ?_ (hs.quota c)
    refine Nat.add_le_add ?_ (le_of_eq ?_)
    · unfold classSums
      show weight _ (s.batches.insert id _) ≤ _
      rw [weight_insert]
      refine (Nat.zero_add _).trans_le (weight_erase_le _ _ _)
    · refine weight_congr fun other q _ => ?_
      show (if ((s.batches.insert id _).lookup other).isSome then 0 else _) = _
      by_cases he : other = id
      · rw [he, AList.lookup_insert, committed]
        rfl
      · rw [AList.lookup_insert_ne he]

theorem Sound.admission (t : Template) : Sound t Ledger.admission := by
  refine ⟨fun c => Nat.zero_le _, fun ha _ => ?_⟩
  cases ha with
  | prewrite filed _ => cases filed
  | batch filed _ _ => cases filed

variable [ManifestDigest]

/-- After any sequence of calls, each of which may die halfway, the committed unreclaimed batches
and the prewrites of uncommitted ones stay within the template's maxima, and no path is named by two
live owners. -/
theorem batchRun_sound (t : Template) (i : Instance) (events : List Event) :
    Sound t (batchRun t i events) := by
  refine runTrace_keeps (Sound t) ?_ (Sound.admission t) events
  intro s e hs
  exact next_keeps (fun _ _ => Sound.change) i hs e

end PrismaBuild.Batch
