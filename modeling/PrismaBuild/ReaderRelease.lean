import PrismaBuild.ReaderLease

namespace PrismaBuild.ReaderLease

open List Option

variable {s s' : Leases} {owner : Name} {id : PinId} {ref : RefId} {pin : Pin}

theorem readPin_writePin (s : Leases) (owner o : Name) (id i : PinId) (pin : Pin) :
    (s.writePin owner id pin).readPin o i = if (o, i) = (owner, id) then some pin else
    s.readPin o i := by
  unfold Leases.readPin Leases.writePin
  split
  next h =>
    rw [h]
    exact AList.lookup_insert _
  next h => exact AList.lookup_insert_ne h

theorem readPin_unlinkPin (s : Leases) (owner o : Name) (id i : PinId) :
    (s.unlinkPin owner id).readPin o i = if (o, i) = (owner, id) then none else s.readPin o i := by
  unfold Leases.readPin Leases.unlinkPin
  split
  next h =>
    rw [h]
    exact AList.lookup_erase _ _
  next h => exact AList.lookup_erase_ne h

theorem lookup_eq_none_of_keys_nil {refs : AList fun _ : RefId => Ref} (h : refs.keys = [])
    (r : RefId) : refs.lookup r = none := by
  rw [AList.lookup_eq_none, AList.mem_keys, h]
  exact not_mem_nil

theorem lookup_erase (refs : AList fun _ : RefId => Ref) (ref r : RefId) :
    (refs.erase ref).lookup r = if r = ref then none else refs.lookup r := by
  split
  next h =>
    rw [h]
    exact AList.lookup_erase _ _
  next h => exact AList.lookup_erase_ne h

theorem refAt_withoutRef (hp : s.readPin owner id = some pin) (o : Name) (i : PinId) (r : RefId) :
    (s.withoutRef owner id pin ref).refAt o i r = if (o, i) = (owner, id) ∧ r = ref then
    none else s.refAt o i r := by
  unfold Leases.withoutRef
  by_cases hk : (o, i) = (owner, id)
  · obtain ⟨rfl, rfl⟩ := Prod.mk.inj hk
    split
    next h =>
      have hr := lookup_eq_none_of_keys_nil h r
      rw [lookup_erase] at hr
      simp only [Leases.refAt, readPin_unlinkPin, if_true, bind_none, true_and, hp, bind_some]
      split
      next => rfl
      next hne => rw [if_neg hne] at hr; exact hr.symm
    next h =>
      simp only [Leases.refAt, readPin_writePin, if_true, bind_some, true_and, hp, lookup_erase]
  · split
    next h => simp only [Leases.refAt, readPin_unlinkPin, hk, if_false, false_and]
    next h => simp only [Leases.refAt, readPin_writePin, hk, if_false, false_and]

theorem releasePin_absent (hp : s.readPin owner id = none) (stageRoot : Option Name) :
    releasePin s owner id ref stageRoot = .absent := by
  cases stageRoot with
  | none => simp [releasePin, hp]
  | some root => simp [releasePin, dropRounds, dropRef, hp]

theorem releasePin_found (hp : s.readPin owner id = some pin) (stageRoot : Option Name) :
    releasePin s owner id ref stageRoot =
      .gone (if ref ∈ pin.refs then s.withoutRef owner id pin ref else s) := by
  have own : ∀ hi rounds, dropRounds s owner id ref pin.stageRoot hi (rounds + 1) =
      .gone (if ref ∈ pin.refs then s.withoutRef owner id pin ref else s) := by
    intro hi rounds
    by_cases hr : ref ∈ pin.refs <;> simp [dropRounds, dropRef, hp, hr]
  cases stageRoot with
  | none => simp only [releasePin, hp, own]
  | some root =>
    by_cases hro : pin.stageRoot = root
    · subst hro
      exact own true 1
    · have hm : dropRef s owner id ref root true = .moved pin.stageRoot := by
        simp [dropRef, hp, hro]
      simp only [releasePin, dropRounds, hm]
      exact own false 0

def searchOrder (s : Leases) (consumer : Option Name) : List Name :=
  consumer.toList ++ (sortNames s.owners).filter fun owner => consumer ≠ some owner

def firstHolder (s : Leases) (id : PinId) (consumer : Option Name) : Option Name :=
  (searchOrder s consumer).find? fun owner => (s.readPin owner id).isSome

def Dropped (s : Leases) (id : PinId) (ref : RefId) (first : Option Name) (s' : Leases) : Prop :=
  match first with
  | none => s' = s
  | some owner => ∃ pin, s.readPin owner id = some pin ∧
      s' = if ref ∈ pin.refs then s.withoutRef owner id pin ref else s

theorem releaseAt_dropped (s : Leases) (id : PinId) (ref : RefId) (owners : List Name) :
    ∃ t, releaseAt s id ref owners = .ok t ∧
      Dropped s id ref (owners.find? fun owner => (s.readPin owner id).isSome) t := by
  induction owners with
  | nil => exact ⟨s, rfl, rfl⟩
  | cons owner owners ih =>
    cases hp : s.readPin owner id with
    | none =>
      rw [find?_cons_of_neg (by simp [hp])]
      simpa only [releaseAt, releasePin_absent hp] using ih
    | some pin =>
      rw [find?_cons_of_pos (by simp [hp])]
      exact ⟨_, by simp only [releaseAt, releasePin_found hp], pin, hp, rfl⟩

theorem releaseCensus_dropped {own : Option Name} (h : releaseCensus s id ref own = .ok s') :
    Dropped s id ref (((sortNames s.owners).filter fun owner => own ≠ some owner).find?
      fun owner => (s.readPin owner id).isSome) s' := by
  unfold releaseCensus at h
  split at h
  · obtain ⟨t, ht, hd⟩ := releaseAt_dropped s id ref
      ((sortNames s.owners).filter fun owner => own ≠ some owner)
    rw [ht] at h
    cases h
    exact hd
  · cases h

theorem release_dropped {consumer stageRoot : Option Name}
    (h : release s id ref consumer stageRoot = .ok s') :
    Dropped s id ref (firstHolder s id consumer) s' := by
  cases consumer with
  | none => exact releaseCensus_dropped h
  | some own =>
    unfold firstHolder searchOrder
    cases hp : s.readPin own id with
    | none =>
      simp only [release, releasePin_absent hp] at h
      simpa [hp] using releaseCensus_dropped h
    | some pin =>
      simp only [release, releasePin_found hp, Except.ok.injEq] at h
      rw [toList_some, singleton_append, find?_cons_of_pos (by simp [hp])]
      exact ⟨pin, hp, h.symm⟩

theorem Dropped.refAt {first : Option Name} (h : Dropped s id ref first s') (o : Name) (i : PinId)
    (r : RefId) :
    s'.refAt o i r = if first = some o ∧ i = id ∧ r = ref then none else s.refAt o i r := by
  cases first with
  | none =>
    cases h
    simp
  | some owner =>
    obtain ⟨pin, hp, rfl⟩ := h
    by_cases hr : ref ∈ pin.refs
    · rw [if_pos hr, refAt_withoutRef hp]
      simp only [Prod.mk.injEq, some.injEq, eq_comm, and_assoc]
    · rw [if_neg hr]
      split
      next hk =>
        obtain ⟨ho, rfl, rfl⟩ := hk
        cases ho
        simp only [Leases.refAt, hp, bind_some]
        exact AList.lookup_eq_none.mpr hr
      next => rfl

theorem exists_refAt_iff (s : Leases) (o : Name) (i : PinId) : (s.readPin o i).isSome = true ↔
    ∃ r, (s.refAt o i r).isSome = true := by
  cases hp : s.readPin o i with
  | none => simp [Leases.refAt, hp]
  | some pin =>
    obtain ⟨r, hr⟩ := exists_mem_of_ne_nil _ pin.refs_ne
    simp only [Leases.refAt, hp, isSome_some, bind_some, true_iff]
    exact ⟨r, AList.lookup_isSome.mpr (AList.mem_keys.mpr hr)⟩

/-- A release that answers `True` cleared the ref everywhere exactly when no file of that name
but the first one found held it; no other ref changed, and a file is there exactly while it
holds a ref. -/
theorem release_exact_iff {consumer stageRoot : Option Name}
    (h : release s id ref consumer stageRoot = .ok s') :
    ((∀ o, s'.refAt o id ref = none) ↔ ∀ o, firstHolder s id consumer ≠ some o →
      s.refAt o id ref = none) ∧
    (∀ o i r, i ≠ id ∨ r ≠ ref → s'.refAt o i r = s.refAt o i r) ∧
    ∀ o i, (s'.readPin o i).isSome = true ↔ ∃ r, (s'.refAt o i r).isSome = true := by
  have hd := release_dropped h
  refine ⟨?_, ?_, exists_refAt_iff s'⟩
  · refine forall_congr' fun o => ?_
    rw [hd.refAt o id ref]
    by_cases ho : firstHolder s id consumer = some o <;> simp [ho]
  · intro o i r hne
    rw [hd.refAt o i r, if_neg (by tauto)]

/-- One staged file that two consumers' readers pin, each under its own owner directory. -/
def sharedWindow : Window where
  consumer := ['n']
  tier := ['t']
  epoch := ['e']
  stageRoot := ['/', 's']
  start := 0
  stop := 1
  movers := [['m']]
  generation := fun _ => ['g']
  entries := [⟨['k'], ['p'], 1, ['d'], ['m'], ['g']⟩]

def readerRef (token : Char) : Ref := ⟨[token], ['n'], ['s'], ['h']⟩

def readerRefId (token : Char) : RefId := refIdFor [token] ['h'] ['n'] ['s']

def twoReaders : Leases :=
  [LeaseCall.acquire sharedWindow ['a'] (readerRef '1'),
    .acquire sharedWindow ['b'] (readerRef '2')].foldl LeaseCall.run Leases.empty

theorem release_first_reader : ∃ t, release twoReaders (pinIdFor sharedWindow) (readerRefId '1')
    none none = .ok t ∧
      ∀ o i r, i ≠ pinIdFor sharedWindow ∨ r ≠ readerRefId '1' →
      t.refAt o i r = twoReaders.refAt o i r := by
  obtain ⟨t, ht⟩ : ∃ t, release twoReaders (pinIdFor sharedWindow) (readerRefId '1') none none =
    .ok t :=
    ⟨_, rfl⟩
  exact ⟨t, ht, (release_exact_iff ht).2.1⟩

/-- The second reader's release finds the first reader's file, answers `True` and leaves the
second reader's ref where it was. -/
theorem release_second_reader_keeps_ref :
    ∃ t, release twoReaders (pinIdFor sharedWindow) (readerRefId '2') none none = .ok t ∧
      t.refAt ['b'] (pinIdFor sharedWindow) (readerRefId '2') = some (readerRef '2') :=
  ⟨_, rfl, by decide⟩

end PrismaBuild.ReaderLease
