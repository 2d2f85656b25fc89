import PrismaBuild.Turn

namespace PrismaBuild.Turn

open Contract Directory Prog

abbrev TurnDir := Dir TurnFile Doc

def Names (s : TurnDir) (epoch : Nat) (unit : Name) (maker : Nat) : Prop :=
  s (.turn epoch) = some (.turn epoch unit, maker)

/-- The turn directory: a turn's file names a unit, and comes only after the turn before it is done.
-/
structure Sequential (s : TurnDir) : Prop where
  names : ∀ {epoch doc maker}, s (.turn epoch) = some (doc, maker) → ∃ unit, doc = .turn epoch unit
  after : ∀ {epoch}, (s (.turn (epoch + 1))).isSome → (s (.turn epoch)).isSome ∧
    (s (.done epoch)).isSome

def Marker : TurnFile → Prop
  | .turn _ => False
  | _ => True

variable {file : TurnFile} {s t : TurnDir} {epoch maker : Nat} {unit : Name} {taken : TakeTurn}

theorem Sequential.put_marker (h : Sequential s) (hf : Marker file) (doc : Doc)
    (i : Nat) (hn : s file = none) : Sequential (s.put file doc i) := by
  have hg := grows_put hn doc i
  have ht : ∀ epoch, s.put file doc i (.turn epoch) = s (.turn epoch) := by
    intro epoch
    refine Function.update_of_ne ?_ _ _
    intro heq
    rw [← heq] at hf
    exact hf
  refine ⟨fun {epoch doc maker} hs => ?_, fun {epoch} hs => ?_⟩
  · rw [ht] at hs
    exact h.names hs
  · rw [ht] at hs
    obtain ⟨hb, hd⟩ := h.after hs
    exact ⟨hg.isSome hb, hg.isSome hd⟩

theorem Sequential.put_turn (h : Sequential s)
    (hl : ∀ last, epoch = last + 1 → (s (.turn last)).isSome ∧ (s (.done last)).isSome)
    (unit : Name) (i : Nat)
    (hn : s (.turn epoch) = none) : Sequential (s.put (.turn epoch) (.turn epoch unit) i) := by
  have hg := grows_put hn (.turn epoch unit) i
  refine ⟨fun {e doc maker} hs => ?_, fun {e} hs => ?_⟩
  · by_cases he : e = epoch
    · subst he
      rw [Dir.put, Function.update_self] at hs
      cases hs
      exact ⟨unit, rfl⟩
    · have hne : TurnFile.turn e ≠ .turn epoch := fun heq => he (TurnFile.turn.inj heq)
      rw [Dir.put, Function.update_of_ne hne] at hs
      exact h.names hs
  · have hold : (s (.turn e)).isSome ∧ (s (.done e)).isSome := by
      by_cases he : e + 1 = epoch
      · exact hl e he.symm
      · have hne : TurnFile.turn (e + 1) ≠ .turn epoch := fun heq => he (TurnFile.turn.inj heq)
        rw [Dir.put, Function.update_of_ne hne] at hs
        exact h.after hs
    exact ⟨hg.isSome hold.1, hg.isSome hold.2⟩

variable {i : Nat} {s : TurnDir}

theorem Sequential.done_of_lt (h : Sequential s) {early late : Nat} (hlt : early < late)
    (hl : (s (.turn late)).isSome) :
    (s (.done early)).isSome := by
  induction late with
  | zero => omega
  | succ late ih =>
    obtain ⟨ht, hd⟩ := h.after hl
    by_cases heq : early = late
    · rw [heq]
      exact hd
    · exact ih (by omega) ht

theorem Names.eq {epoch maker maker' : Nat} {unit unit' : Name} (h : Names s epoch unit maker)
    (h' : Names s epoch unit' maker') : unit = unit' ∧ maker = maker' := by
  unfold Names at h h'
  rw [h] at h'
  cases h'
  exact ⟨rfl, rfl⟩

section

variable {α : Type} {Q : α → TurnDir → Prop} {file : TurnFile}

theorem conforms_readReceipt {k : Reading Doc → TurnProg α}
    (h : ∀ t reading, Grows s t → Sequential t →
      (∀ doc, reading = .found doc → ∃ maker, t file = some (doc, maker)) →
      Conforming Sequential i Q (k reading) t) :
    Conforming Sequential i Q (readReceipt file >>= k) s :=
  conforms_read h

theorem conforms_link {doc : Doc} {k : Option Bool → TurnProg α}
    (hp : ∀ t, Grows s t → Sequential t → t file = none → Sequential (t.put file doc i))
    (h : ∀ t answer, Grows s t → Sequential t → (answer = some true → t file = some (doc, i)) →
      Conforming Sequential i Q (k answer) t) : Conforming Sequential i Q (linkNew file doc >>= k)
      s :=
  conforms_linkNew hp h

end

abbrev Keeps (i : Nat) {α : Type} (p : TurnProg α) (s : TurnDir) : Prop :=
    Conforming Sequential i (fun _ _ => True) p s

theorem keeps_pure {α : Type} (value : α) (s : TurnDir) : Keeps i (pure value) s :=
    conforms_pure fun _ _ => trivial

theorem readTiers_keeps (epoch : Nat) (digests tiers : List Name) (s : TurnDir) :
    Keeps i (readTiers epoch digests tiers) s := by
  induction digests generalizing tiers s with
  | nil => exact keeps_pure _ s
  | cons digest digests ih =>
    refine conforms_readReceipt fun t reading _ _ _ => ?_
    split
    next e tier =>
      split
      · exact keeps_pure _ t
      · exact ih _ _
    next => exact keeps_pure _ t
    next => exact keeps_pure _ t

/-- What a caller knows from `current_turn`, however stale the listing was. -/
def Current.Holds (s : TurnDir) : Current → Prop
  | .opened epoch unit _ => ∃ maker, Names s epoch unit maker
  | .done epoch _ _ _ => (s (.turn epoch)).isSome ∧ (s (.done epoch)).isSome
  | _ => True

theorem holds_unknown (reason : Name) (s : TurnDir) :
    Conforming Sequential i (fun current t => current.Holds t)
    (pure (.unknown reason) : TurnProg Current) s :=
  conforms_pure fun _ _ => trivial

theorem turnState_conforms {names : List TurnFile} (hs : Sequential s)
    (hn : ∀ file ∈ names, (s file).isSome) (hu : Names s epoch unit maker) :
    Conforming Sequential i (fun current t => current.Holds t) (turnState names epoch unit) s := by
  refine conforms_bind hs (readTiers_keeps epoch _ _ s) fun t tiers hst ht _ => ?_
  cases tiers with
  | error reason => exact holds_unknown reason t
  | ok tiers =>
    dsimp only
    split
    next hd =>
      refine conforms_readReceipt fun u reading htu _ _ => ?_
      have htur : (u (.turn epoch)).isSome := by
        rw [htu _ _ (hst _ _ hu)]
        rfl
      have hc := htu.isSome (hst.isSome (hn _ hd))
      split
      next e reason =>
        split
        · exact holds_unknown _ u
        · exact conforms_pure fun v huv => ⟨huv.isSome htur, huv.isSome hc⟩
      next => exact holds_unknown _ u
      next => exact holds_unknown _ u
    next => exact conforms_pure fun v htv => ⟨maker, htv _ _ (hst _ _ hu)⟩

theorem currentTurn_conforms (s : TurnDir) :
    Conforming Sequential i (fun current t => current.Holds t) currentTurn s := by
  refine conforms_listing fun t listed _ _ hl => ?_
  cases listed with
  | none => exact conforms_pure fun _ _ => trivial
  | some names =>
    dsimp only [Prog.bind]
    split
    next => exact conforms_pure fun _ _ => trivial
    next epoch _ =>
      refine conforms_readReceipt fun u reading htu hu hf => ?_
      split
      next e unit =>
        obtain ⟨maker, ht⟩ := hf _ rfl
        split
        next he =>
          rw [he] at ht
          exact turnState_conforms hu (fun file hfi => htu.isSome (hl names rfl file hfi)) ht
        next => exact holds_unknown _ u
      next => exact holds_unknown _ u
      next => exact holds_unknown _ u

/-- What `take_turn` promises of its answer: a unit it returns is the one the epoch's file names,
and if it won, the file is its own. -/
structure TakeTurn.Holds (i : Nat) (taken : TakeTurn) (s : TurnDir) : Prop where
  unit : ∀ epoch unit, taken.epoch = some epoch → taken.unit = some unit →
    ∃ maker, Names s epoch unit maker
  won : ∀ epoch, taken.epoch = some epoch → taken.won = true → ∃ unit, Names s epoch unit i

theorem TakeTurn.Holds.grows (h : taken.Holds i s) (hst : Grows s t) : taken.Holds i t := by
  refine ⟨fun epoch unit he hu => ?_, fun epoch he hw => ?_⟩
  · obtain ⟨maker, hn⟩ := h.unit epoch unit he hu
    exact ⟨maker, hst _ _ hn⟩
  · obtain ⟨unit, hn⟩ := h.won epoch he hw
    exact ⟨unit, hst _ _ hn⟩

theorem holds_standing (h : Names s epoch unit maker) :
    TakeTurn.Holds i ⟨some epoch, some unit, false, .standing⟩ s := by
  refine ⟨fun e u he hu => ?_, fun _ _ => nofun⟩
  cases he
  cases hu
  exact ⟨maker, h⟩

theorem holds_created (h : Names s epoch unit i) :
    TakeTurn.Holds i ⟨some epoch, some unit, true, .created⟩ s := by
  refine ⟨fun e u he hu => ?_, fun e he _ => ?_⟩
  · cases he
    cases hu
    exact ⟨i, h⟩
  · cases he
    exact ⟨unit, h⟩

variable {F : Type} [FloatFormat F]

omit [FloatFormat F] in
theorem firstFree_keeps (tickets : List (Ticket F)) (s : TurnDir) :
    Keeps i (firstFree tickets) s := by
  induction tickets generalizing s with
  | nil => exact keeps_pure _ s
  | cons ticket tickets ih =>
    refine conforms_ask fun t answer _ _ => ?_
    match answer with
    | some false => exact keeps_pure _ t
    | some true => exact ih t
    | none => exact ih t

def takenPost (i : Nat) (result : Except String TakeTurn) (t : TurnDir) : Prop :=
  ∀ taken, result = .ok taken → taken.Holds i t

theorem takenPost_ok (h : taken.Holds i t) : takenPost i (.ok taken) t := by
  intro other ho
  cases ho
  exact h

theorem conforms_without_unit {epoch : Option Nat} {status : TakeStatus} (s : TurnDir) :
    Conforming Sequential i (takenPost i)
    (pure (.ok ⟨epoch, none, false, status⟩) : TurnProg (Except String TakeTurn)) s :=
  conforms_pure fun _ _ => takenPost_ok ⟨fun _ _ _ => nofun, fun _ _ => nofun⟩

theorem createTurn_conforms (tickets : List (Json F)) (hs : Sequential s)
    (hl : ∀ last, epoch = last + 1 → (s (.turn last)).isSome ∧ (s (.done last)).isSome) :
    Conforming Sequential i (takenPost i) (createTurn epoch tickets) s := by
  unfold createTurn
  split
  next => exact conforms_pure fun _ _ => nofun
  next ranked _ =>
    refine conforms_bind hs (firstFree_keeps ranked s) fun t winner hst ht _ => ?_
    split
    next => exact conforms_without_unit t
    next winner =>
      refine conforms_link (fun u htu hu hn => ?_) fun u answer _ _ hw => ?_
      · refine hu.put_turn (fun last he => ?_) winner.unit i hn
        obtain ⟨htur, hd⟩ := hl last he
        exact ⟨htu.isSome (hst.isSome htur), htu.isSome (hst.isSome hd)⟩
      · split
        · have hm := hw rfl
          exact conforms_pure fun v huv => takenPost_ok (holds_created (huv _ _ hm))
        · exact conforms_without_unit u
        · refine conforms_readReceipt fun v reading _ hv hf => ?_
          split
          next e unit =>
            obtain ⟨maker, htur⟩ := hf _ rfl
            obtain ⟨named, hdo⟩ := hv.names htur
            cases hdo
            split
            · exact conforms_without_unit v
            · exact conforms_pure fun w hvw => takenPost_ok (holds_standing (hvw _ _ htur))
          next => exact conforms_without_unit v

theorem takeTurn_conforms (tickets : List (Json F)) (hs : Sequential s) :
    Conforming Sequential i (takenPost i) (takeTurn tickets) s := by
  refine conforms_bind hs (currentTurn_conforms s) fun t current hst ht hc => ?_
  cases current with
  | unknown reason => exact conforms_without_unit t
  | opened epoch unit reserved =>
    obtain ⟨maker, hu⟩ := hc
    exact conforms_pure fun u htu => takenPost_ok (holds_standing (htu _ _ hu))
  | none => exact createTurn_conforms tickets ht fun last hl => absurd hl (by omega)
  | done epoch unit reserved reason =>
    refine createTurn_conforms tickets ht fun last hl => ?_
    obtain rfl : epoch = last := by omega
    exact hc

omit [FloatFormat F] in
theorem markTurn_keeps (hf : Marker file) (doc : Doc) (conflict : String) (hs : Sequential s) :
    Keeps i (markTurn file doc conflict) s := by
  have ha : Keeps i (linkOrAdopt file doc) s := by
    refine conforms_link (fun t _ ht hn => ht.put_marker hf doc i hn) fun t answer _ _ _ => ?_
    split
    · exact keeps_pure _ t
    · exact keeps_pure _ t
    · refine conforms_readReceipt fun u reading _ _ _ => ?_
      split
      · split
        · exact keeps_pure _ u
        · exact keeps_pure _ u
      · exact keeps_pure _ u
  refine conforms_bind hs ha fun t adopted _ _ _ => ?_
  split
  all_goals exact keeps_pure _ t

omit [FloatFormat F] in
theorem finishTurn_keeps (epoch : Int) (reason : Name) (hs : Sequential s) :
    Keeps i (finishTurn epoch reason) s := by
  unfold finishTurn
  split
  · exact keeps_pure _ s
  · split
    · exact keeps_pure _ s
    · exact markTurn_keeps (show Marker (.done _) from trivial) _ _ hs

variable [HashFunction]

omit [FloatFormat F] in
theorem recordReserved_keeps (epoch : Int) (tierId : Name) (hs : Sequential s) :
    Keeps i (recordReserved epoch tierId) s := by
  unfold recordReserved
  split
  · exact keeps_pure _ s
  · exact markTurn_keeps (show Marker (.reserved _ _) from trivial) _ _ hs

def Post (i : Nat) (_ : TurnCall F) (result : TurnResult) (t : TurnDir) : Prop :=
  ∀ taken, result = .turn taken → taken.Holds i t

theorem prog_conforms (i : Nat) (c : TurnCall F) (s : TurnDir) (hs : Sequential s) :
    Conforming Sequential i (Post i c) c.prog s := by
  cases c with
  | takeTurn tickets =>
    refine conforms_bind hs (takeTurn_conforms tickets hs) fun t result hst ht hr => ?_
    cases result with
    | ok taken =>
      refine conforms_pure fun u htu => ?_
      intro other ho
      cases ho
      exact (hr taken rfl).grows htu
    | error message => exact conforms_pure fun _ _ => nofun
  | recordReserved epoch tierId =>
    refine conforms_bind hs (recordReserved_keeps epoch tierId hs) fun t result _ _ _ => ?_
    cases result with
    | ok filed => exact conforms_pure fun _ _ => nofun
    | error message => exact conforms_pure fun _ _ => nofun
  | finishTurn epoch reason =>
    refine conforms_bind hs (finishTurn_keeps epoch reason hs) fun t result _ _ _ => ?_
    cases result with
    | ok filed => exact conforms_pure fun _ _ => nofun
    | error message => exact conforms_pure fun _ _ => nofun

/-- Any number of calls, interleaved in any way, on a turn directory that starts empty. -/
def turnRun (events : List (Event (TurnCall F) (Env TurnFile))) :
    Pool (TurnCall F) (Op TurnFile Doc Name) Answer TurnResult TurnDir :=
  (Pool.empty fun _ => none).run (world TurnFile Doc Name) (fun _ c => c.prog) events

def Took (events : List (Event (TurnCall F) (Env TurnFile))) (i : Nat) (taken : TakeTurn) : Prop :=
  ∃ c, Pool.Returned (world TurnFile Doc Name) (fun _ c => TurnCall.prog c) (Pool.empty fun _ =>
    none) events i c (.turn taken)

structure MutualExclusion (events : List (Event (TurnCall F) (Env TurnFile))) : Prop where
  /-- A turn comes only after the one before it is done. -/
  after (epoch : Nat) (h : ((turnRun events).shared (.turn (epoch + 1))).isSome) :
    ((turnRun events).shared (.turn epoch)).isSome ∧ ((turnRun events).shared (.done epoch)).isSome
  /-- The unit that a turn's file names never changes. -/
  named {before : List (Event (TurnCall F) (Env TurnFile))} (hbefore : before <+: events)
    {epoch maker : Nat} {unit : Name}
    (h : Names (turnRun before).shared epoch unit maker) :
      Names (turnRun events).shared epoch unit maker
  /-- Two calls that return a unit for one epoch return the same. -/
  agree {i j : Nat} {taken taken' : TakeTurn} (hi : Took events i taken) (hj : Took events j taken')
    {epoch : Nat}
    {unit unit' : Name} (hepoch : taken.epoch = some epoch) (hepoch' : taken'.epoch = some epoch)
    (hunit : taken.unit = some unit) (hunit' : taken'.unit = some unit') : unit = unit'
  /-- At most one call wins an epoch. -/
  won {i j : Nat} {taken taken' : TakeTurn} (hi : Took events i taken) (hj : Took events j taken')
    {epoch : Nat}
    (hepoch : taken.epoch = some epoch) (hepoch' : taken'.epoch = some epoch)
      (hwon : taken.won = true)
    (hwon' : taken'.won = true) : i = j
  /-- No two units hold an unfinished epoch. -/
  holder {epoch epoch' maker maker' : Nat} {unit unit' : Name}
    (h : Names (turnRun events).shared epoch unit maker)
    (h' : Names (turnRun events).shared epoch' unit' maker')
      (hopen : (turnRun events).shared (.done epoch) = none)
    (hopen' : (turnRun events).shared (.done epoch') = none) : epoch = epoch' ∧ unit = unit'

/-- However processes interleave and die, two turns that are both open are the same turn of the same
unit. -/
theorem turn_mutualExclusion (events : List (Event (TurnCall F) (Env TurnFile))) :
    MutualExclusion events := by
  have hb : ∀ i (c : TurnCall F) s, True → Sequential s →
    Conforming Sequential i (Post i c) c.prog s :=
    fun i c s _ hs => prog_conforms i c s hs
  have ha : ∀ list : List (Event (TurnCall F) (Env TurnFile)), ∀ e ∈ list,
    Pool.Starts (fun _ => True) e := by
    intro list e _
    cases e with
    | start task => trivial
    | run i f => trivial
    | die i => trivial
  have hsta : (Pool.empty fun _ => none).Good (world TurnFile Doc Name) Sequential (fun _ => Grows)
    (fun _ => Grows)
      (Post (F := F)) := Pool.good_empty (⟨nofun, nofun⟩)
  have hse : Sequential (turnRun events).shared := (hsta.run protocol hb (ha events)).shared
  have ht : ∀ {i taken}, Took events i taken → taken.Holds i (turnRun events).shared := by
    intro i taken ht
    obtain ⟨c, hr⟩ := ht
    refine hsta.returned protocol hb (fun j s t hst hp => ?_) (ha events) hr taken rfl
    exact fun other ho => (hp other ho).grows hst
  constructor
  case after => exact fun epoch h => hse.after h
  case named =>
    intro before hbe epoch maker unit h
    obtain ⟨rest, rfl⟩ := hbe
    have hl := (hsta.run protocol hb (ha before)).run_shared protocol hb Grows.refl Grows.trans
      (fun _ _ _ h => h) (ha rest)
    rw [← Pool.run_append] at hl
    exact hl _ _ h
  case agree =>
    intro i j taken taken' hi hj epoch unit unit' he he' hu hu'
    obtain ⟨maker, h⟩ := (ht hi).unit epoch unit he hu
    obtain ⟨maker', h'⟩ := (ht hj).unit epoch unit' he' hu'
    exact (h.eq h').1
  case won =>
    intro i j taken taken' hi hj epoch he he' hw hw'
    obtain ⟨unit, h⟩ := (ht hi).won epoch he hw
    obtain ⟨unit', h'⟩ := (ht hj).won epoch he' hw'
    exact (h.eq h').2
  case holder =>
    intro epoch epoch' maker maker' unit unit' h h' hop ho'
    have hex : ∀ {e u m}, Names (turnRun events).shared e u m →
      ((turnRun events).shared (.turn e)).isSome := by
      intro e u m hn
      rw [hn]
      rfl
    have hle : ∀ {e e'}, ((turnRun events).shared (.turn e')).isSome →
      (turnRun events).shared (.done e) = none → e' ≤ e := by
      intro e e' htu hno
      by_contra hlt
      have hd := hse.done_of_lt (Nat.not_le.mp hlt) htu
      rw [hno] at hd
      cases hd
    have heq := Nat.le_antisymm (hle (hex h) ho') (hle (hex h') hop)
    subst heq
    exact ⟨rfl, (h.eq h').1⟩

end PrismaBuild.Turn
