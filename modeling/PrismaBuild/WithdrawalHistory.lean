import PrismaBuild.WithdrawalRun

namespace PrismaBuild.Withdrawal

open Prog Option

variable {T D : Generation → Prop} {s t : Store}

def Cancelled (r : Except Failure Outcome) (t : Store) : Prop :=
  ∀ target already filed, r = .ok (.withdrawn target already filed) →
    (∀ d, target = some d → ∀ g, d.generation = some g → .decision g ∈ t) ∧
    ∃ g, filed.generation = some g ∧ .decision g ∈ t

theorem withdrawReady_cancelled (hs : Kept T D s) (fresh : Nat) (target : Option Doc)
    (already : Bool)
    {filed : Doc} (hf : ∃ g, filed.generation = some g ∧ D g)
    (hta : ∀ d, target = some d → ∀ g, d.generation = some g → D g) :
      Along FileStore.step (Kept T D) Cancelled
      ((withdrawReady fresh).andThen fun _ => pure (.ok (.withdrawn target already filed))) s := by
  refine .andThen ((withdrawReady_stays hs fresh).imp fun r t ht _ => ?_)
  cases r with
  | error e => simp [Cancelled]
  | ok moved =>
    refine ⟨ht, ?_⟩
    rintro target' already' filed' ⟨⟩
    refine ⟨fun d hd g hg => ht.lasting g (hta d hd g hg), ?_⟩
    obtain ⟨g, hg, hD⟩ := hf
    exact ⟨g, hg, ht.lasting g hD⟩

variable {g : Generation} {record : Doc}

theorem fileNew_cancelled (hs : Kept T D s) (q : Request)
    (hg : record.generation = some g) (hT : T g) (origin : Origin) (fresh : Nat) :
    Along FileStore.step (Kept T D) Cancelled (fileNew q record origin fresh) s := by
  refine .andThen ((fileWithdrawalDecision_along
    (d := { record with stamp := some (stampOf q origin) })
    hs hg rfl hT).imp fun r t ht hr => ?_)
  cases r with
  | error e => simp [Cancelled]
  | ok filed =>
    obtain ⟨hfg, hfs, hm⟩ := hr filed rfl
    have hf : Along FileStore.step (Kept T fun g' => g' = g ∨ D g') Cancelled
        ((replace .marker filed).andThen fun _ =>
          (withdrawReady fresh).andThen fun _ => pure (.ok (.withdrawn (some record) false filed)))
            t := by
      refine .andThen ((stays_of_safe (o := .replace .marker filed) (ht.extend hm)
        (.inl ⟨rfl, g, hfg, hfs, hm⟩)).imp fun a u hu _ => ?_)
      cases a with
      | error e => simp [Cancelled]
      | ok done =>
        refine withdrawReady_cancelled hu fresh (some record) false ⟨g, hfg, .inl rfl⟩ ?_
        rintro d ⟨⟩ g' hg'
        exact .inl (some.inj (hg'.symm.trans hg))
    exact hf.weaken fun u hu => hu.shrink fun g' hD => .inr hD

theorem fileExisting_cancelled (hs : Kept T D s) {existing : Doc} {record : Option Doc}
    (hex : ∃ g, existing.generation = some g ∧ existing.stamp.isSome ∧ .decision g ∈ s)
    (hre : ∀ d, record = some d → ∀ g, d.generation = some g → .decision g ∈ s) (fresh : Nat) :
    Along FileStore.step (Kept T D) Cancelled (fileExisting existing record fresh) s := by
  obtain ⟨g, hg, hst, hm⟩ := hex
  obtain ⟨decision, hl⟩ := isSome_iff_exists.mp (AList.lookup_isSome.mpr hm)
  have hT := (hs.decided g decision hl).2.2
  have ha : Kept T (fun g' => D g' ∨ ∃ d, record = some d ∧ d.generation = some g') s := by
    refine ⟨hs.decided, hs.marked, hs.numbered, ?_⟩
    rintro g' (hD | ⟨d, hd, hdg⟩)
    · exact hs.lasting g' hD
    · exact hre d hd g' hdg
  refine .weaken (I := Kept T fun g' => D g' ∨ ∃ d, record = some d ∧ d.generation = some g') ?_
    fun u hu => hu.shrink fun g' hD => .inl hD
  refine .andThen ((fileWithdrawalDecision_along ha hg hst hT).imp fun r t ht hr => ?_)
  cases r with
  | error e => simp [Cancelled]
  | ok filed =>
    obtain ⟨hfg, -, hf⟩ := hr filed rfl
    refine (withdrawReady_cancelled (ht.extend hf) fresh record true ⟨g, hfg, .inl rfl⟩ ?_).weaken
      fun u hu => hu.shrink fun g' hD => .inr hD
    exact fun d hd g' hdg => .inr (.inr ⟨d, hd, hdg⟩)

theorem withdrawRecord_cancelled (hs : Kept T D s) (q : Request)
    (hg : record.generation = some g) (hT : T g) (origin : Origin) (fresh : Nat) :
    Along FileStore.step (Kept T D) Cancelled
      (withdrawRecord q (s.lookup .marker) record origin fresh) s := by
  unfold withdrawRecord
  split
  · exact ⟨hs, by simp [Cancelled]⟩
  · split
    next =>
      split
      · exact ⟨hs, by simp [Cancelled]⟩
      · exact fileNew_cancelled hs q hg hT origin fresh
    next m hm =>
      refine .andThen (((withdrawalCovers_reads record s).imp ?_).weaken fun u hu => hu ▸ hs)
      rintro r u rfl hr
      cases r with
      | error e => simp [Cancelled]
      | ok covered =>
        cases covered with
        | some cover =>
          refine fileExisting_cancelled hs (hs.marked .marker m (.inl rfl) hm) ?_ fresh
          rintro d ⟨⟩ g' hg'
          exact coveredBy_decided hs hg' (hr _ rfl).symm
        | none =>
          dsimp only
          split
          · exact ⟨hs, by simp [Cancelled]⟩
          · refine .andThen ((supersedeWithdrawal_stays hs fresh).imp fun r t ht _ => ?_)
            cases r with
            | error e => simp [Cancelled]
            | ok old => exact fileNew_cancelled ht q hg hT origin fresh

theorem endedOrDecided_reads (s : Store) : Along FileStore.step (· = s) (fun r _ => ∀ e, r = .ok e →
        (∃ p, e = .inl (.alreadyFinished p)) ∨ ∃ g d, e = .inr d ∧ s.lookup (.decision g) = some d)
        endedOrDecided s := by
  refine read_along rfl (by simp) ?_
  cases s.lookup .done with
  | some d => exact ⟨rfl, by rintro e ⟨⟩; exact .inl ⟨_, rfl⟩⟩
  | none =>
    refine read_along rfl (by simp) ?_
    cases s.lookup .failed with
    | some d => exact ⟨rfl, by rintro e ⟨⟩; exact .inl ⟨_, rfl⟩⟩
    | none =>
      refine list_along rfl (by simp) ?_
      cases newest (s.keys.filter isDecision) with
      | none => exact ⟨rfl, by simp⟩
      | some g =>
        refine .andThen ((withdrawalDecision_reads (.decision g) s).imp ?_)
        rintro r u rfl hr
        cases r with
        | error e => simp
        | ok d => exact ⟨rfl, by rintro e ⟨⟩; exact .inr ⟨g, d, rfl, hr d rfl⟩⟩

theorem withdraw_cancelled (hs : Kept T D s) (q : Request)
    (hT : ∀ d o g, targetOf q s = some (d, o) → d.generation = some g → T g) (fresh : Nat) :
    Along FileStore.step (Kept T D) Cancelled (withdraw q fresh) s := by
  have hn : ∀ r : Except Failure Outcome, (∀ a b c, r ≠ .ok (.withdrawn a b c)) →
      Along FileStore.step (Kept T D) Cancelled (ret r) s :=
    fun r hr => ⟨hs, fun a b c he => absurd he (hr a b c)⟩
  refine read_along hs (by simp [Cancelled]) (read_along hs (by simp [Cancelled]) ?_)
  split
  · exact hn _ (by simp)
  · split
    · exact hn _ (by simp)
    · refine .andThen (((chooseRecord_reads q s).imp ?_).weaken fun u hu => hu ▸ hs)
      rintro r u rfl hr
      cases r with
      | error e => simp [Cancelled]
      | ok choice =>
        have hc := hr choice rfl
        cases choice with
        | some pair =>
          obtain ⟨record, origin⟩ := pair
          obtain ⟨g, hg⟩ : ∃ g, record.generation = some g := by
            rw [← isSome_iff_exists]
            rcases targetOf_mem hc.symm with hm | hm
            · exact hs.numbered .claimed record (.inr (.inl rfl)) hm
            · exact hs.numbered .ready record (.inl rfl) hm
          exact withdrawRecord_cancelled hs q hg (hT record origin g hc.symm hg) origin fresh
        | none =>
          dsimp only
          split
          next m hm =>
            exact fileExisting_cancelled hs (hs.marked .marker m (.inl rfl) hm) (by simp) fresh
          next =>
            refine .andThen (((endedOrDecided_reads u).imp ?_).weaken fun v hv => hv ▸ hs)
            rintro r v rfl hr
            cases r with
            | error e => simp [Cancelled]
            | ok ended =>
              obtain ⟨p, rfl⟩ | ⟨g, decision, rfl, hl⟩ := hr ended rfl
              · exact hn _ (by simp)
              · obtain ⟨hg, hst, -⟩ := hs.decided g decision hl
                exact fileExisting_cancelled hs
                  ⟨g, hg, hst, AList.lookup_isSome.mp (by simp [hl])⟩ (by simp) fresh

/-- The queue directories whose records other operations move in and out of. -/
inductive Slot
  | ready
  | claimed
  | done
  | failed
  deriving DecidableEq

def Slot.path : Slot → Path
  | ready => .ready
  | claimed => .claimed
  | done => .done
  | failed => .failed

/-- What happens to one key, one step at a time under its transition lock. `place` and `clear`
are the rest of the pool moving records of a numeric generation between the queue directories. -/
inductive Event
  | publish (generation : Generation) (fresh : Nat) (schedule : List (Option Fault))
  | withdraw (q : Request) (fresh : Nat) (schedule : List (Option Fault))
  | supersede (fresh : Nat) (schedule : List (Option Fault))
  | withdrawReady (fresh : Nat) (schedule : List (Option Fault))
  | place (slot : Slot) (generation : Generation) (claim : Option Name)
  | clear (slot : Slot)

/-- The state after a step, finished or cut off where its schedule ends. -/
def Event.run (s : Store) : Event → Store
  | publish generation fresh schedule =>
    (play FileStore.step schedule (Withdrawal.publish generation fresh) s).2
  | withdraw q fresh schedule => (play FileStore.step schedule (Withdrawal.withdraw q fresh) s).2
  | supersede fresh schedule => (play FileStore.step schedule (supersedeWithdrawal fresh) s).2
  | withdrawReady fresh schedule =>
    (play FileStore.step schedule (Withdrawal.withdrawReady fresh) s).2
  | place slot generation claim => s.insert slot.path ⟨some generation, claim, none⟩
  | clear slot => s.erase slot.path

def runAll : List Event → Store → Store
  | [], s => s
  | e :: es, s => runAll es (e.run s)

/-- The event is a call of `withdraw` for this generation. -/
def Event.Starts (s : Store) (g : Generation) : Event → Prop
  | withdraw q _ _ => ∃ d o, targetOf q s = some (d, o) ∧ d.generation = some g
  | _ => False

/-- Some call of `withdraw` was started for this generation. -/
def Started (g : Generation) : List Event → Store → Prop
  | [], _ => False
  | e :: es, s => e.Starts s g ∨ Started g es (e.run s)

theorem Kept.empty : Kept T (fun _ => False) ∅ := by
  constructor <;> simp

theorem Slot.path_plain (slot : Slot) :
    isDecision slot.path = false ∧ ¬ (slot.path = .marker ∨
    ∃ n, slot.path = .capturedMarker n) := by
  cases slot <;> simp [Slot.path, isDecision]

theorem Kept.event (hs : Kept T D s) (e : Event) (hT : ∀ g, e.Starts s g → T g) :
    Kept T D (e.run s) := by
  cases e with
  | publish generation fresh schedule => exact (publish_stays hs generation fresh).play schedule
  | withdraw q fresh schedule =>
    exact (withdraw_cancelled hs q (fun d o g ht hg => hT g ⟨d, o, ht, hg⟩) fresh).play schedule
  | supersede fresh schedule => exact (supersedeWithdrawal_stays hs fresh).play schedule
  | withdrawReady fresh schedule => exact (withdrawReady_stays hs fresh).play schedule
  | place slot generation claim =>
    obtain ⟨hp, hm⟩ := slot.path_plain
    exact hs.insert_plain hp (fun h => absurd h hm) (fun _ => rfl)
  | clear slot => exact hs.erase slot.path_plain.1

theorem Kept.runAll (es : List Event) (hs : Kept T D s) (hT : ∀ g, Started g es s → T g) :
    Kept T D (runAll es s) := by
  induction es generalizing s with
  | nil => exact hs
  | cons e es ih =>
    have he := hs.event e fun g hg => hT g (.inl hg)
    exact ih he fun g hg => hT g (.inr hg)

/-- `withdraw` answered success for this generation. -/
def SucceededFor (g : Generation) : Except Failure Outcome → Prop
  | .ok (.withdrawn target _ filed) =>
    filed.generation = some g ∨ ∃ d, target = some d ∧ d.generation = some g
  | _ => False

theorem Cancelled.decision {r : Except Failure Outcome} (h : Cancelled r t)
    (hr : SucceededFor g r) : .decision g ∈ t := by
  match r, hr with
  | .ok (.withdrawn target already filed), hr =>
    obtain ⟨ht, g', hg', hm⟩ := h target already filed rfl
    rcases hr with hg | ⟨d, hd, hg⟩
    · exact some.inj (hg.symm.trans hg') ▸ hm
    · exact ht d hd g hg

/-- Cancellation is permanent for a generation whose `withdraw` succeeded, and never reaches a
generation that no `withdraw` was started for. -/
theorem withdrawal_permanent_and_exact (history : List Event) (g : Generation) (record : Doc)
    (hrecord : record.generation = some g) : (∀ q fresh schedule r t,
      play FileStore.step schedule (withdraw q fresh) (runAll history ∅) = (ret r, t) →
      SucceededFor g r → ∀ later, ∃ decision,
        covers (runAll later t) record = .ok (some decision) ∧ decision.generation = some g ∧
        decision.stamp.isSome) ∧
    (¬ Started g history ∅ → covers (runAll history ∅) record = .ok none) := by
  constructor
  · intro q fresh schedule r t hp hr later
    have hs := Kept.empty.runAll history fun _ _ => trivial
    have hw := withdraw_cancelled hs q (fun _ _ _ _ _ => trivial) fresh
    have ht : Kept (fun _ => True) (fun _ => False) t := by
      have := hw.play schedule
      rwa [hp] at this
    have hm := (hw.result hp).decision hr
    have hl := (ht.extend hm).runAll later fun _ _ => trivial
    exact covers_of_decision hl hrecord (hl.lasting g (.inl rfl))
  · intro hn
    have hs := Kept.empty.runAll history fun _ hg => hg
    exact covers_eq_none hs hrecord hn

def operatorRequest : Request where
  byWhom := ['o', 'p']
  reason := []
  preemptedBy := none
  expectedClaim := none
  handoff := none
  holderAmbiguous := false
  held := false

def undisturbed : List (Option Fault) := List.replicate 16 none

theorem withdrawn_then_republished : (∃ decision, covers (runAll [.publish 2 1 undisturbed]
        ((Event.withdraw operatorRequest 0 undisturbed).run (runAll [.publish 1 0 undisturbed] ∅)))
        ⟨some 1, none, none⟩ = .ok (some decision) ∧ decision.generation = some 1 ∧
          decision.stamp.isSome) ∧
    covers (runAll [.publish 1 0 undisturbed, .withdraw operatorRequest 0 undisturbed,
      .publish 2 1 undisturbed] ∅) ⟨some 2, none, none⟩ = .ok none := by
  constructor
  · exact (withdrawal_permanent_and_exact [.publish 1 0 undisturbed] 1 ⟨some 1, none, none⟩ rfl).1
      operatorRequest 0 undisturbed _ _ rfl (.inl rfl) [.publish 2 1 undisturbed]
  · refine (withdrawal_permanent_and_exact _ 2 ⟨some 2, none, none⟩ rfl).2 ?_
    rintro (h | ⟨d, o, ht, hg⟩ | h | h)
    · exact h
    · cases ht
      cases hg
    · exact h
    · exact h

end PrismaBuild.Withdrawal
