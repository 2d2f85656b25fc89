import Mathlib

namespace PrismaBuild.Borrow

open List Option

/-- `last-borrow.json`, or what there is of it. -/
structure BorrowRecord (T : Type) where
  sampledUnix : Option T := none
  borrowId : Option Nat := none
  deriving DecidableEq

/-- The metadata of a claim that was admitted as borrowing, with what its record replaced. The id
goes with the first withdrawal. -/
structure Claim (T : Type) where
  sampledUnix : T
  borrowId : Option Nat
  previous : BorrowRecord T

def Claim.outstanding {T : Type} (claim : Claim T) : Bool := claim.borrowId.isSome

inductive Outcome
  | written
  | late
  | lost

/-- The record, the ids given so far and the claims in the order they were admitted. -/
structure BorrowState (T : Type) where
  record : BorrowRecord T
  issued : Nat
  claims : List (Claim T)

variable {T : Type} [LinearOrder T] [Zero T]

def BorrowRecord.last (record : BorrowRecord T) : T := record.sampledUnix.getD 0

/-- `read_json`: a record that cannot be read is an empty one. -/
def BorrowState.readRecord (s : BorrowState T) (served : Bool) : BorrowRecord T :=
    if served then s.record else {}

def admitted (s : BorrowState T) (sampledUnix : T) (served : Bool) (outcome : Outcome) :
    BorrowState T :=
  let record : BorrowRecord T := ⟨some sampledUnix, some s.issued⟩
  match outcome with
  | .written =>
    ⟨record, s.issued + 1, s.claims ++ [⟨sampledUnix, some s.issued, s.readRecord served⟩]⟩
  | .late => ⟨record, s.issued + 1, s.claims⟩
  | .lost => ⟨s.record, s.issued + 1, s.claims⟩

/-- `Controller.withdrew`, for the claim of this index. -/
def withdrew (s : BorrowState T) (index : Nat) (served : Bool) (outcome : Outcome) :
    BorrowState T :=
  match s.claims[index]? with
  | none => s
  | some claim =>
    match claim.borrowId with
    | none => s
    | some borrowId =>
      let claims := s.claims.set index { claim with borrowId := none }
      let current := s.readRecord served
      if current.borrowId ≠ some borrowId ∨ current.sampledUnix ≠ some claim.sampledUnix then
        { s with claims := claims }
      else
        match outcome with
        | .lost => { s with claims := claims }
        | _ => { s with record := claim.previous, claims := claims }

/-- With each read of the record, whether it is served: in the decision, in `admitted`, in
`withdrew`. -/
inductive Event (T : Type)
  | borrow (evidence : Bool) (sampledUnix : T) (decided served : Bool) (outcome : Outcome)
  | withdraw (index : Nat) (served : Bool) (outcome : Outcome)

/-- The event reads what is on file, the withdrawals apart. -/
def Event.served : Event T → Bool
  | .borrow _ _ decided served _ => decided && served
  | .withdraw _ _ _ => true

/-- A borrow is authorized by the other evidence and a sample later than the last one used. -/
def step (s : BorrowState T) : Event T → BorrowState T
  | .borrow evidence sampledUnix decided served outcome =>
    if evidence ∧ (s.readRecord decided).last < sampledUnix then
      admitted s sampledUnix served outcome else s
  | .withdraw index served outcome => withdrew s index served outcome

def run (s : BorrowState T) (events : List (Event T)) : BorrowState T := events.foldl step s

structure Entry (T : Type) where
  borrowId : Nat
  sampledUnix : T
  previous : BorrowRecord T

def Entry.record (entry : Entry T) : BorrowRecord T := ⟨some entry.sampledUnix, some entry.borrowId⟩

inductive Stacked : BorrowRecord T → List (Entry T) → Prop
  | base (record : BorrowRecord T) : Stacked record []
  | push {entries : List (Entry T)} (entry : Entry T) (below : Stacked entry.previous entries)
      (later : entry.previous.last < entry.sampledUnix) : Stacked entry.record (entry :: entries)

section

variable {record : BorrowRecord T} {entries : List (Entry T)}

theorem Stacked.le_last (h : Stacked record entries) :
    ∀ entry ∈ entries, entry.sampledUnix ≤ record.last := by
  induction h with
  | base => exact forall_mem_nil _
  | push entry below later ih =>
    refine forall_mem_cons.mpr ⟨le_refl _, fun old hold => ?_⟩
    exact le_of_lt (lt_of_le_of_lt (ih old hold) later)

theorem Stacked.nodup (h : Stacked record entries) : (entries.map Entry.sampledUnix).Nodup := by
  induction h with
  | base => exact nodup_nil
  | push entry below later ih =>
    refine nodup_cons.mpr ⟨fun hin => ?_, ih⟩
    obtain ⟨old, hold, heq⟩ := mem_map.mp hin
    have hlt := lt_of_le_of_lt (below.le_last old hold) later
    exact ne_of_lt hlt heq

end

structure Kept (s : BorrowState T) (entries : List (Entry T)) : Prop where
  stacked : Stacked s.record entries
  given : ∀ entry ∈ entries, entry.borrowId < s.issued
  distinct : (entries.map Entry.borrowId).Nodup
  held : ∀ claim ∈ s.claims, ∀ id, claim.borrowId = some id →
    ⟨id, claim.sampledUnix, claim.previous⟩ ∈ entries
  apart : ∀ (i j : Nat) (a b : Claim T) (id : Nat), s.claims[i]? = some a → s.claims[j]? = some b →
    a.borrowId = some id → b.borrowId = some id → i = j

section

variable {s : BorrowState T} {entries : List (Entry T)} {i index : Nat} {α : Type}

theorem getElem?_concat_cases {items : List α} {item x : α} (h : (items ++ [item])[i]? = some x) :
    items[i]? = some x ∨ i = items.length ∧ x = item := by
  rcases Nat.lt_trichotomy i items.length with hlt | heq | hgt
  · rw [getElem?_append_left hlt] at h
    exact .inl h
  · subst heq
    rw [getElem?_concat_length] at h
    exact .inr ⟨rfl, (some.inj h).symm⟩
  · rw [getElem?_eq_none (by rw [length_append, length_singleton]; omega)] at h
    cases h

variable {sampledUnix : T}

theorem Kept.push (h : Kept s entries) (hla : s.record.last < sampledUnix) {claims : List (Claim T)}
    (hcl : claims = s.claims ∨ claims = s.claims ++ [⟨sampledUnix, some s.issued, s.record⟩]) :
    Kept ⟨⟨some sampledUnix, some s.issued⟩, s.issued + 1, claims⟩
      (⟨s.issued, sampledUnix, s.record⟩ :: entries) := by
  have hn : ∀ claim ∈ s.claims, claim.borrowId ≠ some s.issued := by
    intro claim hc hid
    have hlt := h.given _ (h.held claim hc _ hid)
    exact Nat.lt_irrefl _ hlt
  refine ⟨.push ⟨s.issued, sampledUnix, s.record⟩ h.stacked hla, ?_, ?_, ?_, ?_⟩
  · refine forall_mem_cons.mpr ⟨Nat.lt_succ_self _, fun entry he => ?_⟩
    exact Nat.lt_succ_of_lt (h.given entry he)
  · refine nodup_cons.mpr ⟨fun hin => ?_, h.distinct⟩
    obtain ⟨entry, he, heq⟩ := mem_map.mp hin
    exact absurd heq (ne_of_lt (h.given entry he))
  · intro claim hc id hid
    rcases hcl with rfl | rfl
    · exact .tail _ (h.held claim hc id hid)
    · rcases mem_append.mp hc with hold | hl
      · exact .tail _ (h.held claim hold id hid)
      · obtain rfl := mem_singleton.mp hl
        cases hid
        exact .head _
  · intro i j a b id hi hj ha hb
    rcases hcl with rfl | rfl
    · exact h.apart i j a b id hi hj ha hb
    · rcases getElem?_concat_cases hi with hi | ⟨hl, rfl⟩
      · rcases getElem?_concat_cases hj with hj | ⟨hj, rfl⟩
        · exact h.apart i j a b id hi hj ha hb
        · cases hb
          exact absurd ha (hn a (mem_of_getElem? hi))
      · rcases getElem?_concat_cases hj with hj | ⟨hl', rfl⟩
        · cases ha
          exact absurd hb (hn b (mem_of_getElem? hj))
        · rw [hl, hl']

theorem Kept.admitted (h : Kept s entries) (hl : s.record.last < sampledUnix) (outcome : Outcome) :
    ∃ entries, Kept (admitted s sampledUnix true outcome) entries := by
  cases outcome with
  | written => exact ⟨_, h.push hl (.inr rfl)⟩
  | late => exact ⟨_, h.push hl (.inl rfl)⟩
  | lost =>
    exact ⟨entries, h.stacked, fun entry he => Nat.lt_succ_of_lt (h.given entry he), h.distinct,
      h.held, h.apart⟩

theorem getElem?_set_cases {items : List α} {item x : α} (h : (items.set index item)[i]? = some x) :
    i ≠ index ∧ items[i]? = some x ∨ i = index ∧ x = item := by
  rw [getElem?_set] at h
  split at h
  next heq =>
    split at h
    · exact .inr ⟨heq.symm, (some.inj h).symm⟩
    · cases h
  next hne => exact .inl ⟨Ne.symm hne, h⟩

variable (h : Kept s entries)

include h

theorem Kept.retire (index : Nat) (claim : Claim T) :
    Kept { s with claims := s.claims.set index { claim with borrowId := none } } entries := by
  refine ⟨h.stacked, h.given, h.distinct, ?_, ?_⟩
  · intro other ho id hid
    rcases mem_or_eq_of_mem_set ho with hold | rfl
    · exact h.held other hold id hid
    · cases hid
  · intro i j a b id hi hj ha hb
    rcases getElem?_set_cases hi with ⟨_, hi⟩ | ⟨_, rfl⟩
    · rcases getElem?_set_cases hj with ⟨_, hj⟩ | ⟨_, rfl⟩
      · exact h.apart i j a b id hi hj ha hb
      · cases hb
    · cases ha

theorem Kept.pop {claim : Claim T} (hc : s.claims[index]? = some claim) {id : Nat}
    (hid : claim.borrowId = some id) (hr : s.record.borrowId = some id) : ∃ entries, Kept
      { s with record := claim.previous, claims := s.claims.set index { claim with borrowId := none } } entries := by
  have hin := h.held claim (mem_of_getElem? hc) id hid
  obtain ⟨hs, hg, hd, hh, ha⟩ := h.retire index claim
  obtain ⟨record, issued, claims⟩ := s
  cases hs with
  | base => cases hin
  | @push below top hbe hl =>
    have ht := some.inj hr
    have heq := inj_on_of_nodup_map hd hin (.head _) ht.symm
    subst heq
    obtain ⟨hn, hb⟩ := nodup_cons.mp hd
    refine ⟨below, hbe, fun entry he => hg entry (.tail _ he), hb, ?_, ha⟩
    intro other hot otherId ho
    rcases mem_cons.mp (hh other hot otherId ho) with heq | he
    · -- only the claim itself was recorded under the top id, and it has given it up
      obtain ⟨j, hj⟩ := mem_iff_getElem?.mp hot
      have hi : otherId = id := congrArg Entry.borrowId heq
      rcases getElem?_set_cases hj with ⟨hne, hj⟩ | ⟨_, rfl⟩
      · exact absurd (h.apart j index other claim id hj hc (hi ▸ ho) hid) hne
      · cases ho
    · exact he

theorem Kept.withdrew (index : Nat) (served : Bool) (outcome : Outcome) :
    ∃ entries, Kept (withdrew s index served outcome) entries := by
  unfold Borrow.withdrew
  split
  next => exact ⟨entries, h⟩
  next claim hc =>
    split
    next => exact ⟨entries, h⟩
    next id hid =>
      dsimp only
      split
      next => exact ⟨entries, h.retire index claim⟩
      next ho =>
        -- an unread record names no id, so the one compared is on file
        have hr : s.record.borrowId = some id := by
          have hc := not_not.mp (not_or.mp ho).1
          cases served with
          | true => exact hc
          | false => cases hc
        cases outcome with
        | lost => exact ⟨entries, h.retire index claim⟩
        | written => exact h.pop hc hid hr
        | late => exact h.pop hc hid hr

theorem Kept.step {event : Event T} (hs : event.served = true) :
    ∃ entries, Kept (step s event) entries := by
  cases event with
  | borrow evidence sampledUnix decided served outcome =>
    obtain ⟨rfl, rfl⟩ := (Bool.and_eq_true _ _).mp hs
    rw [Borrow.step]
    split
    next hf => exact h.admitted hf.2 outcome
    next => exact ⟨entries, h⟩
  | withdraw index served outcome => exact h.withdrew index served outcome

theorem Kept.run {events : List (Event T)} (hs : ∀ event ∈ events, event.served = true) :
    ∃ entries, Kept (run s events) entries := by
  induction events generalizing s entries with
  | nil => exact ⟨entries, h⟩
  | cons event events ih =>
    obtain ⟨hs, hr⟩ := forall_mem_cons.mp hs
    obtain ⟨next, hn⟩ := h.step hs
    exact ih hn hr

end

/-- No two outstanding borrows have the same sample, and the record is never earlier than an
outstanding one. -/
def OnePerSample (s : BorrowState T) : Prop :=
  (∀ (i j : Nat) (a b : Claim T), s.claims[i]? = some a → s.claims[j]? = some b →
    a.outstanding = true →
    b.outstanding = true → a.sampledUnix = b.sampledUnix → i = j) ∧
  ∀ claim ∈ s.claims, claim.outstanding = true → claim.sampledUnix ≤ s.record.last

/-- From any record and with no claim yet, one sample authorizes one outstanding borrow as long as
the decisions and the admissions read the record that is on file. -/
theorem one_borrow_per_sample (record : BorrowRecord T) (issued : Nat) (events : List (Event T))
    (hserved : ∀ event ∈ events, event.served = true) :
    OnePerSample (run ⟨record, issued, []⟩ events) := by
  have hs : Kept (⟨record, issued, []⟩ : BorrowState T) [] :=
    ⟨.base record, forall_mem_nil _, nodup_nil, forall_mem_nil _, nofun⟩
  obtain ⟨entries, h⟩ := hs.run hserved
  constructor
  · intro i j a b hi hj ha hb heq
    obtain ⟨ida, hida⟩ := isSome_iff_exists.mp ha
    obtain ⟨idb, hidb⟩ := isSome_iff_exists.mp hb
    have hin := h.held a (mem_of_getElem? hi) ida hida
    have hinb := h.held b (mem_of_getElem? hj) idb hidb
    have hsa := inj_on_of_nodup_map h.stacked.nodup hin hinb heq
    have hids : idb = ida := (congrArg Entry.borrowId hsa).symm
    exact h.apart i j a b ida hi hj hida (hids ▸ hidb)
  · intro claim hc ho
    obtain ⟨id, hid⟩ := isSome_iff_exists.mp ho
    exact h.stacked.le_last _ (h.held claim hc id hid)

/-- A borrow, a later one withdrawn and one from a sample used before: the last is refused. -/
theorem one_borrow_of_three : ∃ s, s = run (⟨{}, 0, []⟩ : BorrowState Int)
      [.borrow true 1 true true .written, .borrow true 2 true true .written,
        .withdraw 1 false .written,
        .borrow true 1 true true .written] ∧
    s.claims.map Claim.outstanding = [true, false] ∧ OnePerSample s :=
  ⟨_, rfl, by decide, one_borrow_per_sample {} 0 _ (by decide)⟩

/-- The decision of the second borrow cannot read the record, takes it as empty, and its sample
authorizes again. -/
theorem unread_record_borrowed_twice : ¬ OnePerSample (run (⟨{}, 0, []⟩ : BorrowState Int)
    [.borrow true 1 true true .written, .borrow true 1 false true .written]) := by
  intro h
  exact absurd (h.1 0 1 _ _ rfl rfl rfl rfl rfl) (by decide)

end PrismaBuild.Borrow
