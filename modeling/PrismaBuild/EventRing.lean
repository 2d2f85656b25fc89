import PrismaBuild.NameOrder
import PrismaBuild.Trace

namespace PrismaBuild.QueueBell

open List

/-- An entry of `TOPICS`. -/
structure Topic where
  directory : Name
  acceptsId : Name → Bool

structure Event where
  seq : Nat
  topic : Name
  id : Name

/-- An `EventRing`: the latest events, numbered on from the floor under which they are gone. -/
structure Ring where
  epoch : Name
  capacity : Nat
  seq : Nat
  floor : Nat
  events : List Event
  closed : Bool
  coverageVersion : Nat
  coveredTopics : Finset Name
  positive : 1 ≤ capacity
  numbered : events.map Event.seq = range' (floor + 1) events.length
  latest : floor + events.length = seq
  held : events.length ≤ capacity

inductive Op
  | append (topic id : Name)
  | reset
  | resetV2
  | close
  | setCoverage (selected : Finset Name)

/-- What `_wait` is asked: the events after a cursor, of some topics and ids. `wait_v2` gives a
version. -/
structure Wait where
  epoch : Name
  since : Nat
  topics : Finset Name
  ids : Finset Name
  version : Option Nat

inductive Reason
  | shutdown
  | epochMismatch
  | historyLost
  | coverageChanged
  | partialCoverage

inductive Answer
  | reset (seq : Nat) (reason : Option Reason)
  | events (seq : Nat) (rows : List Event)

variable (topics : Name → Option Topic) {r : Ring} {q : Wait} {ops : List Op} {c : Nat}

def accepts (topic id : Name) : Bool := (topics topic).any (·.acceptsId id)

def Wait.selects (q : Wait) (e : Event) : Bool :=
    (q.topics = ∅ ∨ e.topic ∈ q.topics) ∧ (q.ids = ∅ ∨ e.id ∈ q.ids)

/-- An event as the answer spells it: `wait` names the directory of its topic. -/
def Wait.row (q : Wait) (e : Event) : Event :=
  match q.version, topics e.topic with
  | none, some topic => { e with topic := topic.directory }
  | _, _ => e

namespace Ring

/-- The floor and the events before an append: a full deque loses its oldest event. -/
def room (r : Ring) : Nat × List Event :=
  match r.events with
  | [] => (r.floor, [])
  | oldest :: rest =>
    if r.events.length = r.capacity then (oldest.seq, rest) else (r.floor, oldest :: rest)

theorem mem_window {e : Event} (he : e ∈ r.events) : r.floor < e.seq ∧ e.seq ≤ r.seq := by
  have hm := mem_range'_1.mp (r.numbered ▸ mem_map_of_mem he)
  have hl := r.latest
  omega

theorem room_cases (r : Ring) : r.room = (r.floor, r.events) ∧ r.events.length < r.capacity ∨
    ∃ oldest, r.room.1 = oldest.seq ∧ r.events = oldest :: r.room.2 ∧
    r.events.length = r.capacity := by
  unfold room
  split
  next h => exact .inl (by rw [h]; exact ⟨rfl, r.positive⟩)
  next oldest rest h =>
    split
    next hc => exact .inr ⟨oldest, rfl, h, hc⟩
    next hc => exact .inl ⟨by rw [h], Nat.lt_of_le_of_ne r.held hc⟩

theorem room_numbered (r : Ring) : r.room.2.map Event.seq = range' (r.room.1 + 1) r.room.2.length ∧
    r.room.1 + r.room.2.length = r.seq ∧ r.room.2.length < r.capacity := by
  have hn := r.numbered
  have hl := r.latest
  obtain ⟨he, hc⟩ | ⟨oldest, hf, he, hc⟩ := r.room_cases
  · rw [he]
    exact ⟨hn, hl, hc⟩
  · rw [he, map_cons, length_cons, range'_succ, cons.injEq] at hn
    rw [he, length_cons] at hl hc
    rw [hf, hn.1]
    exact ⟨hn.2, by omega, by omega⟩

def push (r : Ring) (topic id : Name) : Ring :=
  { r with
    seq := r.seq + 1
    floor := r.room.1
    events := r.room.2 ++ [⟨r.seq + 1, topic, id⟩]
    numbered := by
      obtain ⟨hn, hl, _⟩ := r.room_numbered
      rw [map_append, hn, length_append, length_singleton, range'_1_concat, Nat.add_right_comm, hl]
      rfl
    latest := by
      rw [length_append, length_singleton, ← Nat.add_assoc, r.room_numbered.2.1]
    held := by
      rw [length_append]
      exact r.room_numbered.2.2 }

def cover (r : Ring) (selected : Finset Name) : Ring :=
  if selected = r.coveredTopics then
    r else { r with coveredTopics := selected, coverageVersion := r.coverageVersion + 1 }

/-- A refused `append` or `set_coverage` raises before it takes the lock. -/
def next (r : Ring) : Op → Ring
  | .append topic id => if accepts topics topic id then r.push topic id else r
  | .reset =>
    { r with seq := r.seq + 1, floor := r.seq + 1, events := [], numbered := rfl, latest := rfl, held := Nat.zero_le _ }
  | .resetV2 => { r with coverageVersion := r.coverageVersion + 1 }
  | .close => { r.cover ∅ with closed := true }
  | .setCoverage selected => if ∀ t ∈ selected, (topics t).isSome then r.cover selected else r

abbrev run (r : Ring) (ops : List Op) : Ring := runTrace (next topics) r ops

def filed (r : Ring) : Op → List Event
  | .append topic id => if accepts topics topic id then [⟨r.seq + 1, topic, id⟩] else []
  | _ => []

/-- The events that a sequence of calls appends. -/
def appended (r : Ring) : List Op → List Event
  | [] => []
  | op :: ops => r.filed topics op ++ (r.next topics op).appended ops

def reason (r : Ring) (q : Wait) : Option Reason :=
  if r.closed then some .shutdown
  else if q.epoch ≠ r.epoch then some .epochMismatch
  else if ¬ (r.floor ≤ q.since ∧ q.since ≤ r.seq) then some .historyLost
  else
    match q.version with
    | none => none
    | some version =>
      if version ≠ r.coverageVersion then some .coverageChanged
      else if ¬ q.topics ⊆ r.coveredTopics then some .partialCoverage
      else none

def found (r : Ring) (q : Wait) : List Event :=
    r.events.filter fun e => q.since < e.seq && q.selects e

/-- One look of `_wait` under the lock: an answer, or none and the wait goes on. -/
def answer (r : Ring) (q : Wait) (expired : Bool) : Option Answer :=
  match r.reason q with
  | some reason => some (.reset r.seq (q.version.map fun _ => reason))
  | none =>
    if r.found q ≠ [] ∨ expired = true then some (.events r.seq ((r.found q).map (q.row topics)))
      else none

/-- Whether the `_wake` of a call writes to the socket of a wait. -/
def wakes (r : Ring) (q : Wait) : Op → Bool
  | .append topic id =>
    accepts topics topic id && (q.since < r.room.1 || q.selects ⟨r.seq + 1, topic, id⟩)
  | .setCoverage selected => (∀ t ∈ selected, (topics t).isSome) ∧ selected ≠ r.coveredTopics
  | _ => true

/-- A client: at each look it keeps what it is answered and goes on from the cursor of the answer. A
reset ends it. -/
def follow (r : Ring) (q : Wait) : List (List Op × Bool) → Option (List Event)
  | [] => some []
  | (ops, expired) :: rest =>
    let later := r.run topics ops
    match later.answer topics q expired with
    | none => later.follow q rest
    | some (.reset _ _) => none
    | some (.events seq rows) => (later.follow { q with since := seq } rest).map (rows ++ ·)

variable {topics}

theorem reason_none : r.reason q = none ↔ r.closed = false ∧ q.epoch = r.epoch ∧ r.floor ≤ q.since ∧
    q.since ≤ r.seq ∧
    ∀ version ∈ q.version, version = r.coverageVersion ∧ q.topics ⊆ r.coveredTopics := by
  unfold reason
  cases q.version with
  | none => grind
  | some version =>
    simp only [Option.mem_some_iff, forall_eq']
    grind

/-- From `r` to `s` the events of `new` were appended, as far as a cursor can tell that is not under
the floor. -/
def Extends (c : Nat) (r s : Ring) (new : List Event) : Prop :=
  c ≤ s.seq ∧ (s.floor ≤ c → r.floor ≤ c ∧
    s.events.filter (c < ·.seq) = r.events.filter (c < ·.seq) ++ new)

theorem Extends.same {s : Ring} (hc : c ≤ r.seq) (he : s.events = r.events) (hf : s.floor = r.floor)
    (hs : s.seq = r.seq) :
    Extends c r s [] := by
  rw [Extends, he, hf, hs, append_nil]
  exact ⟨hc, fun h => ⟨h, rfl⟩⟩

theorem extends_cover (hc : c ≤ r.seq) (selected : Finset Name) :
    Extends c r (r.cover selected) [] := by
  unfold cover
  split <;> exact .same hc rfl rfl rfl

theorem extends_next (hc : c ≤ r.seq) (op : Op) :
    Extends c r (r.next topics op) (r.filed topics op) := by
  cases op with
  | append topic id =>
    by_cases ha : accepts topics topic id = true
    · simp only [next, filed, if_pos ha]
      refine ⟨Nat.le_succ_of_le hc, fun hf => ?_⟩
      rw [push, filter_append, filter_singleton, decide_eq_true (Nat.lt_succ_of_le hc)]
      obtain ⟨he, _⟩ | ⟨oldest, ho, he, _⟩ := r.room_cases
      · have hr : r.room.1 ≤ c := hf
        rw [he] at hr ⊢
        exact ⟨hr, rfl⟩
      · have hd : oldest.seq ≤ c := ho ▸ hf
        refine ⟨(mem_window (he ▸ mem_cons_self)).1.le.trans hd, ?_⟩
        rw [he, filter_cons_of_neg (by simpa using hd)]
        rfl
    · simp only [next, filed, if_neg ha]
      exact .same hc rfl rfl rfl
  | reset =>
    exact ⟨Nat.le_succ_of_le hc, fun hf => absurd hf (Nat.not_le.mpr (Nat.lt_succ_of_le hc))⟩
  | resetV2 => exact .same hc rfl rfl rfl
  | close => exact extends_cover hc ∅
  | setCoverage selected =>
    simp only [next, filed]
    split
    · exact extends_cover hc selected
    · exact .same hc rfl rfl rfl

theorem extends_run (hc : c ≤ r.seq) (ops : List Op) :
    Extends c r (r.run topics ops) (r.appended topics ops) := by
  induction ops generalizing r with
  | nil => exact .same hc rfl rfl rfl
  | cons op ops ih =>
    obtain ⟨hs, hn⟩ : Extends c r (r.next topics op) _ := extends_next hc op
    obtain ⟨ht, hr⟩ := ih hs
    refine ⟨ht, fun hf => ?_⟩
    obtain ⟨hl, he⟩ := hr hf
    obtain ⟨hl', he'⟩ := hn hl
    refine ⟨hl', he.trans ?_⟩
    rw [he', append_assoc]
    rfl

theorem appended_append (r : Ring) (ops more : List Op) :
    r.appended topics (ops ++ more) = r.appended topics ops ++ (r.run topics ops).appended topics
    more := by
  induction ops generalizing r with
  | nil => rfl
  | cons op ops ih => exact (congrArg _ (ih _)).trans (append_assoc _ _ _).symm

theorem found_run (hq : q.since = r.seq) (hr : (r.run topics ops).reason q = none) :
    (r.run topics ops).found q = (r.appended topics ops).filter q.selects := by
  have hf : (r.run topics ops).floor ≤ r.seq := hq ▸ (reason_none.mp hr).2.2.1
  have hn : r.events.filter (r.seq < ·.seq) = [] := by
    simpa using fun e he => (mem_window he).2
  rw [← nil_append (r.appended topics ops), ← hn, ← ((extends_run le_rfl ops).2 hf).2,
    filter_filter, found, hq]
  simp only [Bool.and_comm]

theorem follow_from (ops : List Op) (hq : q.since = r.seq)
    (hn : (r.appended topics ops).filter q.selects = []) (looks : List (List Op × Bool)) :
    (r.run topics ops).follow topics q looks = none ∨ (r.run topics ops).follow topics q looks =
      some (((r.appended topics (ops ++ looks.flatMap Prod.fst)).filter q.selects).map
      (q.row topics)) := by
  induction looks generalizing r ops q with
  | nil => exact .inr (by simp [follow, hn])
  | cons look looks ih =>
    obtain ⟨more, expired⟩ := look
    have hl : (r.run topics ops).run topics more = r.run topics (ops ++ more) :=
      (runTrace_append r ops more).symm
    simp only [follow, answer, hl]
    cases hr : (r.run topics (ops ++ more)).reason q with
    | some reason => exact .inl rfl
    | none =>
      simp only [found_run hq hr]
      rw [flatMap_cons, ← append_assoc]
      by_cases hd : (r.appended topics (ops ++ more)).filter q.selects ≠ [] ∨ expired = true
      · rw [if_pos hd]
        rcases ih (q := { q with since := (r.run topics (ops ++ more)).seq }) [] rfl
          rfl with hi | hi
        · exact .inl (congrArg (Option.map _) hi)
        · refine .inr ((congrArg (Option.map _) hi).trans ?_)
          rw [appended_append r (ops ++ more), filter_append, map_append]
          rfl
      · rw [if_neg hd]
        exact ih _ hq (not_not.mp (not_or.mp hd).1)

/-- Whatever is called and however often it looks, a client that meets no reset receives every event
that it selects once and in order. -/
theorem follow_exact (r : Ring) (q : Wait) (looks : List (List Op × Bool)) :
    r.follow topics { q with since := r.seq } looks = none ∨
    r.follow topics { q with since := r.seq } looks =
      some (((r.appended topics (looks.flatMap Prod.fst)).filter q.selects).map (q.row topics)) :=
  follow_from [] rfl rfl looks

theorem next_grows {op : Op} (ho : op ≠ .reset) : (r.next topics op).capacity = r.capacity ∧
    (r.next topics op).seq = r.seq + (r.filed topics op).length ∧
      ((r.next topics op).floor ≤ r.floor ∨
      (r.next topics op).floor + r.capacity ≤ (r.next topics op).seq) := by
  have hn := r.room_numbered
  have hl := r.latest
  have hc := r.room_cases
  cases op <;> grind [next, push, cover, filed]

theorem run_grows (ho : Op.reset ∉ ops) : (r.run topics ops).capacity = r.capacity ∧
    (r.run topics ops).seq = r.seq + (r.appended topics ops).length ∧
      ((r.run topics ops).floor ≤ r.floor ∨
      (r.run topics ops).floor + r.capacity ≤ (r.run topics ops).seq) := by
  induction ops generalizing r with
  | nil => exact ⟨rfl, rfl, .inl le_rfl⟩
  | cons op ops ih =>
    obtain ⟨hop, hops⟩ := not_or.mp (mt mem_cons.mpr ho)
    obtain ⟨hc, hs, hf⟩ : (r.next topics op).capacity = _ ∧ _ := next_grows (Ne.symm hop)
    obtain ⟨hc', hs', hf'⟩ := ih (r := r.next topics op) hops
    have he : r.run topics (op :: ops) = (r.next topics op).run topics ops := rfl
    rw [he, appended, length_append]
    omega

theorem floor_run_le : (r.run topics ops).floor ≤ r.seq ↔ Op.reset ∉ ops ∧
    (r.appended topics ops).length ≤ r.capacity := by
  by_cases ho : Op.reset ∈ ops
  · obtain ⟨before, after, rfl⟩ := append_of_mem ho
    obtain ⟨hb, _⟩ : Extends r.seq r (r.run topics before) _ := extends_run le_rfl before
    refine iff_of_false (fun hf => ?_) fun h => h.1 ho
    rw [run, runTrace_append] at hf
    obtain ⟨_, he⟩ : Extends r.seq _ (((r.run topics before).next topics .reset).run topics after)
      _ :=
      extends_run (Nat.le_succ_of_le hb) after
    exact Nat.not_le.mpr (Nat.lt_succ_of_le hb) (he hf).1
  · obtain ⟨hc, hs, hf⟩ : (r.run topics ops).capacity = _ ∧ _ := run_grows ho
    have hl := r.latest
    have hl' := (r.run topics ops).latest
    have hh := (r.run topics ops).held
    simp only [ho, not_false_eq_true, true_and]
    omega

/-- A client at the cursor of an earlier answer is reset when the ring is closed or another one,
when it was reset since or holds fewer events than were appended since, or when its coverage is not
the asked one. -/
theorem reset_iff (r : Ring) (q : Wait) (ops : List Op) (expired : Bool) : let s := r.run topics ops
    (∃ seq why, s.answer topics { q with since := r.seq } expired = some (.reset seq why)) ↔
      s.closed = true ∨ q.epoch ≠ s.epoch ∨ Op.reset ∈ ops ∨
      r.capacity < (r.appended topics ops).length ∨
        ∃ version ∈ q.version, version ≠ s.coverageVersion ∨ ¬ q.topics ⊆ s.coveredTopics := by
  intro s
  obtain ⟨hs, _⟩ : Extends r.seq r s _ := extends_run le_rfl ops
  have hf : s.floor ≤ r.seq ↔ _ := floor_run_le
  have hr : s.reason { q with since := r.seq } = none ↔ _ := reason_none
  simp only [hf, hs, true_and] at hr
  unfold answer
  cases hw : s.reason { q with since := r.seq } with
  | some reason => grind
  | none => grind

theorem answer_none : r.answer topics q false = none ↔ r.reason q = none ∧ r.found q = [] := by
  unfold answer
  cases r.reason q <;> simp

/-- A wait that a call gives its answer is woken by that call. -/
theorem woken_or_waiting (r : Ring) (q : Wait) (op : Op) : r.answer topics q false ≠ none ∨
    r.wakes topics q op = true ∨
    (r.next topics op).answer topics q false = none := by
  by_contra! h
  obtain ⟨hw, ha, hn⟩ := h
  refine hn ?_
  cases op with
  | append topic id =>
    by_cases hd : accepts topics topic id = true
    · obtain ⟨hr, he⟩ := answer_none.mp hw
      simp only [wakes, hd, Bool.true_and, ne_eq, Bool.or_eq_true, not_or] at ha
      simp only [next, if_pos hd]
      obtain ⟨hc, hp, _, hs, hv⟩ := reason_none.mp hr
      refine answer_none.mpr ⟨reason_none.mpr ⟨hc, hp, not_lt.mp (mt decide_eq_true ha.1),
        Nat.le_succ_of_le hs, hv⟩, filter_eq_nil_iff.mpr ?_⟩
      have hm := r.room_cases
      simp only [found, filter_eq_nil_iff] at he
      grind [push]
    · simpa only [next, if_neg hd] using hw
  | setCoverage selected =>
    simp only [next]
    split
    next hd =>
      rw [cover, if_pos (by_contra fun hn => ha (decide_eq_true ⟨hd, hn⟩))]
      exact hw
    next => exact hw
  | _ => exact absurd rfl ha

end Ring
end PrismaBuild.QueueBell
