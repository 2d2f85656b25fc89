import PrismaBuild.ActionKey

namespace PrismaBuild.Endings

open List Option

variable {F : Type}

inductive Slot
  | done
  | failed
  | withdrawn
  deriving DecidableEq

inductive ReadResult (F : Type)
  | present (record : List (Name × Json F))
  | absent
  | unknown (reason : Name) (error : Option (Name × Name))

structure Observation (F : Type) where
  state : Slot
  path : Name
  result : ReadResult F

structure Capture (F : Type) where
  candidates : List (Observation F)
  nodup : (candidates.map fun o => o.state).Nodup

structure Unreadable where
  state : Slot
  (path reason : Name)

def Observation.record (o : Observation F) : Option (Name × List (Name × Json F)) :=
  match o.result with
  | .present record => some (o.path, record)
  | _ => none

def Observation.unreadable (o : Observation F) : Option Unreadable :=
  match o.result with
  | .unknown reason none => some ⟨o.state, o.path, reason⟩
  | .unknown _ (some (text, kind)) => some ⟨o.state, o.path, if text = [] then kind else text⟩
  | _ => none

namespace Capture

def readable (c : Capture F) (s : Slot) : Option (Name × List (Name × Json F)) :=
  (c.candidates.find? fun o => o.state == s).bind Observation.record

def unreadable (c : Capture F) : List Unreadable := c.candidates.filterMap Observation.unreadable

def present (c : Capture F) : List Slot :=
    [.done, .failed, .withdrawn].filter fun s => (c.readable s).isSome

def coexisting (c : Capture F) : List Slot := c.present ++ c.unreadable.map fun u => u.state

def failure (c : Capture F) : Option Slot :=
    [Slot.failed, .withdrawn].find? fun s => (c.readable s).isSome

variable {c : Capture F} {s : Slot}

theorem readable_eq_some {r : Name × List (Name × Json F)} :
    c.readable s = some r ↔ ∃ o ∈ c.candidates, o.state = s ∧ o.record = some r := by
  rw [readable, bind_eq_some_iff]
  constructor
  · rintro ⟨o, ho, hr⟩
    exact ⟨o, mem_of_find?_eq_some ho, by simpa using find?_some ho, hr⟩
  · rintro ⟨o, ho, rfl, hr⟩
    refine ⟨o, ?_, hr⟩
    cases hf : c.candidates.find? fun q => q.state == o.state with
    | none => simpa using find?_eq_none.mp hf o ho
    | some q =>
      have hq : q.state = o.state := by simpa using find?_some hf
      rw [inj_on_of_nodup_map c.nodup (mem_of_find?_eq_some hf) ho hq]

section

variable {c c' : Capture F} (h : c'.candidates.Perm c.candidates)

include h

theorem readable_perm : c'.readable = c.readable := by
  funext s
  ext r
  rw [readable_eq_some, readable_eq_some]
  simp only [h.mem_iff]

theorem unreadable_perm : c'.unreadable.Perm c.unreadable := h.filterMap _

theorem present_perm : c'.present = c.present := by
  rw [present, present, readable_perm h]

theorem coexisting_perm : c'.coexisting.Perm c.coexisting := by
  rw [coexisting, coexisting, present_perm h]
  exact (unreadable_perm h).map _ |>.append_left _

theorem failure_perm : c'.failure = c.failure := by
  rw [failure, failure, readable_perm h]

end

theorem mem_present : s ∈ c.present ↔ (c.readable s).isSome = true := by
  cases s <;> simp [present]

theorem present_nodup (c : Capture F) : c.present.Nodup :=
  List.Nodup.filter _ (by decide)

theorem failure_ne_done (c : Capture F) : c.failure ≠ some .done := by
  intro h
  have := mem_of_find?_eq_some h
  simp at this

theorem length_coexisting (c : Capture F) :
    c.coexisting.length = c.present.length + c.unreadable.length := by
  simp [coexisting]

theorem present_eq_done (hf : c.failure = none) (h : c.present.head? = some .done) :
    c.present = [.done] := by
  have hn : ∀ s ∈ [Slot.failed, .withdrawn], ¬ (c.readable s).isSome = true := by
    simpa [failure] using hf
  have hfa := hn .failed (by simp)
  have hw := hn .withdrawn (by simp)
  have hd := mem_present.mp (mem_of_mem_head? h)
  simp [present, hd, hfa, hw]

end Capture

variable [FloatFormat F]

def publicationGeneration : Option (Json F) → Option F
  | some (.int n) => (FloatFormat.ofInt n).filter FloatFormat.finite
  | some (.float x) => if FloatFormat.finite x then some x else none
  | _ => none

namespace Capture

def generation (c : Capture F) (s : Slot) : Option F :=
  (c.readable s).bind fun r => publicationGeneration (Json.get? r.2 "published_unix")

def stamp (c : Capture F) (s : Slot) : Option ℚ := (c.generation s).map FloatFormat.value

def orderable (c : Capture F) : List Slot := c.present.filter fun s => (c.generation s).isSome

def newest (c : Capture F) : Option ℚ := (c.orderable.filterMap c.stamp).max?

def winners (c : Capture F) : List Slot := c.orderable.filter fun s => c.stamp s == c.newest

/-- The state `resolve_current` answers, and whether it is ambiguous. -/
def verdict (c : Capture F) : Option Slot × Bool :=
  if c.coexisting = [] then (none, false)
  else if c.present.length = 1 ∧ c.unreadable = [] then (c.present.head?, false)
  else if 2 ≤ c.orderable.length then
    match c.winners with
    | [winner] =>
      if winner = .done ∧ c.orderable.length ≠ c.coexisting.length then (c.failure, true)
      else (some winner, !c.unreadable.isEmpty)
    | winners => ((winners.find? fun s => s ≠ .done).or winners.head?, true)
  else
    match c.orderable with
    | [only] =>
      if only = .done ∧ 1 < c.coexisting.length then (c.failure, true)
      else (some only, decide (1 < c.coexisting.length))
    | _ => (c.failure.or c.present.head?, decide (1 < c.coexisting.length))

end Capture

structure History (F : Type) where
  state : Slot
  path : Name
  record : List (Name × Json F)
  generation : Option F

structure Answer (F : Type) where
  state : Option Slot
  path : Option Name
  record : Option (List (Name × Json F))
  generation : Option F
  history : List (History F)
  unreadable : List Unreadable
  ambiguous : Bool
  coexisting : List Slot

def Capture.historyOf (c : Capture F) (s : Slot) : Option (History F) :=
  (c.readable s).map fun r => ⟨s, r.1, r.2, c.generation s⟩

def Capture.result (c : Capture F) (state : Option Slot) (ambiguous : Bool) : Answer F :=
  { state := state
    path := (state.bind c.readable).map Prod.fst
    record := (state.bind c.readable).map Prod.snd
    generation := state.bind c.generation
    history := (c.present.filter fun other => some other ≠ state).filterMap c.historyOf
    unreadable := c.unreadable
    ambiguous := ambiguous
    coexisting := c.coexisting }

def resolveCurrent (c : Capture F) : Answer F := c.result c.verdict.1 c.verdict.2

namespace Capture

variable {c : Capture F} {s w : Slot}

theorem readable_of_generation (h : (c.generation s).isSome = true) :
    (c.readable s).isSome = true := by
  cases hr : c.readable s with
  | none =>
    rw [generation, hr, bind_none] at h
    cases h
  | some r => rfl

theorem mem_orderable : s ∈ c.orderable ↔ (c.generation s).isSome = true := by
  rw [orderable, mem_filter, mem_present]
  exact ⟨fun h => h.2, fun h => ⟨readable_of_generation h, h⟩⟩

theorem orderable_nodup (c : Capture F) : c.orderable.Nodup := c.present_nodup.filter _

theorem stamp_of_mem_orderable (h : s ∈ c.orderable) : ∃ x, c.stamp s = some x := by
  obtain ⟨g, hg⟩ := isSome_iff_exists.mp (mem_orderable.mp h)
  exact ⟨FloatFormat.value g, by rw [stamp, hg, map_some]⟩

theorem mem_orderable_of_stamp {x : ℚ} (h : c.stamp s = some x) : s ∈ c.orderable := by
  obtain ⟨g, hg, -⟩ := map_eq_some_iff.mp h
  exact mem_orderable.mpr (by rw [hg]; rfl)

theorem newest_eq_some {q : ℚ} : c.newest = some q ↔ (∃ s, c.stamp s = some q) ∧
    ∀ s x, c.stamp s = some x → x ≤ q := by
  rw [newest, max?_eq_some_iff]
  constructor
  · rintro ⟨hq, hm⟩
    obtain ⟨s, -, hs⟩ := mem_filterMap.mp hq
    refine ⟨⟨s, hs⟩, fun t x ht => ?_⟩
    exact hm x (mem_filterMap.mpr ⟨t, mem_orderable_of_stamp ht, ht⟩)
  · rintro ⟨⟨s, hs⟩, hm⟩
    refine ⟨mem_filterMap.mpr ⟨s, mem_orderable_of_stamp hs, hs⟩, fun x hx => ?_⟩
    obtain ⟨t, -, ht⟩ := mem_filterMap.mp hx
    exact hm t x ht

theorem exists_newest (h : c.orderable ≠ []) : ∃ q, c.newest = some q := by
  obtain ⟨s, hs⟩ := exists_mem_of_ne_nil _ h
  obtain ⟨x, hx⟩ := stamp_of_mem_orderable hs
  cases hq : c.newest with
  | some q => exact ⟨q, rfl⟩
  | none =>
    have hn := max?_eq_none_iff.mp hq
    have : x ∈ c.orderable.filterMap c.stamp := mem_filterMap.mpr ⟨s, hs, hx⟩
    rw [hn] at this
    cases this

theorem mem_winners : s ∈ c.winners ↔ s ∈ c.orderable ∧ c.stamp s = c.newest := by
  rw [winners, mem_filter, beq_iff_eq]

theorem winners_ne_nil (h : c.orderable ≠ []) : c.winners ≠ [] := by
  obtain ⟨q, hq⟩ := exists_newest h
  obtain ⟨⟨s, hs⟩, -⟩ := newest_eq_some.mp hq
  have : s ∈ c.winners := mem_winners.mpr ⟨mem_orderable_of_stamp hs, hs.trans hq.symm⟩
  exact ne_nil_of_mem this

/-- Every candidate is a record, and `w`'s generation is later than every other's. -/
structure Newest (c : Capture F) (w : Slot) : Prop where
  readable : c.unreadable = []
  mem : w ∈ c.present
  ordered : ∀ s ∈ c.present, (c.generation s).isSome = true
  later : ∀ s ∈ c.present, s ≠ w → ∃ x y, c.stamp s = some x ∧ c.stamp w = some y ∧ x < y

/-- A success whose generation is not a finite number, no failure or cancellation that can be
read, and a slot that could not be. -/
def Masked (c : Capture F) : Prop :=
  c.present = [.done] ∧ c.generation .done = none ∧ c.unreadable ≠ []

theorem orderable_eq_present (h : ∀ s ∈ c.present, (c.generation s).isSome = true) :
    c.orderable = c.present :=
  filter_eq_self.mpr h

theorem all_ordered (h : c.orderable.length = c.coexisting.length) :
    c.unreadable = [] ∧ ∀ s ∈ c.present, (c.generation s).isSome = true := by
  have hle : c.orderable.length ≤ c.present.length := length_filter_le _ _
  rw [length_coexisting] at h
  refine ⟨eq_nil_of_length_eq_zero (by omega), ?_⟩
  have heq : c.orderable.length = c.present.length := by omega
  exact length_filter_eq_length_iff.mp heq

theorem later_of_winners (hw : c.winners = [w]) (hs : s ∈ c.orderable)
    (hne : s ≠ w) : ∃ x y, c.stamp s = some x ∧ c.stamp w = some y ∧ x < y := by
  have hm : w ∈ c.winners := by rw [hw]; exact mem_singleton_self w
  obtain ⟨hwo, hwn⟩ := mem_winners.mp hm
  obtain ⟨x, hx⟩ := stamp_of_mem_orderable hs
  obtain ⟨y, hy⟩ := stamp_of_mem_orderable hwo
  refine ⟨x, y, hx, hy, lt_of_le_of_ne ?_ ?_⟩
  · exact (newest_eq_some.mp (hwn.symm.trans hy)).2 s x hx
  · rintro rfl
    have : s ∈ c.winners := mem_winners.mpr ⟨hs, by rw [hx, ← hy, hwn]⟩
    rw [hw] at this
    exact hne (mem_singleton.mp this)

theorem tie_ne_done (h : c.orderable ≠ []) (hw : ∀ w, c.winners ≠ [w]) :
    (c.winners.find? fun s => s ≠ .done).or c.winners.head? ≠ some .done := by
  intro hd
  have hn : c.winners.Nodup := c.orderable_nodup.filter _
  cases hf : c.winners.find? fun s => s ≠ .done with
  | some s =>
    have hs := find?_some hf
    rw [hf] at hd
    cases hd
    simp at hs
  | none =>
    have ha : ∀ s ∈ c.winners, s = .done := by simpa using hf
    cases hc : c.winners with
    | nil => exact winners_ne_nil h hc
    | cons a rest =>
      cases rest with
      | nil => exact hw a hc
      | cons b rest =>
        rw [hc] at ha hn
        have hab : a = b := (ha a (by simp)).trans (ha b (by simp)).symm
        exact (nodup_cons.mp hn).1 (by simp [hab])

theorem verdict_done (h : c.verdict.1 = some .done) : c.coexisting = [.done] ∨ c.Newest .done ∨
    c.Masked := by
  unfold verdict at h
  split at h
  next => cases h
  next hne =>
    split at h
    next hon =>
      obtain ⟨a, ha⟩ := length_eq_one_iff.mp hon.1
      rw [ha] at h
      cases h
      exact .inl (by simp [coexisting, ha, hon.2])
    next hon =>
      split at h
      next ht =>
        have hni : c.orderable ≠ [] := by
          intro hn
          rw [hn] at ht
          simp at ht
        split at h
        next w hw =>
          split at h
          next => exact absurd h c.failure_ne_done
          next hal =>
            cases h
            obtain ⟨hr, hor⟩ := all_ordered (by simpa using hal)
            have heq := orderable_eq_present hor
            have hm : Slot.done ∈ c.winners := by rw [hw]; exact mem_singleton_self _
            refine .inr (.inl ⟨hr, heq ▸ (mem_winners.mp hm).1, hor, fun s hs hsd => ?_⟩)
            exact later_of_winners hw (heq ▸ hs) hsd
        next hw => exact absurd h (tie_ne_done hni fun w he => hw w he)
      next ht =>
        split at h
        next only honl =>
          split at h
          next => exact absurd h c.failure_ne_done
          next hl =>
            cases h
            have hd : Slot.done ∈ c.orderable := by rw [honl]; exact mem_singleton_self _
            have hm := mem_present.mpr (readable_of_generation (mem_orderable.mp hd))
            have hpo := length_pos_of_mem hm
            have hl' : c.coexisting.length ≤ 1 := by simpa using hl
            rw [length_coexisting] at hl'
            exact absurd ⟨by omega, eq_nil_of_length_eq_zero (by omega)⟩ hon
        next honl =>
          have hni : c.orderable = [] := by
            cases ho : c.orderable with
            | nil => rfl
            | cons a rest =>
              cases rest with
              | nil => exact absurd ho (honl a)
              | cons b rest =>
                rw [ho] at ht
                simp at ht
          cases hf : c.failure with
          | some s =>
            rw [hf] at h
            exact absurd (hf.trans h) c.failure_ne_done
          | none =>
            rw [hf] at h
            have hp := present_eq_done hf h
            have hge : c.generation .done = none := by
              by_contra hg
              have := mem_orderable.mpr (isSome_iff_ne_none.mpr hg)
              rw [hni] at this
              cases this
            exact .inr (.inr ⟨hp, hge, fun hu => hon ⟨by rw [hp]; rfl, hu⟩⟩)

theorem verdict_masked (h : c.Masked) : c.verdict.1 = some .done := by
  obtain ⟨hp, hg, hu⟩ := h
  have hco : c.coexisting ≠ [] := by simp [coexisting, hp]
  have ho : c.orderable = [] := by simp [orderable, hp, hg]
  have hf : c.failure = none := by
    have hn : ∀ s, s ≠ .done → (c.readable s).isSome = false := by
      intro s hs
      by_contra hr
      have hm := mem_present.mpr (Bool.not_eq_false _ ▸ hr)
      rw [hp] at hm
      exact hs (mem_singleton.mp hm)
    simp [failure, hn]
  simp [verdict, hco, hu, ho, hf, hp]

theorem verdict_newest (h : c.Newest w) : c.verdict = (some w, false) := by
  have ho := orderable_eq_present h.ordered
  have hl : c.orderable.length = c.coexisting.length := by
    rw [length_coexisting, h.readable, ho, length_nil, Nat.add_zero]
  have hco : c.coexisting ≠ [] := by
    intro hni
    have := length_pos_of_mem h.mem
    rw [hni, ho] at hl
    simp at hl
    simp [hl] at this
  unfold verdict
  rw [if_neg hco]
  split
  next hon =>
    obtain ⟨a, ha⟩ := length_eq_one_iff.mp hon.1
    have hw := h.mem
    rw [ha] at hw
    rw [ha, mem_singleton.mp hw]
    rfl
  next hon =>
    have hp := length_pos_of_mem h.mem
    have ht : 2 ≤ c.orderable.length := by
      have : c.present.length ≠ 1 := fun he => hon ⟨he, h.readable⟩
      rw [ho]
      omega
    obtain ⟨y, hy⟩ := stamp_of_mem_orderable (ho ▸ h.mem)
    have hnew : c.newest = some y := by
      refine newest_eq_some.mpr ⟨⟨w, hy⟩, fun s x hx => ?_⟩
      by_cases hs : s = w
      · subst hs
        exact le_of_eq (some.inj (hx.symm.trans hy))
      · obtain ⟨x', y', hx', hy', hlt⟩ := h.later s (ho ▸ mem_orderable_of_stamp hx) hs
        obtain rfl := some.inj (hx.symm.trans hx')
        obtain rfl := some.inj (hy.symm.trans hy')
        exact hlt.le
    have hwi : c.winners = [w] := by
      have hal : ∀ s ∈ c.winners, s = w := by
        intro s hs
        by_contra hne
        obtain ⟨x', y', hx', hy', hlt⟩ := h.later s (ho ▸ (mem_winners.mp hs).1) hne
        have heq := (mem_winners.mp hs).2
        rw [hx', hnew, ← hy, hy'] at heq
        exact hlt.ne (some.inj heq)
      have hm := mem_winners.mpr ⟨ho ▸ h.mem, hy.trans hnew.symm⟩
      have hn : c.winners.Nodup := c.orderable_nodup.filter _
      refine perm_singleton.mp ((perm_ext_iff_of_nodup hn (nodup_singleton w)).mpr fun s => ?_)
      rw [mem_singleton]
      exact ⟨hal s, fun he => he ▸ hm⟩
    rw [if_pos ht, hwi]
    simp [hl, h.readable]

section

variable {c c' : Capture F} (h : c'.candidates.Perm c.candidates)

include h

theorem generation_perm : c'.generation = c.generation := by
  funext s
  rw [generation, generation, readable_perm h]

theorem orderable_perm : c'.orderable = c.orderable := by
  rw [orderable, orderable, present_perm h, generation_perm h]

theorem winners_perm : c'.winners = c.winners := by
  have hs : c'.stamp = c.stamp := by
    funext s
    rw [stamp, stamp, generation_perm h]
  rw [winners, winners, newest, newest, orderable_perm h, hs]

theorem verdict_perm : c'.verdict = c.verdict := by
  have hn : c'.unreadable = [] ↔ c.unreadable = [] := by
    rw [← length_eq_zero_iff, ← length_eq_zero_iff, (unreadable_perm h).length_eq]
  have he : c'.unreadable.isEmpty = c.unreadable.isEmpty := by
    rw [Bool.eq_iff_iff, List.isEmpty_iff, List.isEmpty_iff, hn]
  have hco : c'.coexisting = [] ↔ c.coexisting = [] := by
    rw [← length_eq_zero_iff, ← length_eq_zero_iff, (coexisting_perm h).length_eq]
  simp only [verdict, hco, hn, he, present_perm h, orderable_perm h, winners_perm h, failure_perm h,
    (coexisting_perm h).length_eq]

end

/-- The answer without the order its unreadable slots are listed in. -/
structure SameAnswer (a b : Answer F) : Prop where
  state : a.state = b.state
  path : a.path = b.path
  record : a.record = b.record
  generation : a.generation = b.generation
  history : a.history = b.history
  ambiguous : a.ambiguous = b.ambiguous
  unreadable : a.unreadable.Perm b.unreadable
  coexisting : a.coexisting.Perm b.coexisting

theorem resolveCurrent_perm {c' : Capture F} (h : c'.candidates.Perm c.candidates) :
    SameAnswer (resolveCurrent c') (resolveCurrent c) := by
  have hv := verdict_perm h
  have hr := readable_perm h
  have hg := generation_perm h
  have hh : c'.historyOf = c.historyOf := by
    funext s
    rw [historyOf, historyOf, hr, hg]
  refine ⟨congrArg Prod.fst hv, ?_, ?_, ?_, ?_, congrArg Prod.snd hv, unreadable_perm h,
    coexisting_perm h⟩
  · simp only [resolveCurrent, result, hv, hr]
  · simp only [resolveCurrent, result, hv, hr]
  · simp only [resolveCurrent, result, hv, hg]
  · simp only [resolveCurrent, result, hv, present_perm h, hh]

def Uncontested (c : Capture F) : Prop :=
  (resolveCurrent c).state = some .done → c.coexisting = [.done] ∨ c.Newest .done

/-- A strictly newest record among readable, ordered ones is the answer. -/
def AnswersNewest (c : Capture F) : Prop :=
  ∀ w, c.Newest w → (resolveCurrent c).state = some w ∧
    (resolveCurrent c).path = (c.readable w).map Prod.fst ∧
    (resolveCurrent c).record = (c.readable w).map Prod.snd ∧ (resolveCurrent c).ambiguous = false

def OrderFree (c : Capture F) : Prop :=
  ∀ c' : Capture F, c'.candidates.Perm c.candidates →
    SameAnswer (resolveCurrent c') (resolveCurrent c)

theorem answersNewest (c : Capture F) : c.AnswersNewest := by
  intro w hw
  have hv := verdict_newest hw
  refine ⟨by simp only [resolveCurrent, result, hv], ?_,
    ?_, by simp only [resolveCurrent, result, hv]⟩
  · simp only [resolveCurrent, result, hv, bind_some]
  · simp only [resolveCurrent, result, hv, bind_some]

theorem Masked.not_uncontested (h : c.Masked) : ¬ c.Uncontested := by
  obtain ⟨hp, hg, hu⟩ := h
  intro hun
  rcases hun (verdict_masked ⟨hp, hg, hu⟩) with hs | hn
  · have hl := c.length_coexisting
    have := length_pos_iff.mpr hu
    rw [hs, hp] at hl
    simp only [length_cons, length_nil] at hl
    omega
  · exact hu hn.readable

/-- What one look at the slots answers, for every look: a success only where nothing stands against
it, exactly unless the success itself has no generation, no failure can be read, and some slot is
unreadable. -/
theorem resolveCurrent_exact_iff_not_masked (c : Capture F) :
    (c.Uncontested ∧ c.AnswersNewest ∧ c.OrderFree) ↔ ¬ c.Masked := by
  constructor
  · rintro ⟨hun, -, -⟩ hm
    exact hm.not_uncontested hun
  · intro hm
    refine ⟨fun h => ?_, c.answersNewest, fun c' => resolveCurrent_perm⟩
    rcases verdict_done h with hs | hn | hma
    · exact .inl hs
    · exact .inr hn
    · exact absurd hma hm

end Capture

/-- A success without a generation beside a failure that cannot be read. -/
def unreadFailure : Capture Action.ZeroOne :=
  ⟨[⟨.done, "done/key.json", .present []⟩,
    ⟨.failed, "failed/key.json", .unknown "record-unreadable" none⟩], by decide⟩

theorem unreadFailure_answered_done : (resolveCurrent unreadFailure).state = some .done ∧
    unreadFailure.coexisting = [.done, .failed] ∧ ¬ unreadFailure.Uncontested := by
  have hm : unreadFailure.Masked := ⟨rfl,
    rfl, by simp [unreadFailure, Capture.unreadable, Observation.unreadable]⟩
  exact ⟨Capture.verdict_masked hm, rfl, hm.not_uncontested⟩

end PrismaBuild.Endings
