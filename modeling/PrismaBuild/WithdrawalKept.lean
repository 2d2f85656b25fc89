import PrismaBuild.Withdrawal

namespace PrismaBuild.Withdrawal

open Prog

variable {T D : Generation → Prop} {s t : Store}

/-- What every operation of a cancellation keeps: a decision stands under the address of its own
generation, one of `T`; a marker, in place or captured, has a decision; queued records have a
generation; and the decisions of `D` are there. -/
structure Kept (T D : Generation → Prop) (s : Store) : Prop where
  decided : ∀ g d, s.lookup (.decision g) = some d → d.generation = some g ∧ d.stamp.isSome ∧ T g
  marked : ∀ p d, p = .marker ∨ (∃ n, p = .capturedMarker n) → s.lookup p = some d →
    ∃ g, d.generation = some g ∧ d.stamp.isSome ∧ .decision g ∈ s
  numbered : ∀ p d, p = .ready ∨ p = .claimed ∨ (∃ n, p = .capturedReady n) → s.lookup p = some d →
    d.generation.isSome
  lasting : ∀ g, D g → .decision g ∈ s

def Safe (T : Generation → Prop) (s : Store) : Op → Prop
  | .read _ | .list _ => True
  | .create p d => ∃ g, p = .decision g ∧ d.generation = some g ∧ d.stamp.isSome ∧ T g
  | .replace p d =>
    (p = .marker ∧ ∃ g, d.generation = some g ∧ d.stamp.isSome ∧ .decision g ∈ s) ∨
      (∃ n, p = .superseded n) ∨ p = .ready ∧ d.generation.isSome
  | .rename p q =>
    (∃ n, p = .marker ∧ q = .capturedMarker n) ∨ (∃ n, p = .ready ∧ q = .capturedReady n) ∨
      ∃ n m, p = .capturedReady n ∧ q = .readySource m
  | .link p q =>
    (∃ n, p = .capturedMarker n ∧ q = .marker) ∨ ∃ n, p = .capturedReady n ∧ q = .ready
  | .unlink p => (∃ n, p = .capturedMarker n) ∨ ∃ n, p = .capturedReady n

variable {d : Doc} {p : Path} {g : Generation} (h : Kept T D s)

include h

theorem Kept.insert_plain (hp : isDecision p = false)
    (hm : p = .marker ∨ (∃ n, p = .capturedMarker n) → ∃ g, d.generation = some g ∧ d.stamp.isSome ∧
    .decision g ∈ s)
    (hn : p = .ready ∨ p = .claimed ∨ (∃ n, p = .capturedReady n) → d.generation.isSome) :
      Kept T D (s.insert p d) := by
  have hk : ∀ g, .decision g ∈ s → .decision g ∈ s.insert p d :=
    fun g hg => (AList.mem_insert s).mpr (.inr hg)
  constructor
  · intro g e he
    rw [FileStore.lookup_insert_eq, if_neg (by rintro rfl; cases hp)] at he
    exact h.decided g e he
  · intro q e hq he
    rw [FileStore.lookup_insert_eq] at he
    split at he
    next heq =>
      cases he
      obtain ⟨g, hg, hst, hme⟩ := hm (heq ▸ hq)
      exact ⟨g, hg, hst, hk g hme⟩
    next =>
      obtain ⟨g, hg, hst, hme⟩ := h.marked q e hq he
      exact ⟨g, hg, hst, hk g hme⟩
  · intro q e hq he
    rw [FileStore.lookup_insert_eq] at he
    split at he
    next heq =>
      cases he
      exact hn (heq ▸ hq)
    next => exact h.numbered q e hq he
  · exact fun g hg => hk g (h.lasting g hg)

theorem Kept.insert_decision (hg : d.generation = some g)
    (hst : d.stamp.isSome) (hT : T g) : Kept T D (s.insert (.decision g) d) := by
  have hk : ∀ g', .decision g' ∈ s → .decision g' ∈ s.insert (.decision g) d :=
    fun g' hg' => (AList.mem_insert s).mpr (.inr hg')
  constructor
  · intro g' e he
    rw [FileStore.lookup_insert_eq] at he
    split at he
    next heq =>
      cases heq
      cases he
      exact ⟨hg, hst, hT⟩
    next => exact h.decided g' e he
  · intro q e hq he
    rw [FileStore.lookup_insert_eq, if_neg (by rintro rfl; simp at hq)] at he
    obtain ⟨g', hg', hst', hm⟩ := h.marked q e hq he
    exact ⟨g', hg', hst', hk g' hm⟩
  · intro q e hq he
    rw [FileStore.lookup_insert_eq, if_neg (by rintro rfl; simp at hq)] at he
    exact h.numbered q e hq he
  · exact fun g' hg' => hk g' (h.lasting g' hg')

theorem Kept.erase (hp : isDecision p = false) : Kept T D (s.erase p) := by
  have hs : ∀ q e, (s.erase p).lookup q = some e → s.lookup q = some e := by
    intro q e he
    rw [FileStore.lookup_erase_eq] at he
    split at he
    · cases he
    · exact he
  have hk : ∀ g, .decision g ∈ s → .decision g ∈ s.erase p := by
    intro g hg
    refine AList.mem_erase.mpr ⟨?_, hg⟩
    rintro rfl
    cases hp
  constructor
  · exact fun g e he => h.decided g e (hs _ e he)
  · intro q e hq he
    obtain ⟨g, hg, hst, hm⟩ := h.marked q e hq (hs q e he)
    exact ⟨g, hg, hst, hk g hm⟩
  · exact fun q e hq he => h.numbered q e hq (hs q e he)
  · exact fun g hg => hk g (h.lasting g hg)

theorem Kept.step {o : Op} (ho : Safe T s o) (f : Option Fault) :
    Kept T D (FileStore.step o f s).2 := by
  obtain he | ⟨p, d, rfl, -, he⟩ | ⟨p, d, rfl, he⟩ | ⟨p, q, d, rfl, hp, he⟩ | ⟨p, q, d, rfl, hp, -,
    he⟩ |
    ⟨p, rfl, he⟩ := FileStore.step_cases o f s <;> rw [he]
  · exact h
  · obtain ⟨g, rfl, hg, hst, hT⟩ := ho
    exact h.insert_decision hg hst hT
  · rcases ho with ⟨rfl, hd⟩ | ⟨n, rfl⟩ | ⟨rfl, hd⟩
    · exact h.insert_plain rfl (fun _ => hd) (by simp)
    · exact h.insert_plain rfl (by simp) (by simp)
    · exact h.insert_plain rfl (by simp) (fun _ => hd)
  · rcases ho with ⟨n, rfl, rfl⟩ | ⟨n, rfl, rfl⟩ | ⟨n, m, rfl, rfl⟩
    · obtain ⟨g, hg, hst, hm⟩ := h.marked .marker d (.inl rfl) hp
      exact (h.erase rfl).insert_plain rfl
        (fun _ => ⟨g, hg, hst, AList.mem_erase.mpr ⟨by simp, hm⟩⟩) (by simp)
    · exact (h.erase rfl).insert_plain rfl (by simp) (fun _ => h.numbered .ready d (.inl rfl) hp)
    · exact (h.erase rfl).insert_plain rfl (by simp) (by simp)
  · rcases ho with ⟨n, rfl, rfl⟩ | ⟨n, rfl, rfl⟩
    · exact h.insert_plain rfl (fun _ => h.marked _ d (.inr ⟨n, rfl⟩) hp) (by simp)
    · exact h.insert_plain rfl (by simp) (fun _ => h.numbered _ d (.inr (.inr ⟨n, rfl⟩)) hp)
  · rcases ho with ⟨n, rfl⟩ | ⟨n, rfl⟩ <;> exact h.erase rfl

theorem Kept.extend (hg : .decision g ∈ s) : Kept T (fun g' => g' = g ∨ D g') s := by
  refine ⟨h.decided, h.marked, h.numbered, ?_⟩
  rintro g' (rfl | hg')
  · exact hg
  · exact h.lasting g' hg'

theorem Kept.shrink {D' : Generation → Prop} (hD : ∀ g, D' g → D g) : Kept T D' s :=
  ⟨h.decided, h.marked, h.numbered, fun g hg => h.lasting g (hD g hg)⟩

end PrismaBuild.Withdrawal
