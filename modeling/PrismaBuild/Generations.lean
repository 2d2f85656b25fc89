import PrismaBuild.Trace

namespace PrismaBuild

open Option

/-! A file that holds one generation of a record at a time. A generation is born in a first state
and only its state advances; a new generation replaces it whole. -/

namespace Generations

variable {R G S : Type}

/-- What a record says: its generation, its state, and what may not change within a generation. -/
structure Versioning (R G S : Type) where
  generation : R → G
  state : R → S
  same : R → R → Prop
  born : S
  step : S → S → Prop
  same_refl : ∀ a, same a a
  same_trans : ∀ {a b c}, same a b → same b c → same a c

structure Slot (R G : Type) where
  current : Option R
  used : List G

variable (V : Versioning R G S)

def Slot.file (f : Slot R G) (r : R) : Slot R G := ⟨some r, V.generation r :: f.used⟩

inductive Move : Slot R G → Slot R G → Prop
  | keep (f : Slot R G) : Move f f
  | birth {f : Slot R G} {r : R} (hnone : f.current = none) (hborn : V.state r = V.born)
      (hfresh : V.generation r ∉ f.used) : Move f (f.file V r)
  | advance {f : Slot R G} {a b : R} (hcurrent : f.current = some a)
    (hgen : V.generation a = V.generation b)
      (hsame : V.same a b) (hstep : V.state a = V.state b ∨ V.step (V.state a) (V.state b)) :
      Move f (f.file V b)
  | rotate {f : Slot R G} {a b : R} (hcurrent : f.current = some a) (hborn : V.state b = V.born)
      (hfresh : V.generation b ∉ f.used) : Move f (f.file V b)

def Slot.Tracked (f : Slot R G) : Prop := ∀ r, f.current = some r → V.generation r ∈ f.used

variable {V} {f f' f'' : Slot R G} {a b c : R}

theorem Move.tracked (h : Move V f f') (hf : f.Tracked V) : f'.Tracked V := by
  have hfi : ∀ r, (f.file V r).Tracked V := by
    intro r r' hr
    cases hr
    exact List.mem_cons_self
  cases h with
  | keep => exact hf
  | birth => exact hfi _
  | advance => exact hfi _
  | rotate => exact hfi _

variable {g : G}

theorem Move.used (h : Move V f f') (hg : g ∈ f.used) : g ∈ f'.used := by
  cases h with
  | keep => exact hg
  | birth => exact .tail _ hg
  | advance => exact .tail _ hg
  | rotate => exact .tail _ hg

def Later (V : Versioning R G S) : Slot R G → Slot R G → Prop := Relation.ReflTransGen (Move V)

theorem Later.tracked (h : Later V f f') (hf : f.Tracked V) : f'.Tracked V := by
  induction h with
  | refl => exact hf
  | tail _ hm ih => exact hm.tracked ih

theorem Later.used (h : Later V f f') (hg : g ∈ f.used) : g ∈ f'.used := by
  induction h with
  | refl => exact hg
  | tail _ hm ih => exact hm.used ih

abbrev Versioning.Path (V : Versioning R G S) : S → S → Prop := Relation.ReflTransGen V.step

theorem Later.cases (h : Later V f f') (ha : f.current = some a) (hb : f'.current = some b) :
    V.generation a = V.generation b ∧ V.same a b ∧ V.Path (V.state a) (V.state b) ∨
    V.generation b ∉ f.used := by
  induction h generalizing b with
  | refl =>
    obtain rfl : a = b := some.inj (ha.symm.trans hb)
    exact .inl ⟨rfl, V.same_refl a, .refl⟩
  | tail hl hm ih =>
    have hold : ∀ g ∈ f.used, g ∈ _ := fun g hg => Later.used hl hg
    cases hm with
    | keep => exact ih hb
    | birth hn hbo hf =>
      cases hb
      exact .inr fun hu => hf (hold _ hu)
    | advance hc hge hsam hs =>
      cases hb
      rcases ih hc with ⟨hac, hsa, hp⟩ | hne
      · refine .inl ⟨hac.trans hge, V.same_trans hsa hsam, ?_⟩
        rcases hs with heq | hs
        · rw [← heq]
          exact hp
        · exact hp.tail hs
      · rw [hge] at hne
        exact .inr hne
    | rotate hc hbo hf =>
      cases hb
      exact .inr fun hu => hf (hold _ hu)

theorem Later.advanced (hf : f.Tracked V) (h : Later V f f') (ha : f.current = some a)
    (hb : f'.current = some b)
    (hg : V.generation a = V.generation b) : V.same a b ∧ V.Path (V.state a) (V.state b) := by
  rcases h.cases ha hb with ⟨-, had⟩ | hn
  · exact had
  · rw [← hg] at hn
    exact absurd (hf a ha) hn

theorem Later.not_again (hf : f.Tracked V) (h : Later V f f') (h' : Later V f' f'')
    (ha : f.current = some a)
    (hb : f'.current = some b) (hc : f''.current = some c) (hab : V.generation a ≠ V.generation b) :
    V.generation a ≠ V.generation c := by
  rcases h'.cases hb hc with ⟨hbc, -⟩ | hn
  · rw [← hbc]
    exact hab
  · intro hac
    rw [← hac] at hn
    exact hn (h.used (hf a ha))

theorem Move.born (h : Move V f f') (hb : f'.current = some b)
    (hne : ∀ a, f.current = some a → V.generation a ≠ V.generation b) : V.state b = V.born := by
  cases h with
  | keep => exact absurd rfl (hne b hb)
  | birth hn hbo hf =>
    cases hb
    exact hbo
  | advance hc hg =>
    cases hb
    exact absurd hg (hne _ hc)
  | rotate hc hbo hf =>
    cases hb
    exact hbo

theorem Move.step (hf : f.Tracked V) (h : Move V f f') (ha : f.current = some a)
    (hb : f'.current = some b)
    (hg : V.generation a = V.generation b) : V.state a = V.state b ∨
      V.step (V.state a) (V.state b) := by
  have hu := hf a ha
  rw [hg] at hu
  cases h with
  | keep =>
    obtain rfl : a = b := some.inj (ha.symm.trans hb)
    exact .inl rfl
  | birth hn hbo hfr =>
    cases hb
    exact absurd hu hfr
  | advance hc _ hsa hs =>
    cases hb
    obtain rfl := some.inj (ha.symm.trans hc)
    exact hs
  | rotate hc hbo hfr =>
    cases hb
    exact absurd hu hfr

section

open Classical in
noncomputable def chances (V : Versioning R G S) (g : G) (x : S) (f : Slot R G) : Nat :=
  if (∃ a, f.current = some a ∧ V.generation a = g ∧ V.Path (V.state a) x) ∨ g ∉ f.used then
    1 else 0

theorem chances_le_one (g : G) (x : S) (f : Slot R G) : chances V g x f ≤ 1 := by
  unfold chances
  split
  · exact Nat.le_refl 1
  · exact Nat.zero_le 1

variable {g : G} {x : S}

theorem chances_eq_one (hc : f.current = some a) (hg : V.generation a = g)
    (hp : V.Path (V.state a) x) : chances V g x f = 1 :=
  if_pos (.inl ⟨a, hc, hg, hp⟩)

theorem chances_eq_zero (hc : f.current = some a)
    (hp : ¬ V.Path (V.state a) x) (hu : g ∈ f.used) : chances V g x f = 0 := by
  refine if_neg ?_
  rintro (⟨a', hc', -, hp'⟩ | hn)
  · obtain rfl : a = a' := some.inj (hc.symm.trans hc')
    exact hp hp'
  · exact hn hu

variable [DecidableEq G] [DecidableEq S]

def crosses (V : Versioning R G S) (g : G) (x y : S) (f f' : Slot R G) : Bool :=
  match f.current, f'.current with
  | some a, some b =>
    V.generation a = g ∧ V.generation b = g ∧ V.state a = x ∧ V.state b = y
  | _, _ => false

variable {y : S}

theorem crosses_file {r : R} (h : crosses V g x y f (f.file V r) = true) :
    ∃ a, f.current = some a ∧ V.generation a = g ∧ V.generation r = g ∧ V.state a = x ∧
    V.state r = y := by
  unfold crosses at h
  split at h
  next a b ha hb =>
    cases hb
    obtain ⟨h1, h2, h3, h4⟩ := of_decide_eq_true h
    exact ⟨a, ha, h1, h2, h3, h4⟩
  next => cases h

theorem Move.chances_le (hf : f.Tracked V) (h : Move V f f') (hxy : x ≠ y) (hba : ¬ V.Path y x) :
    (crosses V g x y f f').toNat + chances V g x f' ≤ chances V g x f := by
  -- filing a record of another generation, or one that is new, gives no crossing
  have hq : ∀ r, crosses V g x y f (f.file V r) = false →
      (V.generation r = g → V.Path (V.state r) x → chances V g x f = 1) →
      (crosses V g x y f (f.file V r)).toNat + chances V g x (f.file V r) ≤
        chances V g x f := by
    intro r hno ho
    have hz : (crosses V g x y f (f.file V r)).toNat = 0 := congrArg Bool.toNat hno
    by_cases hr : (∃ a, (f.file V r).current = some a ∧ V.generation a = g ∧ V.Path (V.state a) x) ∨
        g ∉ (f.file V r).used
    · have hle := chances_le_one (V := V) g x (f.file V r)
      suffices hf1 : chances V g x f = 1 by omega
      rcases hr with ⟨a, ha, hg, hp⟩ | hne
      · cases ha
        exact ho hg hp
      · exact if_pos (.inr fun hu => hne (.tail _ hu))
    · have hn : chances V g x (f.file V r) = 0 := if_neg hr
      omega
  cases h with
  | keep =>
    have hno : crosses V g x y f f = false := by
      unfold crosses
      cases f.current with
      | none => rfl
      | some a =>
        refine decide_eq_false ?_
        rintro ⟨-, -, hx, hy⟩
        exact hxy (hx.symm.trans hy)
    have hz : (crosses V g x y f f).toNat = 0 := congrArg Bool.toNat hno
    omega
  | birth hn hbo hfr =>
    refine hq _ ?_ fun hg _ => if_pos (.inr (hg ▸ hfr))
    by_contra hc
    obtain ⟨a, ha, -⟩ := crosses_file (by simpa using hc)
    cases hn.symm.trans ha
  | @advance a b hcu hg hsa hs =>
    have hp : V.Path (V.state a) (V.state b) := by
      rcases hs with heq | hs
      · rw [heq]
      · exact .single hs
    by_cases hc : crosses V g x y f (f.file V b) = true
    · obtain ⟨a', ha', hga, hgb, hx, hy⟩ := crosses_file hc
      obtain rfl : a = a' := some.inj (hcu.symm.trans ha')
      have hbe : chances V g x f = 1 := chances_eq_one hcu hga (hx ▸ .refl)
      have haf : chances V g x (f.file V b) = 0 := by
        refine chances_eq_zero rfl (hy ▸ hba) ?_
        rw [← hgb]
        exact List.mem_cons_self
      have ho : (crosses V g x y f (f.file V b)).toNat = 1 := congrArg Bool.toNat hc
      omega
    · refine hq b (Bool.eq_false_iff.mpr hc) fun hgb hb => ?_
      exact chances_eq_one hcu (hg.trans hgb) (hp.trans hb)
  | @rotate a b hcu hbo hfr =>
    refine hq b ?_ fun hg _ => if_pos (.inr (hg ▸ hfr))
    by_contra hc
    obtain ⟨a', ha', hga, hgb, -⟩ := crosses_file (by simpa using hc)
    have hu := hf a' ha'
    rw [hga, ← hgb] at hu
    exact hfr hu

end

end Generations

end PrismaBuild
