import Mathlib

namespace PrismaBuild

open List

variable {σ ε : Type} {next : σ → ε → σ}

def runTrace (next : σ → ε → σ) (s : σ) (events : List ε) : σ := events.foldl next s

variable {s : σ}

theorem runTrace_keeps (I : σ → Prop) (hs : ∀ s e, I s → I (next s e)) (h : I s) (events : List ε) :
    I (runTrace next s events) := by
  induction events generalizing s with
  | nil => exact h
  | cons e events ih => exact ih (hs s e h)

/-- A condition on every event of a run, in the state that it meets. -/
def Throughout (next : σ → ε → σ) (P : σ → ε → Prop) : σ → List ε → Prop
  | _, [] => True
  | s, e :: events => P s e ∧ Throughout next P (next s e) events

variable {events : List ε} {P Q : σ → ε → Prop}

theorem Throughout.mono (hPQ : ∀ s e, P s e → Q s e) (h : Throughout next P s events) :
    Throughout next Q s events := by
  induction events generalizing s with
  | nil => trivial
  | cons e events ih => exact ⟨hPQ s e h.1, ih h.2⟩

theorem Throughout.of_forall {allowed : ε → Prop} (h : ∀ e ∈ events, allowed e) :
    Throughout next (fun _ e => allowed e) s events := by
  induction events generalizing s with
  | nil => trivial
  | cons e events ih => exact ⟨h e (.head _), ih fun e' he' => h e' (.tail _ he')⟩

theorem runTrace_append (s : σ) (events more : List ε) :
    runTrace next s (events ++ more) = runTrace next (runTrace next s events) more :=
  foldl_append

theorem Throughout.of_append {more : List ε} (h : Throughout next P s (events ++ more)) :
    Throughout next P s events ∧ Throughout next P (runTrace next s events) more := by
  induction events generalizing s with
  | nil => exact ⟨trivial, h⟩
  | cons e events ih =>
    obtain ⟨hr, hm⟩ := ih h.2
    exact ⟨⟨h.1, hr⟩, hm⟩

theorem forall_state_iff_throughout {I G : σ → Prop} (hk : ∀ s e, I s → Q s e → I (next s e))
    (hs : ∀ s e, I s → G s → Q s e → (G (next s e) ↔ P s e)) (h : I s) (hG : G s)
    (hQ : Throughout next Q s events) :
    (∀ before, before <+: events → G (runTrace next s before)) ↔ Throughout next P s events := by
  induction events generalizing s with
  | nil =>
    refine ⟨fun _ => trivial, fun _ before hb => ?_⟩
    rw [prefix_nil.mp hb]
    exact hG
  | cons e events ih =>
    obtain ⟨he, hr⟩ := hQ
    have hn := hs s e h hG he
    constructor
    · intro ha
      have hGe := ha [e] ⟨events, rfl⟩
      refine ⟨hn.mp hGe, (ih (hk s e h he) hGe hr).mp fun before hb => ?_⟩
      exact ha (e :: before) (cons_prefix_cons.mpr ⟨rfl, hb⟩)
    · intro hP before hb
      have hGe := hn.mpr hP.1
      cases before with
      | nil => exact hG
      | cons e' before =>
        obtain ⟨rfl, ht⟩ := cons_prefix_cons.mp hb
        exact (ih (hk s e' h he) hGe hr).mpr hP.2 before ht

def tally (next : σ → ε → σ) (marked : σ → ε → Bool) : σ → List ε → Nat
  | _, [] => 0
  | s, e :: events => (marked s e).toNat + tally next marked (next s e) events

variable {I : σ → Prop} {allowed : ε → Prop}

theorem exists_goal_of_lt_tally (goal : σ → Prop) (marked : σ → ε → Bool) (potential : σ → Nat)
    (hp : ∀ s e, I s → allowed e →
      goal (next s e) ∨ I (next s e) ∧ (marked s e).toNat + potential (next s e) ≤ potential s)
      (h : I s) (ha : ∀ e ∈ events, allowed e) (hlt : potential s < tally next marked s events) :
    ∃ before, before <+: events ∧ goal (runTrace next s before) := by
  induction events generalizing s with
  | nil => exact absurd hlt (Nat.not_lt_zero _)
  | cons e events ih =>
    rcases hp s e h (ha e (.head _)) with hg | ⟨hn, hle⟩
    · exact ⟨[e], ⟨events, rfl⟩, hg⟩
    · have hr : potential (next s e) < tally next marked (next s e) events := by
        unfold tally at hlt
        omega
      obtain ⟨before, hb, hg⟩ := ih hn (fun e' he' => ha e' (.tail _ he')) hr
      exact ⟨e :: before, cons_prefix_cons.mpr ⟨rfl, hb⟩, hg⟩

theorem tally_le (marked : σ → ε → Bool) (potential : σ → Nat)
    (hp : ∀ s e, I s → allowed e → I (next s e) ∧
    (marked s e).toNat + potential (next s e) ≤ potential s) (h : I s)
    (ha : ∀ e ∈ events, allowed e) : tally next marked s events ≤ potential s := by
  by_contra hlt
  obtain ⟨_, _, hf⟩ := exists_goal_of_lt_tally (fun _ => False) marked potential
    (fun s e hs he => .inr (hp s e hs he)) h ha (Nat.not_le.mp hlt)
  exact hf

theorem tally_le_of_throughout (marked : σ → ε → Bool) (potential : σ → Nat)
    (hp : ∀ s e, I s → Q s e → I (next s e) ∧
    (marked s e).toNat + potential (next s e) ≤ potential s) (h : I s)
    (hQ : Throughout next Q s events) : tally next marked s events ≤ potential s := by
  induction events generalizing s with
  | nil => exact Nat.zero_le _
  | cons e events ih =>
    obtain ⟨hn, hle⟩ := hp s e h hQ.1
    have hr := ih hn hQ.2
    unfold tally
    omega

end PrismaBuild
