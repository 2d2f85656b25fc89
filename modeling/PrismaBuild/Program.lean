import Mathlib

namespace PrismaBuild

/-- A program that reaches its store only through single operations `o : op`, each answered
by a value of `ans o`. Between two calls the process may be descheduled or die. -/
inductive Prog (op : Type) (ans : op → Type) (α : Type) : Type
  | ret (value : α) : Prog op ans α
  | call (o : op) (next : ans o → Prog op ans α) : Prog op ans α

namespace Prog

variable {op : Type} {ans : op → Type} {α β σ φ : Type}

def bind : Prog op ans α → (α → Prog op ans β) → Prog op ans β
  | ret value, g => g value
  | call o next, g => call o fun a => (next a).bind g

instance : Monad (Prog op ans) where
  pure := ret
  bind := bind

def perform (o : op) : Prog op ans (ans o) := call o ret

/-- Continue with the value of a fallible program, or end with its error. -/
def andThen {ε : Type} (p : Prog op ans (Except ε α)) (k : α → Prog op ans (Except ε β)) :
    Prog op ans (Except ε β) :=
  p.bind fun
    | .ok value => k value
    | .error e => ret (.error e)

@[simp] theorem pure_eq (value : α) : (pure value : Prog op ans α) = ret value := rfl

@[simp] theorem ret_bind (value : α) (g : α → Prog op ans β) : (ret value >>= g) = g value := rfl

@[simp] theorem call_bind (o : op) (next : ans o → Prog op ans α) (g : α → Prog op ans β) :
    (call o next >>= g) = call o fun a => next a >>= g := rfl

@[simp] theorem perform_bind (o : op) (g : ans o → Prog op ans β) : (perform o >>= g) = call o g :=
    rfl

/-- Running a program against a store. The schedule holds one environment input for each
operation that still happens; a program cut off by an exhausted schedule is returned as the
unfinished rest. -/
def play (step : (o : op) → φ → σ → ans o × σ) :
    List φ → Prog op ans α → σ → Prog op ans α × σ
  | _, ret value, s => (ret value, s)
  | [], call o next, s => (call o next, s)
  | f :: fs, call o next, s => play step fs (next (step o f s).1) (step o f s).2

/-- The run in which every operation meets the environment input `f`. -/
def exec (step : (o : op) → φ → σ → ans o × σ) (f : φ) : Prog op ans α → σ → α × σ
  | ret value, s => (value, s)
  | call o next, s => exec step f (next (step o f s).1) (step o f s).2

/-- `I` holds now and after every later operation, whatever the environment answers, and
`Q` holds of the result. -/
def Along (step : (o : op) → φ → σ → ans o × σ) (I : σ → Prop) (Q : α → σ → Prop) :
    Prog op ans α → σ → Prop
  | ret value, s => I s ∧ Q value s
  | call o next, s => I s ∧ ∀ f, Along step I Q (next (step o f s).1) (step o f s).2

variable {step : (o : op) → φ → σ → ans o × σ} {I : σ → Prop} {Q R : α → σ → Prop}
    {p : Prog op ans α} {s : σ}

theorem Along.now (h : Along step I Q p s) : I s := by
  cases p with
  | ret value => exact h.1
  | call o next => exact h.1

theorem Along.imp (h : Along step I Q p s) (weaken : ∀ value s, I s → Q value s → R value s) :
    Along step I R p s := by
  induction p generalizing s with
  | ret value => exact ⟨h.1, weaken value s h.1 h.2⟩
  | call o next ih => exact ⟨h.1, fun f => ih _ (h.2 f)⟩

variable {I' : σ → Prop} {ε : Type}

theorem Along.weaken (h : Along step I Q p s) (weaken : ∀ s, I s → I' s) : Along step I' Q p s := by
  induction p generalizing s with
  | ret value => exact ⟨weaken s h.1, h.2⟩
  | call o next ih => exact ⟨weaken s h.1, fun f => ih _ (h.2 f)⟩

theorem Along.and (h : Along step I Q p s) (h' : Along step I' R p s) :
    Along step (fun s => I s ∧ I' s) (fun value s => Q value s ∧ R value s) p s := by
  induction p generalizing s with
  | ret value => exact ⟨⟨h.1, h'.1⟩, h.2, h'.2⟩
  | call o next ih => exact ⟨⟨h.1, h'.1⟩, fun f => ih _ (h.2 f) (h'.2 f)⟩

variable {o : op}

theorem Along.perform {g : ans o → Prog op ans α} (hs : I s)
    (h : ∀ f, Along step I Q (g (step o f s).1) (step o f s).2) :
    Along step I Q (Prog.perform o >>= g) s :=
  ⟨hs, h⟩

variable {g : α → Prog op ans β}

theorem Along.bind {Q' : β → σ → Prop}
    (h : Along step I (fun value s => Along step I Q' (g value) s) p s) :
    Along step I Q' (p >>= g) s := by
  induction p generalizing s with
  | ret value => exact h.2
  | call o next ih => exact ⟨h.1, fun f => ih _ (h.2 f)⟩

theorem Along.andThen {p : Prog op ans (Except ε α)} {k : α → Prog op ans (Except ε β)}
    {Q' : Except ε β → σ → Prop}
    (h : Along step I (fun r s => match r with
      | .ok value => Along step I Q' (k value) s
      | .error e => Q' (.error e) s) p s) : Along step I Q' (p.andThen k) s := by
  refine Along.bind (h.imp ?_)
  intro r s hI hr
  cases r with
  | ok value => exact hr
  | error e => exact ⟨hI, hr⟩

theorem Along.play (h : Along step I Q p s) (fs : List φ) : I (play step fs p s).2 := by
  induction fs generalizing p s with
  | nil => cases p <;> exact h.now
  | cons f fs ih =>
    cases p with
    | ret value => exact h.1
    | call o next => exact ih (h.2 f)

theorem Along.result {s' : σ} {value : α} (h : Along step I Q p s)
    {fs : List φ} (hp : Prog.play step fs p s = (ret value, s')) : Q value s' := by
  induction fs generalizing p s with
  | nil =>
    cases p with
    | ret other => cases hp; exact h.2
    | call o next => cases hp
  | cons f fs ih =>
    cases p with
    | ret other => cases hp; exact h.2
    | call o next => exact ih (h.2 f) hp

theorem Along.exec (h : Along step I Q p s) (f : φ) :
    Q (exec step f p s).1 (exec step f p s).2 := by
  induction p generalizing s with
  | ret value => exact h.2
  | call o next ih => exact ih _ (h.2 f)

/-- Every operation the program can issue satisfies `P`. -/
def Issues (P : op → Prop) : Prog op ans α → Prop
  | ret _ => True
  | call o next => P o ∧ ∀ a, Issues P (next a)

variable {P : op → Prop}

theorem Issues.bind (hp : Issues P p) (hg : ∀ value, Issues P (g value)) : Issues P (p >>= g) := by
  induction p with
  | ret value => exact hg value
  | call o next ih => exact ⟨hp.1, fun a => ih a (hp.2 a)⟩

theorem Issues.andThen {p : Prog op ans (Except ε α)}
    {k : α → Prog op ans (Except ε β)} (hp : Issues P p) (hk : ∀ value, Issues P (k value)) :
    Issues P (p.andThen k) := by
  refine hp.bind fun r => ?_
  cases r with
  | ok value => exact hk value
  | error e => trivial

theorem Issues.perform (ho : P o) : Issues P (perform o : Prog op ans (ans o)) :=
  ⟨ho, fun _ => trivial⟩

theorem Issues.mono {P' : op → Prop} (hP : ∀ o, P o → P' o) (hp : Issues P p) : Issues P' p := by
  induction p with
  | ret value => trivial
  | call o next ih => exact ⟨hP o hp.1, fun a => ih a (hp.2 a)⟩

theorem Issues.along (keep : ∀ o f s, P o → I s → I (step o f s).2) (hp : Issues P p) (hs : I s) :
    Along step I (fun _ _ => True) p s := by
  induction p generalizing s with
  | ret value => exact ⟨hs, trivial⟩
  | call o next ih => exact ⟨hs, fun f => ih _ (hp.2 _) (keep o f s hp.1 hs)⟩

theorem Along.replay {φ' : Type} {step' : (o : op) → φ' → σ → ans o × σ}
    (hs : ∀ o f s, P o → ∃ f', step' o f s = step o f' s) (hp : Issues P p)
    (h : Along step I Q p s) : Along step' I Q p s := by
  induction p generalizing s with
  | ret value => exact h
  | call o next ih =>
    refine ⟨h.1, fun f => ?_⟩
    obtain ⟨f', hf⟩ := hs o f s hp.1
    rw [hf]
    exact ih _ (hp.2 _) (h.2 f')

theorem Along.unchanged (h : Along step (· = s) Q p s) (hs : I s) :
    Along step I (fun value t => t = s ∧ Q value t) p s := by
  refine (h.imp fun value t ht hQ => ⟨ht, hQ⟩).weaken ?_
  rintro t rfl
  exact hs

section

variable {op' : Type} {ans' : op' → Type} {φ' σ' ρ : Type}

def embed (f : op → op') (answer : ∀ o, ans' (f o) → ans o) : Prog op ans α → Prog op' ans' α
  | ret value => ret value
  | call o next => call (f o) fun a => (next (answer o a)).embed f answer

theorem Along.embed {f : op → op'} {answer : ∀ o, ans' (f o) → ans o}
    {step' : (o : op') → φ' → σ' → ans' o × σ'} (part : σ' → σ) (rest : σ' → ρ) (input : φ' → φ)
    (hs : ∀ o e t, (answer o (step' (f o) e t).1, part (step' (f o) e t).2) = step o (input e)
      (part t) ∧
      rest (step' (f o) e t).2 = rest t) {t : σ'} (h : Along step I Q p (part t)) :
    Along step' (fun u => I (part u) ∧ rest u = rest t) (fun value u => Q value (part u) ∧
      rest u = rest t) (p.embed f answer) t := by
  induction p generalizing t with
  | ret value => exact ⟨⟨h.1, rfl⟩, h.2, rfl⟩
  | call o next ih =>
    refine ⟨⟨h.1, rfl⟩, fun e => ?_⟩
    obtain ⟨heq, hr⟩ := hs o e t
    obtain ⟨ha, hp⟩ := Prod.ext_iff.mp heq
    have hn : Along step I Q (next (answer o (step' (f o) e t).1)) (part (step' (f o) e t).2) := by
      rw [show answer o (step' (f o) e t).1 = _ from ha, show part (step' (f o) e t).2 = _ from hp]
      exact h.2 (input e)
    have hl := ih _ hn
    rw [hr] at hl
    exact hl

end

theorem exec_bind (f : φ) (p : Prog op ans α) (g : α → Prog op ans β) (s : σ) :
    exec step f (p >>= g) s = exec step f (g (exec step f p s).1) (exec step f p s).2 := by
  induction p generalizing s with
  | ret value => rfl
  | call o next ih => exact ih _ _

theorem exec_andThen (f : φ) (p : Prog op ans (Except ε α)) (k : α → Prog op ans (Except ε β))
    (s : σ) :
    exec step f (p.andThen k) s = match (exec step f p s).1 with
      | .ok value => exec step f (k value) (exec step f p s).2
      | .error e => (.error e, (exec step f p s).2) := by
  refine (exec_bind f p _ s).trans ?_
  cases (exec step f p s).1 <;> rfl

end Prog

end PrismaBuild
