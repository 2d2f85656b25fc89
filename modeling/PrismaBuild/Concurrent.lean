import PrismaBuild.Program

namespace PrismaBuild

open List

/-- What processes share: the effect of one operation of one process, `none` where it has to wait,
and what the system does to the shared state when a process ends. -/
structure World (op : Type) (ans : op → Type) (φ σ : Type) where
  step : Nat → (o : op) → φ → σ → Option (ans o × σ)
  exit : Nat → σ → σ

structure Process (κ op : Type) (ans : op → Type) (α : Type) where
  task : κ
  rest : Prog op ans α
  alive : Bool

structure Pool (κ op : Type) (ans : op → Type) (α σ : Type) where
  shared : σ
  procs : List (Process κ op ans α)

/-- A new process, one operation of a process, or the death of one. -/
inductive Event (κ φ : Type)
  | start (task : κ)
  | run (i : Nat) (f : φ)
  | die (i : Nat)

variable {κ op : Type} {ans : op → Type} {α β φ σ : Type}

namespace Pool

def next (W : World op ans φ σ) (body : Nat → κ → Prog op ans α) (P : Pool κ op ans α σ) :
    Event κ φ → Pool κ op ans α σ
  | .start task => { P with procs := P.procs ++ [⟨task, body P.procs.length task, true⟩] }
  | .run i f =>
    match P.procs[i]? with
    | some ⟨task, .call o k, true⟩ =>
      match W.step i o f P.shared with
      | some (a, s) => ⟨s, P.procs.set i ⟨task, k a, true⟩⟩
      | none => P
    | _ => P
  | .die i =>
    match P.procs[i]? with
    | some ⟨task, p, true⟩ => ⟨W.exit i P.shared, P.procs.set i ⟨task, p, false⟩⟩
    | _ => P

def run (W : World op ans φ σ) (body : Nat → κ → Prog op ans α) (P : Pool κ op ans α σ)
    (events : List (Event κ φ)) : Pool κ op ans α σ :=
  events.foldl (next W body) P

def empty (s : σ) : Pool κ op ans α σ := ⟨s, []⟩

theorem run_append (W : World op ans φ σ) (body : Nat → κ → Prog op ans α) (P : Pool κ op ans α σ)
    (events later : List (Event κ φ)) :
    P.run W body (events ++ later) = (P.run W body events).run W body later :=
  foldl_append

theorem next_cases (W : World op ans φ σ) (body : Nat → κ → Prog op ans α) (P : Pool κ op ans α σ)
    (e : Event κ φ) :
    P.next W body e = P ∨
    (∃ task, e = .start task ∧ P.next W body
    e = ⟨P.shared, P.procs ++ [⟨task, body P.procs.length task, true⟩]⟩) ∨
    (∃ i f task o k a s, e = .run i f ∧ P.procs[i]? = some ⟨task, .call o k, true⟩ ∧
      W.step i o f P.shared = some (a, s) ∧ P.next W body e = ⟨s, P.procs.set i ⟨task, k a, true⟩⟩)
      ∨
    ∃ i task p, e = .die i ∧ P.procs[i]? = some ⟨task, p, true⟩ ∧
      P.next W body e = ⟨W.exit i P.shared, P.procs.set i ⟨task, p, false⟩⟩ := by
  cases e with
  | start task => exact .inr (.inl ⟨task, rfl, rfl⟩)
  | run i f =>
    unfold next
    dsimp only
    split
    next task o k hi =>
      split
      next a s hs => exact .inr (.inr (.inl ⟨i, f, task, o, k, a, s, rfl, hi, hs, rfl⟩))
      next => exact .inl rfl
    next => exact .inl rfl
  | die i =>
    unfold next
    dsimp only
    split
    next task p hi => exact .inr (.inr (.inr ⟨i, task, p, rfl, hi, rfl⟩))
    next => exact .inl rfl

end Pool

/-- What processes may rely on: `I` of every state, and `R i` between two states of which
process `i` did not make the second from the first, where each keeps to its own `G`. -/
structure Protocol (W : World op ans φ σ) (I : σ → Prop) (R G : Nat → σ → σ → Prop) : Prop where
  refl : ∀ i s, R i s s
  trans : ∀ {i s t u}, R i s t → R i t u → R i s u
  others : ∀ {i j s t}, i ≠ j → G i s t → R j s t
  exit : ∀ {i s}, I s → I (W.exit i s) ∧ G i s (W.exit i s)

namespace Prog

/-- Process `i`, with this left to do, keeps to the protocol from here on, and its result
satisfies `Q` for as long as the others keep to it. -/
def Conforms (W : World op ans φ σ) (I : σ → Prop) (R G : Nat → σ → σ → Prop) (i : Nat)
    (Q : α → σ → Prop) :
    Prog op ans α → σ → Prop
  | ret value, s => ∀ t, R i s t → I t → Q value t
  | call o k, s => ∀ t, R i s t → I t → ∀ f a u, W.step i o f t = some (a, u) →
      I u ∧ G i t u ∧ Conforms W I R G i Q (k a) u

variable {W : World op ans φ σ} {I : σ → Prop} {R G : Nat → σ → σ → Prop} {i : Nat}
    {p : Prog op ans α}

theorem Conforms.stable (hP : Protocol W I R G) {Q : α → σ → Prop} {s t : σ}
    (h : Conforms W I R G i Q p s) (hst : R i s t) : Conforms W I R G i Q p t := by
  cases p with
  | ret value => exact fun u hu => h u (hP.trans hst hu)
  | call o k => exact fun u hu => h u (hP.trans hst hu)

variable {s : σ}

theorem Conforms.imp {Q Q' : α → σ → Prop} (h : Conforms W I R G i Q p s)
    (weaken : ∀ value t, I t → Q value t → Q' value t) : Conforms W I R G i Q' p s := by
  induction p generalizing s with
  | ret value => exact fun t hst ht => weaken value t ht (h t hst ht)
  | call o k ih =>
    intro t hst ht f a u hu
    obtain ⟨hI, hG, hk⟩ := h t hst ht f a u hu
    exact ⟨hI, hG, ih a hk⟩

theorem Conforms.bind (hP : Protocol W I R G) {Q : β → σ → Prop} {g : α → Prog op ans β} (hI : I s)
    (h : Conforms W I R G i (fun value t => Conforms W I R G i Q (g value) t) p s) :
    Conforms W I R G i Q (p >>= g) s := by
  induction p generalizing s with
  | ret value => exact h s (hP.refl i s) hI
  | call o k ih =>
    intro t hst ht f a u hu
    obtain ⟨hu', hG, hk⟩ := h t hst ht f a u hu
    exact ⟨hu', hG, ih a hu' hk⟩

theorem Conforms.andThen (hP : Protocol W I R G) {ε : Type} {Q : Except ε β → σ → Prop}
    {p : Prog op ans (Except ε α)} {g : α → Prog op ans (Except ε β)} (hI : I s)
    (h : Conforms W I R G i (fun r t => match r with
      | .ok value => Conforms W I R G i Q (g value) t
      | .error e => Conforms W I R G i Q (ret (.error e)) t) p s) :
    Conforms W I R G i Q (p.andThen g) s := by
  refine Conforms.bind hP hI (h.imp fun r t ht hr => ?_)
  cases r with
  | ok value => exact hr
  | error e => exact hr

end Prog

namespace Pool

variable {W : World op ans φ σ} {I : σ → Prop} {R G : Nat → σ → σ → Prop}
    {body : Nat → κ → Prog op ans α}
  {Post : Nat → κ → α → σ → Prop}

structure Good (W : World op ans φ σ) (I : σ → Prop) (R G : Nat → σ → σ → Prop)
    (Post : Nat → κ → α → σ → Prop)
    (P : Pool κ op ans α σ) : Prop where
  shared : I P.shared
  procs : ∀ (i : Nat) (task : κ) (p : Prog op ans α), P.procs[i]? = some ⟨task, p, true⟩ →
    p.Conforms W I R G i (Post i task) P.shared

variable {P : Pool κ op ans α σ} {p : Prog op ans α} {task : κ} {i : Nat}

theorem Good.track (hP : Protocol W I R G) (body : Nat → κ → Prog op ans α)
    (h : P.Good W I R G Post) {j : Nat} {alive : Bool} {Q : α → σ → Prop}
    (hj : P.procs[j]? = some ⟨task, p, alive⟩)
    (hQ : alive = true → p.Conforms W I R G j Q P.shared) (e : Event κ φ) :
    ∃ p' alive', (P.next W body e).procs[j]? = some ⟨task, p', alive'⟩ ∧
      (alive' = true → p'.Conforms W I R G j Q (P.next W body e).shared) := by
  have hlt := (List.getElem?_eq_some_iff.mp hj).1
  obtain he | ⟨task', rfl, he⟩ | ⟨i, f, task', o, k, a, s, rfl, hi, hs, he⟩ | ⟨i, task', q, rfl, hi,
    he⟩ :=
    next_cases W body P e
  · exact ⟨p, alive, by rw [he, hj], by rwa [he]⟩
  · exact ⟨p, alive, by rw [he, getElem?_append_left hlt, hj], by rwa [he]⟩
  · obtain ⟨hI, hG, hk⟩ := h.procs i task' _ hi P.shared (hP.refl i _) h.shared f a s hs
    rw [he]
    by_cases hij : i = j
    · subst hij
      obtain ⟨rfl, rfl, rfl⟩ : task = task' ∧ p = .call o k ∧ alive = true := by simpa [hj] using hi
      refine ⟨k a, true, by rw [getElem?_set_self hlt], fun _ => ?_⟩
      exact (hQ rfl P.shared (hP.refl i _) h.shared f a s hs).2.2
    · exact ⟨p, alive, by rw [getElem?_set_ne hij,
        hj], fun ha => (hQ ha).stable hP (hP.others hij hG)⟩
  · obtain ⟨hI, hG⟩ := hP.exit h.shared
    rw [he]
    by_cases hij : i = j
    · subst hij
      obtain ⟨rfl, rfl, rfl⟩ : task = task' ∧ p = q ∧ alive = true := by simpa [hj] using hi
      exact ⟨p, false, by rw [getElem?_set_self hlt], nofun⟩
    · exact ⟨p, alive, by rw [getElem?_set_ne hij,
        hj], fun ha => (hQ ha).stable hP (hP.others hij hG)⟩

theorem Good.shared_next (hP : Protocol W I R G) (body : Nat → κ → Prog op ans α)
    (h : P.Good W I R G Post) (e : Event κ φ) :
    I (P.next W body e).shared ∧ ((P.next W body e).shared = P.shared ∨
      ∃ i, G i P.shared (P.next W body e).shared) := by
  obtain he | ⟨task, rfl, he⟩ | ⟨i, f, task, o, k, a, s, rfl, hi, hs, he⟩ | ⟨i, task, q, rfl, hi,
    he⟩ :=
    next_cases W body P e
  · rw [he]
    exact ⟨h.shared, .inl rfl⟩
  · rw [he]
    exact ⟨h.shared, .inl rfl⟩
  · obtain ⟨hI, hG, -⟩ := h.procs i task _ hi P.shared (hP.refl i _) h.shared f a s hs
    rw [he]
    exact ⟨hI, .inr ⟨i, hG⟩⟩
  · obtain ⟨hI, hG⟩ := hP.exit h.shared
    rw [he]
    exact ⟨hI, .inr ⟨i, hG⟩⟩

variable {value : α}

theorem Good.result (hP : Protocol W I R G) (h : P.Good W I R G Post)
    (hi : P.procs[i]? = some ⟨task, .ret value, true⟩) : Post i task value P.shared :=
  h.procs i task _ hi P.shared (hP.refl i _) h.shared

def Starts (may : κ → Prop) : Event κ φ → Prop
  | .start task => may task
  | _ => True

variable {may : κ → Prop}

theorem procs_length_next (W : World op ans φ σ) (body : Nat → κ → Prog op ans α)
    (P : Pool κ op ans α σ) (e : Event κ φ) :
    (P.next W body e).procs.length = P.procs.length ∨
      ∃ task, e = .start task ∧ (P.next W body e).procs = P.procs ++
      [⟨task, body P.procs.length task, true⟩] := by
  obtain he | ⟨task, rfl, he⟩ | ⟨i, f, task, o, k, a, s, rfl, hi, hs, he⟩ | ⟨i, task, q, rfl, hi,
    he⟩ :=
    next_cases W body P e
  · exact .inl (by rw [he])
  · exact .inr ⟨task, rfl, by rw [he]⟩
  · exact .inl (by rw [he, length_set])
  · exact .inl (by rw [he, length_set])

section

variable (hP : Protocol W I R G)
  (hbody : ∀ i task s, may task → I s → (body i task).Conforms W I R G i (Post i task) s)

include hP hbody

variable {P : Pool κ op ans α σ}

theorem Good.next (h : P.Good W I R G Post) {e : Event κ φ} (he : Starts may e) :
    (P.next W body e).Good W I R G Post := by
  refine ⟨(h.shared_next hP body e).1, fun i task p hi => ?_⟩
  by_cases hlt : i < P.procs.length
  · obtain ⟨⟨task', q, alive⟩, hq⟩ : ∃ q, P.procs[i]? = some q := ⟨_, getElem?_eq_getElem hlt⟩
    obtain ⟨p', alive', hi', hQ⟩ := h.track hP body hq (fun ha => h.procs i task' q (ha ▸ hq)) e
    rw [hi] at hi'
    cases hi'
    exact hQ rfl
  · obtain hl | ⟨task', rfl, hp⟩ := procs_length_next W body P e
    · have := (List.getElem?_eq_some_iff.mp hi).1
      omega
    · have hI : I (P.next W body (.start task')).shared := (h.shared_next hP body _).1
      rw [hp, getElem?_append_right (by omega)] at hi
      obtain ⟨hz, hn⟩ := List.getElem?_eq_some_iff.mp hi
      have hi0 : i = P.procs.length := by
        have : i - P.procs.length < 1 := hz
        omega
      subst hi0
      simp only [Nat.sub_self, getElem_cons_zero, Process.mk.injEq] at hn
      obtain ⟨rfl, rfl, -⟩ := hn
      exact hbody _ _ _ he hI

variable {events : List (Event κ φ)}

theorem Good.run (h : P.Good W I R G Post)
    (hev : ∀ e ∈ events, Starts may e) : (P.run W body events).Good W I R G Post := by
  induction events generalizing P with
  | nil => exact h
  | cons e events ih =>
    exact ih (h.next hP hbody (hev e (by simp))) fun e' he' => hev e' (by simp [he'])

theorem Good.run_shared {T : σ → σ → Prop} (hre : ∀ s, T s s)
    (ht : ∀ {s t u}, T s t → T t u → T s u)
    (hG : ∀ i s t, G i s t → T s t) (h : P.Good W I R G Post) (hev : ∀ e ∈ events, Starts may e) :
    T P.shared (P.run W body events).shared := by
  induction events generalizing P with
  | nil => exact hre _
  | cons e events ih =>
    have hr := ih (h.next hP hbody (hev e (by simp))) fun e' he' => hev e' (by simp [he'])
    refine ht ?_ hr
    obtain he | ⟨i, hi⟩ := (h.shared_next hP body e).2
    · rw [he]
      exact hre _
    · exact hG i _ _ hi

end

def Returned (W : World op ans φ σ) (body : Nat → κ → Prog op ans α) (P : Pool κ op ans α σ)
    (events : List (Event κ φ)) (i : Nat) (task : κ) (value : α) : Prop :=
  ∃ before later, events = before ++ later ∧
    (P.run W body before).procs[i]? = some ⟨task, .ret value, true⟩

theorem Good.returned (hP : Protocol W I R G)
    (hbody : ∀ i task s, may task → I s → (body i task).Conforms W I R G i (Post i task) s)
    (hk : ∀ j s t, G j s t → Post i task value s → Post i task value t)
    (h : P.Good W I R G Post) {events : List (Event κ φ)} (hev : ∀ e ∈ events, Starts may e)
    (hr : Returned W body P events i task value) :
      Post i task value (P.run W body events).shared := by
  obtain ⟨before, later, rfl, hi⟩ := hr
  have hg := h.run hP hbody fun e he => hev e (mem_append_left _ he)
  rw [run_append]
  exact hg.run_shared hP hbody (T := fun s t => Post i task value s → Post i task value t)
    (fun _ => id)
    (fun hst htu => htu ∘ hst) hk (fun e he => hev e (mem_append_right _ he)) (hg.result hP hi)

theorem good_empty {s : σ} (hs : I s) : (empty s : Pool κ op ans α σ).Good W I R G Post :=
  ⟨hs, fun i task p hi => by simp [empty] at hi⟩

end Pool

end PrismaBuild
