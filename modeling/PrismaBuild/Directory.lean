import PrismaBuild.Concurrent

namespace PrismaBuild

/-! A directory in which files are only ever linked under names that are free. Every file is kept
with the process that made it. A listing shows some of the files there are, or fails. -/

namespace Directory

abbrev Dir (N C : Type) := N → Option (C × Nat)

/-- What a process asks of the directory, and a question to the rest of the system. -/
inductive Op (N C A : Type)
  | listing
  | read (name : N)
  | linkNew (name : N) (content : C)
  | ask (question : A)

inductive Reading (C : Type)
  | failed
  | absent
  | found (content : C)

abbrev Answer {N C A : Type} : Op N C A → Type
  | .listing => Option (List N)
  | .read _ => Reading C
  | .linkNew _ _ => Option Bool
  | .ask _ => Option Bool

/-- What the system decides about one operation: what a listing shows, whether the operation fails,
whether a link that fails was made before it did, and what a question is answered. -/
structure Env (N : Type) where
  listed : Option (List N)
  (failed late : Bool)
  told : Option Bool

variable {N C A α β : Type} [DecidableEq N]

def Dir.put (s : Dir N C) (name : N) (content : C) (i : Nat) : Dir N C :=
    Function.update s name (some (content, i))

/-- The directory, shared. A failed operation raises; so may one that has made its link. -/
def world (N C A : Type) [DecidableEq N] : World (Op N C A) Answer (Env N) (Dir N C) where
  step i
    | .listing, f, s => some (f.listed.map fun names => names.filter fun name => (s name).isSome, s)
    | .read name, f, s =>
      if f.failed then some (.failed, s)
      else
        match s name with
        | none => some (.absent, s)
        | some (content, _) => some (.found content, s)
    | .linkNew name content, f, s =>
      match s name with
      | some _ => some (if f.failed then none else some false, s)
      | none =>
        if f.failed then some (none, if f.late then s.put name content i else s)
        else some (some true, s.put name content i)
    | .ask _, f, s => some (f.told, s)
  exit _ s := s

def Grows (s t : Dir N C) : Prop := ∀ name file, s name = some file → t name = some file

omit [DecidableEq N] in
theorem Grows.refl (s : Dir N C) : Grows s s := fun _ _ h => h

omit [DecidableEq N] in
theorem Grows.trans {s t u : Dir N C} (h : Grows s t) (h' : Grows t u) : Grows s u :=
  fun name file hs => h' name file (h name file hs)

variable {name : N}

omit [DecidableEq N] in
theorem Grows.isSome {s t : Dir N C} (h : Grows s t) (hs : (s name).isSome) : (t name).isSome := by
  obtain ⟨file, hf⟩ := Option.isSome_iff_exists.mp hs
  rw [h name file hf]
  rfl

theorem grows_put {s : Dir N C} (hn : s name = none) (content : C) (i : Nat) :
    Grows s (s.put name content i) := by
  intro other file ho
  have hne : other ≠ name := by
    intro heq
    rw [heq, hn] at ho
    cases ho
  rw [Dir.put, Function.update_of_ne hne, ho]

variable {I : Dir N C → Prop}

theorem protocol : Protocol (world N C A) I (fun _ => Grows) fun _ => Grows where
  refl _ s := .refl s
  trans := .trans
  others _ h := h
  exit h := ⟨h, .refl _⟩

abbrev Conforming (I : Dir N C → Prop) (i : Nat) (Q : α → Dir N C → Prop)
    (p : Prog (Op N C A) Answer α)
    (s : Dir N C) : Prop :=
  p.Conforms (world N C A) I (fun _ => Grows) (fun _ => Grows) i Q s

variable {i : Nat} {Q : α → Dir N C → Prop} {s : Dir N C}

theorem conforms_pure {value : α} (h : ∀ t, Grows s t → Q value t) :
    Conforming I i Q (pure value : Prog (Op N C A) Answer α) s :=
  fun t hst _ => h t hst

theorem conforms_listing {k : Option (List N) → Prog (Op N C A) Answer α}
    (h : ∀ t listed, Grows s t → I t →
    (∀ names, listed = some names → ∀ name ∈ names, (t name).isSome) →
      Conforming I i Q (k listed) t) : Conforming I i Q (.call .listing k) s := by
  intro t hst ht f a u hs
  cases hs
  refine ⟨ht, .refl t, h t _ hst ht fun names hn name hna => ?_⟩
  obtain ⟨all, -, rfl⟩ := Option.map_eq_some_iff.mp hn
  exact (List.mem_filter.mp hna).2

theorem conforms_read {k : Reading C → Prog (Op N C A) Answer α}
    (h : ∀ t reading, Grows s t → I t →
    (∀ content, reading = .found content → ∃ maker, t name = some (content, maker)) →
      Conforming I i Q (k reading) t) : Conforming I i Q (.call (.read name) k) s := by
  intro t hst ht f a u hs
  simp only [world] at hs
  split at hs
  · cases hs
    exact ⟨ht, .refl t, h t .failed hst ht nofun⟩
  · split at hs
    next =>
      cases hs
      exact ⟨ht, .refl t, h t .absent hst ht nofun⟩
    next content maker hn =>
      cases hs
      refine ⟨ht, .refl t, h t (.found content) hst ht fun other ho => ?_⟩
      cases ho
      exact ⟨maker, hn⟩

variable {k : Option Bool → Prog (Op N C A) Answer α}

theorem conforms_linkNew {content : C}
    (hp : ∀ t, Grows s t → I t → t name = none → I (t.put name content i))
    (h : ∀ t answer, Grows s t → I t → (answer = some true → t name = some (content, i)) →
      Conforming I i Q (k answer) t) : Conforming I i Q (.call (.linkNew name content) k) s := by
  intro t hst ht f a u hs
  simp only [world] at hs
  split at hs
  next file hna =>
    cases hs
    refine ⟨ht, .refl t, h t _ hst ht fun hw => ?_⟩
    cases hf : f.failed with
    | true =>
      rw [hf] at hw
      cases hw
    | false =>
      rw [hf] at hw
      cases hw
  next hn =>
    have hg := grows_put hn content i
    have hi := hp t hst ht hn
    split at hs
    · cases hs
      cases f.late with
      | true => exact ⟨hi, hg, h _ none (hst.trans hg) hi nofun⟩
      | false => exact ⟨ht, .refl t, h t none hst ht nofun⟩
    · cases hs
      exact ⟨hi, hg, h _ (some true) (hst.trans hg) hi fun _ => Function.update_self _ _ _⟩

theorem conforms_ask {question : A}
    (h : ∀ t answer, Grows s t → I t → Conforming I i Q (k answer) t) :
    Conforming I i Q (.call (.ask question) k) s := by
  intro t hst ht f a u hs
  cases hs
  exact ⟨ht, .refl t, h t _ hst ht⟩

theorem conforms_since {p : Prog (Op N C A) Answer α} (h : Conforming I i Q p s) :
    Conforming I i (fun value t => Grows s t ∧ Q value t) p s := by
  induction p generalizing s with
  | ret value => exact fun t hst ht => ⟨hst, h t hst ht⟩
  | call o k ih =>
    intro t hst ht f a u hs
    obtain ⟨hu, hg, hk⟩ := h t hst ht f a u hs
    refine ⟨hu, hg, (ih a hk).imp fun value v _ hv => ?_⟩
    exact ⟨(hst.trans hg).trans hv.1, hv.2⟩

theorem conforms_bind {P : β → Dir N C → Prop} {p : Prog (Op N C A) Answer β}
    {g : β → Prog (Op N C A) Answer α}
    (hs : I s) (hp : Conforming I i P p s)
    (hg : ∀ t value, Grows s t → I t → P value t → Conforming I i Q (g value) t) :
      Conforming I i Q (p >>= g) s :=
  Prog.Conforms.bind protocol hs ((conforms_since hp).imp fun value t ht hv =>
    hg t value hv.1 ht hv.2)

end Directory

end PrismaBuild
