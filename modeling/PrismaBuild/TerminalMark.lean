import PrismaBuild.NameOrder

namespace PrismaBuild.Gang

open List Option

namespace Terminal

structure Mark (T : Type) where
  signature : Name
  firstSeenUnix : T
  deriving DecidableEq

/-- The member's mark, and whether its group's directory is there. -/
structure MarkState (T : Type) where
  mark : Option (Mark T)
  listed : Bool

/-- How a change on disk ends: it may land and raise all the same. -/
inductive Change
  | made
  | late
  | lost
  deriving DecidableEq

/-- What a `note_terminal` meets: the directory opens or not, the mark reads or not, and its write.
-/
structure NoteIo where
  opens : Bool := true
  reads : Bool := true
  write : Change := .made

structure ClearIo where
  lists : Bool := true
  unlink : Change := .made
  reads : Bool := true

inductive Call (T : Type)
  | note (signature : Name) (now : T) (io : NoteIo)
  | clear (io : ClearIo)

inductive Result
  | returned (value : Bool)
  | raised
  deriving DecidableEq

section

variable {T : Type} [Sub T] [Zero T] [LE T] [DecidableLE T]

def Mark.agrees (signature : Name) (now : T) (mark : Mark T) : Bool :=
  signature ≠ [] ∧ mark.signature = signature ∧ 0 ≤ now - mark.firstSeenUnix

def noteTerminal (confirmS : T) (s : MarkState T) (signature : Name) (now : T) (io : NoteIo) :
    MarkState T × Result :=
  if !io.opens then (s, .raised)
  else
    match (if io.reads then s.mark else none).filter (Mark.agrees signature now) with
    | some mark =>
      ({ s with listed := true }, .returned (decide (confirmS ≤ now - mark.firstSeenUnix)))
    | none =>
      match io.write with
      | .made => (⟨some ⟨signature, now⟩, true⟩, .returned false)
      | .late => (⟨some ⟨signature, now⟩, true⟩, .raised)
      | .lost => ({ s with listed := true }, .raised)

def clearTerminal (s : MarkState T) (io : ClearIo) : MarkState T × Result :=
  if !io.lists then (s, .returned false)
  else if !s.listed then (s, .returned true)
  else
    match io.unlink with
    | .lost => (s, .returned false)
    | .late => ({ s with mark := none }, .returned false)
    | .made => ({ s with mark := none }, .returned io.reads)

def call (confirmS : T) (s : MarkState T) : Call T → MarkState T × Result
  | .note signature now io => noteTerminal confirmS s signature now io
  | .clear io => clearTerminal s io

def play (confirmS : T) : MarkState T → List (Call T) → MarkState T × List (Call T × Result)
  | s, [] => (s, [])
  | s, c :: calls =>
    let (s, result) := call confirmS s c
    let (s, rest) := play confirmS s calls
    (s, (c, result) :: rest)

end

/-- A call that leaves the window of the signature open: it has the same signature, it raised before
it replaced the mark, or it is a clear that did not report the mark gone. -/
def Keeps {T : Type} (signature : Name) : Call T × Result → Prop
  | (.note other _ io, result) =>
    other = signature ∨ result = .raised ∧ (io.opens = false ∨ io.write = .lost)
  | (.clear _, result) => result ≠ .returned true

/-- A `note_terminal` with this signature at this time, and nothing since then that ends its window.
-/
def Standing {T : Type} (signature : Name) (firstSeen : T) (trace : List (Call T × Result)) :
    Prop :=
  ∃ before io result after, trace = before ++ (.note signature firstSeen io, result) :: after ∧
    ∀ x ∈ after, Keeps signature x

section

variable {T : Type} {signature : Name} {firstSeen : T} {trace : List (Call T × Result)}

theorem Standing.concat (h : Standing signature firstSeen trace) {x : Call T × Result}
    (hx : Keeps signature x) :
    Standing signature firstSeen (trace ++ [x]) := by
  obtain ⟨before, io, result, after, rfl, ha⟩ := h
  refine ⟨before, io, result, after ++ [x], ?_, ?_⟩
  · rw [append_assoc, cons_append]
  · exact forall_mem_append.mpr ⟨ha, forall_mem_singleton.mpr hx⟩

theorem standing_concat_note (io : NoteIo) (result : Result) :
    Standing signature firstSeen (trace ++ [(.note signature firstSeen io, result)]) :=
  ⟨trace, io, result, [], rfl, forall_mem_nil _⟩

end

structure Marked {T : Type} (s : MarkState T) (trace : List (Call T × Result)) : Prop where
  standing : ∀ mark, s.mark = some mark → Standing mark.signature mark.firstSeenUnix trace
  listed : ∀ mark, s.mark = some mark → s.listed = true

variable {T : Type}

theorem keeps_clear_false {signature : Name} (io : ClearIo) :
    Keeps (T := T) signature (.clear io, .returned false) := by
  intro heq
  cases heq

theorem Marked.clear {s : MarkState T} {trace : List (Call T × Result)} (h : Marked s trace)
    (io : ClearIo) :
    Marked (clearTerminal s io).1 (trace ++ [(.clear io, (clearTerminal s io).2)]) := by
  unfold clearTerminal
  split
  · exact ⟨fun mark hm => (h.standing mark hm).concat (keeps_clear_false io), h.listed⟩
  split
  next hl =>
    refine ⟨fun mark hm => ?_, h.listed⟩
    rw [h.listed mark hm] at hl
    cases hl
  split
  · exact ⟨fun mark hm => (h.standing mark hm).concat (keeps_clear_false io), h.listed⟩
  · exact ⟨nofun, nofun⟩
  · exact ⟨nofun, nofun⟩

section

variable {T : Type} [Sub T] [Zero T] [LE T] [DecidableLE T] {confirmS : T} {s : MarkState T}
    {trace : List (Call T × Result)}

theorem Marked.note (h : Marked s trace) (signature : Name) (now : T) (io : NoteIo) :
    Marked (noteTerminal confirmS s signature now io).1
      (trace ++ [(.note signature now io, (noteTerminal confirmS s signature now io).2)]) := by
  unfold noteTerminal
  split
  next ho =>
    have ho : io.opens = false := by simpa using ho
    exact ⟨fun mark hm => (h.standing mark hm).concat (.inr ⟨rfl, .inl ho⟩), h.listed⟩
  split
  next mark ha =>
    -- the mark that was read is the one on file, and it has the same signature
    obtain ⟨hr, ha⟩ := filter_eq_some_iff.mp ha
    have hs := (of_decide_eq_true ha).2.1
    have hm : s.mark = some mark := by
      split at hr
      · exact hr
      · cases hr
    refine ⟨fun other hot => ?_, fun _ _ => rfl⟩
    obtain rfl : mark = other := some.inj (hm.symm.trans hot)
    exact (h.standing mark hm).concat (.inl hs.symm)
  next =>
    split
    next =>
      refine ⟨fun mark hm => ?_, fun _ _ => rfl⟩
      cases hm
      exact standing_concat_note io _
    next =>
      refine ⟨fun mark hm => ?_, fun _ _ => rfl⟩
      cases hm
      exact standing_concat_note io _
    next hl =>
      exact ⟨fun mark hm => (h.standing mark hm).concat (.inr ⟨rfl, .inr hl⟩), fun _ _ => rfl⟩

theorem Marked.play (h : Marked s trace) (calls : List (Call T)) :
    Marked (play confirmS s calls).1 (trace ++ (play confirmS s calls).2) := by
  induction calls generalizing s trace with
  | nil =>
    rw [Terminal.play, append_nil]
    exact h
  | cons c calls ih =>
    have hs : Marked (call confirmS s c).1 (trace ++ [(c, (call confirmS s c).2)]) := by
      cases c with
      | note signature now io => exact h.note signature now io
      | clear io => exact h.clear io
    have hr := ih hs
    rw [append_assoc] at hr
    exact hr

end

/-- A call that confirms has a signature, and follows on a call with the same signature, at least
the window ago, since when every call had that signature or raised before it replaced the mark, and
no clear reported the mark gone. -/
theorem noteTerminal_confirms {T : Type} [Sub T] [Zero T] [LE T] [DecidableLE T] (confirmS : T)
    (listed : Bool)
    (calls : List (Call T)) (signature : Name) (now : T) (io : NoteIo)
    (h : (noteTerminal confirmS (play confirmS ⟨none, listed⟩ calls).1 signature now io).2 =
      .returned true) :
    signature ≠ [] ∧ ∃ firstSeen, confirmS ≤ now - firstSeen ∧
      Standing signature firstSeen (play confirmS ⟨none, listed⟩ calls).2 := by
  have hm : Marked (play confirmS ⟨none, listed⟩ calls).1 (play confirmS ⟨none, listed⟩ calls).2 :=
    Marked.play (⟨nofun, nofun⟩ : Marked ⟨none, listed⟩ []) calls
  unfold noteTerminal at h
  split at h
  · cases h
  split at h
  next mark ha =>
    obtain ⟨hr, ha⟩ := filter_eq_some_iff.mp ha
    obtain ⟨hne, hs, _⟩ := of_decide_eq_true ha
    have hma : (play confirmS ⟨none, listed⟩ calls).1.mark = some mark := by
      split at hr
      · exact hr
      · cases hr
    have hold : confirmS ≤ now - mark.firstSeenUnix := by simpa using h
    exact ⟨hne, mark.firstSeenUnix, hold, hs ▸ hm.standing mark hma⟩
  next =>
    split at h <;> cases h

theorem noteTerminal_confirms_twice : "ended" ≠ "" ∧ ∃ firstSeen : Int, 120 ≤ 121 - firstSeen ∧
      Standing "ended" firstSeen (play 120 ⟨none, true⟩ [.note "ended" 0 {}]).2 :=
  ⟨by decide, (noteTerminal_confirms 120 true [.note "ended" 0 {}] "ended" 121 {} (by decide)).2⟩

/-- A reset that raises before it replaces the mark leaves the window open. -/
theorem noteTerminal_over_raise :
    ((play 120 ⟨none, true⟩ [.note "ended" (0 : Int) {}, .note "" 60 { write := .lost },
    .note "ended" 121 {}]).2.map Prod.snd) =
      [.returned false, .raised, .returned true] := by
  decide

end Terminal

end PrismaBuild.Gang
