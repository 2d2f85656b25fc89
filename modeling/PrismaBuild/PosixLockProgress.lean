import PrismaBuild.PosixLockSafe

namespace PrismaBuild.PosixLock

open Finset

variable {P : Type} {d d' : Disk P} {p q : P} {pc : Pc} {fd i : Ino} {wrote : Bool}

def Pc.looping : Pc → Bool
  | .opening _ | .locking .. | .checking .. | .reading .. | .finishing .. | .naming .. | .unlinking
    ..
  | .letting .. | .closing .. => true
  | _ => false

def Pc.yielded : Pc → Bool
  | .inside _ | .refused _ => true
  | _ => false

def Pc.reopening : Pc → Bool
  | .closing .. => true
  | _ => false

def Pc.retiring : Pc → Bool
  | .retireOpening | .retireStat _ | .retireLocking _ | .retireChecking _ | .retireReading
    .. | .retireNaming ..
  | .retireWriting _ => true
  | _ => false

def Disk.stale (d : Disk P) : Nat :=
  match d.name with
  | some fd => if d.content fd = tombstone then 1 else 0
  | none => 0

def Disk.owed (d : Disk P) (fd : Ino) : Nat :=
  if d.content fd = tombstone then 1 + (if d.name = some fd then 0 else d.stale) else 0

def Pc.owed (d : Disk P) : Pc → Nat
  | .opening _ => d.stale
  | .locking _ fd | .checking _ fd | .reading _ fd | .finishing _ fd | .naming _ fd | .unlinking _
    fd
  | .letting _ fd | .closing _ fd => d.owed fd
  | _ => 0

def Pc.rank : Pc → Nat
  | .opening _ => 8
  | .locking .. => 7
  | .checking .. => 6
  | .reading .. => 5
  | .finishing .. => 4
  | .naming .. => 3
  | .unlinking .. => 2
  | .letting .. => 1
  | _ => 0

theorem Disk.stale_le_one : d.stale ≤ 1 := by
  unfold Disk.stale
  split
  · split <;> omega
  · omega

theorem Pc.owed_le_two : pc.owed d ≤ 2 := by
  have hs := d.stale_le_one
  have ho : ∀ fd, d.owed fd ≤ 2 := by
    intro fd
    unfold Disk.owed
    split
    · split <;> omega
    · omega
  cases pc with
  | opening b => exact Nat.le_succ_of_le hs
  | _ => first | exact ho _ | exact Nat.zero_le _

theorem Disk.stale_none (h : d.name = none) : d.stale = 0 := by
  simp [Disk.stale, h]

theorem Disk.stale_some (h : d.name = some fd) : d.stale = d.owed fd := by
  simp [Disk.stale, Disk.owed, h]

theorem Disk.stale_congr (hn : d'.name = d.name) (hc : ∀ i, d'.content i = d.content i) :
    d'.stale = d.stale := by
  simp only [Disk.stale, hn, hc]

theorem Disk.owed_congr (hn : d'.name = d.name) (hc : ∀ i, d'.content i = d.content i) :
    d'.owed fd = d.owed fd := by
  simp only [Disk.owed, hn, hc, Disk.stale_congr hn hc]

theorem tombstone_ne_nil : tombstone ≠ [] := by decide +kernel

theorem Disk.owed_create : d.create.owed d.next = 0 := by
  have hc : d.create.content d.next ≠ tombstone := by simp [Ne.symm tombstone_ne_nil]
  exact if_neg hc

theorem Disk.stale_create : d.create.stale = 0 := (Disk.stale_some rfl).trans Disk.owed_create

theorem Pc.owed_of_outside (h : pc.looping = false) : pc.owed d = 0 := by
  cases pc <;> first | rfl | cases h

section

variable (d : Disk P) (fd i : Ino) (p : P)

@[simp] theorem Disk.stale_setLock : (d.setLock i p).stale = d.stale :=
  Disk.stale_congr rfl fun _ => d.content_setLock i _ p

@[simp] theorem Disk.owed_setLock : (d.setLock i p).owed fd = d.owed fd :=
  Disk.owed_congr rfl fun _ => d.content_setLock i _ p

variable [DecidableEq P]

@[simp] theorem Disk.stale_unlock : (d.unlock i p).stale = d.stale :=
  Disk.stale_congr rfl fun _ => d.content_unlock i _ p

@[simp] theorem Disk.owed_unlock : (d.unlock i p).owed fd = d.owed fd :=
  Disk.owed_congr rfl fun _ => d.content_unlock i _ p

end

variable [DecidableEq P]

theorem Effect.stale_le (h : Effect p d wrote d') : d'.stale ≤ d.stale + wrote.toNat := by
  cases h with
  | none => exact Nat.le_refl _
  | create absent => simp [Disk.stale_create]
  | unlink fd named mine dead => exact Nat.zero_le _
  | write fd text named mine => exact Nat.le_trans Disk.stale_le_one (Nat.le_add_left _ _)
  | lock fd made free => simp
  | unlock fd => simp
  | release => exact Nat.le_refl _

theorem Effect.owed_le (h : Effect p d wrote d') (hd : DiskOk d) (hm : fd < d.next) :
    d'.owed fd ≤ d.owed fd + wrote.toNat := by
  cases h with
  | none => exact Nat.le_refl _
  | create absent =>
    have hne := Nat.ne_of_lt hm
    simp [Disk.owed, hne, absent, Disk.stale_create, Disk.stale_none]
  | unlink i named mine dead =>
    have hs : d.unlink.stale = 0 := rfl
    simp only [Disk.owed, Disk.content_unlink, hs, ite_self]
    split <;> omega
  | write i text named mine =>
    by_cases hfd : fd = i
    · simp only [Disk.owed, Disk.write, hfd, named, if_true]
      split <;> simp
    · -- the inode is not the one the name is of, so it was retired before
      have hn : d.name ≠ some fd := fun h => hfd (Option.some.inj (h.symm.trans named))
      have hn' : (d.write i text).name ≠ some fd := hn
      have ht := hd.retired fd hm hn
      have hs := (Effect.write i text named mine).stale_le
      simp only [Disk.owed, Disk.content_write, hfd, ht, hn, hn', if_true, if_false]
      omega
  | lock i made free => simp
  | unlock i => simp
  | release => exact Nat.le_refl _

theorem Pc.owed_le (h : Effect q d wrote d') (hd : DiskOk d) (hpc : PcOk d p pc) :
    pc.owed d' ≤ pc.owed d + wrote.toNat := by
  cases pc with
  | opening b => exact h.stale_le
  | locking b fd => exact h.owed_le hd hpc.knows
  | closing b fd => exact h.owed_le hd hpc.knows.1
  | _ => first | exact h.owed_le hd (hpc.made hd rfl) | exact Nat.zero_le _

theorem Pc.step_outside (h : pc.looping = false) : (pc.step p d).2.looping = false := by
  cases pc with
  | retireOpening =>
    dsimp only [Pc.step]
    split <;> rfl
  | retireStat fd =>
    dsimp only [Pc.step]
    split <;> rfl
  | retireLocking fd =>
    dsimp only [Pc.step]
    split <;> rfl
  | retireChecking fd =>
    dsimp only [Pc.step]
    repeat' split
    all_goals rfl
  | retireReading fd linked =>
    dsimp only [Pc.step]
    split <;> rfl
  | retireNaming fd residue =>
    dsimp only [Pc.step]
    repeat' split
    all_goals rfl
  | _ => first | rfl | cases h

theorem Pc.step_owed (hd : DiskOk d) (hpc : PcOk d p pc) :
    pc.reopening.toNat + (pc.step p d).2.owed (pc.step p d).1 ≤ pc.owed d := by
  have hk := hpc.knows
  have ho : pc.looping = false → (pc.step p d).2.owed (pc.step p d).1 = 0 :=
    fun h => Pc.owed_of_outside (Pc.step_outside h)
  cases pc with
  | opening b =>
    dsimp only [Pc.step]
    split
    next fd hn => simp [Pc.owed, Pc.reopening, Disk.stale_some hn]
    next hn =>
      simp [Pc.owed, Pc.reopening, Disk.owed_create]
  | locking b fd =>
    dsimp only [Pc.step]
    split
    · simp [Pc.owed, Pc.reopening]
    · cases b <;> simp [Pc.owed, Pc.reopening]
  | checking b fd =>
    dsimp only [Pc.step]
    split
    · simp [Pc.owed, Pc.reopening]
    · split <;> simp [Pc.owed, Pc.reopening]
  | reading b fd =>
    dsimp only [Pc.step]
    split <;> simp [Pc.owed, Pc.reopening]
  | finishing b fd =>
    dsimp only [Pc.step]
    split <;> simp [Pc.owed, Pc.reopening]
  | naming b fd =>
    dsimp only [Pc.step]
    split <;> simp [Pc.owed, Pc.reopening]
  | unlinking b fd =>
    have hle := (Effect.unlink fd hk.1 ((hpc.own fd).mpr rfl) hk.2).owed_le hd (hpc.made hd rfl)
    simpa [Pc.owed, Pc.reopening, Pc.step] using hle
  | letting b fd => simp [Pc.owed, Pc.reopening, Pc.step]
  | closing b fd =>
    have ht := hd.retired fd hk.1 hk.2
    simp [Pc.owed, Pc.reopening, Pc.step, Disk.owed, ht, hk.2]
  | _ => exact Nat.le_of_eq ((Nat.zero_add _).trans (ho rfl))

theorem Pc.step_rank (h : pc.looping = true) : (pc.step p d).2.yielded = true ∨
    (pc.step p d).2.looping = true ∧
      ((∃ fd, pc = .locking true fd ∧ d.grants fd p = false ∧ (pc.step p d).2.rank ≤ pc.rank) ∨
        1 + (pc.step p d).2.rank ≤ pc.rank + 10 * pc.reopening.toNat) := by
  cases pc with
  | opening b =>
    dsimp only [Pc.step]
    split <;> exact .inr ⟨rfl, .inr (by simp [Pc.rank, Pc.reopening])⟩
  | locking b fd =>
    dsimp only [Pc.step]
    split
    next => exact .inr ⟨rfl, .inr (by simp [Pc.rank, Pc.reopening])⟩
    next hh =>
      cases b with
      | true => exact .inr ⟨rfl, .inl ⟨fd, rfl, eq_false_of_ne_true hh, Nat.le_refl _⟩⟩
      | false => exact .inl rfl
  | checking b fd =>
    dsimp only [Pc.step]
    split
    · exact .inr ⟨rfl, .inr (by simp [Pc.rank, Pc.reopening])⟩
    · split
      · exact .inr ⟨rfl, .inr (by simp [Pc.rank, Pc.reopening])⟩
      · exact .inl rfl
  | reading b fd =>
    dsimp only [Pc.step]
    split
    · exact .inr ⟨rfl, .inr (by simp [Pc.rank, Pc.reopening])⟩
    · exact .inl rfl
  | finishing b fd =>
    dsimp only [Pc.step]
    split <;> exact .inr ⟨rfl, .inr (by simp [Pc.rank, Pc.reopening])⟩
  | naming b fd =>
    dsimp only [Pc.step]
    split <;> exact .inr ⟨rfl, .inr (by simp [Pc.rank, Pc.reopening])⟩
  | unlinking b fd => exact .inr ⟨rfl, .inr (by simp [Pc.step, Pc.rank, Pc.reopening])⟩
  | letting b fd => exact .inr ⟨rfl, .inr (by simp [Pc.step, Pc.rank, Pc.reopening])⟩
  | closing b fd => exact .inr ⟨rfl, .inr (by simp [Pc.step, Pc.rank, Pc.reopening])⟩
  | _ => cases h

theorem Pc.step_retiring (p : P) (d : Disk P) (pc : Pc) :
    (pc.step p d).2.retiring.toNat + pc.writing.toNat ≤ pc.retiring.toNat := by
  cases pc <;> dsimp only [Pc.step] <;> repeat' split
  all_goals simp [Pc.retiring, Pc.writing]

section

variable [Fintype P] {s : State P} {e : Event P}

def State.retiring (s : State P) : Nat := ∑ q, (s.procs q).retiring.toNat

def State.reopens (p : P) (s : State P) : Event P → Bool
  | .step q => q = p && (s.procs p).reopening
  | _ => false

def State.waits (s : State P) (p : P) : Bool :=
  match s.procs p with
  | .locking true fd =>
    match s.disk.lock fd with
    | some q => q ≠ p ∧ s.procs q ≠ .dead
    | none => false
  | _ => false

def State.turn (p : P) (s : State P) : Event P → Bool
  | .step q => q = p && !s.waits p
  | _ => false

def Event.Quiet (p : P) : Event P → Prop
  | .held q _ => q ≠ p
  | .retire _ => False
  | .step _ => True
  | .die q _ => q ≠ p

omit [Fintype P] in
@[simp] theorem State.goto_procs (q : P) : (s.goto p d pc).procs q = if q = p then
    pc else s.procs q := by
  by_cases hq : q = p <;> simp [State.goto, hq]

theorem State.retiring_goto (s : State P) (p : P) (d : Disk P) (pc : Pc) :
    (s.goto p d pc).retiring + (s.procs p).retiring.toNat = s.retiring + pc.retiring.toNat := by
  have hs : ∀ f : P → Nat, ∑ q, f q = f p + ∑ q ∈ univ.erase p, f q :=
    fun f => (add_sum_erase _ f (mem_univ p)).symm
  have hr : ∑ q ∈ univ.erase p, ((s.goto p d pc).procs q).retiring.toNat
      = ∑ q ∈ univ.erase p, (s.procs q).retiring.toNat := by
    refine sum_congr rfl fun q hq => ?_
    simp [ne_of_mem_erase hq]
  unfold State.retiring
  rw [hs, hs (fun q => (s.procs q).retiring.toNat), hr]
  simp only [State.goto_procs, if_true]
  omega

def State.owed (s : State P) (p : P) : Nat := s.retiring + (s.procs p).owed s.disk

theorem State.goto_other (wrote : Bool) (hne : p ≠ q)
    (ho : (s.procs p).owed d' ≤ (s.procs p).owed s.disk + wrote.toNat)
    (hp : pc.retiring.toNat + wrote.toNat ≤ (s.procs q).retiring.toNat) :
    (s.goto q d' pc).procs p = s.procs p ∧ (s.goto q d' pc).owed p ≤ s.owed p := by
  have hs : (s.goto q d' pc).procs p = s.procs p := by simp [hne]
  have hc := s.retiring_goto q d' pc
  have hd : (s.goto q d' pc).disk = d' := rfl
  refine ⟨hs, ?_⟩
  simp only [State.owed, hs, hd]
  omega

theorem State.Ok.next_other (hs : s.Ok) (hqu : e.Quiet p) (hne : e ≠ .step p) :
    (s.next e).procs p = s.procs p ∧ (s.next e).owed p ≤ s.owed p := by
  cases e with
  | held q b =>
    dsimp only [State.next]
    split
    next hr => exact State.goto_other false (Ne.symm hqu) (Nat.le_add_right _ _) (Nat.zero_le _)
    next => exact ⟨rfl, Nat.le_refl _⟩
  | retire q => exact hqu.elim
  | step q =>
    have hq : p ≠ q := fun h => hne (h ▸ rfl)
    have ho := Pc.owed_le (Pc.step_ok hs.disk (hs.procs q)).1 hs.disk (hs.procs p)
    exact State.goto_other _ hq ho (Pc.step_retiring q s.disk _)
  | die q written =>
    have hw : (s.procs q).writing.toNat ≤ (s.procs q).retiring.toNat :=
      Nat.le_trans (Nat.le_add_left _ _) (Pc.step_retiring q s.disk _)
    -- letting go of locks changes neither bytes nor the name
    have ho := Pc.owed_le (Pc.dying_effect (hs.procs q) written) hs.disk (hs.procs p)
    exact State.goto_other _ (Ne.symm hqu) ho (Nat.le_trans (Nat.zero_add _).le hw)

theorem State.Ok.next_own (hs : s.Ok) :
    (s.procs p).reopening.toNat + (s.next (.step p)).owed p ≤ s.owed p := by
  have hc := s.retiring_goto p ((s.procs p).step p s.disk).1 ((s.procs p).step p s.disk).2
  have hr := Pc.step_retiring p s.disk (s.procs p)
  have ho := Pc.step_owed hs.disk (hs.procs p)
  have hpc : (s.next (.step p)).procs p = ((s.procs p).step p s.disk).2 := by simp [State.next]
  have hd : (s.next (.step p)).disk = ((s.procs p).step p s.disk).1 := rfl
  have hsa : (s.next (.step p)).retiring
      = (s.goto p ((s.procs p).step p s.disk).1 ((s.procs p).step p s.disk).2).retiring := rfl
  simp only [State.owed, hpc, hd, hsa]
  omega

theorem State.Ok.reopens_le (hs : s.Ok) (hq : e.Quiet p) :
    (s.reopens p e).toNat + (s.next e).owed p ≤ s.owed p := by
  by_cases he : e = .step p
  · subst he
    simpa [State.reopens] using hs.next_own
  · have hn : s.reopens p e = false := by
      cases e with
      | step q => simp [State.reopens, show q ≠ p from fun h => he (h ▸ rfl)]
      | _ => rfl
    simpa [hn] using (hs.next_other hq he).2

omit [Fintype P] in
theorem State.Ok.waits (hs : s.Ok) (hpc : s.procs p = .locking true fd)
    (hhe : s.disk.grants fd p = false) : s.waits p = true := by
  have hn : s.disk.lock fd ≠ none ∧ s.disk.lock fd ≠ some p := by simpa [Disk.grants] using hhe
  obtain ⟨q, hq⟩ := Option.ne_none_iff_exists'.mp hn.1
  have hne : q ≠ p := fun h => hn.2 (h ▸ hq)
  have hl : s.procs q ≠ .dead := by
    intro hd
    have hh := ((hs.procs q).own fd).mp hq
    simp [hd, Pc.holding] at hh
  simp [State.waits, hpc, hq, hne, hl]

def State.left (p : P) (s : State P) : Nat := 10 * s.owed p + (s.procs p).rank

theorem State.Ok.turn_le (hs : s.Ok) (hlo : (s.procs p).looping = true) (hq : e.Quiet p) :
    ((s.next e).procs p).yielded = true ∨ ((s.next e).procs p).looping = true ∧
    (s.turn p e).toNat + (s.next e).left p ≤ s.left p := by
  by_cases he : e = .step p
  · subst he
    have hpc : (s.next (.step p)).procs p = ((s.procs p).step p s.disk).2 := by simp [State.next]
    have ho := hs.next_own (p := p)
    have ht : (s.turn p (.step p)).toNat ≤ 1 := Bool.toNat_le _
    rcases Pc.step_rank (d := s.disk) hlo with hy | ⟨hst, ⟨fd, hl, hh, hr⟩ | hr⟩
    · exact .inl (hpc ▸ hy)
    · have hb : s.turn p (.step p) = false := by simp [State.turn, hs.waits hl hh]
      refine .inr ⟨hpc ▸ hst, ?_⟩
      simp only [State.left, hpc, hb, Bool.toNat_false]
      omega
    · refine .inr ⟨hpc ▸ hst, ?_⟩
      simp only [State.left, hpc]
      omega
  · obtain ⟨hsa, ho⟩ := hs.next_other hq he
    have hn : s.turn p e = false := by
      cases e with
      | step q => simp [State.turn, show q ≠ p from fun h => he (h ▸ rfl)]
      | _ => rfl
    refine .inr ⟨hsa ▸ hlo, ?_⟩
    simp only [State.left, hsa, hn, Bool.toNat_false]
    omega

/-- Once no retirement starts, a call of `held` opens the name a bounded number of times, and it
yields if it has turns enough that no live holder blocks. -/
structure State.Returns (s : State P) : Prop where
  reopened : ∀ p later, (∀ e ∈ later, Event.Quiet p e) →
    tally State.next (State.reopens p) s later ≤ s.retiring + 2
  yields : ∀ p later, (∀ e ∈ later, Event.Quiet p e) → (s.procs p).looping = true →
    10 * (s.retiring + 2) + 8 < tally State.next (State.turn p) s later →
    ∃ before, before <+: later ∧ ((runTrace State.next s before).procs p).yielded = true

theorem State.Ok.returns (hs : s.Ok) : s.Returns where
  reopened p later hq := by
    have hle :=
      tally_le (State.reopens p) (State.owed · p) (fun s e hs he =>
        ⟨State.Ok.next hs e, hs.reopens_le he⟩) hs hq
    have ho : (s.procs p).owed s.disk ≤ 2 := Pc.owed_le_two
    exact Nat.le_trans hle (Nat.add_le_add_left ho _)
  yields p later hq hl hlt := by
    have ho : (s.procs p).owed s.disk ≤ 2 := Pc.owed_le_two
    have hr : (s.procs p).rank ≤ 8 := by cases s.procs p <;> simp [Pc.rank]
    have hlef : s.left p ≤ 10 * (s.retiring + 2) + 8 := by
      simp only [State.left, State.owed]
      omega
    refine exists_goal_of_lt_tally (I := fun s => s.Ok ∧ (s.procs p).looping = true)
      (fun s => (s.procs p).yielded = true) (State.turn p) (State.left p) ?_ ⟨hs, hl⟩ hq
      (Nat.lt_of_le_of_lt hlef hlt)
    intro s e ⟨hs, hl⟩ he
    exact (hs.turn_le hl he).imp_right fun h => ⟨⟨State.Ok.next hs e, h.1⟩, h.2⟩

/-- On one lock path, however its processes' calls and deaths fall: one holder at a time, on the
inode the name is of and never on a retired one, no name taken away under another's lock, and every
call returns. -/
theorem State.Initial.lock_path_sound (h : s.Initial) (history : List (Event P)) :
    (runTrace State.next s history).Safe ∧ (runTrace State.next s history).Returns := by
  have hok := runTrace_keeps State.Ok (fun s e hs => State.Ok.next hs e) h.ok history
  exact ⟨hok.safe, hok.returns⟩

end

def vacant : State Bool := ⟨⟨none, fun _ => ⟨[], none⟩, 0⟩, fun _ => .idle ""⟩

/-- A retirement that dies after its tombstone, and a call that meets what it left. -/
def cutOff : List (Event Bool) :=
  [.held true true] ++ List.replicate 6 (.step true) ++ [.retire true] ++ List.replicate 6
    (.step true)
    ++ [.die true 0, .held false true] ++ List.replicate 12 (.step false)

theorem vacant_sound : vacant.Initial ∧
    (runTrace State.next vacant cutOff).procs false = .inside 1 ∧
      (runTrace State.next vacant cutOff).Safe ∧ (runTrace State.next vacant cutOff).Returns := by
  have hi : vacant.Initial := ⟨fun _ => rfl, fun _ => rfl, .inl ⟨rfl, rfl⟩⟩
  exact ⟨hi, by decide +kernel, hi.lock_path_sound cutOff⟩

end PrismaBuild.PosixLock
