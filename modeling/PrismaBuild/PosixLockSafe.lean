import PrismaBuild.PosixLock

namespace PrismaBuild.PosixLock

open Option

variable {P : Type} {d d' : Disk P} {p q : P} {pc : Pc} {fd i : Ino} {wrote : Bool}

section

variable (d : Disk P) (fd i : Ino) (p : P) (text : Name)

@[simp] theorem Disk.content_write : (d.write fd text).content i = if i = fd then
    text else d.content i := by
  by_cases h : i = fd <;> simp [Disk.write, Disk.content, h]

@[simp] theorem Disk.lock_write : (d.write fd text).lock i = d.lock i := by
  by_cases h : i = fd <;> simp [Disk.write, Disk.lock, h]

@[simp] theorem Disk.content_setLock : (d.setLock fd p).content i = d.content i := by
  by_cases h : i = fd <;> simp [Disk.setLock, Disk.content, h]

@[simp] theorem Disk.lock_setLock : (d.setLock fd p).lock i = if i = fd then some p else
    d.lock i := by
  by_cases h : i = fd <;> simp [Disk.setLock, Disk.lock, h]

@[simp] theorem Disk.content_create : d.create.content i = if i = d.next then
    [] else d.content i := by
  by_cases h : i = d.next <;> simp [Disk.create, Disk.content, h]

@[simp] theorem Disk.lock_create : d.create.lock i = if i = d.next then none else d.lock i := by
  by_cases h : i = d.next <;> simp [Disk.create, Disk.lock, h]

@[simp] theorem Disk.content_unlink : d.unlink.content i = d.content i := rfl

@[simp] theorem Disk.lock_unlink : d.unlink.lock i = d.lock i := rfl

variable [DecidableEq P]

@[simp] theorem Disk.content_unlock : (d.unlock fd p).content i = d.content i := by
  by_cases h : i = fd <;> simp [Disk.unlock, Disk.content, h]

@[simp] theorem Disk.lock_unlock : (d.unlock fd p).lock i = if i = fd ∧ d.lock i = some p then
    none else d.lock i := by
  by_cases h : i = fd <;> by_cases hl : d.lock i = some p <;> simp_all [Disk.unlock, Disk.lock]

@[simp] theorem Disk.content_release : (d.release p).content i = d.content i := rfl

@[simp] theorem Disk.lock_release : (d.release p).lock i = if d.lock i = some p then
    none else d.lock i := rfl

end

variable [DecidableEq P]

structure DiskOk (d : Disk P) : Prop where
  named : ∀ i, d.name = some i → i < d.next
  retired : ∀ i, i < d.next → d.name ≠ some i → d.content i = tombstone
  locked : ∀ i q, d.lock i = some q → i < d.next

inductive Effect (p : P) (d : Disk P) : Bool → Disk P → Prop
  | none : Effect p d false d
  | create (absent : d.name = none) : Effect p d false d.create
  | lock (fd : Ino) (made : fd < d.next) (free : d.lock fd = none) :
    Effect p d false (d.setLock fd p)
  | unlock (fd : Ino) : Effect p d false (d.unlock fd p)
  | unlink (fd : Ino) (named : d.name = some fd) (mine : d.lock fd = some p)
    (dead : d.content fd = tombstone) :
      Effect p d false d.unlink
  | write (fd : Ino) (text : Name) (named : d.name = some fd) (mine : d.lock fd = some p) :
      Effect p d true (d.write fd text)
  | release : Effect p d false (d.release p)

def Pc.holding : Pc → Option Ino
  | .checking _ fd | .reading _ fd | .finishing _ fd | .naming _ fd | .unlinking _ fd | .letting _
    fd
  | .inside fd | .leaving fd | .retireChecking fd | .retireReading fd _ | .retireNaming fd _
  | .retireWriting fd | .retireUnlinking fd | .retireUnlocking fd _ => some fd
  | _ => none

def Pc.Knows (d : Disk P) : Pc → Prop
  | .locking _ fd | .retireStat fd | .retireLocking fd => fd < d.next
  | .closing _ fd => fd < d.next ∧ d.name ≠ some fd
  | .letting _ fd => d.name ≠ some fd
  | .reading _ fd => d.name = some fd
  | .finishing _ fd | .naming _ fd => d.content fd = tombstone
  | .unlinking _ fd | .retireUnlinking fd => d.name = some fd ∧ d.content fd = tombstone
  | .inside fd => d.name = some fd ∧ d.content fd ≠ tombstone
  | .retireReading fd linked => linked = true → d.name = some fd
  | .retireNaming fd residue => d.name = some fd ∧ d.content fd = if residue then tombstone else []
  | .retireWriting fd => d.name = some fd
  | _ => True

structure PcOk (d : Disk P) (p : P) (pc : Pc) : Prop where
  own : ∀ i, d.lock i = some p ↔ pc.holding = some i
  knows : pc.Knows d

theorem Effect.next_le (h : Effect p d wrote d') : d.next ≤ d'.next := by
  cases h <;> first | exact Nat.le_refl _ | exact Nat.le_succ _

theorem Effect.diskOk (h : Effect p d wrote d') (hd : DiskOk d) : DiskOk d' := by
  cases h with
  | none => exact hd
  | create absent =>
    refine ⟨?_, ?_, ?_⟩
    · intro i hi
      cases hi
      exact Nat.lt_succ_self _
    · intro i hi hn
      have hne : i ≠ d.next := fun h => hn (congrArg some h.symm)
      have hlt : i < d.next := lt_of_le_of_ne (Nat.le_of_lt_succ hi) hne
      simpa [hne] using hd.retired i hlt (by simp [absent])
    · intro i q hi
      have hold : i ≠ d.next ∧ d.lock i = some q := by simpa using hi
      exact Nat.lt_succ_of_lt (hd.locked i q hold.2)
  | lock fd made free =>
    refine ⟨hd.named, fun i hi hn => (d.content_setLock fd i p).trans (hd.retired i hi hn), ?_⟩
    intro i q hi
    by_cases hfd : i = fd
    · exact hfd ▸ made
    · exact hd.locked i q (by simpa [hfd] using hi)
  | unlock fd =>
    refine ⟨hd.named, fun i hi hn => (d.content_unlock fd i p).trans (hd.retired i hi hn), ?_⟩
    intro i q hi
    have hold : d.lock i = some q := by
      rw [Disk.lock_unlock] at hi
      split at hi
      · cases hi
      · exact hi
    exact hd.locked i q hold
  | unlink fd named mine dead =>
    refine ⟨nofun, ?_, hd.locked⟩
    intro i hi _
    by_cases hn : d.name = some i
    · have hfd : i = fd := some.inj (hn.symm.trans named)
      simpa [hfd] using dead
    · exact hd.retired i hi hn
  | write fd text named mine =>
    refine ⟨hd.named, ?_, fun i q hi => hd.locked i q ((d.lock_write fd i text).symm.trans hi)⟩
    intro i hi hn
    have hne : i ≠ fd := fun h => hn (h ▸ named)
    simpa [hne] using hd.retired i hi hn
  | release =>
    refine ⟨hd.named, hd.retired, ?_⟩
    intro i q hi
    rw [Disk.lock_release] at hi
    split at hi
    · cases hi
    · exact hd.locked i q hi

section

variable (h : Effect p d wrote d') (hne : q ≠ p)
include h hne

theorem Effect.lock_iff (hd : DiskOk d) : d'.lock i = some q ↔ d.lock i = some q := by
  cases h with
  | none => rfl
  | create absent =>
    have hn : d.lock d.next ≠ some q := fun hl => Nat.lt_irrefl _ (hd.locked _ _ hl)
    by_cases hi : i = d.next <;> simp [hi, hn]
  | lock fd made free => by_cases hi : i = fd <;> simp [hi, free, Ne.symm hne]
  | unlock fd =>
    by_cases hi : i = fd ∧ d.lock i = some p
    · rw [Disk.lock_unlock, if_pos hi, hi.2]
      simp [Ne.symm hne]
    · rw [Disk.lock_unlock, if_neg hi]
  | unlink fd named mine dead => rfl
  | write fd text named mine => simp
  | release => by_cases hi : d.lock i = some p <;> simp [hi, Ne.symm hne]

theorem Effect.keeps_held (hd : DiskOk d) (hq : d.lock fd = some q) :
    d'.content fd = d.content fd ∧ (d'.name = some fd ↔ d.name = some fd) := by
  have hm : fd < d.next := hd.locked fd q hq
  have ho : ∀ i, d.lock i = some p → fd ≠ i := by
    intro i hi hfd
    rw [hfd, hi] at hq
    exact hne (some.inj hq).symm
  cases h with
  | none => exact ⟨rfl, Iff.rfl⟩
  | create absent =>
    have hne' := Nat.ne_of_lt hm
    exact ⟨by simp [hne'], by simp [Disk.create, absent, hne'.symm]⟩
  | lock i made free => exact ⟨by simp, Iff.rfl⟩
  | unlock i => exact ⟨by simp, Iff.rfl⟩
  | unlink i named mine dead => exact ⟨rfl, by simp [Disk.unlink, named, (ho i mine).symm]⟩
  | write i text named mine => exact ⟨by simp [ho i mine], Iff.rfl⟩
  | release => exact ⟨rfl, Iff.rfl⟩

omit hne in
theorem Effect.keeps_unnamed (hm : fd < d.next) (hn : d.name ≠ some fd) : d'.name ≠ some fd := by
  cases h with
  | create absent => exact fun h => Nat.ne_of_lt hm (some.inj h).symm
  | unlink i named mine dead => nofun
  | _ => exact hn

theorem PcOk.frame (hd : DiskOk d) (hpc : PcOk d q pc) : PcOk d' q pc := by
  refine ⟨fun i => (h.lock_iff hne hd).trans (hpc.own i), ?_⟩
  have hh : ∀ fd, pc.holding = some fd →
      d'.content fd = d.content fd ∧ (d'.name = some fd ↔ d.name = some fd) :=
    fun fd hfd => h.keeps_held hne hd ((hpc.own fd).mpr hfd)
  have hk := hpc.knows
  have hle := h.next_le
  cases pc with
  | locking b fd => exact Nat.lt_of_lt_of_le hk hle
  | retireStat fd => exact Nat.lt_of_lt_of_le hk hle
  | retireLocking fd => exact Nat.lt_of_lt_of_le hk hle
  | closing b fd => exact ⟨Nat.lt_of_lt_of_le hk.1 hle, h.keeps_unnamed hk.1 hk.2⟩
  | _ => first
    | exact trivial
    | have hke := hh _ rfl
      simpa only [Pc.Knows, hke.1, hke.2, ne_eq] using hk

end

section

def Pc.writing : Pc → Bool
  | .retireWriting _ => true
  | _ => false

omit [DecidableEq P] in
theorem PcOk.made (hd : DiskOk d) (hpc : PcOk d p pc) (hh : pc.holding = some fd) : fd < d.next :=
  hd.locked fd p ((hpc.own fd).mpr hh)

omit [DecidableEq P] in
theorem PcOk.own_setLock (hpc : PcOk d p pc) (hh : pc.holding = none) (i : Ino) :
    (d.setLock fd p).lock i = some p ↔ some fd = some i := by
  have hi := hpc.own i
  simp only [hh, reduceCtorEq, iff_false] at hi
  by_cases hfd : i = fd
  · simp [hfd]
  · simp [hfd, hi, Ne.symm hfd]

theorem PcOk.own_unlock (hpc : PcOk d p pc) (hh : ∀ i, pc.holding = some i → i = fd) (i : Ino) :
    (d.unlock fd p).lock i = some p ↔ none = some i := by
  refine iff_of_false ?_ nofun
  rw [Disk.lock_unlock]
  split
  · nofun
  next hn => exact fun hi => hn ⟨hh i ((hpc.own i).mp hi), hi⟩

theorem PcOk.grants_iff (hpc : PcOk d p pc) (hh : pc.holding = none) : d.grants fd p = true ↔
    d.lock fd = none := by
  have hi := hpc.own fd
  simp only [hh, reduceCtorEq, iff_false] at hi
  simp [Disk.grants, hi]

theorem Pc.step_ok (hd : DiskOk d) (hpc : PcOk d p pc) :
    Effect p d pc.writing (pc.step p d).1 ∧ PcOk (pc.step p d).1 p (pc.step p d).2 := by
  have ho := hpc.own
  have hk := hpc.knows
  cases pc with
  | idle answer => exact ⟨.none, hpc⟩
  | dead => exact ⟨.none, hpc⟩
  | opening b =>
    dsimp only [Pc.step]
    split
    next fd hn => exact ⟨.none, ho, hd.named fd hn⟩
    next hn =>
      refine ⟨.create hn, fun i => ?_, Nat.lt_succ_self _⟩
      by_cases hi : i = d.next
      · simp [hi, Pc.holding]
      · simpa [hi, Pc.holding] using ho i
  | locking b fd =>
    dsimp only [Pc.step]
    split
    next hf => exact ⟨.lock fd hk ((hpc.grants_iff rfl).mp hf), hpc.own_setLock rfl, trivial⟩
    next =>
      cases b with
      | true => exact ⟨.none, ho, hk⟩
      | false => exact ⟨.none, ho, trivial⟩
  | checking b fd =>
    dsimp only [Pc.step]
    split
    next hn => exact ⟨.none, ho, hd.retired fd (hpc.made hd rfl) hn⟩
    next hn =>
      have hna := not_not.mp hn
      split
      next => exact ⟨.none, ho, hna⟩
      next hle => exact ⟨.none, ho, hna, fun ht => hle (congrArg List.length ht)⟩
  | reading b fd =>
    dsimp only [Pc.step]
    split
    next ht => exact ⟨.none, ho, ht⟩
    next ht => exact ⟨.none, ho, hk, ht⟩
  | finishing b fd =>
    dsimp only [Pc.step]
    split
    next hn => exact ⟨.none, ho, hk⟩
    next hn => exact ⟨.none, ho, hn⟩
  | naming b fd =>
    dsimp only [Pc.step]
    split
    next hn => exact ⟨.none, ho, hn, hk⟩
    next hn => exact ⟨.none, ho, hn⟩
  | unlinking b fd => exact ⟨.unlink fd hk.1 ((ho fd).mpr rfl) hk.2, ho, nofun⟩
  | letting b fd =>
    have hm : fd < d.next := hpc.made hd rfl
    exact ⟨.unlock fd, hpc.own_unlock fun i hi => (some.inj hi).symm, hm, hk⟩
  | closing b fd => exact ⟨.unlock fd, hpc.own_unlock nofun, trivial⟩
  | inside fd => exact ⟨.none, ho, trivial⟩
  | leaving fd => exact ⟨.unlock fd, hpc.own_unlock fun i hi => (some.inj hi).symm, trivial⟩
  | refused fd => exact ⟨.none, ho, trivial⟩
  | shutting fd => exact ⟨.unlock fd, hpc.own_unlock nofun, trivial⟩
  | retireOpening =>
    dsimp only [Pc.step]
    split
    next => exact ⟨.none, ho, trivial⟩
    next fd hn => exact ⟨.none, ho, hd.named fd hn⟩
  | retireStat fd =>
    dsimp only [Pc.step]
    split
    · exact ⟨.none, ho, hk⟩
    · exact ⟨.none, ho, trivial⟩
  | retireLocking fd =>
    dsimp only [Pc.step]
    split
    next hf => exact ⟨.lock fd hk ((hpc.grants_iff rfl).mp hf), hpc.own_setLock rfl, trivial⟩
    next => exact ⟨.none, ho, trivial⟩
  | retireChecking fd =>
    dsimp only [Pc.step]
    split
    · exact ⟨.none, ho, of_decide_eq_true⟩
    · split
      next => exact ⟨.none, ho, trivial⟩
      next he =>
        obtain ⟨hn, he⟩ := not_or.mp he
        exact ⟨.none, ho, not_not.mp hn, not_not.mp he⟩
  | retireReading fd linked =>
    dsimp only [Pc.step]
    split
    next => exact ⟨.none, ho, trivial⟩
    next hr =>
      obtain ⟨hl, ht⟩ := not_or.mp hr
      exact ⟨.none, ho, hk (eq_true_of_ne_false hl), not_not.mp ht⟩
  | retireNaming fd residue =>
    dsimp only [Pc.step]
    split
    next => exact ⟨.none, ho, trivial⟩
    next named _ =>
      split
      · exact ⟨.none, ho, trivial⟩
      · cases residue with
        | false => exact ⟨.none, ho, hk.1⟩
        | true => exact ⟨.none, ho, hk⟩
  | retireWriting fd =>
    have ht : (d.write fd tombstone).content fd = tombstone := by simp
    exact ⟨.write fd tombstone hk ((ho fd).mpr rfl),
      fun i => (d.lock_write fd i tombstone) ▸ ho i, hk, ht⟩
  | retireUnlinking fd => exact ⟨.unlink fd hk.1 ((ho fd).mpr rfl) hk.2, ho, trivial⟩
  | retireUnlocking fd answer =>
    exact ⟨.unlock fd, hpc.own_unlock fun i hi => (some.inj hi).symm, trivial⟩
  | retireClosing fd answer => exact ⟨.unlock fd, hpc.own_unlock nofun, trivial⟩

end

theorem Pc.dying_effect (hpc : PcOk d p pc) (written : Nat) :
    Effect p d pc.writing (pc.dying d written) := by
  cases pc with
  | retireWriting fd => exact .write fd _ hpc.knows ((hpc.own fd).mpr rfl)
  | _ => exact .none

theorem Effect.name_lost (h : Effect p d wrote d') (hn : d.name = some i) (hl : d'.name ≠ some i) :
    d.lock i = some p := by
  cases h with
  | create absent => exact absurd (hn.symm.trans absent) nofun
  | unlink fd named mine dead => exact some.inj (named.symm.trans hn) ▸ mine
  | _ => exact absurd hn hl

section

variable {s : State P}

structure State.Ok (s : State P) : Prop where
  disk : DiskOk s.disk
  procs : ∀ p, PcOk s.disk p (s.procs p)

theorem State.Ok.goto (hs : s.Ok) (h : Effect p s.disk wrote d') (hpc : PcOk d' p pc) :
    (s.goto p d' pc).Ok := by
  refine ⟨h.diskOk hs.disk, fun q => ?_⟩
  by_cases hq : q = p
  · subst hq
    simpa [State.goto] using hpc
  · simpa [State.goto, hq] using PcOk.frame h hq hs.disk (hs.procs q)

omit [DecidableEq P] in
theorem PcOk.of_resting (hpc : PcOk d p pc) (hr : pc.resting = true) (i : Ino) :
    d.lock i ≠ some p := by
  cases pc with
  | idle answer => exact fun hi => nomatch (hpc.own i).mp hi
  | _ => cases hr

theorem State.Ok.next (hs : s.Ok) (e : Event P) : (s.next e).Ok := by
  cases e with
  | held p b =>
    dsimp only [State.next]
    split
    next hr =>
      exact hs.goto .none ⟨fun i => iff_of_false ((hs.procs p).of_resting hr i) nofun, trivial⟩
    next => exact hs
  | retire p =>
    dsimp only [State.next]
    split
    next hr =>
      exact hs.goto .none ⟨fun i => iff_of_false ((hs.procs p).of_resting hr i) nofun, trivial⟩
    next => exact hs
  | step p =>
    obtain ⟨he, hpc⟩ := Pc.step_ok hs.disk (hs.procs p)
    exact hs.goto he hpc
  | die p written =>
    -- the write first, and then the locks are let go
    have hd := Pc.dying_effect (hs.procs p) written
    have hde : PcOk (((s.procs p).dying s.disk written).release p) p .dead := by
      refine ⟨fun i => iff_of_false ?_ nofun, trivial⟩
      rw [Disk.lock_release]
      split
      · nofun
      next hn => exact hn
    refine ⟨Effect.release.diskOk (hd.diskOk hs.disk), fun q => ?_⟩
    by_cases hq : q = p
    · subst hq
      simpa [State.next, State.goto] using hde
    · have hq' := PcOk.frame hd hq hs.disk (hs.procs q)
      simpa [State.next, State.goto, hq] using PcOk.frame .release hq (hd.diskOk hs.disk) hq'

omit [DecidableEq P] in
theorem State.Initial.ok (h : s.Initial) : s.Ok := by
  refine ⟨⟨?_, ?_, fun i q hi => ?_⟩, fun p => ⟨fun i => ?_, ?_⟩⟩
  · intro i hi
    rcases h.named with ⟨_, hn⟩ | ⟨hnex, hn⟩
    · exact nomatch hn.symm.trans hi
    · cases hn.symm.trans hi
      exact hnex ▸ Nat.zero_lt_one
  · intro i hi ho
    rcases h.named with ⟨hnex, _⟩ | ⟨hnex, hn⟩
    · exact absurd (hnex ▸ hi) (Nat.not_lt_zero i)
    · have hz : i = 0 := Nat.lt_one_iff.mp (hnex ▸ hi)
      exact absurd (hz ▸ hn) ho
  · exact nomatch (h.unlocked i).symm.trans hi
  all_goals
    have hr := h.resting p
    cases hpc : s.procs p with
    | idle answer => simp [h.unlocked, Pc.holding, Pc.Knows]
    | _ => simp [hpc, Pc.resting] at hr

structure State.Safe (s : State P) : Prop where
  exclusive : ∀ p q fd fd', s.procs p = .inside fd → s.procs q = .inside fd' → p = q
  named : ∀ p fd, s.procs p = .inside fd → s.disk.lock fd = some p ∧ s.disk.name = some fd
  live : ∀ p fd, s.procs p = .inside fd → s.disk.content fd ≠ tombstone
  unlinked : ∀ e i, s.disk.name = some i → (s.next e).disk.name ≠ some i → ∃ p, e = .step p ∧
    s.disk.lock i = some p

omit [DecidableEq P] in
theorem State.Ok.holder (hs : s.Ok) (hpc : s.procs p = .inside fd) :
    s.disk.lock fd = some p ∧ s.disk.name = some fd ∧ s.disk.content fd ≠ tombstone := by
  have hp := hs.procs p
  rw [hpc] at hp
  exact ⟨(hp.own fd).mpr rfl, hp.knows⟩

theorem State.Ok.safe (hs : s.Ok) : s.Safe where
  exclusive p q fd fd' hp hq := by
    obtain ⟨hlo, hn, _⟩ := hs.holder hp
    obtain ⟨hl', hn', _⟩ := hs.holder hq
    have hfd : fd = fd' := some.inj (hn.symm.trans hn')
    exact some.inj (hlo.symm.trans (hfd ▸ hl'))
  named p fd hp := ⟨(hs.holder hp).1, (hs.holder hp).2.1⟩
  live p fd hp := (hs.holder hp).2.2
  unlinked e i hn hl := by
    cases e with
    | held p b =>
      refine absurd ?_ hl
      dsimp only [State.next]
      split <;> exact hn
    | retire p =>
      refine absurd ?_ hl
      dsimp only [State.next]
      split <;> exact hn
    | step p => exact ⟨p, rfl, (Pc.step_ok hs.disk (hs.procs p)).1.name_lost hn hl⟩
    | die p written =>
      refine absurd ?_ hl
      cases hpc : s.procs p <;> simpa [State.next, State.goto, Disk.release, Disk.write, Pc.dying,
        hpc] using hn

end

end PrismaBuild.PosixLock
