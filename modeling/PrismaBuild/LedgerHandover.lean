import PrismaBuild.LedgerEffects

namespace PrismaBuild.ResourceLedger

open Prog Ledger List

section

variable {source destination : Place} {s : Ledger}

theorem absent_of_names (hne : source ≠ destination) (hs : source ≠ .minted)
    (hd : destination ≠ .minted)
    (hu : s.Unique) (ht : ∀ n, (source, n) ∈ s.files → isToken n = true) {n : Name}
      (hn : n ∈ s.names source) :
    (destination, n) ∉ s.files :=
  hu.absent (ht n (mem_names.mp hn)) (mem_names.mp hn) hne hs hd

variable {pick : Name → Bool}

theorem candidates_eq_names (hne : source ≠ destination) (hs : source ≠ .minted)
    (hd : destination ≠ .minted) (hu : s.Unique)
    (ht : ∀ n, (source, n) ∈ s.files → isToken n = true)
    (hp : ∀ n, isToken n = true → pick n = true) :
      candidates source destination pick s = s.names source := by
  refine filter_eq_self.mpr fun n hn => ?_
  have ha := absent_of_names hne hs hd hu ht hn
  simp [movable, mem_names.mp hn, ha, hp n (ht n (mem_names.mp hn))]

theorem moveHolder_ends (hne : source ≠ destination) (hs : source ≠ .minted)
    (hd : destination ≠ .minted) {worth : Name → Int} {limit : Option Int}
    (hw : limit = none ∨ ∀ n, worth n = 1)
    (hu : s.Unique) (ht : ∀ n, (source, n) ∈ s.files → isToken n = true)
    (hp : ∀ n, isToken n = true → pick n = true ∧ worth n = 1) :
    Ends (fun r u => r = .ok ((chosen limit 0 (s.names source)).length : Int) ∧
      Transfer source destination (chosen limit 0 (s.names source)) s u)
      (moveHolder source destination pick worth limit) s := by
  have hsu : ∀ n ∈ chosen limit 0 (s.names source), n ∈ s.names source := by
    intro n hn
    cases limit with
    | none => exact hn
    | some count => exact mem_of_mem_take hn
  have hl : moveList source destination pick limit s = chosen limit 0 (s.names source) :=
    congrArg (chosen limit 0)
      (candidates_eq_names hne hs hd hu ht fun n hn => (hp n hn).1)
  refine .weaken (.imp (moveHolder_along hw s) ?_) fun _ _ => trivial
  rw [hl]
  rintro r u - ⟨rfl, hmv⟩
  have hwo := map_congr_left fun n hn => (hp n (ht n (mem_names.mp (hsu n hn)))).2
  have hno : (chosen limit 0 (s.names source)).Nodup := by
    cases limit with
    | none => exact names_nodup s source
    | some count => exact (names_nodup s source).sublist (take_sublist _ _)
  refine ⟨by rw [hwo]; simp, hne, hno, fun n hn => ht n (mem_names.mp (hsu n hn)),
    fun n hn => mem_names.mp (hsu n hn), fun n hn => ?_, hmv.shifted⟩
  exact absent_of_names hne hs hd hu ht (hsu n hn)

theorem commitAcquire_ends {key handle : Name} (hne : handle ≠ key) (borrowed : Name → Int)
    (hu : s.Unique)
    (ht : ∀ n, (.held handle, n) ∈ s.files → isToken n = true) :
    Ends (fun r u => r = .ok ((s.names (.held handle)).length : Int) ∧
      Transfer (.held handle) (.held key) (s.names (.held handle)) s u)
      (commitAcquire key handle borrowed) s := by
  refine moveHolder_ends (fun he => hne (Place.held.inj he)) nofun
    nofun (.inl rfl) hu ht fun n hn => ⟨rfl, ?_⟩
  rw [isMetadata_of_isToken hn]
  rfl

structure Accepted (a b : Name) : Prop where
  fromNonempty : a ≠ []
  toNonempty : b ≠ []
  distinct : a ≠ b
  fromPublic : isPrivateHolder a = false
  toPublic : isPrivateHolder b = false

variable {a b : Name}

theorem Accepted.keys (h : Accepted a b) : ¬ (a = [] ∨ b = [] ∨ a = b) := by
  rintro (he | he | he)
  · exact h.fromNonempty he
  · exact h.toNonempty he
  · exact h.distinct he

theorem Accepted.public (h : Accepted a b) : ¬ (isPrivateHolder a || isPrivateHolder b) = true := by
  rw [h.fromPublic, h.toPublic]
  exact Bool.false_ne_true

theorem transfer_ends (h : Accepted a b) (hu : s.Unique)
    (ht : ∀ n, (.held a, n) ∈ s.files → isToken n = true) :
    Ends (fun r u => r = .ok ((s.names (.held a)).length : Int) ∧
      Transfer (.held a) (.held b) (s.names (.held a)) s u) (transfer a b) s := by
  rw [transfer, if_neg h.keys, if_neg h.public]
  refine moveHolder_ends (fun he => h.distinct (Place.held.inj he)) (by simp) (by simp) (.inl rfl)
    hu ht fun n hn => ⟨rfl, ?_⟩
  rw [isMetadata_of_isToken hn]
  rfl

theorem transferCount_ends (h : Accepted a b) (count : Int) (hu : s.Unique)
    (ht : ∀ n, (.held a, n) ∈ s.files → isToken n = true) :
    Ends (fun r u => r = .ok (((s.names (.held a)).take count.toNat).length : Int) ∧
      Transfer (.held a) (.held b) ((s.names (.held a)).take count.toNat) s u)
      (transferCount a b count) s := by
  have hne : Place.held a ≠ .held b := fun he => h.distinct (Place.held.inj he)
  rw [transferCount, if_neg h.keys, if_neg h.public]
  split
  next hc =>
    have hz : count.toNat = 0 := by omega
    rw [hz, take_zero]
    exact ⟨trivial, rfl, Transfer.nil hne s⟩
  next hc =>
    have hm : Ends _ (moveHolder (.held a) (.held b) (fun token => !isMetadata token) (fun _ => 1)
      (some count)) s :=
      moveHolder_ends hne (by simp) (by simp) (.inr fun _ => rfl) hu ht fun n hn => ⟨?_, rfl⟩
    · have ha : (count - 0).toNat = count.toNat := by rw [Int.sub_zero]
      simpa only [chosen, ha] using hm
    · rw [isMetadata_of_isToken hn]
      rfl

theorem transferTokens_cases (a b : Name) (names : List Name) :
    (∃ e, transferTokens a b names = pure (.error e)) ∨
      Accepted a b ∧ names.Nodup ∧ (∀ n ∈ names, isToken n = true) ∧
        transferTokens a b names = ((mkdir (.held b)).andThen fun _ => do
          let done ← namedLoop (.held a) (.held b) names 0
          let _ ← rmdir (.held a)
          pure (.ok done)) := by
  unfold transferTokens
  split
  next => exact .inl ⟨_, rfl⟩
  next hk =>
    split
    next => exact .inl ⟨_, rfl⟩
    next hp =>
      split
      next => exact .inl ⟨_, rfl⟩
      next hna =>
        split
        next => exact .inl ⟨_, rfl⟩
        next hg =>
          have hno := find?_eq_none.mp hg
          simp only [not_or] at hk
          simp only [Bool.or_eq_true, not_or, Bool.not_eq_true] at hp
          refine .inr ⟨⟨hk.1, hk.2.1, hk.2.2, hp.1, hp.2⟩, by tauto, fun n hn => ?_, rfl⟩
          have hnot := hno n hn
          simp only [refusedName, Bool.or_eq_true, not_or, Bool.not_eq_true,
            Bool.not_eq_false'] at hnot
          exact hnot.2

def namedTokens (a b : Name) (names : List Name) (s : Ledger) : List Name :=
  names.filter fun n => true && movable (.held a) (.held b) s n

theorem namedTokens_ends {names : List Name} (hab : a ≠ b) (hn : names.Nodup)
    (ht : ∀ n ∈ names, isToken n = true) :
    Ends (fun r u => (∃ done, r = .ok done) ∧
      Moved (.held a) (.held b) (namedTokens a b names s) s u ∧
      Transfer (.held a) (.held b) (namedTokens a b names s) s u)
      ((mkdir (.held b)).andThen fun _ => do
        let done ← namedLoop (.held a) (.held b) names 0
        let _ ← rmdir (.held a)
        pure (.ok done)) s := by
  refine .perform trivial fun _ => ?_
  refine .bind (.imp (.weaken (namedLoop_along names hn 0 _ mem_cons_self) fun _ _ => trivial) ?_)
  intro done t _ hL
  refine .perform trivial fun _ => ?_
  have hen := Moved.of_files_eq hL (rmdir_files (.held a) t)
  have hin : ∀ n ∈ namedTokens a b names s, (.held a, n) ∈ s.files ∧ (.held b, n) ∉ s.files := by
    intro n hn
    simpa [movable] using (mem_filter.mp hn).2
  exact ⟨trivial, ⟨done, rfl⟩, hen, fun he => hab (Place.held.inj he), hn.filter _,
    fun n hn => ht n (mem_of_mem_filter hn), fun n hn => (hin n hn).1, fun n hn => (hin n hn).2,
      hen.shifted⟩

end

end PrismaBuild.ResourceLedger
