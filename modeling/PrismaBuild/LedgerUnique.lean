import PrismaBuild.LedgerDrain

namespace PrismaBuild

open List

namespace Ledger

/-- A token lies in at most one of `free/`, one holder directory and `minted/dead/`. -/
def Unique (s : Ledger) : Prop :=
  ∀ n, ResourceLedger.isToken n = true → ∀ p q, p ≠ .minted → q ≠ .minted →
    (p, n) ∈ s.files → (q, n) ∈ s.files → p = q

end Ledger

/-- Operations that cannot give a token a second place: markers, files that are no tokens, and
renames that keep the name. -/
def LedgerOp.Harmless : LedgerOp → Prop
  | create p n => p = .minted ∨ ResourceLedger.isToken n = false
  | rename p n q m =>
    n = m ∧ p ≠ .minted ∧ q ≠ .minted ∨
      ResourceLedger.isToken n = false ∧ ResourceLedger.isToken m = false
  | _ => True

/-- Harmless operations that delete no token either. -/
def LedgerOp.Conserves : LedgerOp → Prop
  | unlink _ n => ResourceLedger.isToken n = false
  | o => o.Harmless

theorem LedgerOp.Conserves.harmless (o : LedgerOp) (h : o.Conserves) : o.Harmless := by
  cases o with
  | unlink p n => trivial
  | _ => exact h

namespace Ledger

theorem Unique.of_subset {s t : Ledger} (hu : s.Unique)
    (h : ∀ p n, ResourceLedger.isToken n = true → p ≠ .minted → (p, n) ∈ t.files →
    (p, n) ∈ s.files) : t.Unique := by
  intro n hn p q hp hq hpn hqn
  exact hu n hn p q hp hq (h p n hn hp hpn) (h q n hn hq hqn)

theorem Unique.step {o : LedgerOp} {s : Ledger} (hu : s.Unique) (ho : o.Harmless)
    (f : Option Fault) : (step o f s).2.Unique := by
  obtain he | ⟨p, n, rfl, -, he⟩ | ⟨p, n, q, m, rfl, hpn, he⟩ | ⟨p, n, rfl, he⟩ := step_files o f s
  · exact hu.of_subset fun p n _ _ h => he ▸ h
  · refine hu.of_subset fun p' n' hn' hp' h => ?_
    rw [he] at h
    rcases mem_cons.mp h with heq | h
    · cases heq
      rcases ho with rfl | ho
      · exact absurd rfl hp'
      · simp [ho] at hn'
    · exact h
  · rcases ho with ⟨rfl, hp, hq⟩ | ⟨hn, hm⟩
    · intro k hk a b ha hb hak hbk
      rw [he] at hak hbk
      simp only [mem_cons, mem_filter, decide_eq_true_eq, Prod.mk.injEq] at hak hbk
      rcases hak with ⟨rfl, rfl⟩ | ⟨hak, han⟩ <;> rcases hbk with ⟨rfl, hkn⟩ | ⟨hbk, hbn⟩
      · rfl
      · exact absurd (by rw [hu _ hk b p hb hp hbk hpn]) hbn
      · subst hkn
        exact absurd (by rw [hu _ hk a p ha hp hak hpn]) han
      · exact hu k hk a b ha hb hak hbk
    · refine hu.of_subset fun p' n' hn' _ h => ?_
      rw [he] at h
      rcases mem_cons.mp h with heq | h
      · cases heq
        simp [hm] at hn'
      · exact mem_of_mem_filter h
  · exact hu.of_subset fun p' n' _ _ h => mem_of_mem_filter (he ▸ h)

def Has (s : Ledger) (n : Name) : Prop := ∃ p, p ≠ .minted ∧ (p, n) ∈ s.files

theorem has_step {o : LedgerOp} (ho : o.Conserves) (f : Option Fault) (s : Ledger) {n : Name}
    (hn : ResourceLedger.isToken n = true) : (step o f s).2.Has n ↔ s.Has n := by
  obtain he | ⟨q, m, rfl, -, he⟩ | ⟨q, m, r, k, rfl, hm, he⟩ | ⟨q, m, rfl, he⟩ := step_files o f s
  · rw [Has, Has, he]
  · have ho : q = .minted ∨ ResourceLedger.isToken m = false := ho
    rw [Has, Has, he]
    grind
  · have ho : m = k ∧ q ≠ .minted ∧ r ≠ .minted ∨ ResourceLedger.isToken m = false ∧
      ResourceLedger.isToken k = false := ho
    rw [Has, Has, he]
    grind
  · have ho : ResourceLedger.isToken m = false := ho
    rw [Has, Has, he]
    grind

def heldBy (holder : Name) (names : List Name) : Ledger where
  dirs := [.free, .held holder]
  files := names.map fun n => (.held holder, n)
  rooted := by simp

theorem mem_heldBy {holder n : Name} {names : List Name} {p : Place} :
    (p, n) ∈ (heldBy holder names).files ↔ p = .held holder ∧ n ∈ names := by
  simp only [heldBy, mem_map, Prod.mk.injEq]
  constructor
  · rintro ⟨m, hm, rfl, rfl⟩
    exact ⟨rfl, hm⟩
  · rintro ⟨rfl, hn⟩
    exact ⟨n, hn, rfl, rfl⟩

theorem unique_heldBy (holder : Name) (names : List Name) : (heldBy holder names).Unique := by
  intro n _ p q _ _ hp hq
  rw [(mem_heldBy.mp hp).1, (mem_heldBy.mp hq).1]

end Ledger

namespace ResourceLedger

open Prog

theorem dash_not_mem_toDigits {b : Nat} (hb : 1 < b) (n : Nat) : '-' ∉ Nat.toDigits b n := by
  induction n using Nat.strongRecOn with
  | ind n ih =>
    have hd (k : Nat) : '-' ≠ Nat.digitChar k := (Nat.digitChar_ne '-' rfl).symm
    rw [Nat.toDigits_eq_if hb]
    split
    next => simp [hd]
    next hn =>
      have hlt : n / b < n := Nat.div_lt_self (by omega) hb
      simp [ih _ hlt, hd]

variable {name : Name} {p : Place}

theorem temporaryName_not_token (h : isToken name = false) (pid nonce : Nat) :
    isToken (temporaryName name pid nonce) = false := by
  have hp := dash_not_mem_toDigits (by decide : 1 < 10) pid
  have hn := dash_not_mem_toDigits (by decide : 1 < 16) nonce
  simp only [isToken, decide_eq_false_iff_not] at h ⊢
  simp [temporaryName, h, hp, hn]

abbrev Keeps {α : Type} (p : LedgerProg α) : Prop := Issues LedgerOp.Harmless p

theorem scanOptional_keeps (p : Place) : Keeps (scanOptional p) := by
  refine .bind (.perform trivial) fun r => ?_
  split <;> trivial

theorem unlinkMissingOk_keeps (p : Place) (n : Name) : Keeps (unlinkMissingOk p n) := by
  refine .bind (.perform trivial) fun r => ?_
  split <;> trivial

theorem retireTokens_keeps (tokens : List Name) (retired : Nat) :
    Keeps (retireTokens tokens retired) := by
  induction tokens generalizing retired with
  | nil => trivial
  | cons token tokens ih =>
    refine (unlinkMissingOk_keeps _ _).andThen fun _ => ?_
    refine .bind (.perform trivial) fun r => ?_
    cases r with
    | ok u => exact ih _
    | error e => exact ih _

theorem heldTokens_keeps (hs tokens : List Name) (unreadable : Bool) :
    Keeps (heldTokens hs tokens unreadable) := by
  induction hs generalizing tokens unreadable with
  | nil => trivial
  | cons h hs ih =>
    refine .bind (.andThen (.perform trivial) fun b => ?_) fun r => ?_
    · cases b with
      | false => trivial
      | true => exact .perform trivial
    · split <;> exact ih _ _

theorem retireKinds_keeps (held : List Name) (bound : Option (Option (List Name × List Name)))
    (kinds : List (Name × Int)) (retired : List (Name × Nat)) :
    Keeps (retireKinds held bound kinds retired) := by
  induction kinds generalizing retired with
  | nil => trivial
  | cons d rest ih =>
    unfold retireKinds
    split
    · trivial
    · refine .andThen (.perform trivial) fun listing => ?_
      exact (retireTokens_keeps _ _).andThen fun count => ih _

theorem retireFreeCapacity_keeps (capacity : List (Name × Int)) :
    Keeps (retireFreeCapacity capacity) := by
  refine .andThen (.perform trivial) fun hs => ?_
  refine (heldTokens_keeps _ _ _).bind fun r => ?_
  dsimp only
  split
  · refine .bind (.andThen (.perform trivial) fun markers => ?_) fun names => ?_
    · exact (scanOptional_keeps _).andThen fun _ => trivial
    · split <;> exact retireKinds_keeps _ _ _ _
  · exact retireKinds_keeps _ _ _ _

theorem unheld_ne_minted {r : Place} (h : Unheld r) : r ≠ .minted := by
  rcases h with rfl | rfl
  · nofun
  · nofun

theorem drains_conserves {α : Type} (hp : p ≠ .minted) {prog : LedgerProg α}
    (h : Issues (Drains Unheld p) prog) :
    Issues LedgerOp.Conserves prog := by
  refine h.mono fun o h => ?_
  cases o with
  | create q n => exact absurd h id
  | rename q n r m =>
    obtain ⟨rfl, hr, rfl⟩ := h
    exact .inl ⟨rfl, hp, unheld_ne_minted hr⟩
  | _ => exact h

theorem emptyIntoFree_conserves {holder : Place} (hh : holder ≠ .minted) :
    Issues LedgerOp.Conserves (emptyIntoFree holder) :=
  drains_conserves hh (emptyIntoFree_drains (.inl rfl) holder)

theorem sweepHolders_conserves (stale : Name → Bool) (hs swept : List Name) :
    Issues LedgerOp.Conserves (sweepHolders stale hs swept) := by
  induction hs generalizing swept with
  | nil => trivial
  | cons h hs ih =>
    unfold sweepHolders
    split
    · refine .bind (.perform trivial) fun b => ?_
      split
      · split
        · exact (emptyIntoFree_conserves (by simp)).andThen fun _ => ih _
        · exact ih _
      · exact ih _
    · exact ih _

theorem writeJsonAtomic_conserves (p : Place) (h : isToken name = false) (pid nonce : Nat) :
    Issues LedgerOp.Conserves (writeJsonAtomic p name pid nonce) := by
  have ht := temporaryName_not_token h pid nonce
  refine .andThen (.perform trivial) fun _ => ?_
  refine .andThen (.perform (.inr ht)) fun _ => ?_
  refine .bind (.perform (.inr ⟨ht, h⟩)) fun r => ?_
  split
  · trivial
  · refine .andThen (.bind (.perform ht) fun r => ?_) fun _ => trivial
    split <;> trivial

section

variable {P : LedgerOp → Prop} {destination : Place}

theorem takeTokens_issues (hm : ∀ n, P (.rename .free n destination n)) (need : Int)
    (tokens : List Name) (taken : Nat) :
    Issues P (takeTokens destination need tokens taken) := by
  induction tokens generalizing taken with
  | nil => trivial
  | cons token tokens ih =>
    unfold takeTokens
    split
    · trivial
    · refine .bind (.perform (hm token)) fun r => ?_
      split
      · exact ih _
      · exact ih _
      · trivial

theorem takeKinds_issues (hg : P (.glob .free)) (hm : ∀ n, P (.rename .free n destination n))
    (a : Admission)
    (kinds : List (Name × Int)) : Issues P (takeKinds destination a kinds) := by
  induction kinds with
  | nil => trivial
  | cons d rest ih =>
    refine .bind (.perform hg) fun r => ?_
    split
    · trivial
    · split
      · trivial
      · refine (takeTokens_issues hm _ _ _).bind fun r => ?_
        cases r with
        | error e => trivial
        | ok taken =>
          dsimp only
          generalize (if d.1 = cpuKind then d.2 - a.cpuBorrow else d.2) = need
          split
          · trivial
          · exact ih

end

theorem writeGpuRecord_conserves (destination : Place) (a : Admission) :
    Issues LedgerOp.Conserves (writeGpuRecord destination a) := by
  unfold writeGpuRecord
  split
  · exact .andThen (.perform trivial) fun _ => writeJsonAtomic_conserves _ (by decide) _ _
  · trivial

theorem writeRecords_conserves (destination : Place) (a : Admission) :
    Issues LedgerOp.Conserves (writeRecords destination a) := by
  refine (writeGpuRecord_conserves _ _).bind fun gpu => ?_
  split
  · trivial
  · split
    · split
      · refine (writeJsonAtomic_conserves _ (by decide) _ _).bind fun r => ?_
        split <;> trivial
      · trivial
    · trivial

theorem takeDemand_conserves {destination : Place} (hd : destination ≠ .minted)
    (wanted : List (Name × Int))
    (a : Admission) : Issues LedgerOp.Conserves (takeDemand destination wanted a) := by
  have hm : ∀ n, LedgerOp.Conserves (.rename .free n destination n) :=
    fun _ => .inl ⟨rfl, nofun, hd⟩
  refine .bind (takeKinds_issues trivial hm _ _) fun taking => ?_
  split
  · exact writeRecords_conserves _ _
  · trivial

theorem beginAcquire_conserves (handle : Name) (demand : List (Name × Int)) (a : Admission) :
    Issues LedgerOp.Conserves (beginAcquire handle demand a) := by
  unfold beginAcquire
  dsimp only
  split
  · trivial
  · refine .andThen (.perform trivial) fun _ => ?_
    refine (takeDemand_conserves (by simp) _ _).bind fun ended => ?_
    split
    · trivial
    · exact (emptyIntoFree_conserves (by simp)).andThen fun _ => trivial
    · exact (emptyIntoFree_conserves (by simp)).andThen fun _ => trivial

theorem beginAcquire_keeps (handle : Name) (demand : List (Name × Int)) (a : Admission) :
    Keeps (beginAcquire handle demand a) :=
  (beginAcquire_conserves handle demand a).mono LedgerOp.Conserves.harmless

end ResourceLedger

end PrismaBuild
