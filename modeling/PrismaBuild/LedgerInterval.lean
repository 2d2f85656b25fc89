import PrismaBuild.LedgerResume

namespace PrismaBuild.ResourceLedger

open Prog Ledger List

variable {source destination : Place}

theorem filter_not_mem_take {l : List Name} (hn : l.Nodup) (i : Nat) :
    l.filter (fun n => n ∉ l.take i) = l.drop i := by
  have hs : l.filter (fun n => n ∉ l.take i) =
      (l.take i).filter (fun n => n ∉ l.take i) ++ (l.drop i).filter (fun n => n ∉ l.take i) := by
    rw [← filter_append, take_append_drop]
  have hdi : ∀ n ∈ l.drop i, n ∉ l.take i := by
    have hd : List.Disjoint (l.take i) (l.drop i) := disjoint_take_drop hn le_rfl
    exact fun n hd' ht => hd ht hd'
  rw [hs, filter_eq_nil_iff.mpr (by simp), filter_eq_self.mpr (by simpa using hdi)]
  rfl

variable {A : List Name} {s t : Ledger} {pick : Name → Bool} {j : Nat}

theorem names_moved (h : Moved source destination A s t)
    (hne : source ≠ destination) : t.names source = (s.names source).filter (fun n => n ∉ A) := by
  refine sortNames_eq ((names_nodup s source).filter _)
    ((sortNames_pairwise _).sublist filter_sublist) fun n => ?_
  have hn := h source n
  simp only [hne, false_and, false_or, true_and] at hn
  simp [hn, mem_names]

def candidates (source destination : Place) (pick : Name → Bool) (s : Ledger) : List Name :=
  (s.names source).filter fun n => pick n && movable source destination s n

theorem candidates_eq_nil (he : source = destination) :
    candidates source destination pick s = [] := by
  apply filter_eq_nil_iff.mpr
  intro n _ hn
  simp only [Bool.and_eq_true] at hn
  exact movable_ne hn.2 he

theorem candidates_moved {i : Nat}
    (h : Moved source destination ((candidates source destination pick s).take i) s t) :
    candidates source destination pick t = (candidates source destination pick s).drop i := by
  by_cases hne : source = destination
  · rw [candidates_eq_nil hne, candidates_eq_nil hne, drop_nil]
  · have hA : ∀ n ∈ t.names source, n ∉ (candidates source destination pick s).take i := by
      intro n hn
      rw [names_moved h hne] at hn
      simpa using (mem_filter.mp hn).2
    have hn : (candidates source destination pick s).Nodup := (names_nodup s source).filter _
    rw [← filter_not_mem_take hn i]
    unfold candidates at h hA ⊢
    rw [filter_movable_moved h hA, names_moved h hne, filter_filter, filter_filter]
    apply filter_congr
    intro n _
    rw [Bool.and_comm]

theorem length_names_moved (h : Moved source destination A s t)
    (hne : source ≠ destination) (hn : A.Nodup)
    (hA : ∀ n ∈ A, movable source destination s n = true) :
    (t.names destination).length = A.length + (s.names destination).length := by
  have hnew : ∀ n ∈ A, n ∉ s.names destination := by
    intro n hnA hm
    have := hA n hnA
    simp [movable, mem_names.mp hm] at this
  have hno := nodup_append.mpr ⟨hn, names_nodup s destination, fun a ha b hb he =>
    hnew a ha (he ▸ hb)⟩
  rw [← length_append]
  refine ((perm_ext_iff_of_nodup (names_nodup t destination) hno).mpr fun n => ?_).length_eq
  have hd := h destination n
  simp only [true_and, Ne.symm hne, false_and, not_false_eq_true, and_true] at hd
  rw [mem_names, hd, mem_append, mem_names]

theorem named_moved {names : List Name} (hn : names.Nodup) (hne : source ≠ destination)
    (h : Moved source destination ((names.filter fun n =>
    true && movable source destination s n).take j) s t) :
    (names.filter fun n => true && movable source destination t n) =
      (names.filter fun n => true && movable source destination s n).drop j := by
  simp only [Bool.true_and] at h ⊢
  rw [← filter_not_mem_take (hn.filter _) j, filter_filter]
  apply filter_congr
  intro n _
  by_cases hA : n ∈ (names.filter fun n => movable source destination s n).take j
  · have hg : movable source destination t n = false := by
      have hs := (h source n).not.mpr (by simp [hne, hA])
      simp [movable, hs]
    simp [hg, hA]
  · rw [movable_moved h hA]
    simp [hA]

theorem take_rest {C : List Name} {count : Int} : (C.drop ((C.take count.toNat).take j).length).take
        (count - (((C.take count.toNat).take j).length : Nat)).toNat = (C.take count.toNat).drop
        j := by
  rw [drop_take]
  simp only [length_take]
  by_cases hj : j ≤ min count.toNat C.length
  · rw [Nat.min_eq_left hj]
    congr 1
    omega
  · have hR : (C.drop j).take (count.toNat - j) = [] := by
      by_cases hc : count.toNat ≤ j
      · rw [Nat.sub_eq_zero_of_le hc, take_zero]
      · rw [drop_eq_nil_of_le (by omega), take_nil]
    rw [hR, Nat.min_eq_right (by omega)]
    by_cases hc : count.toNat ≤ C.length
    · rw [Nat.min_eq_left hc, show (count - (count.toNat : Int)).toNat = 0 by omega, take_zero]
    · rw [Nat.min_eq_right (by omega), drop_length, take_nil]

namespace MoveCall

def refusedKeys (fromKey toKey : Name) : Bool :=
  (fromKey = [] ∨ toKey = [] ∨ fromKey = toKey) ||
    (isPrivateHolder fromKey || isPrivateHolder toKey)

def refused : MoveCall → Bool
  | commitAcquire _ _ _ => false
  | transfer fromKey toKey | transferCount fromKey toKey _ => refusedKeys fromKey toKey
  | transferTokens fromKey toKey names =>
    refusedKeys fromKey toKey || (names = [] ∨ ¬ names.Nodup) || (names.find? refusedName).isSome

def work : MoveCall → Ledger → List Name
  | commitAcquire key handle _, s => candidates (.held handle) (.held key) (fun _ => true) s
  | transfer fromKey toKey, s => candidates (.held fromKey) (.held toKey) (fun _ => true) s
  | transferCount fromKey toKey count, s =>
    (candidates (.held fromKey) (.held toKey) (fun n => !isMetadata n) s).take count.toNat
  | transferTokens fromKey toKey names, s =>
    names.filter fun n => true && movable (.held fromKey) (.held toKey) s n

def plan (c : MoveCall) (s : Ledger) : List Name := if c.refused then [] else c.work s

variable {c : MoveCall} {fromKey toKey : Name} {count : Int} {j : Nat} {s t : Ledger}

theorem prog_of_refused (h : c.refused = true) : ∃ r, c.prog = ret r := by
  cases c with
  | commitAcquire key handle borrowed => cases h
  | transfer fromKey toKey =>
    simp only [refused, refusedKeys, Bool.or_eq_true, decide_eq_true_eq] at h
    simp only [prog, ResourceLedger.transfer]
    split_ifs with h1 h2
    · exact ⟨_, rfl⟩
    · exact ⟨_, rfl⟩
    · simp_all
  | transferCount fromKey toKey count =>
    simp only [refused, refusedKeys, Bool.or_eq_true, decide_eq_true_eq] at h
    simp only [prog, ResourceLedger.transferCount]
    split_ifs with h1 h2
    · exact ⟨_, rfl⟩
    · exact ⟨_, rfl⟩
    · exact ⟨_, rfl⟩
    · simp_all
  | transferTokens fromKey toKey names =>
    simp only [refused, refusedKeys, Bool.or_eq_true, decide_eq_true_eq] at h
    simp only [prog, ResourceLedger.transferTokens]
    split_ifs with h1 h2 h3
    · exact ⟨_, rfl⟩
    · exact ⟨_, rfl⟩
    · exact ⟨_, rfl⟩
    · split
      next => exact ⟨_, rfl⟩
      next hf => simp_all

theorem prog_of_accepted_tokens {names : List Name}
    (h : (transferTokens fromKey toKey names).refused = false) :
    names.Nodup ∧ (transferTokens fromKey toKey names).prog =
      ((mkdir (.held toKey)).andThen fun _ => do
        let done ← namedLoop (.held fromKey) (.held toKey) names 0
        let _ ← rmdir (.held fromKey)
        pure (.ok done)).andThen fun done => pure (.ok (done : Int)) := by
  simp only [refused, refusedKeys, Bool.or_eq_false_iff, decide_eq_false_iff_not] at h
  obtain ⟨⟨⟨hk, hp⟩, hn⟩, hf⟩ := h
  refine ⟨by tauto, ?_⟩
  simp only [prog, ResourceLedger.transferTokens, if_neg hk, if_neg hn, hp]
  rw [Option.isSome_eq_false_iff, Option.isNone_iff_eq_none] at hf
  simp [hf]

theorem prog_of_accepted_transfer (h : (transfer fromKey toKey).refused = false) :
    (transfer fromKey toKey).prog = moveHolder (.held fromKey) (.held toKey) (fun _ => true)
      (fun token => if isMetadata token then 0 else 1) none := by
  simp only [refused, refusedKeys, Bool.or_eq_false_iff, decide_eq_false_iff_not] at h
  simp [prog, ResourceLedger.transfer, h]

theorem prog_of_accepted_count (hc : 0 < count)
    (h : (transferCount fromKey toKey count).refused = false) :
    (transferCount fromKey toKey count).prog = moveHolder (.held fromKey) (.held toKey)
      (fun token => !isMetadata token) (fun _ => 1) (some count) := by
  simp only [refused, refusedKeys, Bool.or_eq_false_iff, decide_eq_false_iff_not] at h
  simp [prog, ResourceLedger.transferCount, h, hc]

theorem prog_of_count_nonpos (hc : count ≤ 0) :
    ∃ r, (transferCount fromKey toKey count).prog = ret r := by
  simp only [prog, ResourceLedger.transferCount]
  split_ifs <;> exact ⟨_, rfl⟩

theorem prog_along (c : MoveCall) (s : Ledger) :
    Along quiet (fun u => ∃ j, Moved c.source c.destination ((c.plan s).take j) s u)
      (fun _ u => Moved c.source c.destination (c.plan s) s u) c.prog s := by
  have stay : ∀ r, c.prog = ret r → c.plan s = [] →
      Along quiet (fun u => ∃ j, Moved c.source c.destination ((c.plan s).take j) s u)
        (fun _ u => Moved c.source c.destination (c.plan s) s u) c.prog s := by
    intro r hr hp
    rw [hr, hp]
    exact ⟨⟨0, Moved.refl s⟩, Moved.refl s⟩
  cases hr : c.refused with
  | true =>
    obtain ⟨r, he⟩ := prog_of_refused hr
    exact stay r he (if_pos hr)
  | false =>
    have hp : c.plan s = c.work s := if_neg (by simp [hr])
    cases c with
    | commitAcquire key handle borrowed =>
      rw [hp]
      exact (moveHolder_along (.inl rfl) s).imp fun _ _ _ h => h.2
    | transfer fromKey toKey =>
      rw [hp, prog_of_accepted_transfer hr]
      exact (moveHolder_along (.inl rfl) s).imp fun _ _ _ h => h.2
    | transferCount fromKey toKey count =>
      by_cases hc : 0 < count
      · rw [hp, prog_of_accepted_count hc hr]
        have hw : (transferCount fromKey toKey count).work s =
            moveList (.held fromKey) (.held toKey) (fun n => !isMetadata n) (some count) s := by
          simp [work, moveList, chosen, candidates]
        rw [hw]
        exact (moveHolder_along (.inr fun _ => rfl) s).imp fun _ _ _ h => h.2
      · obtain ⟨r, he⟩ := prog_of_count_nonpos (not_lt.mp hc)
        refine stay r he ?_
        have hz : count.toNat = 0 := by omega
        rw [hp, work, hz, take_zero]
    | transferTokens fromKey toKey names =>
      obtain ⟨hn, he⟩ := prog_of_accepted_tokens hr
      have here : ∃ j, Moved (.held fromKey) (.held toKey)
          (((transferTokens fromKey toKey names).work s).take j) s s := ⟨0, Moved.refl s⟩
      rw [hp, he]
      refine .andThen (.perform here fun _ => ?_)
      have hy : quiet (.mkdir (.held toKey)) () s = (.ok (), s.withDir (.held toKey)) := rfl
      rw [hy]
      refine .bind ((namedLoop_along names hn 0 (s.withDir (.held toKey))
        mem_cons_self).imp fun done u hu hL => ?_)
      refine .perform hu fun _ => ?_
      have hen := Moved.of_files_eq hL (rmdir_files (.held fromKey) u)
      have kept : ∃ j, Moved (.held fromKey) (.held toKey)
          (((transferTokens fromKey toKey names).work s).take j) s
            (quiet (.rmdir (.held fromKey)) () u).2 :=
        ⟨_, by rw [take_length]; exact hen⟩
      exact ⟨kept, kept, hen⟩

theorem plan_eq_nil (h : c.source = c.destination) (s : Ledger) : c.plan s = [] := by
  cases c with
  | commitAcquire key handle borrowed => exact candidates_eq_nil h
  | transfer fromKey toKey =>
    cases h
    simp [plan, refused, refusedKeys]
  | transferCount fromKey toKey count =>
    cases h
    simp [plan, refused, refusedKeys]
  | transferTokens fromKey toKey names =>
    cases h
    simp [plan, refused, refusedKeys]

theorem plan_resume (h : Moved c.source c.destination ((c.plan s).take j) s t) :
    (c.resume s t).plan t = (c.plan s).drop j := by
  cases hr : c.refused with
  | true =>
    have hr' : (c.resume s t).refused = true := by cases c <;> exact hr
    rw [plan, if_pos hr', plan, if_pos hr, drop_nil]
  | false =>
    have hp : c.plan s = c.work s := if_neg (by simp [hr])
    have hp' : (c.resume s t).plan t = (c.resume s t).work t := by
      have hr' : (c.resume s t).refused = false := by cases c <;> exact hr
      exact if_neg (by simp [hr'])
    rw [hp] at h ⊢
    rw [hp']
    cases c with
    | commitAcquire key handle borrowed => exact candidates_moved h
    | transfer fromKey toKey => exact candidates_moved h
    | transferTokens fromKey toKey names =>
      have hk : fromKey ≠ toKey := by
        rintro rfl
        simp [refused, refusedKeys] at hr
      exact named_moved (prog_of_accepted_tokens hr).1 (by simpa [source, destination] using hk) h
    | transferCount fromKey toKey count =>
      have hk : fromKey ≠ toKey := by
        rintro rfl
        simp [refused, refusedKeys] at hr
      have hne : Place.held fromKey ≠ Place.held toKey := by simpa using hk
      have hC := ((names_nodup s (.held fromKey)).filter fun n =>
        !isMetadata n && movable (.held fromKey) (.held toKey) s n)
      have hl := length_names_moved h hne
        (hC.sublist ((take_sublist _ _).trans (take_sublist _ _)))
        (fun n hn => by
          have hm := (mem_filter.mp (mem_of_mem_take (mem_of_mem_take hn))).2
          simp only [Bool.and_eq_true] at hm
          exact hm.2)
      have hh : ((transferCount fromKey toKey count).work s).take j =
          (candidates (.held fromKey) (.held toKey) (fun n => !isMetadata n) s).take
            (((transferCount fromKey toKey count).work s).take j).length := by
        rw [work, take_take, length_take, take_eq_take_min]
      rw [hh] at h
      have hre := candidates_moved h
      simp only [resume, work, source, destination] at hl hre ⊢
      rw [hre, hl, Nat.add_sub_cancel]
      exact take_rest

theorem complete_of_moved (h : Moved c.source c.destination ((c.plan s).take j) s t) :
    Moved c.source c.destination (c.plan s) s (exec quiet () (c.resume s t).prog t).2 := by
  have hr := (prog_along (c.resume s t) t).exec ()
  have hs : (c.resume s t).source = c.source := by cases c <;> rfl
  have hd : (c.resume s t).destination = c.destination := by cases c <;> rfl
  rw [plan_resume h, hs, hd] at hr
  by_cases hne : c.source = c.destination
  · rw [plan_eq_nil hne] at h hr ⊢
    intro p n
    rw [hr p n, h p n]
    simp
  · have ha := h.trans hr hne
    rwa [take_append_drop] at ha

section

variable {P : LedgerOp → Prop}

theorem moveLoop_issues (hp : ∀ o, o.TouchesNoFile → P o)
    (hr : ∀ n, P (.rename source n destination n))
    (pick : Name → Bool) (worth : Name → Int) (limit : Option Int) (tokens : List Name)
      (moved : Int) :
    Issues P (moveLoop source destination pick worth limit tokens moved) := by
  induction tokens generalizing moved with
  | nil => trivial
  | cons token tokens ih =>
    unfold moveLoop
    split
    · trivial
    · split
      · refine .bind (.perform (hp _ trivial)) fun found => ?_
        split
        · exact ih _
        · refine .bind (.perform (hr token)) fun r => ?_
          split <;> exact ih _
      · exact ih _

theorem moveHolder_issues (hp : ∀ o, o.TouchesNoFile → P o)
    (hr : ∀ n, P (.rename source n destination n))
    (pick : Name → Bool) (worth : Name → Int) (limit : Option Int) :
      Issues P (moveHolder source destination pick worth limit) := by
  refine .bind (.perform (hp _ trivial)) fun found => ?_
  split
  · refine .andThen (.perform (hp _ trivial)) fun _ => .andThen ?_ fun listing => ?_
    · refine .bind (.perform (hp _ trivial)) fun r => ?_
      split <;> trivial
    · refine (moveLoop_issues hp hr _ _ _ _ _).bind fun moved => ?_
      exact .bind (.perform (hp _ trivial)) fun _ => trivial
  · trivial

end

theorem withinHeld_of_touchesNoFile (o : LedgerOp) (h : o.TouchesNoFile) : o.WithinHeld := by
  cases o with
  | create _ _ | rename _ _ _ _ | unlink _ _ => exact absurd h id
  | _ => trivial

theorem moveHolder_withinHeld (a b : Name) (pick : Name → Bool) (worth : Name → Int)
    (limit : Option Int) :
    Issues LedgerOp.WithinHeld (moveHolder (.held a) (.held b) pick worth limit) :=
  moveHolder_issues withinHeld_of_touchesNoFile (fun _ => ⟨a, b, rfl, rfl, rfl⟩) pick worth limit

theorem namedLoop_withinHeld {a b : Name} (names : List Name) (done : Nat) :
    Issues LedgerOp.WithinHeld (namedLoop (.held a) (.held b) names done) := by
  induction names generalizing done with
  | nil => trivial
  | cons name names ih =>
    refine .bind (.perform trivial) fun landed => ?_
    split
    · refine .bind (.perform trivial) fun found => ?_
      split <;> exact ih _
    · refine .bind (.perform trivial) fun found => ?_
      split
      · refine .bind (.perform ⟨a, b, rfl, rfl, rfl⟩) fun r => ?_
        split <;> exact ih _
      · exact ih _

theorem prog_withinHeld (c : MoveCall) : Issues LedgerOp.WithinHeld c.prog := by
  cases hr : c.refused with
  | true =>
    obtain ⟨r, he⟩ := prog_of_refused hr
    rw [he]
    trivial
  | false =>
    cases c with
    | commitAcquire key handle borrowed => exact moveHolder_withinHeld _ _ _ _ _
    | transfer fromKey toKey =>
      rw [prog_of_accepted_transfer hr]
      exact moveHolder_withinHeld _ _ _ _ _
    | transferCount fromKey toKey count =>
      by_cases hc : 0 < count
      · rw [prog_of_accepted_count hc hr]
        exact moveHolder_withinHeld _ _ _ _ _
      · obtain ⟨r, he⟩ := prog_of_count_nonpos (not_lt.mp hc)
        rw [he]
        trivial
    | transferTokens fromKey toKey names =>
      rw [(prog_of_accepted_tokens hr).2]
      refine .andThen (.andThen (.perform trivial) fun _ => ?_) fun _ => trivial
      refine (namedLoop_withinHeld _ _).bind fun done => ?_
      exact .bind (.perform trivial) fun _ => trivial

/-- A move between holders, cut off anywhere and under any faults, leaves `free/` and the union
of the holders as they were; after a cut without faults the resumed call ends where the
uninterrupted one does. -/
theorem prog_no_free_interval (c : MoveCall) (s : Ledger) :
    (∀ faults, SameCustody s (play step faults c.prog s).2) ∧
    ∀ k, let t := (play quiet (replicate k ()) c.prog s).2
      SameFiles (exec quiet () (c.resume s t).prog t).2 (exec quiet () c.prog s).2 := by
  constructor
  · intro faults
    refine ((prog_withinHeld c).along (fun o f t ho ht => SameCustody.step ho f ht) ?_).play faults
    exact ⟨fun n => Iff.rfl, fun n => Iff.rfl⟩
  · rintro k t ⟨p, n⟩
    obtain ⟨j, ht⟩ : ∃ j, Moved c.source c.destination ((c.plan s).take j) s t :=
      (prog_along c s).play (replicate k ())
    have hw := (prog_along c s).exec ()
    rw [complete_of_moved ht p n, hw p n]

end MoveCall

end PrismaBuild.ResourceLedger
