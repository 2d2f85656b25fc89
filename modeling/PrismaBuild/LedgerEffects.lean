import PrismaBuild.LedgerTokens

namespace PrismaBuild.ResourceLedger

open Prog Ledger List

def Ends {α : Type} (Q : α → Ledger → Prop) (p : LedgerProg α) (s : Ledger) : Prop :=
  Along quiet (fun _ => True) Q p s

section

variable {p : Place} {s : Ledger}

theorem returnTokens_ends (hp : p ≠ .free) (pick : Name → Bool) (want : Option Int)
    (names : List Name)
    (hn : names.Nodup) (released : Nat) (incomplete : Bool) (s : Ledger) (hfr : .free ∈ s.dirs)
    (hme : ∀ n ∈ names, (p, n) ∈ s.files) :
    let L := chosen want released (names.filter fun n => !isMetadata n && pick n)
    Ends (fun r u => r = (released + L.length, incomplete) ∧ Moved p .free L s u ∧ u.dirs = s.dirs)
      (returnTokens p pick want names released incomplete) s := by
  induction names generalizing released s with
  | nil =>
    have he : chosen want released [] = [] := by cases want <;> simp [chosen]
    simp only [filter_nil, he]
    exact ⟨trivial, rfl, Moved.refl s, rfl⟩
  | cons token names ih =>
    obtain ⟨hno, hn⟩ := nodup_cons.mp hn
    unfold returnTokens
    split
    next hl =>
      simp only [chosen_stop hl]
      exact ⟨trivial, rfl, Moved.refl s, rfl⟩
    next hl =>
      split
      next hsk =>
        have hf : (!isMetadata token && pick token) = false := by
          cases hm : isMetadata token <;> cases hpk : pick token <;> simp_all
        simp only [filter_cons, hf, Bool.false_eq_true, if_false]
        exact ih hn released s hfr fun n hin => hme n (.tail _ hin)
      next hpi =>
        have ht : (!isMetadata token && pick token) = true := by
          cases hm : isMetadata token <;> cases hpk : pick token <;> simp_all
        obtain ⟨hok, hmv, hd⟩ := quiet_rename (hme token (.head _)) hfr
        have hs := fun n (hin : n ∈ names) => (hmv.later hno n hin p).mpr (hme n (.tail _ hin))
        have hne : ((released + 1 : Nat) : Int) = released + 1 := Int.natCast_succ released
        have hc := chosen_next hl (.inr hne)
        simp only [filter_cons, ht, if_true, hc]
        refine .perform trivial fun _ => ?_
        rw [hok]
        have hr := ih hn (released + 1) _ (hd ▸ hfr) hs
        refine .imp hr fun r u _ hu => ⟨?_, hmv.trans hu.2.1 hp, hu.2.2.trans hd⟩
        rw [hu.1, length_cons]
        simp only [Prod.mk.injEq, and_true]
        omega

theorem takeTokens_ends (hp : p ≠ .free) (need : Int) (names : List Name) (hn : names.Nodup)
    (taken : Nat)
    (s : Ledger) (hdi : p ∈ s.dirs) (hm : ∀ n ∈ names, (.free, n) ∈ s.files) :
    let L := names.take (need - taken).toNat
    Ends (fun r u => r = .ok (taken + L.length) ∧ Moved .free p L s u ∧ u.dirs = s.dirs)
      (takeTokens p need names taken) s := by
  induction names generalizing taken s with
  | nil =>
    simp only [take_nil]
    exact ⟨trivial, rfl, Moved.refl s, rfl⟩
  | cons token names ih =>
    obtain ⟨hno, hn⟩ := nodup_cons.mp hn
    unfold takeTokens
    split
    next hl =>
      have hz : (need - (taken : Int)).toNat = 0 := by omega
      simp only [hz, take_zero]
      exact ⟨trivial, rfl, Moved.refl s, rfl⟩
    next hl =>
      have hc : (need - (taken : Int)).toNat = (need - ((taken + 1 : Nat) : Int)).toNat + 1 := by
        omega
      obtain ⟨hok, hmv, hd⟩ := quiet_rename (hm token (.head _)) hdi
      have hs := fun n (hin : n ∈ names) => (hmv.later hno n hin .free).mpr (hm n (.tail _ hin))
      simp only [hc, take_succ_cons]
      refine .perform trivial fun _ => ?_
      rw [hok]
      have hr := ih hn (taken + 1) _ (hd ▸ hdi) hs
      refine .imp hr fun r u _ hu => ⟨?_, hmv.trans hu.2.1 (Ne.symm hp), hu.2.2.trans hd⟩
      rw [hu.1, length_cons]
      congr 1
      omega

end

section

variable {kind n : Name}

theorem isToken_of_ofKind (h : ofKind kind n = true) : isToken n = true := by
  obtain ⟨rest, rfl⟩ := isPrefixOf_iff_prefix.mp h
  simp [isToken]

theorem isMetadata_of_isToken (h : isToken n = true) : isMetadata n = false := by
  cases hm : isMetadata n with
  | false => rfl
  | true =>
    rw [isToken_of_isMetadata hm] at h
    cases h

theorem dropWhile_ne_dash {l : Name} (h : '-' ∈ l) :
    ∃ rest, l.dropWhile (· ≠ '-') = '-' :: rest := by
  induction l with
  | nil => cases h
  | cons c l ih =>
    by_cases hc : c = '-'
    · subst hc
      exact ⟨l, rfl⟩
    · have ht : '-' ∈ l := (mem_cons.mp h).resolve_left fun he => hc he.symm
      rw [dropWhile_cons_of_pos (by simpa using hc)]
      exact ih ht

theorem ofKind_kindOf (h : isToken n = true) : ofKind (kindOf n) n = true := by
  obtain ⟨rest, hr⟩ := dropWhile_ne_dash (mem_reverse.mpr (of_decide_eq_true h))
  have hk : kindOf n = rest.reverse := by
    rw [kindOf, if_pos h, hr]
    rfl
  have hs : n = rest.reverse ++ ['-'] ++ (n.reverse.takeWhile (· ≠ '-')).reverse := by
    rw [← reverse_cons, ← hr, ← reverse_append, takeWhile_append_dropWhile, reverse_reverse]
  refine isPrefixOf_iff_prefix.mpr ⟨(n.reverse.takeWhile (· ≠ '-')).reverse, ?_⟩
  rw [hk]
  exact hs.symm

def Numbered (n : Name) : Prop := n.count '-' = 1

instance : DecidablePred Numbered := fun n => inferInstanceAs (Decidable (n.count '-' = 1))

theorem Numbered.isToken (h : Numbered n) : ResourceLedger.isToken n = true := by
  have hp : 0 < n.count '-' := by
    unfold Numbered at h
    omega
  exact decide_eq_true (count_pos_iff.mp hp)

theorem Numbered.kindOf_eq (h : Numbered n) (ho : ofKind kind n = true) : kindOf n = kind := by
  obtain ⟨index, rfl⟩ := isPrefixOf_iff_prefix.mp ho
  have hco : kind.count '-' + index.count '-' = 0 := by
    unfold Numbered at h
    rw [count_append, count_append, count_singleton_self] at h
    omega
  have hi : ∀ c ∈ index.reverse, decide (c ≠ '-') = true := by
    intro c hc
    refine decide_eq_true fun he => ?_
    have hp := count_pos_iff.mpr (he ▸ mem_reverse.mp hc)
    omega
  rw [kindOf, if_pos h.isToken, reverse_append, reverse_append, dropWhile_append_of_pos hi]
  simp

end

section

theorem SameTokens.step {s t : Ledger} {o : LedgerOp} (ho : LeavesTokens o) (f : Option Fault)
    (h : SameTokens s t) :
    SameTokens s (Ledger.step o f t).2 := by
  refine h.trans fun p n hn => ?_
  obtain he | ⟨q, m, rfl, -, -⟩ | ⟨q, m, q', m', rfl, -, -⟩ | ⟨q, m, rfl, he⟩ := step_files o f t
  · rw [he]
  · exact absurd ho id
  · exact absurd ho id
  · have hne : n ≠ m := by
      rintro rfl
      rw [show isToken n = false from ho] at hn
      cases hn
    rw [he]
    simp [hne]

theorem Issues.sameTokens {α : Type} {prog : LedgerProg α} (h : Issues LeavesTokens prog)
    (s : Ledger) :
    Ends (fun _ u => SameTokens s u) prog s := by
  have hs : ∀ o f t, LeavesTokens o → SameTokens s t → SameTokens s (quiet o f t).2 :=
    fun o _ t ho ht => SameTokens.step ho none ht
  have he := (h.along hs (SameTokens.refl s)).imp fun _ _ ht _ => ht
  exact he.weaken fun _ _ => trivial

theorem unlinkMetadata_ends (p : Place) (markers : List Name)
    (hm : ∀ n ∈ markers, isMetadata n = true) (s : Ledger) :
    Ends (fun r u => r = .ok () ∧ SameTokens s u) (unlinkMetadata p markers) s := by
  induction markers generalizing s with
  | nil => exact ⟨trivial, rfl, SameTokens.refl s⟩
  | cons marker markers ih =>
    have hma := isToken_of_isMetadata (hm marker (.head _))
    have hs := SameTokens.step (o := .unlink p marker) hma none (SameTokens.refl s)
    have hr := ih (fun n hn => hm n (.tail _ hn)) (quiet (.unlink p marker) () s).2
    refine .andThen (.bind (.perform trivial fun _ => ?_))
    by_cases hin : (p, marker) ∈ s.files
    · have hx : (quiet (.unlink p marker) () s).1 = .ok () := by simp [quiet, step, hin]
      rw [hx]
      exact ⟨trivial, trivial, hr.imp fun r u _ hu => ⟨hu.1, hs.trans hu.2⟩⟩
    · have hx : (quiet (.unlink p marker) () s).1 = .error .noent := by simp [quiet, step, hin]
      rw [hx]
      exact ⟨trivial, trivial, hr.imp fun r u _ hu => ⟨hu.1, hs.trans hu.2⟩⟩

end

section

def Drained (p : Place) (s t : Ledger) : Prop :=
  ∀ q n, isToken n = true → q ≠ .free → q ≠ .dead →
    ((q, n) ∈ t.files → (q, n) ∈ s.files) ∧ (q ≠ p → (q, n) ∈ s.files → (q, n) ∈ t.files)

variable {p : Place} {s t : Ledger}

theorem Drained.step {o : LedgerOp} (ho : Drains Unheld p o) (h : Drained p s t) :
    Drained p s (quiet o () t).2 := by
  intro q n hn hf hd
  obtain ⟨hb, hs⟩ := h q n hn hf hd
  obtain he | ⟨r, m, rfl, -, -⟩ | ⟨r, m, r', m', rfl, -, he⟩ | ⟨r, m, rfl, he⟩ :=
    step_files o none t
  · rw [show (quiet o () t).2.files = t.files from he]
    exact ⟨hb, hs⟩
  · exact absurd ho id
  · obtain ⟨rfl, hr, rfl⟩ := ho
    have hot : q ≠ r' := by
      rintro rfl
      exact hr.elim hf hd
    rw [show (quiet (.rename r m r' m) () t).2.files = (r', m) :: t.files.filter
      (fun e => e ≠ (r, m)) from he]
    simp only [mem_cons, Prod.mk.injEq, hot, false_and, false_or, mem_filter, decide_eq_true_eq,
      ne_eq]
    exact ⟨fun hin => hb hin.1, fun hq hin => ⟨hs hq hin, fun hc => hq hc.1⟩⟩
  · have hne : n ≠ m := by
      rintro rfl
      rw [show isToken n = false from ho] at hn
      cases hn
    rw [show (quiet (.unlink r m) () t).2.files = t.files.filter (fun e => e ≠ (r, m)) from he]
    simp only [mem_filter, decide_eq_true_eq, ne_eq, Prod.mk.injEq, hne, and_false,
      not_false_eq_true, and_true]
    exact ⟨hb, hs⟩

theorem Issues.drained {α : Type} {prog : LedgerProg α} (h : Issues (Drains Unheld p) prog)
    (s : Ledger) :
    Ends (fun _ u => Drained p s u) prog s := by
  have hs : ∀ o f t, Drains Unheld p o → Drained p s t → Drained p s (quiet o f t).2 :=
    fun o _ t ho ht => ht.step ho
  have he := (h.along hs fun _ _ _ _ _ => ⟨id, fun _ => id⟩).imp fun _ _ ht _ => ht
  exact he.weaken fun _ _ => trivial

theorem Drained.tokens_other (h : Drained p s t) {holder : Name} (hne : Place.held holder ≠ p)
    (kind : Name) :
    t.tokens (.held holder) kind = s.tokens (.held holder) kind := by
  refine tokens_congr (fun n hn => ?_) kind
  obtain ⟨hb, hs⟩ := h (.held holder) n hn nofun nofun
  exact ⟨hb, hs hne⟩

theorem Drained.tokens_le (h : Drained p s t) (holder kind : Name) :
    t.tokens (.held holder) kind ≤ s.tokens (.held holder) kind := by
  rw [tokens_eq_filter, tokens_eq_filter]
  refine List.Subperm.countP_le _ (subperm_of_subset ((names_nodup t _).filter _) fun n hn => ?_)
  obtain ⟨hin, ht⟩ := mem_filter.mp hn
  have hb := (h (.held holder) n ht nofun nofun).1 (mem_names.mp hin)
  exact mem_filter.mpr ⟨mem_names.mpr hb, ht⟩

end

section

def Succeeds {α : Type} (p : LedgerProg (Except Failure α)) : Prop :=
    ∀ s, Ends (fun r _ => ∃ value, r = .ok value) p s

variable {α β : Type}

theorem ends_any (p : LedgerProg α) (s : Ledger) : Ends (fun _ _ => True) p s := by
  have ha : Issues (fun _ => True) p := by
    induction p with
    | ret value => trivial
    | call o next ih => exact ⟨trivial, ih⟩
  exact ha.along (fun _ _ _ _ _ => trivial) trivial

theorem Succeeds.ret (value : α) : Succeeds (pure (.ok value)) := fun _ => ⟨trivial, value, rfl⟩

variable {k : β → LedgerProg (Except Failure α)}

theorem Succeeds.bind (p : LedgerProg β) (hk : ∀ value, Succeeds (k value)) : Succeeds (p >>= k) :=
  fun s => .bind (.imp (ends_any p s) fun value t _ _ => hk value t)

theorem Succeeds.andThen {p : LedgerProg (Except Failure β)} (hp : Succeeds p)
    (hk : ∀ value, Succeeds (k value)) : Succeeds (p.andThen k) := by
  refine fun s => .andThen (.imp (hp s) ?_)
  rintro r t - ⟨value, rfl⟩
  exact hk value t

theorem mkdir_succeeds (p : Place) : Succeeds (mkdir p) :=
    fun _ => ⟨trivial, fun _ => ⟨trivial, _, rfl⟩⟩

theorem matchOptional_succeeds (p : Place) : Succeeds (matchOptional p) :=
    fun _ => ⟨trivial, fun _ => ⟨trivial, _, rfl⟩⟩

theorem scanOptional_succeeds (p : Place) : Succeeds (scanOptional p) :=
    fun _ => scanOptional_along trivial ⟨_, rfl⟩

theorem releasePicked_succeeds (key : Name) (pick : Name → Bool) :
    Succeeds (releasePicked key pick) := by
  refine Succeeds.bind _ fun b => ?_
  split
  · refine (mkdir_succeeds _).andThen fun _ => (scanOptional_succeeds _).andThen fun listing => ?_
    exact Succeeds.bind _ fun _ => Succeeds.ret _
  · exact Succeeds.ret _

theorem releaseCountKinds_succeeds (p : Place) (kinds : List (Name × Int))
    (released : List (Name × Nat)) :
    Succeeds (releaseCountKinds p kinds released) := by
  induction kinds generalizing released with
  | nil => exact Succeeds.ret _
  | cons d rest ih =>
    unfold releaseCountKinds
    split
    · exact ih _
    · exact (matchOptional_succeeds p).andThen fun listing => Succeeds.bind _ fun _ => ih _

theorem releaseCount_succeeds (key : Name) (counts : List (Name × Int)) :
    Succeeds (releaseCount key counts) := by
  refine Succeeds.bind _ fun b => ?_
  split
  · refine (mkdir_succeeds _).andThen fun _ =>
      (releaseCountKinds_succeeds _ _ _).andThen fun released => ?_
    exact Succeeds.bind _ fun _ => Succeeds.ret _
  · exact Succeeds.ret _

theorem retireHeldKinds_succeeds (p : Place) (kinds : List (Name × Int))
    (destroyed : List (Name × Nat)) (dead : Bool) :
    Succeeds (retireHeldKinds p kinds destroyed dead) := by
  induction kinds generalizing destroyed dead with
  | nil => exact Succeeds.ret _
  | cons d rest ih =>
    unfold retireHeldKinds
    split
    · exact ih _ _
    · exact (matchOptional_succeeds p).andThen fun listing => Succeeds.bind _ fun _ => ih _ _

theorem retireHeld_succeeds (key : Name) (counts : List (Name × Int)) :
    Succeeds (retireHeld key counts) := by
  refine Succeeds.bind _ fun b => ?_
  split
  · exact (retireHeldKinds_succeeds _ _ _ _).andThen fun destroyed => Succeeds.bind _ fun _ =>
      Succeeds.ret _
  · exact Succeeds.ret _

end

section

variable {p : Place}

theorem emptyIntoFree_ends (hp : p ≠ .free) (s : Ledger) :
    Ends (fun r u => r = .ok ((s.names p).filter fun n => !isMetadata n).length ∧
      Shifted p .free ((s.names p).filter fun n => !isMetadata n) s u) (emptyIntoFree p) s := by
  refine .perform trivial fun _ => ?_
  by_cases hd : p ∈ s.dirs
  · rw [quiet_isDir hd]
    refine .perform trivial fun _ => ?_
    refine .andThen (scanOptional_along trivial ?_)
    have hl := returnTokens_ends hp (fun _ => true) none (s.names p) (names_nodup s p) 0 false
      (s.withDir .free)
      mem_cons_self fun n hn => mem_names.mp hn
    refine .bind (.imp hl ?_)
    rintro ⟨released, incomplete⟩ t - ⟨hr, hmv, -⟩
    simp only [Bool.and_true, chosen, Nat.zero_add, Prod.mk.injEq] at hr hmv
    obtain ⟨rfl, rfl⟩ := hr
    refine .andThen (.imp (unlinkMetadata_ends p _ (fun n hn => (mem_filter.mp hn).2) t) ?_)
    rintro r u - ⟨rfl, hs⟩
    refine .perform trivial fun _ => ⟨trivial, rfl, ?_⟩
    have he : SameTokens u (quiet (.rmdir p) () u).2 := by
      intro q n _
      rw [rmdir_files]
    exact (Moved.shifted hmv).then_same (hs.trans he)
  · rw [quiet_not_isDir hd, names_eq_nil hd]
    exact ⟨trivial, rfl, (Moved.refl s).shifted⟩

theorem release_succeeds (key : Name) : Succeeds (release key) :=
  fun s => .imp (emptyIntoFree_ends (p := .held key) nofun s) fun _ _ _ h => ⟨_, h.1⟩

def cappedTokens (s : Ledger) (p : Place) (kind : Name) (want : Int) : List Name :=
  ((s.names p).filter (ofKind kind)).take want.toNat

theorem releaseCount_ends (key kind : Name) (want : Int) (s : Ledger) :
    Ends (fun _ u => Shifted (.held key) .free (cappedTokens s (.held key) kind want) s u)
    (releaseCount key [(kind, want)]) s := by
  have hs : sortedItems [(kind, want)] = [(kind, want)] := rfl
  refine .perform trivial fun _ => ?_
  by_cases hd : Place.held key ∈ s.dirs
  · rw [quiet_isDir hd]
    refine .perform trivial fun _ => ?_
    rw [hs]
    refine .andThen ?_
    unfold releaseCountKinds
    split
    next hw =>
      have hno : cappedTokens s (.held key) kind want = [] := by
        have hz : want.toNat = 0 := by omega
        simp [cappedTokens, hz]
      rw [hno]
      refine ⟨trivial, .bind (.imp (Issues.sameTokens (dropEmptyHolder_leaves _) _) ?_)⟩
      intro _ u _ hu
      exact ⟨trivial, ((Moved.refl s).shifted).then_same hu⟩
    next hw =>
      refine .andThen (.perform trivial fun _ => ⟨trivial, ?_⟩)
      have hk : ((s.names (.held key)).filter (ofKind kind)).filter
        (fun n => !isMetadata n && true) =
          (s.names (.held key)).filter (ofKind kind) := by
        refine filter_eq_self.mpr fun n hn => ?_
        rw [isMetadata_of_isToken (isToken_of_ofKind (mem_filter.mp hn).2)]
        rfl
      have hl := returnTokens_ends (p := .held key) (by simp) (fun _ => true) (some want)
        ((s.names (.held key)).filter (ofKind kind)) ((names_nodup s _).filter _) 0 false
        (s.withDir .free)
        mem_cons_self fun n hn => mem_names.mp (mem_of_mem_filter hn)
      refine .bind (.imp hl ?_)
      rintro ⟨taken, incomplete⟩ t - ⟨-, hmv, -⟩
      have ha : want - ((0 : Nat) : Int) = want := Int.sub_zero want
      simp only [hk, chosen, ha] at hmv
      refine ⟨trivial, Along.bind (Along.imp (Issues.sameTokens (dropEmptyHolder_leaves _) _) ?_)⟩
      intro _ u _ hu
      exact ⟨trivial, (Moved.shifted hmv).then_same hu⟩
  · have hno : cappedTokens s (.held key) kind want = [] := by simp [cappedTokens, names_eq_nil hd]
    rw [quiet_not_isDir hd, hno]
    exact ⟨trivial, (Moved.refl s).shifted⟩

end

end PrismaBuild.ResourceLedger
