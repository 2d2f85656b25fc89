import PrismaBuild.LedgerRollback

namespace PrismaBuild.ResourceLedger

open Prog Ledger List

theorem tokensIn_perm {s t : Ledger} {p : Place} {T : List Name} (h : Transfer .free p T s t)
    (he : ∀ n, (p, n) ∉ s.files) :
    (tokensIn t p).Perm T := by
  refine (perm_ext_iff_of_nodup (tokensIn_nodup t p) h.nodup).mpr fun n => ?_
  rw [mem_tokensIn]
  constructor
  · rintro ⟨hin, ht⟩
    rcases (h.shifted p n ht).mp hin with ⟨-, hT⟩ | ⟨hs, -⟩
    · exact hT
    · exact absurd hs (he n)
  · intro hT
    exact ⟨(h.shifted p n (h.token n hT)).mpr (.inl ⟨rfl, hT⟩), h.token n hT⟩

section

variable {s : Ledger} {t : Terms}

theorem asked_positive (demand : List (Name × Int)) (kind : Name) :
    asked (sortedItems (demand.filter fun d => d.2 > 0)) kind = asked demand kind := by
  refine (((sortedItems_perm _).map _).sum_eq).trans (sum_positive (fun d hd => ?_) demand)
  have hz : d.2.toNat = 0 := by omega
  rw [hz]
  split <;> rfl

theorem need_le (hb : 0 ≤ t.borrow) (d : Name × Int) : (t.need d.1 d.2).toNat ≤ d.2.toNat := by
  unfold Terms.need
  split <;> omega

variable {parts : List (List Name)} {wanted : List (Name × Int)}

theorem Served.count_le (hb : 0 ≤ t.borrow)
    (h : Served t wanted parts) (hfr : ∀ n ∈ parts.flatten, (.free, n) ∈ s.files) {kind : Name}
    (ha : Apart s wanted kind) :
    parts.flatten.countP (ofKind kind) ≤ asked wanted kind := by
  induction h with
  | nil => exact Nat.le_refl _
  | @cons d L wanted parts hd hr ih =>
    rw [flatten_cons] at hfr ⊢
    obtain ⟨hf, hl⟩ := forall_mem_append.mp hfr
    have hle := ih hl fun e he => ha e (.tail _ he)
    have hne := need_le hb d
    rw [countP_append, asked_cons]
    by_cases hk : d.1 = kind
    · rw [if_pos hk]
      have hal := countP_le_length (p := ofKind kind) (l := L)
      have hlen := hd.2
      omega
    · rw [if_neg hk]
      have hz : L.countP (ofKind kind) = 0 := by
        refine countP_eq_zero.mpr fun n hn hof => ?_
        have hno := ha d (.head _) hk n (hf n hn) hof
        rw [hd.1 n hn] at hno
        cases hno
      omega

theorem Complete.length_ge {passes : Bool}
    (h : Complete (plainTerms passes) wanted parts) :
    (wanted.map Prod.snd).sum ≤ (parts.flatten.length : Int) := by
  induction h with
  | nil => simp
  | @cons d L wanted parts hd hr ih =>
    have hs : (plainTerms passes).mayFallShort d.1 = false := by
      simp [Terms.mayFallShort, plainTerms]
    have hn : (plainTerms passes).need d.1 d.2 = d.2 := by
      unfold Terms.need
      split
      · exact Int.sub_zero d.2
      · rfl
    have hl := hd hs
    rw [hn] at hl
    rw [map_cons, sum_cons, flatten_cons, length_append]
    omega

end

section

variable {s u : Ledger} {key handle : Name}

theorem moveLoop_comes (hne : handle ≠ key) (pick : Name → Bool) (worth : Name → Int)
    (hw : ∀ n, 0 ≤ worth n)
    (names : List Name) (hno : names.Nodup) (hd : .held key ∈ u.dirs)
      (hto : ∀ n ∈ names, isToken n = true →
      (.held handle, n) ∈ u.files ∧ (.held key, n) ∉ u.files ∧ pick n = true ∧ worth n = 1)
      (moved : Int) :
    Comes (fun r _ => moved + (names.filter isToken).length ≤ r)
      (moveLoop (.held handle) (.held key) pick worth none names moved) u := by
  induction names generalizing moved u with
  | nil => exact ⟨trivial, by simp⟩
  | cons token names ih =>
    obtain ⟨hnew, hno⟩ := nodup_cons.mp hno
    have hl := fun n (hn : n ∈ names) => hto n (.tail _ hn)
    have hse : settled (.rename (.held handle) token (.held key) token) = true := by
      simp [settled, Ne.symm hne]
    rw [moveLoop, if_neg (by simp)]
    cases ht : isToken token with
    | true =>
      obtain ⟨hth, ha, hp, hon⟩ := hto token (.head _) ht
      rw [if_pos hp]
      refine .perform trivial fun f => ?_
      have he : steady (.exist (.held key) token) f u = (false, u) := by
        cases f with
        | some e => rfl
        | none => exact Prod.ext (decide_eq_false ha) rfl
      rw [he]
      refine .perform trivial fun f => ?_
      obtain ⟨hok, hmv, hdi⟩ := quiet_rename hth hd
      rw [steady_of_settled hse, hok]
      refine (ih hno (hdi ▸ hd) (fun n hn hnt => ?_) (moved + worth token)).imp fun r _ _ hr => ?_
      · obtain ⟨hin, ho, hg⟩ := hl n hn hnt
        have hs := hmv.later hnew n hn
        exact ⟨(hs _).mpr hin, fun hc => ho ((hs _).mp hc), hg⟩
      · rw [filter_cons_of_pos ht, length_cons]
        omega
    | false =>
      -- a file that is no token may stay or go, and counts for nothing or more
      have hco : ((token :: names).filter isToken).length = (names.filter isToken).length := by
        rw [filter_cons_of_neg (by simp [ht])]
      rw [hco]
      split
      · refine .perform trivial fun f => ?_
        have he : (steady (.exist (.held key) token) f u).2 = u := by
          rcases f with _ | _ <;> rfl
        rw [he]
        cases (steady (.exist (.held key) token) f u).1 with
        | true => exact ih hno hd hl moved
        | false =>
          refine .perform trivial fun f => ?_
          have hb : Beside (.rename (.held handle) token (.held key) token) := ⟨ht, ht⟩
          have hs := hb.sameTokens none u
          have hke : ∀ n ∈ names, isToken n = true →
              (.held handle, n) ∈ (quiet (.rename (.held handle) token (.held key) token) ()
              u).2.files ∧
              (.held key, n) ∉ (quiet (.rename (.held handle) token (.held key) token) ()
              u).2.files ∧
              pick n = true ∧ worth n = 1 := by
            intro n hn hnt
            obtain ⟨hin, ho, hg⟩ := hl n hn hnt
            exact ⟨(hs _ n hnt).mpr hin, fun hc => ho ((hs _ n hnt).mp hc), hg⟩
          have hk := hb.dirs none hd
          rw [steady_of_settled hse]
          cases (quiet (.rename (.held handle) token (.held key) token) () u).1 with
          | error e => exact ih hno hk hke moved
          | ok _ =>
            refine (ih hno hk hke (moved + worth token)).imp fun r _ _ hr => ?_
            have hpo := hw token
            omega
      · exact ih hno hd hl moved

theorem commitAcquire_comes (hne : handle ≠ key)
    (ha : ∀ n, isToken n = true → (.held handle, n) ∈ u.files →
    (.held key, n) ∉ u.files) : Comes (fun r _ => ∀ moved : Int, r = .ok moved →
    (tokensIn u (.held handle)).length ≤ moved)
      (commitAcquire key handle fun _ => 0) u := by
  refine .perform trivial fun f => ?_
  rw [steady_of_settled rfl]
  by_cases hd : .held handle ∈ u.dirs
  · have hi : quiet (.isDir (.held handle)) () u = (true, u) := Prod.ext (decide_eq_true hd) rfl
    rw [hi]
    refine .andThen ⟨trivial, fun f => ⟨trivial, ?_⟩⟩
    cases f with
    | some e => exact fun _ => nofun
    | none =>
      have hmk : steady (.mkdir (.held key)) none u = (.ok (), u.withDir (.held key)) := rfl
      rw [hmk]
      refine .andThen ((scanOptional_comes (mem_cons_of_mem _ hd)).imp ?_)
      rintro r v - ⟨rfl, rfl⟩
      have hl := moveLoop_comes (u := u.withDir (.held key)) hne (fun _ => true)
        (fun token => if isMetadata token then 0 else 1) (fun n => by split <;> decide)
        (u.names (.held handle)) (names_nodup u _)
        mem_cons_self (fun n hn ht => ?_) 0
      · refine .bind (hl.imp ?_)
        intro r w _ hr
        refine .perform trivial fun _ => ⟨trivial, fun moved hm => ?_⟩
        rw [← Except.ok.inj hm]
        rwa [Int.zero_add] at hr
      · refine ⟨mem_names.mp hn, ha n ht (mem_names.mp hn), rfl, ?_⟩
        rw [isMetadata_of_isToken ht]
        rfl
  · have hi : quiet (.isDir (.held handle)) () u = (false, u) := Prod.ext (decide_eq_false hd) rfl
    rw [hi]
    refine ⟨trivial, fun moved hm => ?_⟩
    rw [← Except.ok.inj hm, tokensIn_of_not_dir hd]
    exact Int.le_refl _

end

/-- `claiming.<usec>.<key>.<host>.<pid>.<uuid>`, the claimant being its last three parts. -/
def acquiringName (usec key claimant : Name) : Name :=
    acquiringPrefix ++ (usec ++ '.' :: (key ++ '.' :: claimant))

theorem acquiringName_ne (usec key claimant : Name) : acquiringName usec key claimant ≠ key := by
  intro he
  have hl := congrArg length he
  simp only [acquiringName, length_append, length_cons] at hl
  omega

section

variable {s : Ledger} {usec key claimant : Name}

theorem acquire_comes (hu : s.Unique)
    (hem : ∀ n, (.held (acquiringName usec key claimant), n) ∉ s.files)
    (demand : List (Name × Int)) (lockFree passes : Bool) :
    Comes (fun r v => r = .ok false → SameTokens s v)
      (acquire key (acquiringName usec key claimant) demand lockFree passes) s := by
  unfold acquire
  split
  · exact ⟨trivial, fun _ => SameTokens.refl s⟩
  · refine .andThen ((beginAcquireOn_comes hem demand (plainTerms passes)).imp ?_)
    rintro r v - (⟨hno, hsa⟩ | ⟨rfl, parts, ht, -, hc⟩)
    · cases r with
      | error e => exact nofun
      | ok begun =>
        cases begun with
        | none => exact ⟨trivial, fun _ => hsa⟩
        | some h => exact absurd rfl (hno h)
    · have hp := tokensIn_perm ht hem
      have hco : ((demand.filter fun d => d.2 > 0).map Prod.snd).sum ≤
          ((tokensIn v (.held (acquiringName usec key claimant))).length : Int) := by
        have hso := ((sortedItems_perm (demand.filter fun d => d.2 > 0)).map Prod.snd).sum_eq
        rw [hp.length_eq, ← hso]
        exact hc.length_ge
      have ha : ∀ n, isToken n = true → (.held (acquiringName usec key claimant), n) ∈ v.files →
        (.held key, n) ∉ v.files := by
        intro n hn hin hke
        have hT := hp.mem_iff.mp (mem_tokensIn.mpr ⟨hin, hn⟩)
        have hk : Place.held key ≠ .held (acquiringName usec key claimant) :=
          fun he => acquiringName_ne usec key claimant (Place.held.inj he).symm
        rcases (ht.shifted _ n hn).mp hke with ⟨he, -⟩ | ⟨hs, -⟩
        · exact hk he
        · cases hu n hn .free (.held key) nofun nofun (ht.present n hT) hs
      refine .andThen ((commitAcquire_comes (acquiringName_ne usec key claimant) ha).imp ?_)
      intro r w _ hr
      cases r with
      | error e => exact nofun
      | ok moved =>
        have hle := hr moved rfl
        dsimp only
        rw [if_neg (by omega)]
        exact ⟨trivial, nofun⟩

end

/-- A refused or failed acquisition takes nothing. Where it returns a handle, the tokens under it
are those missing from `free/`, of a kind that shares no free token with another asked kind at most
what is asked for. An `acquire` that answers false takes nothing either. The kinds are literal, and
what `settled` names does not fail. -/
theorem beginAcquireOn_restores (s : Ledger) (hu : s.Unique) (usec key claimant : Name)
    (hempty : ∀ n, (.held (acquiringName usec key claimant), n) ∉ s.files)
    (demand : List (Name × Int))
    (_ : ∀ d ∈ demand, globFree d.1 = true) (faults : List (Option Fault)) :
    (∀ t r v, play steady faults (beginAcquireOn (acquiringName usec key claimant) demand t)
      s = (.ret r, v) →
      ((∀ h, r ≠ .ok (some h)) → SameTokens s v) ∧ ∀ h, r = .ok (some h) →
        (∀ n, isToken n = true → ((.held h, n) ∈ v.files ↔ (.free, n) ∈ s.files ∧
        (.free, n) ∉ v.files)) ∧
        (∀ p n, isToken n = true → p ≠ .held h → (p, n) ∈ v.files → (p, n) ∈ s.files) ∧
        (∀ p n, isToken n = true → p ≠ .free → (p, n) ∈ s.files → (p, n) ∈ v.files) ∧
        (0 ≤ t.borrow → ∀ kind, Apart s (demand.filter fun d => d.2 > 0) kind →
          (tokensIn v (.held h)).countP (ofKind kind) ≤ asked demand kind)) ∧ ∀ lockFree passes v,
      play steady faults (acquire key (acquiringName usec key claimant) demand lockFree passes) s =
        (.ret (.ok false), v) →
      SameTokens s v := by
  refine ⟨fun t r v hru => ?_, fun lockFree passes v hru =>
    (acquire_comes hu hempty demand lockFree passes).result hru rfl⟩
  rcases (beginAcquireOn_comes hempty demand t).result hru with ⟨hno, hsa⟩ | ⟨rfl, parts, ht, hse,
    -⟩
  · exact ⟨fun _ => hsa, fun h hr => absurd hr (hno h)⟩
  · refine ⟨fun hr => absurd rfl (hr _), fun h hr => ?_⟩
    obtain rfl := Option.some.inj (Except.ok.inj hr)
    refine ⟨fun n hn => ?_, fun p n hn hp hin => ?_, fun p n hn hp hin => ?_, fun hb kind ha => ?_⟩
    · rw [ht.shifted _ n hn, ht.shifted .free n hn]
      have hpr := ht.present n
      have hf := hempty n
      simp only [reduceCtorEq, false_and, false_or, true_and]
      tauto
    · rcases (ht.shifted p n hn).mp hin with ⟨he, -⟩ | ⟨hs, -⟩
      · exact absurd he hp
      · exact hs
    · exact (ht.shifted p n hn).mpr (.inr ⟨hin, fun hc => hp hc.1⟩)
    · have hso : Apart s (sortedItems (demand.filter fun d => d.2 > 0)) kind :=
        fun d hd => ha d ((sortedItems_perm _).mem_iff.mp hd)
      rw [(tokensIn_perm ht hempty).countP_eq, ← asked_positive]
      exact hse.count_le hb ht.present hso

theorem shortDemand_restored : SameTokens (stocked [tokenName cpuKind 0] [])
      (play steady (List.replicate 20 none)
      (beginAcquireOn (acquiringName ['7'] ['k'] ['h']) [(cpuKind, 2)] (plainTerms true))
        (stocked [tokenName cpuKind 0] [])).2 := by
  have hr := beginAcquireOn_restores (stocked [tokenName cpuKind 0] []) (stocked_unique (by decide))
    ['7'] ['k'] ['h']
    (by simp [mem_stocked, acquiringName, acquiringPrefix]) [(cpuKind, 2)] (by decide)
      (replicate 20 none)
  exact (hr.1 (plainTerms true) (.ok none) _ (Prod.ext rfl rfl)).1 nofun

def negativeBorrow : Terms :=
  { plainTerms true with adaptive := some ⟨-1, none, false, [], none, none⟩ }

/-- A kind whose tokens another's pattern matches is taken unasked, a negative loan takes more than
the demand, and a rollback that cannot list its directory leaves the tokens there. -/
theorem beginAcquireOn_takes_more : (∀ free, (stocked free []).Unique) ∧
    ((exec quiet () (beginAcquireOn ['h'] [(['a'], 2)] (plainTerms true))
        (stocked [tokenName ['a'] 0, tokenName ['a', '-', 'b'] 0] [])).1 = .ok (some ['h']) ∧
      (tokensIn (exec quiet () (beginAcquireOn ['h'] [(['a'], 2)] (plainTerms true))
        (stocked [tokenName ['a'] 0, tokenName ['a', '-', 'b'] 0] [])).2 (.held ['h'])).countP
        (ofKind ['a', '-', 'b']) = 1 ∧
      asked [(['a'], 2)] ['a', '-', 'b'] = 0) ∧
        ((exec quiet () (beginAcquireOn ['h'] [(cpuKind, 1)] negativeBorrow)
        (stocked [tokenName cpuKind 0, tokenName cpuKind 1] [])).1 = .ok (some ['h']) ∧
      (tokensIn (exec quiet () (beginAcquireOn ['h'] [(cpuKind, 1)] negativeBorrow)
        (stocked [tokenName cpuKind 0, tokenName cpuKind 1] [])).2 (.held ['h'])).countP
        (ofKind cpuKind) = 2 ∧
      asked [(cpuKind, 1)] cpuKind = 1) ∧
    (play step [none, none, none, none, none, some .io]
      (beginAcquireOn ['h'] [(cpuKind, 2)] (plainTerms true))
        (stocked [tokenName cpuKind 0] [])).1 = .ret (.error (.fault .io)) ∧
    (.held ['h'], tokenName cpuKind 0) ∈ (play step [none, none, none, none, none, some .io]
        (beginAcquireOn ['h'] [(cpuKind, 2)] (plainTerms true))
        (stocked [tokenName cpuKind 0] [])).2.files := by
  refine ⟨fun free => stocked_unique nofun, ⟨rfl, by decide, by decide⟩,
    ⟨rfl, by decide, by decide⟩, rfl, by decide⟩

end PrismaBuild.ResourceLedger
