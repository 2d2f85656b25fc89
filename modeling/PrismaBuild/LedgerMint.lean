import PrismaBuild.LedgerUnique

namespace PrismaBuild

open List

def LedgerOp.Marking : LedgerOp → Prop
  | create p _ => p = .minted
  | rename _ _ _ _ | unlink _ _ => False
  | _ => True

namespace ResourceLedger

open Prog Ledger

/-- The names an `ensure_capacity` call looks at: it raises at the first negative count. -/
def declaredNames (capacity : List (Name × Int)) : List Name :=
  ((sortedItems capacity).takeWhile fun d => 0 ≤ d.2).flatMap fun d =>
    (List.range d.2.toNat).map (tokenName d.1)

def DeadMarked (names : List Name) (s : Ledger) : Prop :=
  ∀ n ∈ names, (.dead, n) ∈ s.files → (.minted, n) ∈ s.files

def MintSafe (names : List Name) (s : Ledger) : Prop := s.Unique ∧ DeadMarked names s

theorem tokenName_isToken (kind : Name) (index : Nat) : isToken (tokenName kind index) = true := by
  simp [isToken, tokenName]

variable {o : LedgerOp} {I : Ledger → Prop} {name : Name} {D : List Name} {strict : Bool}

theorem marking_harmless (h : o.Marking) : o.Harmless := by
  cases o <;> first | exact absurd h id | exact .inl h | trivial

variable {names : List Name} {s : Ledger}

theorem MintSafe.marking (f : Option Fault) (ho : o.Marking) (h : MintSafe names s) :
    MintSafe names (step o f s).2 := by
  refine ⟨h.1.step (marking_harmless ho) f, fun n hn hd => ?_⟩
  obtain he | ⟨p, m, rfl, -, he⟩ | ⟨p, m, q, k, rfl, -, -⟩ | ⟨p, m, rfl, -⟩ := step_files o f s
  · rw [he] at hd ⊢
    exact h.2 n hn hd
  · cases ho
    rw [he] at hd ⊢
    refine mem_cons_of_mem _ (h.2 n hn ?_)
    simpa using hd
  · exact absurd ho id
  · exact absurd ho id

theorem mkdir_marking (p : Place) : Issues LedgerOp.Marking (mkdir p) := .perform trivial

theorem censusGlob_marking (strict : Bool) (p : Place) :
    Issues LedgerOp.Marking (censusGlob strict p) := by
  unfold censusGlob
  split <;> exact .perform trivial

theorem censusScan_marking (strict : Bool) (p : Place) :
    Issues LedgerOp.Marking (censusScan strict p) := by
  unfold censusScan
  split
  · exact .perform trivial
  · refine .bind (.perform trivial) fun r => ?_
    split <;> trivial

theorem presentUnder_marking (strict : Bool) (hs present : List Name) :
    Issues LedgerOp.Marking (presentUnder strict hs present) := by
  induction hs generalizing present with
  | nil => trivial
  | cons h hs ih =>
    refine .andThen (.perform trivial) fun found => ?_
    cases found with
    | false => exact ih _
    | true => exact (censusGlob_marking _ _).andThen fun listing => ih _

theorem adoptNames_marking (minted names adopted : List Name) :
    Issues LedgerOp.Marking (adoptNames minted names adopted) := by
  induction names generalizing adopted with
  | nil => trivial
  | cons n names ih =>
    unfold adoptNames
    split
    · exact ih _
    · refine .bind (.perform rfl) fun r => ?_
      split <;> exact ih _

theorem adoptPresentTokens_marking (strict : Bool) (minted : List Name) :
    Issues LedgerOp.Marking (adoptPresentTokens strict minted) := by
  refine (censusGlob_marking _ _).andThen fun free => ?_
  refine .andThen (.perform trivial) fun hs => ?_
  exact (presentUnder_marking _ _ _).andThen fun present => adoptNames_marking _ _ _

theorem mintedCensus_marking (strict : Bool) : Issues LedgerOp.Marking (mintedCensus strict) :=
  (censusScan_marking _ _).andThen fun _ => (adoptPresentTokens_marking _ _).andThen fun _ =>
    trivial

def Census (s : Ledger) (name : Name) (hs : List Name) (r : Except Failure Bool) (t : Ledger) :
    Prop :=
  t = s ∧ (r = .ok false → ∀ h ∈ hs, (.held h, name) ∉ s.files)

theorem tokenIsHeldBy_along (hI : I s) (strict : Bool) (name : Name)
    (hs : List Name) : Along step I (Census s name hs) (tokenIsHeldBy strict name hs) s := by
  induction hs with
  | nil => exact ⟨hI, rfl, by simp⟩
  | cons h hs ih =>
    have skip : (.held h, name) ∉ s.files →
        Along step I (Census s name (h :: hs)) (tokenIsHeldBy strict name hs) s := by
      intro hh
      refine ih.imp ?_
      rintro r t - ⟨ht, hr⟩
      refine ⟨ht, fun he h' hme => ?_⟩
      rcases mem_cons.mp hme with rfl | hme
      · exact hh
      · exact hr he h' hme
    have failed : ∀ e, Along step I (Census s name (h :: hs)) (ret (.error e)) s :=
      fun e => ⟨hI, rfl, by simp⟩
    have found : Along step I (Census s name (h :: hs)) (ret (.ok true)) s := ⟨hI, rfl, by simp⟩
    refine .perform hI fun f => ?_
    cases f with
    | some e => exact failed _
    | none =>
      by_cases hd : Place.held h ∈ s.dirs
      · have hx : step (.statDir (.held h)) none s = (.ok true, s) := by simp [step, hd]
        rw [hx]
        cases strict with
        | true =>
          refine .perform hI fun f => ?_
          cases f with
          | some e => exact failed _
          | none =>
            have hy : step (.scan (.held h)) none s = (.ok (s.names (.held h)), s) := by
              simp [step, hd]
            rw [hy]
            by_cases hn : name ∈ s.names (.held h)
            · simpa [hn] using found
            · simpa [hn] using skip (fun hm => hn (mem_names.mpr hm))
        | false =>
          refine .perform hI fun f => ?_
          cases f with
          | some e => exact failed _
          | none =>
            by_cases hn : (.held h, name) ∈ s.files
            · have hy : step (.stat (.held h) name) none s = (.ok (), s) := by simp [step, hn]
              rw [hy]
              exact found
            · have hy : step (.stat (.held h) name) none s = (.error .noent, s) := by
                simp [step, hn]
              rw [hy]
              exact skip hn
      · have hx : step (.statDir (.held h)) none s = (.ok false, s) := by simp [step, hd]
        rw [hx]
        exact skip fun hm => hd (s.rooted _ hm)

theorem tokenIsHeld_along (hI : I s) (strict : Bool) (name : Name) :
    Along step I (fun r t => t = s ∧ (r = .ok false → ∀ h, (.held h, name) ∉ s.files))
    (tokenIsHeld strict name) s := by
  refine .perform hI fun f => ?_
  cases f with
  | some e => exact ⟨hI, rfl, by simp⟩
  | none =>
    refine (tokenIsHeldBy_along hI strict name s.holderNames).imp ?_
    rintro r t - ⟨ht, hr⟩
    exact ⟨ht, fun he h hm => hr he h (mem_holderNames.mpr (s.rooted _ hm)) hm⟩

theorem MintSafe.put_free {hp : Place.free ∈ s.dirs}
    (h : MintSafe names s) (hde : (.dead, name) ∉ s.files) (hh : ∀ h, (.held h, name) ∉ s.files) :
    MintSafe names (s.put .free name hp) := by
  have hf : ∀ p, p ≠ .minted → (p, name) ∈ s.files → p = .free := by
    intro p hm hme
    cases p with
    | minted => exact absurd rfl hm
    | dead => exact absurd hme hde
    | free => rfl
    | held k => exact absurd hme (hh k)
  constructor
  · intro n hn p q hpm hqm hpn hqn
    rw [mem_put] at hpn hqn
    rcases hpn with he | hpn <;> rcases hqn with he' | hqn
    · rw [(Prod.mk.inj he).1, (Prod.mk.inj he').1]
    · obtain ⟨rfl, rfl⟩ := Prod.mk.inj he
      exact (hf q hqm hqn).symm
    · obtain ⟨rfl, rfl⟩ := Prod.mk.inj he'
      exact hf p hpm hpn
    · exact h.1 n hn p q hpm hqm hpn hqn
  · intro n hn hd
    rw [mem_put] at hd ⊢
    exact .inr (h.2 n hn (by simpa using hd))

theorem MintSafe.drop_minted (h : MintSafe names s)
    (hde : (.dead, name) ∉ s.files) : MintSafe names (s.drop .minted name) := by
  refine ⟨h.1.of_subset fun p n _ _ hm => (mem_drop.mp hm).1, fun n hn hd => ?_⟩
  have hd' := (mem_drop.mp hd).1
  refine mem_drop.mpr ⟨h.2 n hn hd', fun he => hde ?_⟩
  rwa [← (Prod.mk.inj he).2]

theorem unlinkMissingOk_mintSafe (h : MintSafe names s) (hd : (.dead, name) ∉ s.files) :
    Along step (MintSafe names) (fun _ t => MintSafe names t) (unlinkMissingOk .minted name) s := by
  refine .perform h fun f => ?_
  cases f with
  | some e => exact ⟨h, h⟩
  | none =>
    by_cases hm : (.minted, name) ∈ s.files
    · have hx : step (.unlink .minted name) none s = (.ok (), s.drop .minted name) := by
        simp [step, hm]
      rw [hx]
      exact ⟨h.drop_minted hd, h.drop_minted hd⟩
    · have hx : step (.unlink .minted name) none s = (.error .noent, s) := by simp [step, hm]
      rw [hx]
      exact ⟨h, h⟩

theorem create_along {α : Type} {p : Place} {n : Name}
    {found : LedgerProg α} {made : LedgerProg α} {failed : Failure → LedgerProg α}
    {Q : α → Ledger → Prop} (hI : I s)
    (hfo : (p, n) ∈ s.files → Along step I Q found s)
    (hm : ∀ hp : p ∈ s.dirs, (p, n) ∉ s.files → Along step I Q made (s.put p n hp))
    (hf : ∀ e, Along step I Q (failed e) s) :
    Along step I Q (create p n >>= fun
      | .error .exist => found
      | .error e => failed e
      | .ok _ => made) s := by
  refine .perform hI fun f => ?_
  cases f with
  | some e => exact hf _
  | none =>
    by_cases hp : p ∈ s.dirs
    · by_cases hn : (p, n) ∈ s.files
      · have hx : step (.create p n) none s = (.error .exist, s) := by simp [step, hp, hn]
        rw [hx]
        exact hfo hn
      · have hx : step (.create p n) none s = (.ok (), s.put p n hp) := by simp [step, hp, hn]
        rw [hx]
        exact hm hp hn
    · have hx : step (.create p n) none s = (.error .noent, s) := by simp [step, hp]
      rw [hx]
      exact hf _

theorem mintNames_along {rest : List Name → LedgerProg (Except Failure Unit)}
    (hre : ∀ minted s, MintSafe D s → Along step (MintSafe D) (fun _ _ => True) (rest minted) s)
 (hsu : ∀ n ∈ names, n ∈ D) (minted : List Name) (h : MintSafe D s) :
    Along step (MintSafe D) (fun _ _ => True) (mintNames strict rest names minted) s := by
  induction names generalizing minted s with
  | nil => exact hre minted s h
  | cons name names ih =>
    have next : ∀ minted {s}, MintSafe D s →
        Along step (MintSafe D) (fun _ _ => True) (mintNames strict rest names minted) s :=
      fun minted _ h => ih (fun n hn => hsu n (mem_cons_of_mem _ hn)) minted h
    unfold mintNames
    split
    · exact next minted h
    · refine create_along h (fun _ => next minted h) (fun hdi hm => ?_) fun e => ⟨h, trivial⟩
      have hs : MintSafe D (s.put .minted name hdi) := by
        have hst := h.marking none (o := .create .minted name) rfl
        simpa [step, hdi, hm] using hst
      have hde : (.dead, name) ∉ (s.put .minted name hdi).files := by
        intro hd
        exact hm (h.2 name (hsu name mem_cons_self) (by simpa [mem_put] using hd))
      refine .bind ((tokenIsHeld_along hs strict name).imp ?_)
      rintro r t - ⟨rfl, hr⟩
      cases r with
      | error e =>
        refine .andThen ((unlinkMissingOk_mintSafe hs hde).imp fun r t ht _ => ?_)
        cases r with
        | ok u => exact ⟨ht, trivial⟩
        | error e' => trivial
      | ok held =>
        cases held with
        | true => exact next _ hs
        | false =>
          refine create_along hs (fun _ => next _ hs) (fun hp _ => ?_) fun e => ⟨hs, trivial⟩
          exact next _ (hs.put_free hde (hr rfl))

theorem mintKinds_along {kinds : List (Name × Int)}
    (hsu : ∀ n ∈ (kinds.takeWhile fun d => 0 ≤ d.2).flatMap
    (fun d => (List.range d.2.toNat).map (tokenName d.1)), n ∈ D)
    (minted : List Name) (h : MintSafe D s) :
      Along step (MintSafe D) (fun _ _ => True) (mintKinds strict kinds minted) s := by
  induction kinds generalizing minted s with
  | nil => exact ⟨h, trivial⟩
  | cons d kinds ih =>
    unfold mintKinds
    split
    next => exact ⟨h, trivial⟩
    next hd =>
      rw [takeWhile_cons_of_pos (by simpa using hd), flatMap_cons] at hsu
      refine mintNames_along (fun minted s hs => ih ?_ minted hs) ?_ minted h
      · exact fun n hn => hsu n (mem_append_right _ hn)
      · exact fun n hn => hsu n (mem_append_left _ hn)

theorem ensureCapacity_along {capacity : List (Name × Int)}
    (h : MintSafe (declaredNames capacity) s) :
    Along step (MintSafe (declaredNames capacity)) (fun _ _ => True)
      (ensureCapacity strict capacity) s := by
  have keep : ∀ {α : Type} {p : LedgerProg α} {s : Ledger}, Issues LedgerOp.Marking p →
      MintSafe (declaredNames capacity) s →
      Along step (MintSafe (declaredNames capacity))
      (fun _ t => MintSafe (declaredNames capacity) t) p s := by
    intro α p s hp hs
    exact (hp.along (fun o f t ho ht => ht.marking f ho) hs).imp fun _ t ht _ => ht
  refine .andThen ((keep (mkdir_marking .free) h).imp fun r t _ ht => ?_)
  cases r with
  | error e => trivial
  | ok u =>
    refine .andThen ((keep (mkdir_marking .minted) ht).imp fun r t _ ht => ?_)
    cases r with
    | error e => trivial
    | ok u =>
      refine .bind ((keep (mintedCensus_marking strict) ht).imp fun r t _ ht => ?_)
      cases r with
      | error e => exact ⟨ht, trivial⟩
      | ok minted => exact mintKinds_along (fun n hn => hn) minted ht

end ResourceLedger

end PrismaBuild
