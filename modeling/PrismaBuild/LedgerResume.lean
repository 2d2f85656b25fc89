import PrismaBuild.LedgerTransfer

namespace PrismaBuild.ResourceLedger

open Prog Ledger

variable {source destination : Place}

def movable (source destination : Place) (t : Ledger) (n : Name) : Bool :=
  (source, n) ∈ t.files && (destination, n) ∉ t.files

def chosen (limit : Option Int) (moved : Int) (candidates : List Name) : List Name :=
  match limit with
  | none => candidates
  | some count => candidates.take (count - moved).toNat

variable {t s u : Ledger} {n token : Name} {A tokens : List Name} {p : Place} {limit : Option Int}
    {moved : Int}
  {worth : Name → Int}

theorem movable_ne (h : movable source destination t n = true) : source ≠ destination := by
  rintro rfl
  simp [movable] at h

theorem movable_moved (h : Moved source destination A s t)
    (hn : n ∉ A) : movable source destination t n = movable source destination s n := by
  have hs := h source n
  have hd := h destination n
  simp only [hn, and_false, not_false_eq_true, and_true, false_or] at hs hd
  simp only [movable, hs, hd]

variable {pick : Name → Bool}

theorem filter_movable_moved (h : Moved source destination A s t) (hA : ∀ n ∈ tokens, n ∉ A) :
    (tokens.filter fun n => pick n && movable source destination t n) =
      tokens.filter fun n => pick n && movable source destination s n := by
  apply List.filter_congr
  intro n hn
  rw [movable_moved h (hA n hn)]

theorem quiet_rename (hn : (source, n) ∈ t.files) (hd : destination ∈ t.dirs) :
    (quiet (.rename source n destination n) () t).1 = .ok () ∧
      Moved source destination [n] t (quiet (.rename source n destination n) () t).2 ∧
      (quiet (.rename source n destination n) () t).2.dirs = t.dirs := by
  refine ⟨by simp [quiet, step, hn, hd], ?_, by simp [quiet, step, hn, hd, put, drop]⟩
  intro p k
  have hf : (quiet (.rename source n destination n) () t).2.files =
      (destination, n) :: t.files.filter (fun e => e ≠ (source, n)) := by
    simp [quiet, step, hn, hd, put, drop]
  rw [hf]
  simp only [List.mem_cons, List.mem_filter, decide_eq_true_eq, ne_eq, Prod.mk.injEq,
    List.not_mem_nil, or_false]

theorem quiet_rename_missing (hn : (source, n) ∉ t.files) :
    quiet (.rename source n destination n) () t = (.error .noent, t) := by
  simp [quiet, step, hn]

theorem quiet_exist (h : (p, n) ∈ t.files) : quiet (.exist p n) () t = (true, t) := by
  simp [quiet, step, h]

theorem quiet_not_exist (h : (p, n) ∉ t.files) : quiet (.exist p n) () t = (false, t) := by
  simp [quiet, step, h]

theorem quiet_isDir (h : p ∈ t.dirs) : quiet (.isDir p) () t = (true, t) := by
  simp [quiet, step, h]

theorem quiet_not_isDir (h : p ∉ t.dirs) : quiet (.isDir p) () t = (false, t) := by
  simp [quiet, step, h]

theorem quiet_scan (h : p ∈ t.dirs) : quiet (.scan p) () t = (.ok (t.names p), t) := by
  simp [quiet, step, h]

theorem quiet_scan_missing (h : p ∉ t.dirs) : quiet (.scan p) () t = (.error .noent, t) := by
  simp [quiet, step, h]

theorem chosen_stop (h : limit.any (fun count => moved ≥ count) = true) (names : List Name) :
    chosen limit moved names = [] := by
  cases limit with
  | none => simp at h
  | some count =>
    have hc : count ≤ moved := by simpa using h
    have hz : (count - moved).toNat = 0 := by omega
    simp [chosen, hz]

theorem chosen_next {moved moved' : Int} (h : ¬ limit.any (fun count => moved ≥ count) = true)
    (hn : limit = none ∨ moved' = moved + 1) (n : Name) (names : List Name) :
    chosen limit moved (n :: names) = n :: chosen limit moved' names := by
  cases limit with
  | none => rfl
  | some count =>
    have hlt : ¬ moved ≥ count := by simpa using h
    have ho := hn.resolve_left nofun
    have hc : (count - moved).toNat = (count - moved').toNat + 1 := by omega
    simp only [chosen, hc, List.take_succ_cons]

theorem filter_movable_cons (pick : Name → Bool)
    (hp : pick token = true) (hm : movable source destination t token = true) (hme : token ∉ tokens)
    (hu : Moved source destination [token] t u) :
      ((token :: tokens).filter fun n => pick n && movable source destination t n) =
      token :: tokens.filter fun n => pick n && movable source destination u n := by
  have hA : ∀ n ∈ tokens, n ∉ [token] := by
    intro n hn
    rw [List.mem_singleton]
    exact fun he => hme (he ▸ hn)
  rw [filter_movable_moved hu hA, List.filter_cons, if_pos (by simp [hp, hm])]

theorem moveLoop_along (hw : limit = none ∨ ∀ n, worth n = 1) (tokens : List Name)
    (hn : tokens.Nodup) (moved : Int)
    (t : Ledger) (hd : destination ∈ t.dirs) :
    let L := chosen limit moved (tokens.filter fun n => pick n && movable source destination t n)
    Along quiet (fun u => ∃ j, Moved source destination (L.take j) t u)
      (fun value u => value = moved + (L.map worth).sum ∧ Moved source destination L t u)
      (moveLoop source destination pick worth limit tokens moved) t := by
  induction tokens generalizing moved t with
  | nil =>
    have he : chosen limit moved [] = [] := by cases limit <;> simp [chosen]
    simp only [List.filter_nil, he]
    exact ⟨⟨0, Moved.refl t⟩, (Int.add_zero moved).symm, Moved.refl t⟩
  | cons token tokens ih =>
    obtain ⟨hme, hn⟩ := List.nodup_cons.mp hn
    have here : ∀ L : List Name, ∃ j, Moved source destination (L.take j) t t :=
      fun L => ⟨0, Moved.refl t⟩
    unfold moveLoop
    split
    next hl =>
      simp only [chosen_stop hl]
      exact ⟨⟨0, Moved.refl t⟩, (Int.add_zero moved).symm, Moved.refl t⟩
    next hl =>
      split
      next hp =>
        by_cases hds : (destination, token) ∈ t.files
        · have hm : movable source destination t token = false := by simp [movable, hds]
          simp only [List.filter_cons, hm, Bool.and_false, Bool.false_eq_true, if_false]
          refine .perform (here _) fun _ => ?_
          rw [quiet_exist hds]
          exact ih hn moved t hd
        · refine .perform (here _) fun _ => ?_
          rw [quiet_not_exist hds]
          refine .perform (here _) fun _ => ?_
          by_cases hs : (source, token) ∈ t.files
          · have hm : movable source destination t token = true := by simp [movable, hds, hs]
            obtain ⟨hok, hmv, hdi⟩ := quiet_rename hs hd
            rw [hok]
            have hL := chosen_next hl (hw.imp_right fun h => congrArg (moved + ·) (h token)) token
            have hr := ih hn (moved + worth token) _ (hdi ▸ hd)
            simp only [filter_movable_cons pick hp hm hme hmv, hL]
            refine .weaken (hr.imp ?_) ?_
            · intro value u _ hu
              refine ⟨?_, hmv.trans hu.2 (movable_ne hm)⟩
              rw [hu.1, List.map_cons, List.sum_cons]
              omega
            · rintro u ⟨j, hu⟩
              exact ⟨j + 1, hmv.trans hu (movable_ne hm)⟩
          · have hm : movable source destination t token = false := by simp [movable, hs]
            simp only [List.filter_cons, hm, Bool.and_false, Bool.false_eq_true, if_false]
            rw [quiet_rename_missing hs]
            exact ih hn moved t hd
      next hp =>
        simp only [List.filter_cons, hp, Bool.false_and, Bool.false_eq_true, if_false]
        exact ih hn moved t hd

def moveList (source destination : Place) (pick : Name → Bool) (limit : Option Int) (s : Ledger) :
    List Name :=
  chosen limit 0 ((s.names source).filter fun n => pick n && movable source destination s n)

theorem names_nodup (s : Ledger) (p : Place) : (s.names p).Nodup :=
  sortNames_nodup _

theorem names_eq_nil (h : p ∉ s.dirs) : s.names p = [] := by
  apply List.eq_nil_iff_forall_not_mem.mpr
  intro n hn
  exact h (s.rooted _ (mem_names.mp hn))

theorem rmdir_files (p : Place) (s : Ledger) : (quiet (.rmdir p) () s).2.files = s.files := by
  unfold quiet step
  dsimp only
  split_ifs <;> rfl

theorem scanOptional_along {I : Ledger → Prop} {Q : Except Failure (List Name) → Ledger → Prop}
    (hs : I s) (hq : Q (.ok (s.names p)) s) : Along quiet I Q (scanOptional p) s := by
  refine .perform hs fun _ => ?_
  by_cases hp : p ∈ s.dirs
  · rw [quiet_scan hp]
    exact ⟨hs, hq⟩
  · rw [quiet_scan_missing hp]
    rw [names_eq_nil hp] at hq
    exact ⟨hs, hq⟩

theorem moveHolder_along (hw : limit = none ∨ ∀ n, worth n = 1) (s : Ledger) :
    Along quiet (fun u => ∃ j, Moved source destination
    ((moveList source destination pick limit s).take j) s u)
      (fun r u => r = .ok ((moveList source destination pick limit s).map worth).sum ∧
        Moved source destination (moveList source destination pick limit s) s u)
      (moveHolder source destination pick worth limit) s := by
  have here : ∃ j, Moved source destination ((moveList source destination pick limit s).take j) s
    s :=
    ⟨0, Moved.refl s⟩
  refine .perform here fun _ => ?_
  by_cases hs : source ∈ s.dirs
  · rw [quiet_isDir hs]
    refine .perform here fun _ => ?_
    have hy : quiet (.mkdir destination) () s = (.ok (), s.withDir destination) := rfl
    rw [hy]
    refine .andThen (scanOptional_along here ?_)
    refine .bind ((moveLoop_along hw _ (names_nodup s source) 0 (s.withDir destination)
      List.mem_cons_self).imp fun moved u hu hL => ?_)
    refine .perform hu fun _ => ?_
    have he := Moved.of_files_eq hL.2 (rmdir_files source u)
    exact ⟨⟨_, by rw [List.take_length]; exact he⟩, by rw [hL.1, Int.zero_add]; rfl, he⟩
  · have hL : moveList source destination pick limit s = [] := by
      cases limit <;> simp [moveList, chosen, names_eq_nil hs]
    rw [quiet_not_isDir hs]
    refine ⟨here, ?_⟩
    rw [hL]
    exact ⟨rfl, Moved.refl s⟩

theorem namedLoop_along (names : List Name) (hn : names.Nodup) (done : Nat) (t : Ledger)
    (hd : destination ∈ t.dirs) :
    let L := names.filter fun n => true && movable source destination t n
    Along quiet (fun u => ∃ j, Moved source destination (L.take j) t u)
      (fun _ u => Moved source destination L t u) (namedLoop source destination names done) t := by
  induction names generalizing done t with
  | nil => exact ⟨⟨0, Moved.refl t⟩, Moved.refl t⟩
  | cons name names ih =>
    obtain ⟨hme, hn⟩ := List.nodup_cons.mp hn
    have here : ∀ L : List Name, ∃ j, Moved source destination (L.take j) t t :=
      fun L => ⟨0, Moved.refl t⟩
    have hs : movable source destination t name = false →
        ((name :: names).filter fun n => true && movable source destination t n) =
          names.filter fun n => true && movable source destination t n := by
      intro hm
      rw [List.filter_cons, if_neg (by simp [hm])]
    refine .perform (here _) fun _ => ?_
    by_cases hds : (destination, name) ∈ t.files
    · rw [quiet_exist hds, hs (by simp [movable, hds])]
      refine .perform (here _) fun _ => ?_
      by_cases hsr : (source, name) ∈ t.files
      · rw [quiet_exist hsr]
        exact ih hn done t hd
      · rw [quiet_not_exist hsr]
        exact ih hn (done + 1) t hd
    · rw [quiet_not_exist hds]
      refine .perform (here _) fun _ => ?_
      by_cases hsr : (source, name) ∈ t.files
      · have hm : movable source destination t name = true := by simp [movable, hds, hsr]
        rw [quiet_exist hsr]
        refine .perform (here _) fun _ => ?_
        obtain ⟨hok, hmv, hdi⟩ := quiet_rename hsr hd
        have hL := filter_movable_cons (fun _ => true) rfl hm hme hmv
        rw [hok, hL]
        refine ((ih hn (done + 1) _ (hdi ▸ hd)).imp fun _ u _ hu =>
          hmv.trans hu (movable_ne hm)).weaken ?_
        rintro u ⟨j, hu⟩
        exact ⟨j + 1, hmv.trans hu (movable_ne hm)⟩
      · rw [quiet_not_exist hsr, hs (by simp [movable, hsr])]
        exact ih hn done t hd

end PrismaBuild.ResourceLedger
