import PrismaBuild.LedgerWithin

namespace PrismaBuild.ResourceLedger

open Prog Ledger List

def tokensIn (s : Ledger) (p : Place) : List Name := (s.names p).filter isToken

variable {n : Name} {p : Place} {o : LedgerOp}

theorem mem_tokensIn {s : Ledger} : n ∈ tokensIn s p ↔ (p, n) ∈ s.files ∧ isToken n = true := by
  rw [tokensIn, mem_filter, mem_names]

theorem tokensIn_of_not_dir {s : Ledger} (h : p ∉ s.dirs) : tokensIn s p = [] := by
  rw [tokensIn, names_eq_nil h, filter_nil]

theorem tokensIn_nodup (s : Ledger) (p : Place) : (tokensIn s p).Nodup := (names_nodup s p).filter _

def Hands (source destination : Place) : LedgerOp → Prop
  | .rename p n q m => p = source ∧ q = destination ∧ n = m
  | o => o.TouchesNoFile

variable {source destination : Place} {s : Ledger}

theorem hands_of_touchesNoFile (o : LedgerOp) (h : o.TouchesNoFile) :
    Hands source destination o := by
  cases o with
  | create _ _ | rename _ _ _ _ | unlink _ _ => exact absurd h id
  | _ => trivial

theorem Hands.within {G : Place → Prop} (hs : G source) (hd : G destination)
    (h : Hands source destination o) : Within G o := by
  cases o with
  | rename p n q m =>
    obtain ⟨rfl, rfl, rfl⟩ := h
    exact ⟨hs, hd, rfl⟩
  | create _ _ | unlink _ _ => exact absurd h id
  | _ => trivial

theorem Hands.step_files (h : Hands source destination o) (f : Option Fault) (s : Ledger) :
    (step o f s).2.files = s.files ∨
      ∃ n, (source, n) ∈ s.files ∧ (step o f s).2.files = (destination, n) :: s.files.filter
      (fun e => e ≠ (source, n)) := by
  obtain he | ⟨p, n, rfl, -, -⟩ | ⟨p, n, q, m, rfl, hn, he⟩ | ⟨p, n, rfl, -⟩ :=
    Ledger.step_files o f s
  · exact .inl he
  · exact absurd h id
  · obtain ⟨rfl, rfl, rfl⟩ := h
    exact .inr ⟨n, hn, he⟩
  · exact absurd h id

theorem Hands.arrived (h : Hands source destination o) (hne : source ≠ destination)
    (f : Option Fault) (hn : (destination, n) ∈ s.files) :
    (destination, n) ∈ (step o f s).2.files := by
  obtain he | ⟨m, -, he⟩ := h.step_files f s
  · rwa [he]
  · rw [he]
    have ho : (destination, n) ≠ (source, m) := fun heq => hne (Prod.mk.inj heq).1.symm
    exact .tail _ (mem_filter.mpr ⟨hn, decide_eq_true ho⟩)

theorem Hands.elsewhere (h : Hands source destination o) (f : Option Fault)
    (hs : p ≠ source) (hd : p ≠ destination) (n : Name) : (p, n) ∈ (step o f s).2.files ↔
    (p, n) ∈ s.files := by
  obtain he | ⟨m, -, he⟩ := h.step_files f s
  · rw [he]
  · rw [he]
    simp [hs, hd]

theorem tokensIn_congr {t : Ledger} (h : ∀ n, (p, n) ∈ t.files ↔ (p, n) ∈ s.files) :
    (tokensIn t p).length = (tokensIn s p).length := by
  refine ((perm_ext_iff_of_nodup (tokensIn_nodup t p) (tokensIn_nodup s p)).mpr fun n =>
    ?_).length_eq
  rw [mem_tokensIn, mem_tokensIn, h]

theorem Hands.tokensIn_le (h : Hands source destination o) (f : Option Fault) :
    (tokensIn (step o f s).2 destination).length ≤ (tokensIn s destination).length + 1 := by
  obtain he | ⟨m, -, he⟩ := h.step_files f s
  · rw [tokensIn_congr (s := s) fun n => by rw [he]]
    omega
  · have hs : tokensIn (step o f s).2 destination ⊆ m :: tokensIn s destination := by
      intro n hn
      obtain ⟨hin, ht⟩ := mem_tokensIn.mp hn
      rw [he, mem_cons] at hin
      rcases hin with heq | hin
      · rw [(Prod.mk.inj heq).2]
        exact .head _
      · exact .tail _ (mem_tokensIn.mpr ⟨mem_of_mem_filter hin, ht⟩)
    exact (subperm_of_subset (tokensIn_nodup _ _) hs).length_le

section

variable {a b : Name}

theorem transferCount_hands (a b : Name) (count : Int) :
    Issues (Hands (.held a) (.held b)) (transferCount a b count) := by
  unfold transferCount
  split_ifs
  · trivial
  · trivial
  · trivial
  · exact MoveCall.moveHolder_issues hands_of_touchesNoFile (fun _ => ⟨rfl, rfl, rfl⟩) _ _ _

theorem step_touchesNoFile {o : LedgerOp} (h : o.TouchesNoFile) (f : Option Fault) (s : Ledger) :
    (step o f s).2.files = s.files := by
  obtain he | ⟨p, n, rfl, -, -⟩ | ⟨p, n, q, m, rfl, -, -⟩ | ⟨p, n, rfl, -⟩ :=
    Ledger.step_files o f s
  · exact he
  all_goals exact absurd h id

theorem tokensIn_of_files_eq {t : Ledger} (h : t.files = s.files) (p : Place) :
    (tokensIn t p).length = (tokensIn s p).length :=
  tokensIn_congr fun n => by rw [h]

theorem Issues.sameFiles {α : Type} {p : LedgerProg α} {I : Ledger → Prop}
    (h : Issues LedgerOp.TouchesNoFile p)
    (hI : ∀ u, u.files = s.files → I u) : Along step I (fun _ u => u.files = s.files) p s := by
  have hs : ∀ o f t, LedgerOp.TouchesNoFile o → t.files = s.files →
    (step o f t).2.files = s.files :=
    fun o f t ho ht => (step_touchesNoFile ho f t).trans ht
  exact ((h.along hs rfl).imp fun _ _ hu _ => hu).weaken hI

theorem rename_error {p q : Place} {n m : Name} {f : Option Fault} {e : Failure}
    (h : (step (.rename p n q m) f s).1 = .error e) : (step (.rename p n q m) f s).2 = s := by
  cases f with
  | some f => rfl
  | none =>
    by_cases hc : (p, n) ∈ s.files ∧ q ∈ s.dirs
    · simp [step, hc] at h
    · simp [step, hc]

variable {bound : Nat} {count : Int}

theorem moveLoop_bounded {pick : Name → Bool} (tokens : List Name) {moved : Int}
    (h : (tokensIn s destination).length + (count - moved).toNat ≤ bound) :
    Along step (fun u => (tokensIn u destination).length ≤ bound) (fun _ _ => True)
      (moveLoop source destination pick (fun _ => 1) (some count) tokens moved) s := by
  induction tokens generalizing moved s with
  | nil => exact ⟨by omega, trivial⟩
  | cons token tokens ih =>
    unfold moveLoop
    split
    next => exact ⟨by omega, trivial⟩
    next hl =>
      have hlt : moved < count := by simpa using hl
      split
      · refine .perform (by omega) fun f => ?_
        have hs := tokensIn_of_files_eq (step_touchesNoFile (o := .exist destination token) trivial
          f s) destination
        generalize step (.exist destination token) f s = r at hs ⊢
        split
        · exact ih (by omega)
        · refine .perform (by omega) fun f => ?_
          have hands : Hands source destination (.rename source token destination token) :=
            ⟨rfl, rfl, rfl⟩
          have ho := hands.tokensIn_le (s := r.2) f
          split
          next e he =>
            have hsa := rename_error he
            rw [hsa]
            exact ih (by omega)
          next => exact ih (by omega)
      · exact ih h

theorem transferCount_bounded (h : (tokensIn s (.held b)).length + count.toNat ≤ bound) :
    Along step (fun u => (tokensIn u (.held b)).length ≤ bound) (fun _ _ => True)
    (transferCount a b count) s := by
  have hh : ∀ u : Ledger, u.files = s.files → (tokensIn u (.held b)).length ≤ bound := by
    intro u hu
    rw [tokensIn_of_files_eq hu]
    omega
  unfold transferCount
  split_ifs
  · exact ⟨hh s rfl, trivial⟩
  · exact ⟨hh s rfl, trivial⟩
  · exact ⟨hh s rfl, trivial⟩
  · have hf : Issues LedgerOp.TouchesNoFile (isDir (.held a)) := .perform trivial
    refine .bind ((Issues.sameFiles hf hh).imp fun found u _ hu => ?_)
    split
    · have hm : Issues LedgerOp.TouchesNoFile (mkdir (.held b)) := .perform trivial
      refine .andThen ((Issues.sameFiles hm fun v hv => hh v (hv.trans hu)).imp ?_)
      intro made v _ hv
      cases made with
      | error e => trivial
      | ok _ =>
        have hvs := hv.trans hu
        have hs : Issues LedgerOp.TouchesNoFile (scanOptional (.held a)) := by
          refine .bind (.perform trivial) fun r => ?_
          split <;> trivial
        refine .andThen ((Issues.sameFiles hs fun w hw => hh w (hw.trans hvs)).imp ?_)
        intro listing w _ hw
        cases listing with
        | error e => trivial
        | ok listing =>
          have hc : (tokensIn w (.held b)).length + (count - 0).toNat ≤ bound := by
            rw [tokensIn_of_files_eq (hw.trans hvs), Int.sub_zero]
            exact h
          refine Along.bind ((moveLoop_bounded listing hc).imp fun moved x hx _ => ?_)
          refine Along.perform hx fun f => ?_
          have he := tokensIn_of_files_eq (step_touchesNoFile (o := .rmdir (.held a)) trivial f x)
            (.held b)
          exact ⟨he.trans_le hx, trivial⟩
    · exact ⟨hh u hu, trivial⟩

end

end PrismaBuild.ResourceLedger
