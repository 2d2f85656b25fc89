import PrismaBuild.LedgerTransfer

namespace PrismaBuild.ResourceLedger

open Prog Ledger

/-- Operations that make no file and leave every token where it is. -/
def LeavesTokens : LedgerOp → Prop
  | .unlink _ n => isToken n = false
  | .create _ _ | .rename _ _ _ _ => False
  | _ => True

/-- Operations that move files only out of one directory, into the directories of an outlet. -/
def Drains (outlet : Place → Prop) (p : Place) : LedgerOp → Prop
  | .rename q n r m => q = p ∧ outlet r ∧ n = m
  | o => LeavesTokens o

def Unheld (r : Place) : Prop := r = .free ∨ r = .dead

theorem LeavesTokens.drains {outlet : Place → Prop} (p : Place) {o : LedgerOp}
    (h : LeavesTokens o) : Drains outlet p o := by
  cases o with
  | rename q n r m => exact absurd h id
  | _ => exact h

theorem isToken_of_isMetadata {n : Name} (h : isMetadata n = true) : isToken n = false := by
  rcases (Bool.or_eq_true _ _).mp h with he | he
  · rw [eq_of_beq he]
    rfl
  · rw [eq_of_beq he]
    rfl

section

theorem scanOptional_leaves (p : Place) : Issues LeavesTokens (scanOptional p) := by
  refine .bind (.perform trivial) fun r => ?_
  split <;> trivial

theorem unlinkMissingOk_leaves (p : Place) {n : Name} (hn : isToken n = false) :
    Issues LeavesTokens (unlinkMissingOk p n) := by
  refine .bind (.perform hn) fun r => ?_
  split <;> trivial

theorem dropEmptyHolder_leaves (p : Place) : Issues LeavesTokens (dropEmptyHolder p) := by
  refine (scanOptional_leaves p).bind fun r => ?_
  split
  · trivial
  · split
    · refine .bind ?_ fun r => ?_
      · exact (unlinkMissingOk_leaves p rfl).andThen fun _ => unlinkMissingOk_leaves p rfl
      · split
        · trivial
        · exact .bind (.perform trivial) fun _ => trivial
    · trivial

theorem unlinkMetadata_leaves (p : Place) (markers : List Name)
    (hm : ∀ n ∈ markers, isMetadata n = true) :
    Issues LeavesTokens (unlinkMetadata p markers) := by
  induction markers with
  | nil => trivial
  | cons marker markers ih =>
    refine (unlinkMissingOk_leaves p (isToken_of_isMetadata (hm marker (.head _)))).andThen fun _ =>
      ?_
    exact ih fun n hn => hm n (.tail _ hn)

theorem makeDead_leaves (dead : Bool) : Issues LeavesTokens (makeDead dead) := by
  cases dead with
  | false => exact .perform trivial
  | true => trivial

end

section

variable {outlet : Place → Prop} {p : Place}

theorem retireHeldTokens_drains (hd : outlet .dead) (want : Int) (tokens : List Name) (taken : Nat)
    (dead : Bool) :
    Issues (Drains outlet p) (retireHeldTokens p want tokens taken dead) := by
  induction tokens generalizing taken dead with
  | nil => trivial
  | cons token tokens ih =>
    unfold retireHeldTokens
    split
    · trivial
    · split
      · exact ih _ _
      · refine ((makeDead_leaves dead).mono fun _ => LeavesTokens.drains p).bind fun made => ?_
        split
        · exact ih _ _
        · refine .bind (.perform ⟨rfl, hd, rfl⟩) fun r => ?_
          split
          · exact ih _ _
          · refine .bind (.perform trivial) fun b => ?_
            split <;> exact ih _ _
          · exact ih _ _

theorem retireHeldKinds_drains (hd : outlet .dead) (kinds : List (Name × Int))
    (destroyed : List (Name × Nat)) (dead : Bool) :
    Issues (Drains outlet p) (retireHeldKinds p kinds destroyed dead) := by
  induction kinds generalizing destroyed dead with
  | nil => trivial
  | cons d rest ih =>
    unfold retireHeldKinds
    split
    · exact ih _ _
    · refine .andThen (.perform trivial) fun listing => ?_
      exact (retireHeldTokens_drains hd _ _ _ _).bind fun r => ih _ _

theorem retireHeld_drains (hd : outlet .dead) (key : Name) (counts : List (Name × Int)) :
    Issues (Drains outlet (.held key)) (retireHeld key counts) := by
  refine .bind (.perform trivial) fun b => ?_
  split
  · refine (retireHeldKinds_drains hd _ _ _).andThen fun destroyed => ?_
    exact ((dropEmptyHolder_leaves _).mono fun _ => LeavesTokens.drains _).bind fun _ => trivial
  · trivial

variable (hfree : outlet .free)

include hfree

theorem returnTokens_drains (pick : Name → Bool) (want : Option Int) (tokens : List Name)
    (released : Nat)
    (incomplete : Bool) : Issues (Drains outlet p)
      (returnTokens p pick want tokens released incomplete) := by
  induction tokens generalizing released incomplete with
  | nil => trivial
  | cons token tokens ih =>
    unfold returnTokens
    split
    · trivial
    · split
      · exact ih _ _
      · refine .bind (.perform ⟨rfl, hfree, rfl⟩) fun r => ?_
        split <;> exact ih _ _

theorem releaseCountKinds_drains (kinds : List (Name × Int)) (released : List (Name × Nat)) :
    Issues (Drains outlet p) (releaseCountKinds p kinds released) := by
  induction kinds generalizing released with
  | nil => trivial
  | cons d rest ih =>
    unfold releaseCountKinds
    split
    · exact ih _
    · refine .andThen (.perform trivial) fun listing => ?_
      exact (returnTokens_drains hfree _ _ _ _ _).bind fun r => ih _

theorem releaseCount_drains (key : Name) (counts : List (Name × Int)) :
    Issues (Drains outlet (.held key)) (releaseCount key counts) := by
  refine .bind (.perform trivial) fun b => ?_
  split
  · refine .andThen (.perform trivial) fun _ => ?_
    refine (releaseCountKinds_drains hfree _ _).andThen fun released => ?_
    exact ((dropEmptyHolder_leaves _).mono fun _ => LeavesTokens.drains _).bind fun _ => trivial
  · trivial

theorem releasePicked_drains (key : Name) (pick : Name → Bool) :
    Issues (Drains outlet (.held key)) (releasePicked key pick) := by
  refine .bind (.perform trivial) fun b => ?_
  split
  · refine .andThen (.perform trivial) fun _ => ?_
    refine ((scanOptional_leaves _).mono fun _ => LeavesTokens.drains _).andThen fun listing => ?_
    exact (returnTokens_drains hfree _ _ _ _ _).bind fun _ => trivial
  · trivial

theorem emptyIntoFree_drains (p : Place) : Issues (Drains outlet p) (emptyIntoFree p) := by
  refine .bind (.perform trivial) fun b => ?_
  split
  · refine .andThen (.perform trivial) fun _ => ?_
    refine ((scanOptional_leaves _).mono fun _ => LeavesTokens.drains _).andThen fun listing => ?_
    refine (returnTokens_drains hfree _ _ _ _ _).bind fun r => ?_
    dsimp only
    split
    · trivial
    · refine ((unlinkMetadata_leaves p _ fun n hn => ?_).mono fun _ =>
        LeavesTokens.drains _).andThen fun _ => ?_
      · exact (List.mem_filter.mp hn).2
      · exact .bind (.perform trivial) fun _ => trivial
  · trivial

end

end PrismaBuild.ResourceLedger
