import PrismaBuild.LedgerAcquire

namespace PrismaBuild.ResourceLedger

open Prog Ledger List

/-- Operations that rename files between the directories of one set, each under its own name, and
make none. -/
def Within (G : Place → Prop) : LedgerOp → Prop
  | .rename p n q m => G p ∧ G q ∧ n = m
  | o => LeavesTokens o

section

variable {G : Place → Prop} {o : LedgerOp} {p : Place}

theorem LeavesTokens.within (h : LeavesTokens o) : Within G o := by
  cases o with
  | rename p n q m => exact absurd h id
  | _ => exact h

theorem within_of_touchesNoFile (o : LedgerOp) (h : o.TouchesNoFile) : Within G o := by
  cases o with
  | create _ _ | rename _ _ _ _ | unlink _ _ => exact absurd h id
  | _ => trivial

theorem Drains.within {outlet : Place → Prop} (hp : G p) (ho : ∀ r, outlet r → G r)
    (h : Drains outlet p o) : Within G o := by
  cases o with
  | rename q n r m =>
    obtain ⟨rfl, hr, rfl⟩ := h
    exact ⟨hp, ho r hr, rfl⟩
  | _ => exact h

theorem emptyIntoFree_within (hp : G p) (hf : G .free) : Issues (Within G) (emptyIntoFree p) :=
  (emptyIntoFree_drains hf p).mono fun _ => Drains.within hp fun _ hr => hr

theorem commitAcquire_within {key handle : Name} (hk : G (.held key)) (hh : G (.held handle))
    (borrowed : Name → Int) : Issues (Within G) (commitAcquire key handle borrowed) :=
  MoveCall.moveHolder_issues within_of_touchesNoFile (fun _ => ⟨hh, hk, rfl⟩) _ _ _

theorem beginAcquire_within {handle : Name} (hh : G (.held handle)) (hf : G .free)
    (demand : List (Name × Int)) :
    Issues (Within G) (beginAcquire handle demand plainAdmission) := by
  unfold beginAcquire
  dsimp only
  split
  · trivial
  · refine .andThen (.perform (within_of_touchesNoFile _ trivial)) fun _ => ?_
    rw [takeDemand_plain]
    have hm : ∀ n, Within G (.rename .free n (.held handle) n) := fun _ => ⟨hf, hh, rfl⟩
    refine .bind ((takeKinds_issues trivial hm _ _).bind fun _ => trivial) fun ended => ?_
    split
    · trivial
    · exact (emptyIntoFree_within hh hf).andThen fun _ => trivial
    · exact (emptyIntoFree_within hh hf).andThen fun _ => trivial

end

section

variable {G : Place → Prop} {s t : Ledger}

def Lies (G : Place → Prop) (s : Ledger) (n : Name) : Prop := ∃ p, G p ∧ (p, n) ∈ s.files

structure Kept (G : Place → Prop) (s t : Ledger) : Prop where
  unique : t.Unique
  tokens : ∀ n, isToken n = true → (Lies G t n ↔ Lies G s n)
  names : ∀ n, Lies G t n → Lies G s n

theorem Kept.refl (hu : s.Unique) : Kept G s s := ⟨hu, fun _ _ => Iff.rfl, fun _ => id⟩

theorem Kept.trans {u : Ledger} (hst : Kept G s t) (htu : Kept G t u) : Kept G s u :=
  ⟨htu.unique, fun n hn => (htu.tokens n hn).trans (hst.tokens n hn), fun n hn =>
    hst.names n (htu.names n hn)⟩

variable {o : LedgerOp}

theorem Within.harmless (hG : ∀ p, G p → p ≠ .minted) (h : Within G o) : o.Harmless := by
  cases o with
  | create q n => exact absurd h id
  | rename q n r m =>
    obtain ⟨hq, hr, rfl⟩ := h
    exact .inl ⟨rfl, hG q hq, hG r hr⟩
  | _ => trivial

theorem lies_rename {p q : Place} {n : Name} (hp : G p) (hq : G q) (hn : (p, n) ∈ s.files)
    (he : t.files = (q, n) :: s.files.filter (fun e => e ≠ (p, n))) (k : Name) :
    Lies G t k ↔ Lies G s k := by
  constructor
  · rintro ⟨r, hr, hin⟩
    rw [he, mem_cons] at hin
    rcases hin with heq | hin
    · rw [(Prod.mk.inj heq).2]
      exact ⟨p, hp, hn⟩
    · exact ⟨r, hr, mem_of_mem_filter hin⟩
  · rintro ⟨r, hr, hin⟩
    by_cases heq : (r, k) = (p, n)
    · rw [(Prod.mk.inj heq).2]
      exact ⟨q, hq, by rw [he]; exact .head _⟩
    · refine ⟨r, hr, ?_⟩
      rw [he]
      exact .tail _ (mem_filter.mpr ⟨hin, decide_eq_true heq⟩)

theorem Kept.step (hG : ∀ p, G p → p ≠ .minted) (ho : Within G o) (f : Option Fault)
    (h : Kept G s t) :
    Kept G s (step o f t).2 := by
  refine h.trans ⟨h.unique.step (ho.harmless hG) f, fun n hn => ?_, fun n hin => ?_⟩
  · obtain he | ⟨q, m, rfl, -, -⟩ | ⟨q, m, r, m', rfl, hm, he⟩ | ⟨q, m, rfl, he⟩ := step_files o f t
    · unfold Lies
      rw [he]
    · exact absurd ho id
    · obtain ⟨hq, hr, rfl⟩ := ho
      exact lies_rename hq hr hm he n
    · have hne : n ≠ m := by
        rintro rfl
        rw [show isToken n = false from ho] at hn
        cases hn
      unfold Lies
      rw [he]
      simp [hne]
  · obtain he | ⟨q, m, rfl, -, -⟩ | ⟨q, m, r, m', rfl, hm, he⟩ | ⟨q, m, rfl, he⟩ := step_files o f t
    · unfold Lies at hin ⊢
      rwa [he] at hin
    · exact absurd ho id
    · obtain ⟨hq, hr, rfl⟩ := ho
      exact (lies_rename hq hr hm he n).mp hin
    · obtain ⟨p, hp, hme⟩ := hin
      rw [he] at hme
      exact ⟨p, hp, mem_of_mem_filter hme⟩

theorem Issues.kept {α : Type} {prog : LedgerProg α} (hG : ∀ p, G p → p ≠ .minted)
    (h : Issues (Within G) prog)
    (hu : s.Unique) : Along quiet (Kept G s) (fun _ u => Kept G s u) prog s := by
  have hs : ∀ o f t, Within G o → Kept G s t → Kept G s (quiet o f t).2 := fun o _ t ho ht =>
    ht.step hG ho none
  exact (h.along hs (Kept.refl hu)).imp fun _ _ ht _ => ht

end

section

def total (s : Ledger) (places : List Place) (kind : Name) : Nat :=
    (places.map fun p => s.tokens p kind).sum

def tokenNames (s : Ledger) (places : List Place) : List Name :=
    places.flatMap fun p => (s.names p).filter isToken

theorem total_eq_countP (s : Ledger) (places : List Place) (kind : Name) :
    total s places kind = (tokenNames s places).countP (isKind kind) := by
  induction places with
  | nil => rfl
  | cons p places ih =>
    have ht : total s (p :: places) kind = s.tokens p kind + total s places kind := rfl
    rw [ht, ih, tokens_eq_filter, tokenNames, tokenNames, flatMap_cons, countP_append]

variable {places : List Place} {s : Ledger}

theorem mem_tokenNames {n : Name} : n ∈ tokenNames s places ↔ isToken n = true ∧
    ∃ p ∈ places, (p, n) ∈ s.files := by
  simp only [tokenNames, mem_flatMap, mem_filter, mem_names]
  tauto

theorem tokenNames_nodup (hu : s.Unique) (hn : places.Nodup)
    (hm : .minted ∉ places) : (tokenNames s places).Nodup := by
  induction places with
  | nil => exact .nil
  | cons p places ih =>
    obtain ⟨hp, hn⟩ := nodup_cons.mp hn
    obtain ⟨hne, hr⟩ := not_or.mp (fun h => hm (mem_cons.mpr h))
    refine nodup_append.mpr ⟨(names_nodup s p).filter _, ih hn hr, fun a ha b hb he => ?_⟩
    obtain ⟨hin, ht⟩ := mem_filter.mp ha
    obtain ⟨-, q, hq, hin'⟩ := mem_tokenNames.mp hb
    have hqn : q ≠ .minted := fun heq => hr (heq ▸ hq)
    have hpq := hu a ht p q (Ne.symm hne) hqn (mem_names.mp hin) (he ▸ hin')
    exact hp (hpq ▸ hq)

theorem total_congr {s t : Ledger} {places places' : List Place} (hs : s.Unique) (ht : t.Unique)
    (hn : places.Nodup)
    (hn' : places'.Nodup) (hm : .minted ∉ places) (hm' : .minted ∉ places')
    (h : ∀ n, isToken n = true → ((∃ p ∈ places', (p, n) ∈ t.files) ↔
      ∃ p ∈ places, (p, n) ∈ s.files)) (kind : Name) :
    total t places' kind = total s places kind := by
  have hp : (tokenNames t places').Perm (tokenNames s places) := by
    refine (perm_ext_iff_of_nodup (tokenNames_nodup ht hn' hm') (tokenNames_nodup hs hn hm)).mpr
      fun n => ?_
    rw [mem_tokenNames, mem_tokenNames]
    constructor
    · rintro ⟨hto, hin⟩
      exact ⟨hto, (h n hto).mp hin⟩
    · rintro ⟨hto, hin⟩
      exact ⟨hto, (h n hto).mpr hin⟩
  rw [total_eq_countP, total_eq_countP, hp.countP_eq]

end

end PrismaBuild.ResourceLedger
