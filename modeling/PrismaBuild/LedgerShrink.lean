import PrismaBuild.LedgerBounded

namespace PrismaBuild.ResourceLedger

open Prog Ledger List

/-- Holder directories and the marker listings may be unreadable; nothing else fails. -/
def blind (hidden : LedgerOp → Option Fault) (o : LedgerOp) (_ : Unit) (s : Ledger) :
    o.Answer × Ledger :=
  step o (match o with
    | .statDir p => hidden (.statDir p)
    | .scan p => hidden (.scan p)
    | _ => none) s

def Meets {α : Type} (hidden : LedgerOp → Option Fault) (Q : α → Ledger → Prop) (p : LedgerProg α)
    (s : Ledger) : Prop :=
  Along (blind hidden) (fun _ => True) Q p s

def custody (s : Ledger) : List Name := s.holderNames.flatMap fun h => tokensIn s (.held h)

def freeOf (s : Ledger) (kind : Name) : Nat := (s.names .free).countP (ofKind kind)
def heldOf (s : Ledger) (kind : Name) : Nat := (custody s).countP (ofKind kind)

def totalOf (s : Ledger) (kind : Name) : Nat := freeOf s kind + heldOf s kind

def Cleared (L : List Name) (s t : Ledger) : Prop :=
  ∀ p n, (p, n) ∈ t.files ↔ (p, n) ∈ s.files ∧ ¬ ((p = .free ∨ p = .minted) ∧ n ∈ L)

section

variable {L L' : List Name} {s t u : Ledger}

theorem Cleared.refl (s : Ledger) : Cleared [] s s := fun p n => by simp

theorem Cleared.trans (hst : Cleared L s t) (htu : Cleared L' t u) : Cleared (L ++ L') s u := by
  intro p n
  rw [htu p n, hst p n, mem_append]
  tauto

theorem Cleared.mem_held (h : Cleared L s t) {holder n : Name} : (.held holder, n) ∈ t.files ↔
    (.held holder, n) ∈ s.files := by
  rw [h]
  simp

theorem Cleared.countP_free (h : Cleared L s t) (hL : L.Nodup) (hf : ∀ n ∈ L, (.free, n) ∈ s.files)
    (P : Name → Bool) :
    (t.names .free).countP P + L.countP P = (s.names .free).countP P := by
  have hno : (t.names .free ++ L).Nodup := by
    refine nodup_append.mpr ⟨names_nodup t _, hL, fun a ha b hb hab => ?_⟩
    have hm := ((h .free a).mp (mem_names.mp ha)).2
    exact hm ⟨.inl rfl, hab ▸ hb⟩
  have hp : (t.names .free ++ L).Perm (s.names .free) := by
    refine (perm_ext_iff_of_nodup hno (names_nodup s _)).mpr fun n => ?_
    rw [mem_append, mem_names, mem_names, h]
    constructor
    · rintro (⟨hn, -⟩ | hn)
      · exact hn
      · exact hf n hn
    · intro hn
      by_cases hm : n ∈ L
      · exact .inr hm
      · exact .inl ⟨hn, fun hc => hm hc.2⟩
  rw [← countP_append, hp.countP_eq]

theorem Cleared.names_free (h : Cleared L s t) :
    t.names .free = (s.names .free).filter (· ∉ L) := by
  refine sortNames_eq ((names_nodup s _).filter _) ((sortNames_pairwise _).filter _) fun n => ?_
  have hm : n ∈ ((t.files.filter fun e => e.1 = .free).map Prod.snd) ↔ (.free, n) ∈ t.files := by
    rw [← mem_names, Ledger.names, mem_sortNames]
  rw [hm, h, mem_filter, mem_names]
  simp

end

section

variable {hidden : LedgerOp → Option Fault} {s : Ledger}

def Listed (hidden : LedgerOp → Option Fault) (s : Ledger) (h : Name)
    (r : Except Failure (List Name)) : Prop :=
  (∃ listing, r = .ok listing ∧ listing.filter isToken = tokensIn s (.held h)) ∨
    r = .error .noent ∧ tokensIn s (.held h) = [] ∨
    (∃ e, r = .error (.fault e)) ∧ ¬ (hidden (.statDir (.held h)) = none ∧
    hidden (.scan (.held h)) = none)

theorem scanRequired_cases (p : Place) :
    Meets hidden (fun r t => t = s ∧ (r = .ok (s.names p) ∨ r = .error .noent ∧ p ∉ s.dirs ∨
      (∃ e, r = .error (.fault e)) ∧ hidden (.scan p) ≠ none)) (scanRequired p) s := by
  refine ⟨trivial, fun _ => ⟨trivial, ?_⟩⟩
  have hs : blind hidden (.scan p) () s = step (.scan p) (hidden (.scan p)) s := rfl
  rw [hs]
  cases hidden (.scan p) with
  | some e => exact ⟨rfl, .inr (.inr ⟨⟨e, rfl⟩, nofun⟩)⟩
  | none =>
    by_cases hd : p ∈ s.dirs
    · exact ⟨rfl, .inl (if_pos hd)⟩
    · exact ⟨rfl, .inr (.inl ⟨if_neg hd, hd⟩)⟩

theorem holderListing_meets (h : Name) : Meets hidden (fun r t => t = s ∧ Listed hidden s h r)
      ((holderIsDir (.held h)).andThen fun
        | false => pure (.ok [])
        | true => scanRequired (.held h)) s := by
  refine .andThen ⟨trivial, fun _ => ⟨trivial, ?_⟩⟩
  have hs : blind hidden (.statDir (.held h)) () s = step (.statDir (.held h))
    (hidden (.statDir (.held h))) s := rfl
  rw [hs]
  cases hst : hidden (.statDir (.held h)) with
  | some e => exact ⟨rfl, .inr (.inr ⟨⟨e, rfl⟩, fun hn => nomatch hst.symm.trans hn.1⟩)⟩
  | none =>
    have ha : step (.statDir (.held h)) none s = (.ok (decide (Place.held h ∈ s.dirs)), s) := rfl
    rw [ha]
    by_cases hd : Place.held h ∈ s.dirs
    · rw [decide_eq_true hd]
      refine (scanRequired_cases (.held h)).imp ?_
      rintro r t - ⟨rfl, rfl | ⟨rfl, hd⟩ | ⟨hf, hs⟩⟩
      · exact ⟨rfl, .inl ⟨_, rfl, rfl⟩⟩
      · exact ⟨rfl, .inr (.inl ⟨rfl, tokensIn_of_not_dir hd⟩)⟩
      · exact ⟨rfl, .inr (.inr ⟨hf, fun hn => hs hn.2⟩)⟩
    · rw [decide_eq_false hd]
      refine ⟨trivial, rfl, .inl ⟨[], rfl, ?_⟩⟩
      rw [tokensIn_of_not_dir hd]
      rfl

structure Censused (hidden : LedgerOp → Option Fault) (s : Ledger) (hs tokens : List Name)
    (unreadable : Bool)
    (r : List Name × Bool) : Prop where
  listed : ∃ seen, seen.Sublist hs ∧ r.1 = tokens ++ seen.flatMap (fun h => tokensIn s (.held h)) ∧
    (r.2 = false → seen = hs)
  flag : r.2 = false → unreadable = false
  readable : (∀ h, hidden (.statDir (.held h)) = none ∧ hidden (.scan (.held h)) = none) →
    r.2 = unreadable

theorem heldTokens_meets (hs tokens : List Name) (unreadable : Bool) :
    Meets hidden (fun r t => t = s ∧ Censused hidden s hs tokens unreadable r)
    (heldTokens hs tokens unreadable) s := by
  induction hs generalizing tokens unreadable with
  | nil => exact ⟨trivial, rfl, ⟨[], .slnil, by simp, fun _ => rfl⟩, fun h => h, fun _ => rfl⟩
  | cons h hs ih =>
    refine .bind ((holderListing_meets h).imp ?_)
    rintro r t - ⟨rfl, hl⟩
    rcases hl with ⟨listing, rfl, hto⟩ | ⟨rfl, he⟩ | ⟨⟨e, rfl⟩, hh⟩
    · refine (ih _ _).imp ?_
      rintro r u - ⟨rfl, ⟨seen, hsu, hr, ha⟩, hfl, hre⟩
      refine ⟨rfl, ⟨h :: seen, hsu.cons_cons h, ?_, fun hf => by rw [ha hf]⟩, hfl, hre⟩
      rw [hr, hto, flatMap_cons, append_assoc]
    · refine (ih _ _).imp ?_
      rintro r u - ⟨rfl, ⟨seen, hsu, hr, ha⟩, hfl, hre⟩
      refine ⟨rfl, ⟨h :: seen, hsu.cons_cons h, ?_, fun hf => by rw [ha hf]⟩, hfl, hre⟩
      rw [hr, flatMap_cons, he, nil_append]
    · refine (ih _ _).imp ?_
      rintro r u - ⟨rfl, ⟨seen, hsu, hr, -⟩, hfl, -⟩
      have ht : r.2 ≠ false := fun hf => Bool.noConfusion (hfl hf)
      exact ⟨rfl, ⟨seen, hsu.cons h, hr, fun hf => absurd hf ht⟩, fun hf => absurd hf ht,
        fun ha => absurd (ha h) hh⟩

end

section

variable {hidden : LedgerOp → Option Fault} {s : Ledger}

theorem unlinkMissingOk_meets (p : Place) (n : Name) :
    Meets hidden (fun r t => r = .ok () ∧ ∀ q m, (q, m) ∈ t.files ↔ (q, m) ∈ s.files ∧
    (q, m) ≠ (p, n)) (unlinkMissingOk p n) s := by
  refine ⟨trivial, fun _ => ?_⟩
  have hs : blind hidden (.unlink p n) () s = step (.unlink p n) none s := rfl
  by_cases hm : (p, n) ∈ s.files
  · have ha : step (.unlink p n) none s = (.ok (), s.drop p n) := if_pos hm
    rw [hs, ha]
    exact ⟨trivial, rfl, fun q m => mem_drop⟩
  · have ha : step (.unlink p n) none s = (.error .noent, s) := if_neg hm
    rw [hs, ha]
    refine ⟨trivial, rfl, fun q m => ⟨fun h => ⟨h, ?_⟩, fun h => h.1⟩⟩
    rintro heq
    exact hm (heq ▸ h)

theorem retireTokens_meets (L : List Name) (retired : Nat) (hL : L.Nodup)
    (hf : ∀ n ∈ L, (.free, n) ∈ s.files) :
    Meets hidden (fun r t => r = .ok (retired + L.length) ∧ Cleared L s t) (retireTokens L retired)
      s := by
  induction L generalizing retired s with
  | nil => exact ⟨trivial, rfl, Cleared.refl s⟩
  | cons token L ih =>
    obtain ⟨hne, hL⟩ := nodup_cons.mp hL
    refine .andThen ((unlinkMissingOk_meets .minted token).imp ?_)
    rintro r t - ⟨rfl, ht⟩
    have hth := (ht _ _).mpr ⟨hf token (.head _), nofun⟩
    refine ⟨trivial, fun _ => ?_⟩
    have hst : blind hidden (.unlink .free token) () t = (.ok (), t.drop .free token) := if_pos hth
    rw [hst]
    have hg : Cleared [token] s (t.drop .free token) := by
      intro p n
      rw [mem_drop, ht]
      simp only [mem_singleton, ne_eq, Prod.mk.injEq]
      tauto
    have hs : ∀ n ∈ L, (.free, n) ∈ (t.drop .free token).files := by
      intro n hn
      refine (hg .free n).mpr ⟨hf n (.tail _ hn), fun hc => ?_⟩
      rw [mem_singleton.mp hc.2] at hn
      exact hne hn
    refine (ih (retired + 1) hL hs).imp ?_
    rintro r u - ⟨rfl, hu⟩
    refine ⟨?_, hg.trans hu⟩
    rw [length_cons, Nat.add_right_comm, Nat.add_assoc]

def excessAt (H : List Name) (bound : Option (Option (List Name × List Name))) (t : Ledger)
    (d : Name × Int) : Nat :=
  retireExcess d.1 d.2.toNat ((t.names .free).filter (ofKind d.1)) H bound

/-- No free token is of the kind and of another that is asked for. -/
def Apart (t : Ledger) (kinds : List (Name × Int)) (kind : Name) : Prop :=
  ∀ d ∈ kinds, d.1 ≠ kind → ∀ n, (.free, n) ∈ t.files → ofKind kind n = true → ofKind d.1 n = false

theorem length_filter_free (t : Ledger) (kind : Name) :
    ((t.names .free).filter (ofKind kind)).length = freeOf t kind :=
  countP_eq_length_filter.symm

def highest (t : Ledger) (kind : Name) (excess : Nat) : List Name :=
  ((t.names .free).filter (ofKind kind)).reverse.take excess

variable {excess : Nat} {t u v : Ledger} {kind : Name} {d : Name × Int} {kinds : List (Name × Int)}

theorem mem_highest {kind n : Name} (h : n ∈ highest t kind excess) : (.free, n) ∈ t.files ∧
    ofKind kind n = true := by
  obtain ⟨hm, hk⟩ := mem_filter.mp (mem_reverse.mp (mem_of_mem_take h))
  exact ⟨mem_names.mp hm, hk⟩

theorem highest_nodup (t : Ledger) (kind : Name) (excess : Nat) : (highest t kind excess).Nodup :=
  (nodup_reverse.mpr ((names_nodup t _).filter _)).sublist (take_sublist _ _)

theorem Cleared.freeOf_highest (h : Cleared (highest t kind excess) t u) :
    freeOf u kind = freeOf t kind - excess := by
  have hc := h.countP_free (highest_nodup t kind excess) (fun n hn => (mem_highest hn).1)
    (ofKind kind)
  have ha : (highest t kind excess).countP (ofKind kind) = min excess (freeOf t kind) := by
    rw [countP_eq_length.mpr fun n hn => (mem_highest hn).2, highest, length_take, length_reverse,
      length_filter_free]
  rw [ha] at hc
  unfold freeOf at hc ⊢
  omega

theorem Cleared.filter_free {L : List Name} (h : Cleared L t u)
    (hL : ∀ n ∈ L, ofKind kind n = false) :
    (u.names .free).filter (ofKind kind) = (t.names .free).filter (ofKind kind) := by
  rw [h.names_free, filter_filter]
  refine filter_congr fun n _ => ?_
  cases hk : ofKind kind n with
  | false => simp
  | true =>
    have ho : n ∉ L := fun hn => by simp [hL n hn] at hk
    simp [ho]

/-- Nothing is gone but free tokens of these kinds, with their markers. -/
def Freed (kinds : List (Name × Int)) (t u : Ledger) : Prop :=
  ∃ L, L.Nodup ∧ (∀ n ∈ L, (.free, n) ∈ t.files ∧ ∃ d ∈ kinds, ofKind d.1 n = true) ∧ Cleared L t u

theorem Freed.refl (kinds : List (Name × Int)) (t : Ledger) :
    Freed kinds t t := ⟨[], .nil, nofun, Cleared.refl t⟩

theorem Freed.cons
    (hf : Cleared (highest t d.1 excess) t v) (hr : Freed kinds v u) : Freed (d :: kinds) t u := by
  obtain ⟨L, hno, hm, hc⟩ := hr
  refine ⟨_, ?_, fun n hn => ?_, hf.trans hc⟩
  · refine nodup_append.mpr ⟨highest_nodup _ _ _, hno, fun a ha b hb hab => ?_⟩
    exact ((hf .free b).mp (hm b hb).1).2 ⟨.inl rfl, hab ▸ ha⟩
  · rcases mem_append.mp hn with hn | hn
    · exact ⟨(mem_highest hn).1, d, .head _, (mem_highest hn).2⟩
    · obtain ⟨ht, e, he, hk⟩ := hm n hn
      exact ⟨((hf .free n).mp ht).1, e, .tail _ he, hk⟩

structure Shrunk (H : List Name) (bound : Option (Option (List Name × List Name)))
    (kinds : List (Name × Int)) (t u : Ledger) :
    Prop where
  nonneg : ∀ d ∈ kinds, 0 ≤ d.2
  freed : Freed kinds t u
  each : ∀ d ∈ kinds, ∃ L v, Cleared L t v ∧ freeOf u d.1 ≤ freeOf v d.1 - excessAt H bound v d
  apart : (kinds.map Prod.fst).Nodup → ∀ d ∈ kinds, Apart t kinds d.1 →
    freeOf u d.1 = freeOf t d.1 - excessAt H bound t d

theorem Shrunk.cons {H : List Name} {bound : Option (Option (List Name × List Name))} (hd : 0 ≤ d.2)
    (hfi : Cleared (highest t d.1 (excessAt H bound t d)) t v)
    (hr : Shrunk H bound kinds v u) : Shrunk H bound (d :: kinds) t u := by
  obtain ⟨L, hno, hm, hcl⟩ := hr.freed
  have hde := hfi.freeOf_highest
  have hl := hcl.countP_free hno (fun n hn => (hm n hn).1)
  refine ⟨forall_mem_cons.mpr ⟨hd, hr.nonneg⟩, .cons hfi hr.freed, fun e he =>
    ?_, fun hke e he ha => ?_⟩
  · rcases mem_cons.mp he with rfl | he
    · have hle := hl (ofKind e.1)
      refine ⟨[], t, Cleared.refl t, ?_⟩
      rw [← hde]
      unfold freeOf
      omega
    · obtain ⟨L', w, hw, hle⟩ := hr.each e he
      exact ⟨_, w, hfi.trans hw, hle⟩
  · rw [map_cons] at hke
    obtain ⟨hnew, hke⟩ := nodup_cons.mp hke
    rcases mem_cons.mp he with rfl | he
    · -- the later kinds delete none of its tokens
      have hnon : L.countP (ofKind e.1) = 0 := by
        refine countP_eq_zero.mpr fun n hn hk => ?_
        obtain ⟨ht, e', he', hk'⟩ := hm n hn
        have hne : e'.1 ≠ e.1 := fun heq => hnew (heq ▸ mem_map_of_mem he')
        have hf := ((hfi .free n).mp ht).1
        rw [ha e' (.tail _ he') hne n hf hk] at hk'
        cases hk'
      have hsa := hl (ofKind e.1)
      rw [← hde]
      unfold freeOf
      omega
    · -- the first kind has deleted none of its tokens
      have hne : d.1 ≠ e.1 := fun heq => hnew (heq ▸ mem_map_of_mem he)
      have ho : ∀ n ∈ highest t d.1 (excessAt H bound t d), ofKind e.1 n = false := by
        intro n hn
        obtain ⟨hf, hk⟩ := mem_highest hn
        cases hb : ofKind e.1 n with
        | false => rfl
        | true =>
          rw [ha d (.head _) hne n hf hb] at hk
          cases hk
      have hli := hfi.filter_free ho
      have hs : Apart v kinds e.1 := fun e' he' hne' n hn hk =>
        ha e' (.tail _ he') hne' n ((hfi .free n).mp hn).1 hk
      have hc := hr.apart hke e he hs
      rw [excessAt, hli] at hc
      rw [hc, ← length_filter_free v, ← length_filter_free t, hli]
      rfl

theorem retireKinds_meets (H : List Name) (bound : Option (Option (List Name × List Name)))
    (kinds : List (Name × Int))
    (retired : List (Name × Nat)) (t : Ledger) :
      Meets hidden (fun r u => (∃ out, r = .ok out) ∧ Shrunk H bound kinds t u ∨
        (∃ d ∈ kinds, d.2 < 0 ∧ r = .error (negativeCapacity d.1)) ∧ Freed kinds t u)
        (retireKinds H bound kinds retired) t := by
  induction kinds generalizing retired t with
  | nil => exact ⟨trivial, .inl ⟨⟨retired, rfl⟩, nofun, Freed.refl _ t, nofun, fun _ => nofun⟩⟩
  | cons d kinds ih =>
    by_cases ht : d.2 < 0
    · rw [retireKinds, if_pos ht]
      exact ⟨trivial, .inr ⟨⟨d, .head _, ht, rfl⟩, Freed.refl _ t⟩⟩
    · rw [retireKinds, if_neg ht]
      refine .andThen ⟨trivial, fun _ => ⟨trivial, ?_⟩⟩
      have hfr := fun n (hn : n ∈ highest t d.1 (excessAt H bound t d)) => (mem_highest hn).1
      refine .andThen ((retireTokens_meets _ 0 (highest_nodup t d.1 (excessAt H bound t d)) hfr).imp
        ?_)
      rintro r v - ⟨rfl, hf⟩
      refine (ih _ v).imp ?_
      rintro r u - (⟨hok, hr⟩ | ⟨⟨e, he, hne, rfl⟩, hr⟩)
      · exact .inl ⟨hok, .cons (Int.not_lt.mp ht) hf hr⟩
      · exact .inr ⟨⟨e, .tail _ he, hne, rfl⟩, .cons hf hr⟩

end

section

variable {hidden : LedgerOp → Option Fault} {s t : Ledger}

def Marked (s : Ledger) : Prop :=
  ∀ n, isToken n = true → ∀ p, (p = .free ∨ ∃ h, p = .held h) → (p, n) ∈ s.files →
    (.minted, n) ∈ s.files

theorem mem_custody {n : Name} : n ∈ custody s ↔ isToken n = true ∧
    ∃ h, (.held h, n) ∈ s.files := by
  rw [custody, mem_flatMap]
  constructor
  · rintro ⟨h, -, hn⟩
    obtain ⟨hin, ht⟩ := mem_tokensIn.mp hn
    exact ⟨ht, h, hin⟩
  · rintro ⟨ht, h, hin⟩
    exact ⟨h, mem_holderNames.mpr (s.rooted _ hin), mem_tokensIn.mpr ⟨hin, ht⟩⟩

theorem custody_nodup (hu : s.Unique) : (custody s).Nodup := by
  refine nodup_flatMap.mpr ⟨fun h _ => tokensIn_nodup s _, ?_⟩
  refine (sortNames_nodup _).imp fun {a b} hne n ha hb => ?_
  obtain ⟨hi, ht⟩ := mem_tokensIn.mp ha
  have hp := hu n ht (.held a) (.held b) nofun nofun hi (mem_tokensIn.mp hb).1
  cases hp
  exact hne rfl

variable {L : List Name}

theorem Cleared.unique (h : Cleared L s t) (hu : s.Unique) : t.Unique :=
  hu.of_subset fun p n _ _ hin => ((h p n).mp hin).1

theorem Cleared.heldOf_eq (h : Cleared L s t) (hu : s.Unique) (kind : Name) :
    heldOf t kind = heldOf s kind := by
  refine ((perm_ext_iff_of_nodup (custody_nodup (h.unique hu)) (custody_nodup hu)).mpr fun n =>
    ?_).countP_eq _
  simp only [mem_custody, h.mem_held]

theorem heldOf_le_unseen (hu : s.Unique) (hm : Marked s) (h : Cleared L s t) (H : List Name)
    (kind : Name) :
    heldOf s kind ≤ ((((s.names .minted).filter (ofKind kind)).filter fun n =>
      n ∉ (t.names .free).filter (ofKind kind) ∧ n ∉ s.names .dead) ++ H).dedup.length := by
  rw [heldOf, countP_eq_length_filter]
  refine (subperm_of_subset ((custody_nodup hu).filter _) fun n hn => ?_).length_le
  obtain ⟨hc, hk⟩ := mem_filter.mp hn
  obtain ⟨ht, holder, hin⟩ := mem_custody.mp hc
  have hma := hm n ht _ (.inr ⟨holder, rfl⟩) hin
  have hfr : n ∉ (t.names .free).filter (ofKind kind) := fun hf => by
    have hf := ((h .free n).mp (mem_names.mp (mem_of_mem_filter hf))).1
    cases hu n ht .free (.held holder) nofun nofun hf hin
  have hde : n ∉ s.names .dead := fun hd => by
    cases hu n ht .dead (.held holder) nofun nofun (mem_names.mp hd) hin
  refine mem_dedup.mpr (mem_append_left _ (mem_filter.mpr ⟨?_, decide_eq_true ⟨hfr, hde⟩⟩))
  exact mem_filter.mpr ⟨mem_names.mpr hma, hk⟩

def Mode (s : Ledger) (H : List Name) (bound : Option (Option (List Name × List Name))) : Prop :=
  bound = none ∧ H = custody s ∨ bound = some none ∨
    bound = some (some (s.names .minted, s.names .dead))

theorem excessAt_custody (d : Name × Int) :
    excessAt (custody s) none t d = freeOf t d.1 + heldOf s d.1 - d.2.toNat := by
  have hh : ((custody s).filter (ofKind d.1)).length = heldOf s d.1 := countP_eq_length_filter.symm
  rw [excessAt, retireExcess, length_filter_free, hh]

theorem Mode.covers {H : List Name} {bound : Option (Option (List Name × List Name))}
    (hmo : Mode s H bound)
    (hu : s.Unique) (hm : Marked s) (h : Cleared L s t) (d : Name × Int) :
    freeOf t d.1 - excessAt H bound t d + heldOf s d.1 ≤ max d.2.toNat (heldOf s d.1) := by
  rcases hmo with ⟨rfl, rfl⟩ | rfl | rfl
  · rw [excessAt_custody]
    omega
  · simp only [excessAt, retireExcess, length_filter_free]
    omega
  · have hb := heldOf_le_unseen hu hm h (H.filter (ofKind d.1)) d.1
    simp only [excessAt, retireExcess, length_filter_free]
    omega

theorem mintedAndDeadNames_meets :
    Meets hidden (fun r t => t = s ∧ (r = .ok (s.names .minted, s.names .dead) ∨ ∃ e, r = .error e))
    mintedAndDeadNames s := by
  refine .andThen ((scanRequired_cases .minted).imp ?_)
  rintro r t - ⟨rfl, rfl | ⟨rfl, -⟩ | ⟨⟨e, rfl⟩, -⟩⟩
  · refine .andThen (.bind ((scanRequired_cases .dead).imp ?_))
    rintro r u - ⟨rfl, rfl | ⟨rfl, hd⟩ | ⟨⟨e, rfl⟩, -⟩⟩
    · exact ⟨trivial, trivial, rfl, .inl rfl⟩
    · rw [names_eq_nil hd]
      exact ⟨trivial, trivial, rfl, .inl rfl⟩
    · exact ⟨trivial, rfl, .inr ⟨_, rfl⟩⟩
  · exact ⟨rfl, .inr ⟨_, rfl⟩⟩
  · exact ⟨rfl, .inr ⟨_, rfl⟩⟩

def Readable (hidden : LedgerOp → Option Fault) : Prop :=
  ∀ h, hidden (.statDir (.held h)) = none ∧ hidden (.scan (.held h)) = none

theorem retireFreeCapacity_meets (capacity : List (Name × Int)) : Meets hidden
      (fun r t => ∃ H bound, Mode s H bound ∧ (Readable hidden → bound = none) ∧
        ((∃ out, r = .ok out) ∧ Shrunk H bound (sortedItems capacity) s t ∨
          (∃ d ∈ sortedItems capacity, d.2 < 0 ∧ r = .error (negativeCapacity d.1)) ∧
          Freed (sortedItems capacity) s t))
      (retireFreeCapacity capacity) s := by
  refine .andThen ⟨trivial, fun _ => ⟨trivial, ?_⟩⟩
  refine .bind ((heldTokens_meets s.holderNames [] false).imp ?_)
  rintro ⟨H, unreadable⟩ t - ⟨rfl, ⟨seen, -, hH, ha⟩, -, hre⟩
  cases unreadable with
  | true =>
    refine .bind (mintedAndDeadNames_meets.imp ?_)
    rintro r u - ⟨rfl, rfl | ⟨e, rfl⟩⟩
    · refine (retireKinds_meets H _ _ _ u).imp fun r w _ hw => ⟨H, _, .inr (.inr rfl), ?_, hw⟩
      exact fun hr => Bool.noConfusion (hre hr)
    · refine (retireKinds_meets H _ _ _ u).imp fun r w _ hw => ⟨H, _, .inr (.inl rfl), ?_, hw⟩
      exact fun hr => Bool.noConfusion (hre hr)
  | false =>
    have hc : H = custody t := by
      rw [show H = _ from hH, ha rfl, nil_append]
      rfl
    exact (retireKinds_meets H _ _ _ t).imp fun r w _ hw => ⟨H, _, .inl ⟨rfl, hc⟩, fun _ => rfl, hw⟩

theorem sortedItems_perm (capacity : List (Name × Int)) : (sortedItems capacity).Perm capacity :=
  perm_insertionSort _ _

theorem Freed.of_sortedItems {capacity : List (Name × Int)} (h : Freed (sortedItems capacity) s t) :
    Freed capacity s t := by
  obtain ⟨L, hno, hm, hc⟩ := h
  refine ⟨L, hno, fun n hn => ?_, hc⟩
  obtain ⟨hf, d, hd, hk⟩ := hm n hn
  exact ⟨hf, d, (sortedItems_perm capacity).mem_iff.mp hd, hk⟩

end

/-- A capacity as it is asked for: every kind once, and each one literal. -/
structure Declared (capacity : List (Name × Int)) : Prop where
  keys : (capacity.map Prod.fst).Nodup
  literal : ∀ d ∈ capacity, globFree d.1 = true

/-- Shrinking deletes nothing but free tokens, and unless a count is negative, which it refuses, it
leaves of every asked kind no more than asked, or than what the holders have, also those it cannot
read. Where it can read every holder, a kind that shares no free token with another asked kind ends
with exactly that. -/
theorem retireFreeCapacity_bounded (s : Ledger) (hu : s.Unique) (hm : Marked s)
    (hidden : LedgerOp → Option Fault)
    (capacity : List (Name × Int)) (hasked : Declared capacity)
      (r : Except Failure (List (Name × Nat))) (t : Ledger)
    (hrun : exec (blind hidden) () (retireFreeCapacity capacity) s = (r, t)) :
    Freed capacity s t ∧ (∀ kind, heldOf t kind = heldOf s kind) ∧
      ((∃ d ∈ capacity, d.2 < 0) → ∃ d ∈ capacity, d.2 < 0 ∧ r = .error (negativeCapacity d.1)) ∧
      ((∀ d ∈ capacity, 0 ≤ d.2) → (∃ retired, r = .ok retired) ∧ ∀ d ∈ capacity,
      totalOf t d.1 ≤ max d.2.toNat (heldOf t d.1) ∧
          (Readable hidden → Apart s capacity d.1 →
          totalOf t d.1 = max (heldOf s d.1) (min (totalOf s d.1) d.2.toNat))) := by
  have hp := sortedItems_perm capacity
  have hme : Meets hidden _ (retireFreeCapacity capacity) s := retireFreeCapacity_meets capacity
  have hen := hme.exec ()
  rw [hrun] at hen
  dsimp only at hen
  obtain ⟨H, bound, hmo, hex, ⟨hok, hs⟩ | ⟨⟨d, hd, hne, rfl⟩, hf⟩⟩ := hen
  · obtain ⟨L, -, -, hc⟩ := hs.freed
    have hh := hc.heldOf_eq hu
    have hn : ∀ d ∈ capacity, 0 ≤ d.2 := fun d hd => hs.nonneg d (hp.mem_iff.mpr hd)
    refine ⟨hs.freed.of_sortedItems, hh, fun ⟨d, hd, hne⟩ => ?_, fun _ =>
      ⟨hok, fun d hd => ⟨?_, ?_⟩⟩⟩
    · exact absurd hne (Int.not_lt.mpr (hn d hd))
    · obtain ⟨L', v, hv, hle⟩ := hs.each d (hp.mem_iff.mpr hd)
      have hcov := hmo.covers hu hm hv d
      rw [totalOf, hh]
      omega
    · intro hr ha
      have hcu : H = custody s := by
        obtain rfl := hex hr
        rcases hmo with ⟨-, rfl⟩ | hno | hno
        · rfl
        · cases hno
        · cases hno
      have hso : Apart s (sortedItems capacity) d.1 := fun e he => ha e (hp.mem_iff.mp he)
      have hco := hs.apart ((hp.map _).nodup_iff.mpr hasked.keys) d (hp.mem_iff.mpr hd) hso
      rw [hex hr, hcu, excessAt_custody] at hco
      rw [totalOf, hh, hco, totalOf]
      omega
  · have ⟨L, _, _, hc⟩ := hf
    refine ⟨hf.of_sortedItems, hc.heldOf_eq hu, fun _ => ⟨d, hp.mem_iff.mp hd, hne, rfl⟩, ?_⟩
    intro hn
    exact absurd hne (Int.not_lt.mpr (hn d (hp.mem_iff.mp hd)))

def stocked (free held : List Name) : Ledger where
  dirs := [.minted, .free, .held ['k']]
  files := (free ++ held).map (Prod.mk .minted) ++ free.map (Prod.mk .free) ++
    held.map (Prod.mk (.held ['k']))
  rooted := by
    intro e he
    simp only [List.mem_append, List.mem_map] at he
    rcases he with (⟨n, -, rfl⟩ | ⟨n, -, rfl⟩) | ⟨n, -, rfl⟩
    · simp
    · simp
    · simp

variable {free held : List Name}

theorem mem_stocked {p : Place} {n : Name} : (p, n) ∈ (stocked free held).files ↔
      p = .minted ∧ (n ∈ free ∨ n ∈ held) ∨ p = .free ∧ n ∈ free ∨ p = .held ['k'] ∧ n ∈ held := by
  simp only [stocked, mem_append, mem_map, Prod.mk.injEq]
  grind

theorem stocked_unique (h : ∀ n ∈ free, n ∉ held) : (stocked free held).Unique := by
  intro n _ p q hp hq hpn hqn
  rw [mem_stocked] at hpn hqn
  grind

theorem stocked_marked (free held : List Name) : Marked (stocked free held) := by
  intro n _ p hp hpn
  rw [mem_stocked] at hpn ⊢
  grind

def allHidden : LedgerOp → Option Fault
  | .statDir (.held _) => some .io
  | _ => none

/-- Three tokens are free and one is with a holder that cannot be read: two free ones go. -/
theorem allHidden_bounded : totalOf (exec (blind allHidden) () (retireFreeCapacity [(['m'], 2)])
      (stocked [tokenName ['m'] 0, tokenName ['m'] 1, tokenName ['m'] 2] [tokenName ['m'] 3])).2
      ['m'] ≤ 2 := by
  have hb := retireFreeCapacity_bounded
    (stocked [tokenName ['m'] 0, tokenName ['m'] 1, tokenName ['m'] 2] [tokenName ['m'] 3])
    (stocked_unique (by decide)) (stocked_marked _ _) allHidden [(['m'], 2)] ⟨by decide, by decide⟩
      _ _ rfl
  exact ((hb.2.2.2 (by decide)).2 _ (.head _)).1.trans (by decide)

/-- A free token that two asked kinds share is deleted for the one and missing for the other; and a
negative count is refused with the tokens in place. -/
theorem retireFreeCapacity_shared :
    (stocked [tokenName ['a'] 0, tokenName ['a', '-', 'b'] 0] []).Unique ∧
      Marked (stocked [tokenName ['a'] 0, tokenName ['a', '-', 'b'] 0] []) ∧
      totalOf (stocked [tokenName ['a'] 0, tokenName ['a', '-', 'b'] 0] []) ['a'] = 2 ∧
      totalOf (exec (blind fun _ => none) () (retireFreeCapacity [(['a'], 2), (['a', '-', 'b'], 0)])
        (stocked [tokenName ['a'] 0, tokenName ['a', '-', 'b'] 0] [])).2 ['a'] = 1 ∧
      (exec (blind fun _ => none) () (retireFreeCapacity [(['a'], -1)])
        (stocked [tokenName ['a'] 0, tokenName ['a', '-', 'b'] 0] [])).1 = .error
        (negativeCapacity ['a']) ∧
      totalOf (exec (blind fun _ => none) () (retireFreeCapacity [(['a'], -1)])
        (stocked [tokenName ['a'] 0, tokenName ['a', '-', 'b'] 0] [])).2 ['a'] = 2 := by
  refine ⟨stocked_unique (by decide), stocked_marked _ _, by decide, by decide, rfl, by decide⟩

end PrismaBuild.ResourceLedger
