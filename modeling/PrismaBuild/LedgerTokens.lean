import PrismaBuild.LedgerRun

namespace PrismaBuild.Ledger

open ResourceLedger List

def isKind (kind n : Name) : Bool := isToken n && kindOf n == kind

def tokens (s : Ledger) (p : Place) (kind : Name) : Nat := (s.names p).countP (isKind kind)

def SameTokens (s t : Ledger) : Prop :=
  ∀ p n, isToken n = true → ((p, n) ∈ t.files ↔ (p, n) ∈ s.files)

def Shifted (source destination : Place) (A : List Name) (s t : Ledger) : Prop :=
  ∀ p n, isToken n = true →
    ((p, n) ∈ t.files ↔ p = destination ∧ n ∈ A ∨ (p, n) ∈ s.files ∧ ¬ (p = source ∧ n ∈ A))

variable {source destination : Place} {A : List Name} {s t u : Ledger}

theorem Moved.shifted (h : Moved source destination A s t) : Shifted source destination A s t :=
  fun p n _ => h p n

theorem SameTokens.refl (s : Ledger) : SameTokens s s := fun _ _ _ => Iff.rfl

theorem SameTokens.trans (hst : SameTokens s t) (htu : SameTokens t u) : SameTokens s u :=
  fun p n hn => (htu p n hn).trans (hst p n hn)

theorem Shifted.then_same (h : Shifted source destination A s t) (htu : SameTokens t u) :
    Shifted source destination A s u :=
  fun p n hn => (htu p n hn).trans (h p n hn)

theorem tokens_eq_filter (s : Ledger) (p : Place) (kind : Name) :
    s.tokens p kind = ((s.names p).filter isToken).countP (isKind kind) := by
  rw [countP_filter]
  refine countP_congr fun n _ => ?_
  simp only [isKind, Bool.and_eq_true]
  tauto

variable {p : Place} {n : Name}

theorem tokens_congr (h : ∀ n, isToken n = true → ((p, n) ∈ t.files ↔ (p, n) ∈ s.files))
    (kind : Name) : t.tokens p kind = s.tokens p kind := by
  have hp : ((t.names p).filter isToken).Perm ((s.names p).filter isToken) := by
    refine (perm_ext_iff_of_nodup ((names_nodup t p).filter _) ((names_nodup s p).filter _)).mpr
      fun n => ?_
    simp only [mem_filter, mem_names]
    constructor
    · rintro ⟨hin, hn⟩
      exact ⟨(h n hn).mp hin, hn⟩
    · rintro ⟨hin, hn⟩
      exact ⟨(h n hn).mpr hin, hn⟩
  rw [tokens_eq_filter, tokens_eq_filter, hp.countP_eq]

structure Transfer (source destination : Place) (A : List Name) (s t : Ledger) : Prop where
  distinct : source ≠ destination
  nodup : A.Nodup
  token : ∀ n ∈ A, isToken n = true
  present : ∀ n ∈ A, (source, n) ∈ s.files
  absent : ∀ n ∈ A, (destination, n) ∉ s.files
  shifted : Shifted source destination A s t

theorem Transfer.nil (hne : source ≠ destination) (s : Ledger) :
    Transfer source destination [] s s :=
  ⟨hne, .nil, nofun, nofun, nofun, (Moved.refl s).shifted⟩

theorem Transfer.then_same (h : Transfer source destination A s t) (htu : SameTokens t u) :
    Transfer source destination A s u :=
  { h with shifted := h.shifted.then_same htu }

theorem tokens_add (hA : A.Nodup) (ht : ∀ n ∈ A, isToken n = true) (hne : ∀ n ∈ A, (p, n) ∉ s.files)
    (h : ∀ n, isToken n = true → ((p, n) ∈ t.files ↔ (p, n) ∈ s.files ∨ n ∈ A)) (kind : Name) :
    t.tokens p kind = s.tokens p kind + A.countP (isKind kind) := by
  have hno : ((s.names p).filter isToken ++ A).Nodup := by
    refine nodup_append.mpr ⟨(names_nodup s p).filter _, hA, fun a ha b hb he => ?_⟩
    exact hne b hb (he ▸ mem_names.mp (mem_of_mem_filter ha))
  have hp : ((t.names p).filter isToken).Perm ((s.names p).filter isToken ++ A) := by
    refine (perm_ext_iff_of_nodup ((names_nodup t p).filter _) hno).mpr fun n => ?_
    simp only [mem_append, mem_filter, mem_names]
    constructor
    · rintro ⟨hm, hn⟩
      exact ((h n hn).mp hm).imp_left fun hs => ⟨hs, hn⟩
    · rintro (⟨hs, hn⟩ | hA)
      · exact ⟨(h n hn).mpr (.inl hs), hn⟩
      · exact ⟨(h n (ht n hA)).mpr (.inr hA), ht n hA⟩
  rw [tokens_eq_filter, tokens_eq_filter, hp.countP_eq, countP_append]

theorem Transfer.tokens_destination (h : Transfer source destination A s t) (kind : Name) :
    t.tokens destination kind = s.tokens destination kind + A.countP (isKind kind) := by
  refine tokens_add h.nodup h.token h.absent (fun n hn => ?_) kind
  rw [h.shifted destination n hn]
  simp [Ne.symm h.distinct, or_comm]

theorem Transfer.tokens_source (h : Transfer source destination A s t) (kind : Name) :
    t.tokens source kind + A.countP (isKind kind) = s.tokens source kind := by
  have hm : ∀ n, isToken n = true → ((source, n) ∈ t.files ↔ (source, n) ∈ s.files ∧ n ∉ A) := by
    intro n hn
    rw [h.shifted source n hn]
    simp [h.distinct]
  refine (tokens_add h.nodup h.token (fun n hn hin => ((hm n (h.token n hn)).mp hin).2 hn)
    (fun n hn => ?_) kind).symm
  rw [hm n hn]
  have hp := h.present n
  tauto

theorem Shifted.tokens_other (h : Shifted source destination A s t) (hs : p ≠ source)
    (hd : p ≠ destination) (kind : Name) : t.tokens p kind = s.tokens p kind := by
  refine tokens_congr (fun n hn => ?_) kind
  rw [h p n hn]
  simp [hs, hd]

theorem Transfer.cons (hf : Moved source destination [n] s t)
    (hr : Transfer source destination A t u)
    (hn : isToken n = true) (hin : (source, n) ∈ s.files) (ho : (destination, n) ∉ s.files) :
    Transfer source destination (n :: A) s u := by
  have hne := hr.distinct
  have hm : ∀ p k, (p, k) ∈ t.files ↔ p = destination ∧ k = n ∨ (p, k) ∈ s.files ∧
    ¬ (p = source ∧ k = n) := by
    intro p k
    rw [hf p k, mem_singleton]
  have hnew : n ∉ A := fun hA => hr.absent n hA ((hm _ _).mpr (.inl ⟨rfl, rfl⟩))
  refine ⟨hne, nodup_cons.mpr ⟨hnew, hr.nodup⟩, forall_mem_cons.mpr ⟨hn, hr.token⟩,
    forall_mem_cons.mpr ⟨hin, fun k hk => ?_⟩, forall_mem_cons.mpr ⟨ho, fun k hk hs => ?_⟩,
    fun p k hk => ?_⟩
  · rcases (hm _ _).mp (hr.present k hk) with ⟨heq, -⟩ | ⟨hs, -⟩
    · exact absurd heq hne
    · exact hs
  · exact hr.absent k hk ((hm _ _).mpr (.inr ⟨hs, fun hb => hne hb.1.symm⟩))
  · rw [hr.shifted p k hk, hm, mem_cons]
    by_cases hkn : k = n
    · subst hkn
      simp only [hnew, and_true, and_false, true_or, false_or, not_false_eq_true]
    · simp only [hkn, and_false, false_or, not_false_eq_true, and_true]

theorem Transfer.unique (h : Transfer source destination A s t) (hu : s.Unique)
    (hs : source ≠ .minted) : t.Unique := by
  intro n hn p q hp hq hpn hqn
  rw [h.shifted _ n hn] at hpn hqn
  by_cases hA : n ∈ A
  · have hpl : ∀ p, p ≠ .minted → p = destination ∧ n ∈ A ∨ (p, n) ∈ s.files ∧
      ¬ (p = source ∧ n ∈ A) → p = destination := by
      rintro p hp (⟨heq, -⟩ | ⟨hin, hno⟩)
      · exact heq
      · exact absurd ⟨hu n hn p source hp hs hin (h.present n hA), hA⟩ hno
    rw [hpl p hp hpn, hpl q hq hqn]
  · simp only [hA, and_false, false_or, not_false_eq_true, and_true] at hpn hqn
    exact hu n hn p q hp hq hpn hqn

theorem Transfer.back {L : List Name} (ht : Transfer source destination A s t)
    (hb : Shifted destination source L t u) (hL : ∀ n, isToken n = true → (n ∈ L ↔ n ∈ A)) :
    SameTokens s u := by
  intro p n hn
  rw [hb p n hn, hL n hn, ht.shifted p n hn]
  by_cases hA : n ∈ A
  · by_cases hp : p = source
    · simp [hp, hA, ht.present n hA]
    · by_cases hq : p = destination
      · simp [hq, hA, ht.absent n hA, Ne.symm ht.distinct]
      · simp [hp, hq]
  · simp [hA]

theorem Transfer.comp {a b c : Place} {T L : List Name} (hab : Transfer a b T s t)
    (hbc : Transfer b c L t u) (hL : ∀ n, isToken n = true → (n ∈ L ↔ n ∈ T)) (hac : a ≠ c)
    (ha : ∀ n ∈ T, (c, n) ∉ s.files) : Transfer a c T s u := by
  refine ⟨hac, hab.nodup, hab.token, hab.present, ha, fun p n hn => ?_⟩
  rw [hbc.shifted p n hn, hL n hn, hab.shifted p n hn]
  by_cases hT : n ∈ T
  · by_cases hp : p = b
    · simp [hp, hT, hab.absent n hT]
    · simp [hp]
  · simp [hT]

theorem Unique.absent {p q : Place} (hu : s.Unique) (hn : isToken n = true) (hin : (p, n) ∈ s.files)
    (hne : p ≠ q) (hp : p ≠ .minted) (hq : q ≠ .minted) : (q, n) ∉ s.files := by
  intro hin'
  exact hne (hu n hn p q hp hq hin hin')

end PrismaBuild.Ledger
