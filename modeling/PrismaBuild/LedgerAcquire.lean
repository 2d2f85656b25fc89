import PrismaBuild.LedgerEffects

namespace PrismaBuild.ResourceLedger

open Prog Ledger List

section

def KindNamed (s : Ledger) : Prop := ∀ kind n, (.free, n) ∈ s.files → ofKind kind n = true →
    kindOf n = kind

theorem kindNamed_of_numbered {s : Ledger} (h : ∀ n, (.free, n) ∈ s.files → Numbered n) :
    KindNamed s :=
  fun _ n hn ho => (h n hn).kindOf_eq ho

def asked (wanted : List (Name × Int)) (kind : Name) : Nat :=
  (wanted.map fun d => if d.1 = kind then d.2.toNat else 0).sum

structure Fills (wanted : List (Name × Int)) (T : List Name) : Prop where
  kinds : ∀ kind, T.countP (isKind kind) = asked wanted kind
  total : T.length = (wanted.map fun d => d.2.toNat).sum

theorem asked_cons (d : Name × Int) (wanted : List (Name × Int)) (kind : Name) :
    asked (d :: wanted) kind = (if d.1 = kind then d.2.toNat else 0) + asked wanted kind := rfl

variable {p : Place} {s u : Ledger} {k kind : Name} {T : List Name}

theorem countP_of_kind {L : List Name} (hL : ∀ n ∈ L, isToken n = true ∧ kindOf n = kind) :
    L.countP (isKind k) = if kind = k then L.length else 0 := by
  by_cases hk : kind = k
  · rw [if_pos hk, countP_eq_length]
    intro n hn
    obtain ⟨ht, hki⟩ := hL n hn
    simp [isKind, ht, hki, hk]
  · rw [if_neg hk, countP_eq_zero]
    intro n hn
    obtain ⟨-, hki⟩ := hL n hn
    simp [isKind, hki, hk]

structure Taken (p : Place) (T : List Name) (s u : Ledger) : Prop where
  nodup : T.Nodup
  token : ∀ n ∈ T, isToken n = true
  present : ∀ n ∈ T, (.free, n) ∈ s.files
  moved : Moved .free p T s u
  dirs : u.dirs = s.dirs

theorem tokens_free_eq (hk : KindNamed s) (kind : Name) :
    s.tokens .free kind = ((s.names .free).filter (ofKind kind)).length := by
  rw [tokens, countP_eq_length_filter]
  congr 1
  refine filter_congr fun n hn => ?_
  rw [Bool.eq_iff_iff]
  constructor
  · intro hki
    obtain ⟨ht, heq⟩ : isToken n = true ∧ kindOf n = kind := by simpa [isKind] using hki
    rw [← heq]
    exact ofKind_kindOf ht
  · intro ho
    simp [isKind, isToken_of_ofKind ho, hk kind n (mem_names.mp hn) ho]

theorem KindNamed.taken (hk : KindNamed s) (hp : p ≠ .free) (h : Moved .free p T s u) :
    KindNamed u := by
  intro kind n hn ho
  rcases (h .free n).mp hn with ⟨he, -⟩ | ⟨hs, -⟩
  · exact absurd he.symm hp
  · exact hk kind n hs ho

theorem tokens_free_other (hp : p ≠ .free) (h : Moved .free p T s u)
    (hT : ∀ n ∈ T, kindOf n = kind) (hne : kind ≠ k) : u.tokens .free k = s.tokens .free k := by
  rw [tokens, tokens, names_moved h (Ne.symm hp), countP_filter]
  refine countP_congr fun n _ => ?_
  have hn : isKind k n = true → n ∉ T := by
    intro hk hin
    have heq : kindOf n = k := by
      have hb : isToken n = true ∧ kindOf n = k := by simpa [isKind] using hk
      exact hb.2
    exact hne ((hT n hin).symm.trans heq)
  simp only [Bool.and_eq_true, decide_eq_true_eq]
  exact ⟨fun hk => hk.1, fun hk => ⟨hk, hn hk⟩⟩

theorem Taken.append {T T' : List Name} {t u : Ledger} (hp : p ≠ .free) (h : Taken p T s t)
    (h' : Taken p T' t u) :
    Taken p (T ++ T') s u := by
  have hg : ∀ n ∈ T', (.free, n) ∈ s.files ∧ n ∉ T := by
    intro n hn
    rcases (h.moved .free n).mp (h'.present n hn) with ⟨he, -⟩ | ⟨hs, hno⟩
    · exact absurd he.symm hp
    · exact ⟨hs, fun hT => hno ⟨rfl, hT⟩⟩
  refine ⟨?_, ?_, ?_, h.moved.trans h'.moved (Ne.symm hp), h'.dirs.trans h.dirs⟩
  · refine nodup_append.mpr ⟨h.nodup, h'.nodup, fun a ha b hb he => ?_⟩
    exact (hg b hb).2 (he ▸ ha)
  · intro n hn
    rcases mem_append.mp hn with hT | hT'
    · exact h.token n hT
    · exact h'.token n hT'
  · intro n hn
    rcases mem_append.mp hn with hT | hT'
    · exact h.present n hT
    · exact (hg n hT').1

theorem takeKinds_ends (hp : p ≠ .free) (wanted : List (Name × Int))
    (hke : (wanted.map Prod.fst).Nodup)
    (s : Ledger) (hdir : p ∈ s.dirs) (hk : KindNamed s) :
      Ends (fun r u => ∃ T, Taken p T s u ∧ (r = .complete ∧ Fills wanted T ∨
        r = .short ∧ ∃ d ∈ wanted, (s.tokens .free d.1 : Int) < d.2))
        (takeKinds p plainAdmission wanted) s := by
  induction wanted generalizing s with
  | nil =>
    exact ⟨trivial, [], ⟨.nil, nofun, nofun, Moved.refl s, rfl⟩, .inl ⟨rfl, fun _ => rfl, rfl⟩⟩
  | cons d wanted ih =>
    obtain ⟨kind, want⟩ := d
    obtain ⟨hnew, hke⟩ := nodup_cons.mp hke
    have hnee : (if kind = cpuKind then want - plainAdmission.cpuBorrow else want) = want := by
      split
      · exact Int.sub_zero want
      · rfl
    have hfi : ((s.names .free).filter fun n =>
        ofKind kind n && (decide (kind ≠ cpuKind) || plainAdmission.cpuEligible n)) =
        (s.names .free).filter (ofKind kind) := by
      refine filter_congr fun n _ => ?_
      show (ofKind kind n && (_ || true)) = _
      rw [Bool.or_true, Bool.and_true]
    refine .perform trivial fun _ => ?_
    show Ends _ (if kind = cpuKind ∧ ¬ plainAdmission.cpuSelectable = true then _ else _) s
    rw [if_neg (fun h => h.2 rfl), hnee, hfi]
    have hl := takeTokens_ends hp want ((s.names .free).filter (ofKind kind))
      ((names_nodup s _).filter _) 0 s hdir
      fun n hn => mem_names.mp (mem_of_mem_filter hn)
    refine .bind (.imp hl ?_)
    rintro r t - ⟨rfl, hmv, hdi⟩
    have ha : want - ((0 : Nat) : Int) = want := Int.sub_zero want
    rw [ha] at hmv ⊢
    have hL : ∀ n ∈ ((s.names .free).filter (ofKind kind)).take want.toNat,
        isToken n = true ∧ kindOf n = kind ∧ (.free, n) ∈ s.files := by
      intro n hn
      obtain ⟨hin, ho⟩ := mem_filter.mp (mem_of_mem_take hn)
      exact ⟨isToken_of_ofKind ho, hk kind n (mem_names.mp hin) ho, mem_names.mp hin⟩
    have ht : Taken p (((s.names .free).filter (ofKind kind)).take want.toNat) s t :=
      ⟨((names_nodup s _).filter _).sublist (take_sublist _ _), fun n hn => (hL n hn).1,
        fun n hn => (hL n hn).2.2, hmv, hdi⟩
    have hle := tokens_free_eq hk kind
    dsimp only
    split
    next hs =>
      refine ⟨trivial, _, ht, .inr ⟨rfl, (kind, want), .head _, ?_⟩⟩
      have hlt := hs.1
      rw [length_take] at hlt
      rw [hle]
      omega
    next hfu =>
      have hw : (((s.names .free).filter (ofKind kind)).take want.toNat).length = want.toNat := by
        have hno : ¬ ((0 + (((s.names .free).filter (ofKind kind)).take
          want.toNat).length : Nat) : Int) < want := by
          intro hlt
          exact hfu ⟨hlt, by simp [mayFallShort, plainAdmission]⟩
        rw [length_take] at hno ⊢
        omega
      refine .imp (ih hke t (hdi ▸ hdir) (hk.taken hp hmv)) ?_
      rintro r u - ⟨T, hT, hen⟩
      refine ⟨_, ht.append hp hT, ?_⟩
      rcases hen with ⟨rfl, hf⟩ | ⟨rfl, d, hd, hs⟩
      · refine .inl ⟨rfl, fun k => ?_, ?_⟩
        · rw [countP_append, hf.kinds, asked_cons,
            countP_of_kind (fun n hn => ⟨(hL n hn).1, (hL n hn).2.1⟩), hw]
        · rw [length_append, hw, hf.total, map_cons, sum_cons]
      · refine .inr ⟨rfl, d, .tail _ hd, ?_⟩
        have hne : kind ≠ d.1 := by
          intro he
          have hin : d.1 ∈ wanted.map Prod.fst := mem_map_of_mem hd
          rw [← he] at hin
          exact hnew hin
        rw [← tokens_free_other hp hmv (fun n hn => (hL n hn).2.1) hne]
        exact hs

theorem sum_positive {worth : Name × Int → Nat} (hw : ∀ d, ¬ d.2 > 0 → worth d = 0)
    (demand : List (Name × Int)) :
    ((demand.filter fun d => d.2 > 0).map worth).sum = (demand.map worth).sum := by
  induction demand with
  | nil => rfl
  | cons d demand ih =>
    rw [filter_cons, map_cons, sum_cons]
    split
    next => rw [map_cons, sum_cons, ih]
    next hd => rw [ih, hw d (by simpa using hd), Nat.zero_add]

theorem Fills.of_positive {demand : List (Name × Int)}
    (h : Fills (sortedItems (demand.filter fun d => d.2 > 0)) T) : Fills demand T := by
  have hp : (sortedItems (demand.filter fun d => d.2 > 0)).Perm (demand.filter fun d => d.2 > 0) :=
    perm_insertionSort _ _
  constructor
  · intro kind
    rw [h.kinds kind]
    refine ((hp.map _).sum_eq).trans (sum_positive (fun d hd => ?_) demand)
    have hz : d.2.toNat = 0 := by omega
    rw [hz]
    split <;> rfl
  · rw [h.total]
    refine ((hp.map _).sum_eq).trans (sum_positive (fun d hd => ?_) demand)
    omega

theorem takeDemand_plain (p : Place) (wanted : List (Name × Int)) :
    takeDemand p wanted plainAdmission = takeKinds p plainAdmission wanted >>= fun ended =>
    pure ended := by
  unfold takeDemand
  congr 1
  funext ended
  cases ended <;> rfl

theorem beginAcquire_ends (handle : Name) (demand : List (Name × Int))
    (hke : (demand.map Prod.fst).Nodup) (s : Ledger)
    (he : ∀ n, (.held handle, n) ∉ s.files) (hk : KindNamed s) : Ends (fun r u =>
      (r = .ok (some handle) ∧ ∃ T, Transfer .free (.held handle) T s u ∧
        Moved .free (.held handle) T s u ∧ Fills demand T) ∨
        r = .ok none ∧ SameTokens s u ∧ ∃ d ∈ demand, (s.tokens .free d.1 : Int) < d.2)
      (beginAcquire handle demand plainAdmission) s := by
  have hp : (sortedItems (demand.filter fun d => d.2 > 0)).Perm (demand.filter fun d => d.2 > 0) :=
    perm_insertionSort _ _
  have hno : ((sortedItems (demand.filter fun d => d.2 > 0)).map Prod.fst).Nodup := by
    refine (hp.map Prod.fst).nodup_iff.mpr (hke.sublist ?_)
    exact filter_sublist.map Prod.fst
  unfold beginAcquire
  dsimp only
  split
  next hnon =>
    have hni : sortedItems (demand.filter fun d => d.2 > 0) = [] := by
      simpa [plainAdmission] using hnon
    have hf : Fills (sortedItems (demand.filter fun d => d.2 > 0)) [] := by
      rw [hni]
      exact ⟨fun _ => rfl, rfl⟩
    exact ⟨trivial, .inl ⟨rfl, [], ⟨nofun, .nil, nofun, nofun, nofun, (Moved.refl s).shifted⟩,
      Moved.refl s,
      hf.of_positive⟩⟩
  next =>
    refine .perform trivial fun _ => ?_
    rw [takeDemand_plain]
    have hta := takeKinds_ends (p := .held handle) nofun
      _ hno (s.withDir (.held handle)) mem_cons_self hk
    refine .bind (.bind (.imp hta ?_))
    rintro r t - ⟨T, hT, hen⟩
    have ht : Transfer .free (.held handle) T s t :=
      ⟨nofun, hT.nodup, hT.token, hT.present, fun n _ => he n, hT.moved.shifted⟩
    refine ⟨trivial, ?_⟩
    rcases hen with ⟨rfl, hf⟩ | ⟨rfl, d, hd, hs⟩
    · exact ⟨trivial, .inl ⟨rfl, T, ht, hT.moved, hf.of_positive⟩⟩
    · refine .andThen (.imp (emptyIntoFree_ends (p := .held handle) nofun t) ?_)
      rintro r u - ⟨rfl, hb⟩
      refine ⟨trivial, .inr ⟨rfl, ?_, d, ?_, hs⟩⟩
      · refine ht.back hb fun n hn => ?_
        have hin : (.held handle, n) ∈ t.files ↔ n ∈ T := by
          rw [ht.shifted _ n hn]
          simp [he n]
        rw [mem_filter, mem_names, hin, isMetadata_of_isToken hn]
        simp
      · exact mem_of_mem_filter (hp.mem_iff.mp hd)

end

end PrismaBuild.ResourceLedger
