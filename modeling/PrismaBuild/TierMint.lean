import PrismaBuild.LedgerLower
import PrismaBuild.Dict

namespace PrismaBuild.ResourceLedger

open Prog Ledger List

def countOf (counts : List (Name × Nat)) (kind : Name) : Nat := (counts.lookup kind).getD 0

/-- `counts[kind] = counts.get(kind, 0) + 1`. -/
def bump (counts : List (Name × Nat)) (kind : Name) : List (Name × Nat) :=
    Dict.set kind (countOf counts kind + 1) counts

def tallyKinds (names : List Name) : List (Name × Nat) :=
    names.foldl (fun counts name => bump counts (kindOf name)) []

def wantedOf (wanted : List (Name × Int)) (kind : Name) : Int := (wanted.lookup kind).getD 0

/-- The listed names for which `path.is_file()`. -/
def onlyFiles (p : Place) : List Name → LedgerProg (List Name)
  | [] => pure []
  | name :: names => do
    let isFile ← exist p name
    let rest ← onlyFiles p names
    pure (if isFile then name :: rest else rest)

/-- `name.rpartition('-')[0]`. -/
def partitionKind (name : Name) : Name := if isToken name then kindOf name else []

/-- The loop of `_reclaim_mint` over the dead names. -/
def reclaimNames (wanted : List (Name × Int)) : List Name → List Name → List (Name × Nat) →
    List (Name × Nat) →
    LedgerProg (List (Name × Nat))
  | [], _, _, reclaimed => pure reclaimed
  | name :: names, live, liveCount, reclaimed =>
    let kind := partitionKind name
    if kind = [] ∨ kind ∉ wanted.map Prod.fst then
      reclaimNames wanted names live liveCount reclaimed
    else if name ∈ live then do
      let _ ← unlink .dead name
      reclaimNames wanted names live liveCount reclaimed
    else if wantedOf wanted kind ≤ countOf liveCount kind then
      reclaimNames wanted names live liveCount reclaimed
    else do
      match ← rename .dead name .free name with
      | .error _ => reclaimNames wanted names live liveCount reclaimed
      | .ok _ =>
        reclaimNames wanted names (name :: live) (bump liveCount kind) (bump reclaimed kind)

/-- The set of the names that are free or with a holder. -/
def liveNames : LedgerProg (Except Failure (List Name)) :=
  (censusGlob true .free).andThen fun free =>
    holders.andThen fun hs =>
      (presentUnder true hs (free.filter isToken)).andThen fun present => pure (.ok present.dedup)

def reclaimMint (wanted : List (Name × Int)) : LedgerProg (List (Name × Nat)) := do
  match ← censusScan true .dead with
  | .error _ => pure []
  | .ok listing =>
    let names ← onlyFiles .dead listing
    if names = [] then pure []
    else
      match ← liveNames with
      | .error _ => pure []
      | .ok live => reclaimNames wanted names live (tallyKinds live) []

/-- The total of each kind, and whether some holder could not be read. -/
def capacityCensus : LedgerProg (Except Failure (List (Name × Nat) × Bool)) :=
  (matchOptional .free).andThen fun free =>
    holders.andThen fun hs => do
      let (held, unreadable) ← heldTokens hs [] false
      pure (.ok (tallyKinds (free.filter isToken ++ held), unreadable))

structure MintReport where
  (capacity retired reclaimed : List (Name × Nat))

/-- The kinds that `_apply_mint` trims. -/
def lowerKinds (wanted : List (Name × Int)) (total : List (Name × Nat)) (unreadable : Bool) :
    List (Name × Int) :=
  if unreadable then ((total.map Prod.fst ++ wanted.map Prod.fst).dedup).map
    fun kind => (kind, wantedOf wanted kind)
  else (total.filter fun d => wantedOf wanted d.1 < d.2).map fun d => (d.1, wantedOf wanted d.1)

def applyMint (wanted : List (Name × Int)) : LedgerProg (Except Failure MintReport) := do
  let reclaimed ← reclaimMint wanted
  (ensureCapacity true (wanted.filter fun d => 0 < d.2)).andThen fun _ =>
    capacityCensus.andThen fun (total, unreadable) =>
      let lower := lowerKinds wanted total unreadable
      (if lower = [] then pure (.ok []) else retireFreeCapacity lower).andThen fun retired =>
        capacityCensus.andThen fun (capacity, _) => pure (.ok ⟨capacity, retired, reclaimed⟩)

/-- `TierLedger.mint`, under the mutation lock. -/
def mint (wanted : List (Name × Int)) : LedgerProg (Except Failure MintReport) :=
  if wanted.any fun d => d.2 < 0 then pure (.error (.contract "tier capacity must not be negative"))
    else applyMint wanted

section

theorem countOf_bump (counts : List (Name × Nat)) (kind k : Name) :
    countOf (bump counts kind) k = countOf counts k + if kind = k then 1 else 0 := by
  unfold bump countOf
  by_cases hk : kind = k
  · rw [hk, Dict.lookup_set_self, if_pos rfl]
    rfl
  · rw [Dict.lookup_set_of_ne (Ne.symm hk), if_neg hk]
    rfl

theorem countOf_tallyKinds (names : List Name) (kind : Name) :
    countOf (tallyKinds names) kind = names.countP fun n => kindOf n = kind := by
  have hf : ∀ counts, countOf (names.foldl (fun counts name => bump counts (kindOf name)) counts)
    kind =
      countOf counts kind + names.countP fun n => kindOf n = kind := by
    induction names with
    | nil => exact fun _ => rfl
    | cons name names ih =>
      intro counts
      rw [foldl_cons, ih, countOf_bump, countP_cons]
      simp only [decide_eq_true_eq]
      omega
  exact (hf []).trans (Nat.zero_add _)

theorem mem_of_countOf_pos {counts : List (Name × Nat)} {kind : Name}
    (h : 0 < countOf counts kind) :
    (kind, countOf counts kind) ∈ counts := by
  unfold countOf at h ⊢
  cases hl : counts.lookup kind with
  | none =>
    rw [hl] at h
    cases h
  | some count =>
    obtain ⟨before, after, rfl, -⟩ := lookup_eq_some_iff.mp hl
    simp

end

section

variable {wanted : List (Name × Int)} {s : Ledger}

theorem partitionKind_token {name : Name} (h : partitionKind name ≠ []) : isToken name = true := by
  unfold partitionKind at h
  by_contra hn
  rw [if_neg hn] at h
  exact h rfl

def Reclaims (wanted : List (Name × Int)) (names : List Name)
    (liveCount reclaimed : List (Name × Nat)) (s : Ledger)
    (r : List (Name × Nat)) (t : Ledger) : Prop :=
  ∃ A, A ⊆ names ∧ Transfer .dead .free A s t ∧
    ∀ kind, countOf r kind = countOf reclaimed kind + A.countP (isKind kind) ∧
    A.countP (isKind kind) ≤ (wantedOf wanted kind).toNat - countOf liveCount kind

theorem Reclaims.nil (names : List Name) (liveCount reclaimed : List (Name × Nat)) (s : Ledger) :
    Reclaims wanted names liveCount reclaimed s reclaimed s :=
  ⟨[], nil_subset _, Transfer.nil (by decide) s, fun _ => ⟨rfl, Nat.zero_le _⟩⟩

theorem reclaimNames_ends {names live : List Name} {liveCount reclaimed : List (Name × Nat)}
    (hfr : .free ∈ s.dirs)
    (hno : names.Nodup) (hde : ∀ n ∈ names, (.dead, n) ∈ s.files)
    (hne : ∀ n ∈ names, isToken n = true → n ∉ live ∧ (.free, n) ∉ s.files) :
    Ends (Reclaims wanted names liveCount reclaimed s)
      (reclaimNames wanted names live liveCount reclaimed) s := by
  induction names generalizing s live liveCount reclaimed with
  | nil => exact ⟨trivial, .nil [] liveCount reclaimed s⟩
  | cons name names ih =>
    obtain ⟨hou, hno⟩ := nodup_cons.mp hno
    obtain ⟨hin, hde⟩ := forall_mem_cons.mp hde
    obtain ⟨hna, hne⟩ := forall_mem_cons.mp hne
    have hs : Ends (Reclaims wanted (name :: names) liveCount reclaimed s)
        (reclaimNames wanted names live liveCount reclaimed) s := by
      refine (ih hfr hno hde hne).imp ?_
      rintro r t - ⟨A, hsu, hr⟩
      exact ⟨A, fun n hn => .tail _ (hsu hn), hr⟩
    unfold reclaimNames
    by_cases hki : partitionKind name = [] ∨ partitionKind name ∉ wanted.map Prod.fst
    · simp only [if_pos hki]
      exact hs
    · have hto := partitionKind_token fun he => hki (.inl he)
      obtain ⟨hl, hp⟩ := hna hto
      have hsa : partitionKind name = kindOf name := if_pos hto
      rw [hsa] at hki
      simp only [hsa, if_neg hki, if_neg hl]
      by_cases hf : wantedOf wanted (kindOf name) ≤ countOf liveCount (kindOf name)
      · rw [if_pos hf]
        exact hs
      · rw [if_neg hf]
        refine .perform trivial fun _ => ?_
        obtain ⟨hok, hm, hd⟩ := quiet_rename hin hfr
        rw [hok]
        have ho := hm.later hou
        refine (ih (hd ▸ hfr) hno (fun n hn => (ho n hn _).mpr (hde n hn)) fun n hn ht => ?_).imp ?_
        · rw [mem_cons, ho n hn]
          refine ⟨?_, (hne n hn ht).2⟩
          rintro (rfl | hme)
          · exact hou hn
          · exact (hne n hn ht).1 hme
        · rintro r t - ⟨A, hsu, htr, hco⟩
          refine ⟨name :: A, cons_subset_cons name hsu, .cons hm htr hto hin hp, fun kind => ?_⟩
          obtain ⟨hc, hle⟩ := hco kind
          rw [countOf_bump] at hc hle
          have hfi : isKind kind name = true ↔ kindOf name = kind := by simp [isKind, hto]
          rw [countP_cons, hc]
          simp only [hfi]
          by_cases hk : kindOf name = kind
          · rw [hk] at hf
            simp only [if_pos hk] at hle ⊢
            omega
          · simp only [if_neg hk] at hle ⊢
            omega

theorem onlyFiles_ends {p : Place} {names : List Name} (h : ∀ n ∈ names, (p, n) ∈ s.files) :
    Ends (fun r t => r = names ∧ t = s) (onlyFiles p names) s := by
  induction names with
  | nil => exact ⟨trivial, rfl, rfl⟩
  | cons name names ih =>
    obtain ⟨hin, hr⟩ := forall_mem_cons.mp h
    refine .perform trivial fun _ => .bind ?_
    rw [quiet_exist hin]
    refine (ih hr).imp ?_
    rintro r t - ⟨rfl, rfl⟩
    exact ⟨trivial, rfl, rfl⟩

theorem liveNames_ends (hu : s.Unique) (hf : .free ∈ s.dirs) :
    Ends (fun r t => r = .ok (tokensIn s .free ++ custody s) ∧ t = s) liveNames s := by
  refine .andThen ((censusGlob_ends true hf).imp ?_)
  rintro r t - ⟨rfl, rfl⟩
  refine .andThen ⟨trivial, fun _ => ⟨trivial, ?_⟩⟩
  refine .andThen ((presentUnder_ends true t.holderNames _ fun h hh => mem_holderNames.mp hh).imp
    ?_)
  rintro r u - ⟨rfl, rfl⟩
  have hn : (tokensIn u .free ++ custody u).Nodup := by
    refine nodup_append.mpr ⟨tokensIn_nodup u _, custody_nodup hu, fun a ha b hb hab => ?_⟩
    obtain ⟨hin, ht⟩ := mem_tokensIn.mp ha
    obtain ⟨-, h, hhe⟩ := mem_custody.mp hb
    rw [← hab] at hhe
    cases hu a ht .free (.held h) nofun nofun hin hhe
  exact ⟨trivial, congrArg Except.ok hn.dedup, rfl⟩

theorem countP_present (s : Ledger) (kind : Name) :
    ((tokensIn s .free ++ custody s).countP fun n => kindOf n = kind) = supply s kind := by
  have hto : ∀ n ∈ tokensIn s .free ++ custody s,
    (decide (kindOf n = kind) = true ↔ isKind kind n = true) := by
    intro n hn
    obtain ⟨ht, -⟩ := mem_present.mp hn
    simp [isKind, ht]
  rw [countP_congr hto, countP_append, supply, tokens_eq_filter]
  rfl

theorem reclaimMint_ends (wanted : List (Name × Int)) (hu : s.Unique) :
    Ends (Reclaims wanted (s.names .dead) (tallyKinds (tokensIn s .free ++ custody s)) [] s)
    (reclaimMint wanted) s := by
  have hno : Reclaims wanted (s.names .dead) (tallyKinds (tokensIn s .free ++ custody s)) [] s []
    s := .nil _ _ [] s
  by_cases hd : .dead ∈ s.dirs
  · refine .bind ((censusScan_ends true hd).imp ?_)
    rintro r t - ⟨rfl, rfl⟩
    refine .bind ((onlyFiles_ends fun n hn => mem_names.mp hn).imp ?_)
    rintro r u - ⟨rfl, rfl⟩
    by_cases he : u.names .dead = []
    · rw [if_pos he]
      exact ⟨trivial, hno⟩
    · rw [if_neg he]
      by_cases hf : .free ∈ u.dirs
      · refine .bind ((liveNames_ends hu hf).imp ?_)
        rintro r v - ⟨rfl, rfl⟩
        refine reclaimNames_ends hf (names_nodup v _) (fun n hn => mem_names.mp hn) fun n hn ht =>
          ?_
        have hin := mem_names.mp hn
        have ho := fun q => hu.absent (q := q) ht hin
        refine ⟨fun hm => ?_, ho .free nofun nofun nofun⟩
        rcases (mem_present.mp hm).2 with hl | ⟨h, hl⟩
        · exact ho .free nofun nofun nofun hl
        · exact ho (.held h) nofun nofun nofun hl
      · refine .bind (.andThen ⟨trivial, fun _ => ⟨trivial, ?_⟩⟩)
        rw [quiet_scan_missing hf]
        exact ⟨trivial, hno⟩
  · refine .bind ⟨trivial, fun _ => ⟨trivial, ?_⟩⟩
    rw [quiet_scan_missing hd]
    exact ⟨trivial, hno⟩

end

/-- Every token, free, held or dead, has its marker. -/
def AllMarked (s : Ledger) : Prop := ∀ n, isToken n = true → ∀ p, (p, n) ∈ s.files →
    (.minted, n) ∈ s.files

def reissued (s t : Ledger) : List Name := (tokensIn s .dead).filter fun n => (.dead, n) ∉ t.files

section

variable {wanted : List (Name × Int)} {A names : List Name} {s t u : Ledger}

theorem Transfer.allMarked (h : Transfer .dead .free A s t) (hm : AllMarked s) : AllMarked t := by
  intro n hn p hin
  have hma : ∀ q, (q, n) ∈ s.files → (.minted, n) ∈ t.files := by
    intro q hq
    exact (h.shifted .minted n hn).mpr (.inr ⟨hm n hn q hq, nofun⟩)
  rcases (h.shifted p n hn).mp hin with ⟨-, hA⟩ | ⟨hin, -⟩
  · exact hma .dead (h.present n hA)
  · exact hma p hin

theorem Grown.mem_iff (h : Grown names s t) (p : Place) (n : Name) (hp : p ≠ .minted)
    (hf : p ≠ .free) :
    (p, n) ∈ t.files ↔ (p, n) ∈ s.files := by
  rw [h p n]
  simp [hp, hf]

theorem Grown.unique (h : Grown names s t) (hu : s.Unique) (hm : AllMarked s) : t.Unique := by
  intro n hn p q hp hq hpn hqn
  by_cases hma : (.minted, n) ∈ s.files
  · have hold : ∀ p, p ≠ .minted → (p, n) ∈ t.files → (p, n) ∈ s.files := by
      intro p hp hin
      rw [h p n] at hin
      tauto
    exact hu n hn p q hp hq (hold p hp hpn) (hold q hq hqn)
  · have hpl : ∀ p, p ≠ .minted → (p, n) ∈ t.files → p = .free := by
      intro p hp hin
      rcases (h p n).mp hin with hin | ⟨hmi, -⟩ | ⟨hmi | hf, -⟩
      · exact absurd (hm n hn p hin) hma
      · exact absurd hmi hp
      · exact absurd hmi hp
      · exact hf
    rw [hpl p hp hpn, hpl q hq hqn]

theorem custody_perm (hs : s.Unique) (ht : t.Unique)
    (h : ∀ holder n, isToken n = true → ((.held holder, n) ∈ t.files ↔ (.held holder, n) ∈ s.files))
    :
    (custody t).Perm (custody s) := by
  refine (perm_ext_iff_of_nodup (custody_nodup ht) (custody_nodup hs)).mpr fun n => ?_
  rw [mem_custody, mem_custody]
  refine and_congr_right fun hn => ?_
  simp only [h _ n hn]

theorem capacityCensus_ends :
    Ends (fun r t => r = .ok (tallyKinds (tokensIn s .free ++ custody s), false) ∧ t = s)
    capacityCensus s := by
  refine .andThen ⟨trivial, fun _ => ⟨trivial, ?_⟩⟩
  refine .andThen ⟨trivial, fun _ => ⟨trivial, ?_⟩⟩
  refine .bind ((heldTokens_ends s).imp ?_)
  rintro r t - ⟨rfl, rfl⟩
  exact ⟨trivial, rfl, rfl⟩

theorem wantedOf_nonneg (h : ∀ d ∈ wanted, 0 ≤ d.2) (kind : Name) : 0 ≤ wantedOf wanted kind := by
  unfold wantedOf
  cases hl : wanted.lookup kind with
  | none => exact le_rfl
  | some count =>
    obtain ⟨before, after, heq, -⟩ := lookup_eq_some_iff.mp hl
    exact h (kind, count) (heq ▸ mem_append_right _ (.head _))

variable {kind : Name}

theorem mem_lowerKinds (h : wantedOf wanted kind < supply s kind) (hn : 0 ≤ wantedOf wanted kind) :
    (kind, wantedOf wanted kind) ∈ lowerKinds wanted (tallyKinds (tokensIn s .free ++ custody s))
    false := by
  have hc : countOf (tallyKinds (tokensIn s .free ++ custody s)) kind = supply s kind := by
    rw [countOf_tallyKinds, countP_present]
  have hp : 0 < countOf (tallyKinds (tokensIn s .free ++ custody s)) kind := by omega
  have hm := mem_of_countOf_pos hp
  rw [hc] at hm
  exact mem_map.mpr ⟨_, mem_filter.mpr ⟨hm, decide_eq_true h⟩, rfl⟩

theorem Cleared.supply_le {L : List Name} (h : Cleared L s t) (hu : s.Unique) (kind : Name) :
    supply t kind ≤ supply s kind := by
  have hh := (custody_perm hu (h.unique hu) fun holder n _ => h.mem_held).countP_eq (isKind kind)
  have hf : t.tokens .free kind ≤ s.tokens .free kind := by
    rw [Ledger.tokens, h.names_free]
    exact filter_sublist.countP_le
  unfold supply
  omega

theorem isKind_ofKind {kind n : Name} (h : isKind kind n = true) : ofKind kind n = true := by
  obtain ⟨ht, hk⟩ := Bool.and_eq_true_iff.mp h
  exact eq_of_beq hk ▸ ofKind_kindOf ht

theorem Shrunk.supply_le {kinds : List (Name × Int)} (h : Shrunk (custody s) none kinds s t)
    (hu : s.Unique) {count : Int}
    (hm : (kind, count) ∈ kinds) : supply t kind ≤ max count.toNat
      ((custody s).countP (isKind kind)) := by
  obtain ⟨L, -, -, hc⟩ := h.freed
  have hh := (custody_perm hu (hc.unique hu) fun holder n _ => hc.mem_held).countP_eq (isKind kind)
  obtain ⟨L', v, -, hle⟩ := h.each (kind, count) hm
  rw [excessAt_custody] at hle
  have he : t.tokens .free kind ≤ freeOf t kind := countP_mono_left fun n _ => isKind_ofKind
  have hcu : (custody s).countP (isKind kind) ≤ heldOf s kind := countP_mono_left fun n _ =>
    isKind_ofKind
  unfold supply
  dsimp only at hle
  omega

theorem trim_ends (hno : ∀ d ∈ wanted, 0 ≤ d.2) (hu : s.Unique) {lower : List (Name × Int)}
    (hl : lower = lowerKinds wanted (tallyKinds (tokensIn s .free ++ custody s)) false) :
    Ends (fun r t => (∃ out, r = .ok out) ∧ (∃ L, Cleared L s t) ∧
        ∀ kind, supply t kind ≤ max (wantedOf wanted kind).toNat ((custody s).countP (isKind kind)))
      (if lower = [] then pure (.ok []) else retireFreeCapacity lower) s := by
  have hk : ∀ kind, supply s kind ≤ (wantedOf wanted kind).toNat ∨
    (kind, wantedOf wanted kind) ∈ lower := by
    intro kind
    have hw := wantedOf_nonneg hno kind
    by_cases hle : supply s kind ≤ (wantedOf wanted kind).toNat
    · exact .inl hle
    · exact .inr (hl ▸ mem_lowerKinds (by omega) hw)
  by_cases he : lower = []
  · rw [if_pos he]
    refine ⟨trivial, ⟨[], rfl⟩, ⟨[], Cleared.refl s⟩, fun kind => ?_⟩
    rcases hk kind with hle | hme
    · exact hle.trans (le_max_left _ _)
    · rw [he] at hme
      cases hme
  · rw [if_neg he]
    refine (retireFreeCapacity_meets lower).ends.imp ?_
    rintro r t - ⟨H, bound, hm, hr, ⟨hok, hs⟩ | ⟨⟨d, hd, hne, -⟩, -⟩⟩
    · obtain rfl := hr fun _ => ⟨rfl, rfl⟩
      obtain rfl : H = custody s := by
        rcases hm with ⟨-, rfl⟩ | hn | hn
        · rfl
        · cases hn
        · cases hn
      obtain ⟨L, -, -, hc⟩ := hs.freed
      refine ⟨hok, ⟨L, hc⟩, fun kind => ?_⟩
      rcases hk kind with hle | hme
      · exact ((hc.supply_le hu kind).trans hle).trans (le_max_left _ _)
      · exact hs.supply_le hu ((sortedItems_perm lower).mem_iff.mpr hme)
    · rw [(sortedItems_perm lower).mem_iff, hl] at hd
      obtain ⟨e, -, rfl⟩ := mem_map.mp hd
      exact absurd hne (Int.not_lt.mpr (wantedOf_nonneg hno e.1))

/-- What a mint that is not refused makes of the ledger. -/
structure Mints (wanted : List (Name × Int)) (s : Ledger) (report : MintReport) (t : Ledger) :
    Prop where
  bounded : ∀ kind, supply t kind ≤ max (wantedOf wanted kind).toNat
    ((custody s).countP (isKind kind))
  unique : t.Unique
  fresh : ∀ n ∈ reissued s t, ¬ Present s n
  counted : ∀ kind, countOf report.reclaimed kind = (reissued s t).countP (isKind kind)
  lacking : ∀ kind, (reissued s t).countP (isKind kind) ≤ (wantedOf wanted kind).toNat - supply s
    kind
  held : ∀ h n, isToken n = true → ((.held h, n) ∈ t.files ↔ (.held h, n) ∈ s.files)

theorem reissued_perm (h : Transfer .dead .free A s t)
    (hd : ∀ n, (.dead, n) ∈ u.files ↔ (.dead, n) ∈ t.files) :
    (reissued s u).Perm A := by
  refine (perm_ext_iff_of_nodup ((tokensIn_nodup s _).filter _) h.nodup).mpr fun n => ?_
  rw [mem_filter, mem_tokensIn, decide_eq_true_eq, hd]
  constructor
  · rintro ⟨⟨hin, hn⟩, ho⟩
    by_contra hA
    exact ho ((h.shifted .dead n hn).mpr (.inr ⟨hin, fun hb => hA hb.2⟩))
  · intro hA
    refine ⟨⟨h.present n hA, h.token n hA⟩, fun hin => ?_⟩
    rcases (h.shifted .dead n (h.token n hA)).mp hin with ⟨heq, -⟩ | ⟨-, hno⟩
    · cases heq
    · exact hno ⟨rfl, hA⟩

theorem applyMint_ends (hno : ∀ d ∈ wanted, 0 ≤ d.2) (hu : s.Unique) (hm : AllMarked s) :
    Ends (fun r t => ∃ report, r = .ok report ∧ Mints wanted s report t) (applyMint wanted) s := by
  refine .bind ((reclaimMint_ends wanted hu).imp ?_)
  rintro reclaimed s₁ - ⟨A, -, ht, hco⟩
  have hu₁ := ht.unique hu nofun
  have hcou : ∀ d ∈ wanted.filter fun d => 0 < d.2, 0 ≤ d.2 := fun d hd =>
    hno d (mem_of_mem_filter hd)
  refine .andThen ((ensureCapacity_ends true hcou s₁).imp ?_)
  rintro r s₂ - ⟨rfl, hg⟩
  have hu₂ := hg.unique hu₁ (Transfer.allMarked ht hm)
  refine .andThen (capacityCensus_ends.imp ?_)
  rintro r u - ⟨rfl, rfl⟩
  refine .andThen ((trim_ends hno hu₂ rfl).imp ?_)
  rintro r t - ⟨⟨retired, rfl⟩, ⟨L, hc⟩, hb⟩
  refine .andThen (capacityCensus_ends.imp ?_)
  rintro r v - ⟨rfl, rfl⟩
  have hh : ∀ h n, isToken n = true → ((.held h, n) ∈ u.files ↔ (.held h, n) ∈ s.files) := by
    intro h n hn
    rw [hg.mem_iff (.held h) n nofun nofun, ht.shifted _ n hn]
    simp
  have hde : ∀ n, (.dead, n) ∈ v.files ↔ (.dead, n) ∈ s₁.files := by
    intro n
    rw [hc, hg.mem_iff .dead n nofun nofun]
    simp
  have hp := reissued_perm ht hde
  refine ⟨trivial, _, rfl, fun kind => ?_, hc.unique hu₂, fun n hn => ?_, fun kind =>
    ?_, fun kind => ?_, fun h n hn => ?_⟩
  · rw [← (custody_perm hu hu₂ hh).countP_eq]
    exact hb kind
  · have hA := hp.mem_iff.mp hn
    have ho := fun q => hu.absent (q := q) (ht.token n hA) (ht.present n hA)
    rintro ⟨-, hin | ⟨h, hin⟩⟩
    · exact ho .free nofun nofun nofun hin
    · exact ho (.held h) nofun nofun nofun hin
  · rw [hp.countP_eq, (hco kind).1]
    exact Nat.zero_add _
  · rw [hp.countP_eq, ← countP_present, ← countOf_tallyKinds]
    exact (hco kind).2
  · rw [hc.mem_held, hh h n hn]

end

/-- Minting leaves of each kind no more than is wanted, or than what the holders have, and no name
in two places. A name that it brings back from `minted/dead/` was in no live place, of each kind
there are no more of these than it lacked, and what is held stays so. A negative count is refused
with the ledger as it was. -/
theorem mint_bounded (wanted : List (Name × Int)) (s : Ledger) (hu : s.Unique) (hm : AllMarked s)
    (r : Except Failure MintReport) (t : Ledger) (hrun : exec quiet () (mint wanted) s = (r, t)) :
    ((∃ d ∈ wanted, d.2 < 0) → r = .error (.contract "tier capacity must not be negative") ∧
      t = s) ∧
      ((∀ d ∈ wanted, 0 ≤ d.2) → ∃ report, r = .ok report ∧ Mints wanted s report t) := by
  constructor
  · rintro ⟨d, hd, hne⟩
    have ha : (wanted.any fun d => d.2 < 0) = true := any_eq_true.mpr ⟨d, hd, decide_eq_true hne⟩
    rw [mint, if_pos ha] at hrun
    cases hrun
    exact ⟨rfl, rfl⟩
  · intro hn
    have hno : ¬ (wanted.any fun d => d.2 < 0) = true := by
      intro ha
      obtain ⟨d, hd, hne⟩ := any_eq_true.mp ha
      exact absurd (hn d hd) (Int.not_le.mpr (of_decide_eq_true hne))
    have he := (applyMint_ends hn hu hm).exec ()
    rw [mint, if_neg hno] at hrun
    rw [hrun] at he
    exact he

/-- One token is held, one dead and none free, and three are wanted. -/
def oneDead : Ledger where
  dirs := [.minted, .dead, .free, .held ['k']]
  files := [(.minted, tokenName ['m'] 0), (.minted, tokenName ['m'] 1),
    (.held ['k'], tokenName ['m'] 0), (.dead, tokenName ['m'] 1)]
  rooted := by decide

theorem oneDead_reissued : ∃ report, (exec quiet () (mint [(['m'], 3)]) oneDead).1 = .ok report ∧
    Mints [(['m'], 3)] oneDead report (exec quiet () (mint [(['m'], 3)]) oneDead).2 := by
  refine (mint_bounded [(['m'], 3)] oneDead ?_ ?_ _ _ rfl).2 (by decide)
  · intro n _ p q hp hq hpn hqn
    simp only [oneDead, mem_cons, Prod.mk.injEq, not_mem_nil, or_false] at hpn hqn
    have hne : tokenName ['m'] 0 ≠ tokenName ['m'] 1 := by decide
    grind
  · intro n _ p hpn
    simp only [oneDead, mem_cons, Prod.mk.injEq, not_mem_nil, or_false] at hpn ⊢
    grind

end PrismaBuild.ResourceLedger
