import PrismaBuild.LedgerShrink

namespace PrismaBuild.ResourceLedger

open Prog Ledger List

def Present (s : Ledger) (n : Name) : Prop :=
    isToken n = true ∧ ((.free, n) ∈ s.files ∨ ∃ h, (.held h, n) ∈ s.files)

def Adopted (s t : Ledger) : Prop := ∀ p n, (p, n) ∈ t.files ↔ (p, n) ∈ s.files ∨ p = .minted ∧
    Present s n

def Minted (names : List Name) (s t : Ledger) : Prop :=
  ∀ p n, (p, n) ∈ t.files ↔ (p, n) ∈ s.files ∨ (p = .minted ∨ p = .free) ∧ n ∈ names ∧
    (.minted, n) ∉ s.files

structure Ready (minted : List Name) (s : Ledger) : Prop where
  free : .free ∈ s.dirs
  marks : .minted ∈ s.dirs
  listed : ∀ n, n ∈ minted ↔ (.minted, n) ∈ s.files
  marked : ∀ n, Present s n → (.minted, n) ∈ s.files

section

variable {s : Ledger} {p : Place} {n : Name}

theorem quiet_create (hd : p ∈ s.dirs) (hn : (p, n) ∉ s.files) :
    quiet (.create p n) () s = (.ok (), s.put p n hd) := by
  simp [quiet, step, hd, hn]

theorem quiet_create_exist (hd : p ∈ s.dirs) (hold : (p, n) ∈ s.files) :
    quiet (.create p n) () s = (.error .exist, s) := by
  simp [quiet, step, hd, hold]

theorem quiet_statDir (hd : p ∈ s.dirs) : quiet (.statDir p) () s = (.ok true, s) := by
  simp [quiet, step, hd]

theorem scanRequired_ends (hd : p ∈ s.dirs) :
    Ends (fun r t => r = .ok (s.names p) ∧ t = s) (scanRequired p) s := by
  refine ⟨trivial, fun _ => ⟨trivial, ?_⟩⟩
  rw [quiet_scan hd]
  exact ⟨rfl, rfl⟩

theorem censusScan_ends (strict : Bool) (hd : p ∈ s.dirs) :
    Ends (fun r t => r = .ok (s.names p) ∧ t = s) (censusScan strict p) s := by
  cases strict with
  | true => exact scanRequired_ends hd
  | false =>
    refine .perform trivial fun _ => ?_
    rw [quiet_scan hd]
    exact ⟨trivial, rfl, rfl⟩

theorem censusGlob_ends (strict : Bool) (hd : p ∈ s.dirs) :
    Ends (fun r t => r = .ok (s.names p) ∧ t = s) (censusGlob strict p) s := by
  cases strict with
  | true => exact scanRequired_ends hd
  | false => exact ⟨trivial, fun _ => ⟨trivial, rfl, rfl⟩⟩

end

section

variable {s : Ledger}

theorem presentUnder_ends (strict : Bool) (hs present : List Name)
    (hd : ∀ h ∈ hs, .held h ∈ s.dirs) :
    Ends (fun r t => r = .ok (present ++ hs.flatMap fun h => tokensIn s (.held h)) ∧ t = s)
      (presentUnder strict hs present) s := by
  induction hs generalizing present with
  | nil =>
    refine ⟨trivial, ?_, rfl⟩
    rw [flatMap_nil, append_nil]
  | cons h hs ih =>
    have hdi := hd h (.head _)
    refine .andThen ⟨trivial, fun _ => ⟨trivial, ?_⟩⟩
    rw [quiet_statDir hdi]
    refine .andThen ((censusGlob_ends strict hdi).imp ?_)
    rintro r t - ⟨rfl, rfl⟩
    refine (ih _ fun h hh => hd h (.tail _ hh)).imp ?_
    rintro r u - ⟨rfl, rfl⟩
    refine ⟨?_, rfl⟩
    rw [flatMap_cons, ← append_assoc]
    rfl

variable {n : Name}

theorem mem_present : n ∈ tokensIn s .free ++ custody s ↔ Present s n := by
  rw [mem_append, mem_tokensIn, mem_custody, Present]
  tauto

theorem adoptNames_ends (minted names adopted : List Name) (hdi : .minted ∈ s.dirs) :
    Ends (fun r t => (∃ out, r = .ok out ∧ ∀ n, n ∈ out ↔ n ∈ adopted ∨ n ∈ names ∧ n ∉ minted) ∧
        (∀ p n, (p, n) ∈ t.files ↔ (p, n) ∈ s.files ∨ p = .minted ∧ n ∈ names ∧ n ∉ minted) ∧
        t.dirs = s.dirs)
      (adoptNames minted names adopted) s := by
  induction names generalizing adopted s with
  | nil => exact ⟨trivial, ⟨adopted, rfl, by simp⟩, by simp, rfl⟩
  | cons name names ih =>
    unfold adoptNames
    by_cases hold : name ∈ minted
    · rw [if_pos hold]
      refine (ih adopted hdi).imp ?_
      rintro r t - ⟨⟨out, rfl, ho⟩, hf, hd⟩
      refine ⟨⟨out, rfl, fun n => ?_⟩, fun p n => ?_, hd⟩
      · rw [ho, mem_cons]
        grind
      · rw [hf, mem_cons]
        grind
    · rw [if_neg hold]
      have hn : ∀ (u : Ledger), .minted ∈ u.dirs → u.dirs = s.dirs →
          (∀ p n, (p, n) ∈ u.files ↔ (p, n) ∈ s.files ∨ p = .minted ∧ n = name) →
          Ends (fun r t => (∃ out, r = .ok out ∧ ∀ n, n ∈ out ↔ n ∈ adopted ∨ n ∈ name :: names ∧
          n ∉ minted) ∧
            (∀ p n, (p, n) ∈ t.files ↔ (p, n) ∈ s.files ∨ p = .minted ∧ n ∈ name :: names ∧
            n ∉ minted) ∧ t.dirs = s.dirs)
          (adoptNames minted names (name :: adopted)) u := by
        intro u hu hd hfi
        refine (ih (name :: adopted) hu).imp ?_
        rintro r t - ⟨⟨out, rfl, ho⟩, hf, hd'⟩
        refine ⟨⟨out, rfl, fun n => ?_⟩, fun p n => ?_, hd'.trans hd⟩
        · rw [ho, mem_cons, mem_cons]
          grind
        · rw [hf, hfi, mem_cons]
          grind
      refine .perform trivial fun _ => ?_
      by_cases hin : (.minted, name) ∈ s.files
      · rw [quiet_create_exist hdi hin]
        refine hn s hdi rfl fun p n => ?_
        grind
      · rw [quiet_create hdi hin]
        refine hn _ hdi rfl fun p n => ?_
        rw [mem_put, Prod.mk.injEq]
        grind

theorem Adopted.present {s t : Ledger} (h : Adopted s t) : Present t n ↔ Present s n := by
  unfold Present
  rw [h .free n]
  simp only [h (.held _) n]
  simp

theorem mintedCensus_ends (strict : Bool) (hfr : .free ∈ s.dirs) (hm : .minted ∈ s.dirs) :
    Ends (fun r t => (∃ minted, r = .ok minted ∧ Ready minted t) ∧ Adopted s t)
    (mintedCensus strict) s := by
  refine .andThen ((censusScan_ends strict hm).imp ?_)
  rintro r t - ⟨rfl, rfl⟩
  refine .andThen (.andThen ((censusGlob_ends strict hfr).imp ?_))
  rintro r u - ⟨rfl, rfl⟩
  refine .andThen ⟨trivial, fun _ => ⟨trivial, ?_⟩⟩
  have hho : ∀ h ∈ u.holderNames, .held h ∈ u.dirs := fun h hh => mem_holderNames.mp hh
  refine .andThen ((presentUnder_ends strict u.holderNames _ hho).imp ?_)
  rintro r v - ⟨rfl, rfl⟩
  refine (adoptNames_ends _ _ [] hm).imp ?_
  rintro r w - ⟨⟨out, rfl, ho⟩, hf, hd⟩
  have hpr : ∀ n, n ∈ sortNames ((v.names .free).filter isToken ++ v.holderNames.flatMap fun h =>
    tokensIn v (.held h)) ↔
      Present v n := fun n => mem_sortNames.trans mem_present
  simp only [hpr, mem_names] at ho hf
  have ha : Adopted v w := by
    intro p n
    rw [hf]
    by_cases hp : p = .minted
    · subst hp
      tauto
    · simp [hp]
  refine ⟨trivial, ⟨_, rfl, ?_⟩, ha⟩
  refine ⟨hd ▸ hfr, hd ▸ hm, fun n => ?_, fun n hn => ?_⟩
  · rw [mem_append, ho, ha, mem_names]
    simp only [not_mem_nil]
    tauto
  · exact (ha _ _).mpr (.inr ⟨rfl, ha.present.mp hn⟩)

end

section

variable {s t u : Ledger} {minted : List Name} {name : Name}

theorem tokenIsHeldBy_ends (strict : Bool) (hs : List Name) (hn : ∀ h, (.held h, name) ∉ s.files) :
    Ends (fun r t => r = .ok false ∧ t = s) (tokenIsHeldBy strict name hs) s := by
  induction hs with
  | nil => exact ⟨trivial, rfl, rfl⟩
  | cons h hs ih =>
    refine .andThen ⟨trivial, fun _ => ⟨trivial, ?_⟩⟩
    by_cases hd : .held h ∈ s.dirs
    · rw [quiet_statDir hd]
      cases strict with
      | true =>
        refine .andThen ((scanRequired_ends hd).imp ?_)
        rintro r t - ⟨rfl, rfl⟩
        have ho : name ∉ t.names (.held h) := fun hin => hn h (mem_names.mp hin)
        simp only [if_neg ho]
        exact ih
      | false =>
        refine .perform trivial fun _ => ?_
        have hst : quiet (.stat (.held h) name) () s = (.error .noent, s) := by
          simp [quiet, step, hn h]
        rw [hst]
        exact ih
    · have hst : quiet (.statDir (.held h)) () s = (.ok false, s) := by simp [quiet, step, hd]
      rw [hst]
      exact ih

theorem tokenIsHeld_ends (strict : Bool) (hn : ∀ h, (.held h, name) ∉ s.files) :
    Ends (fun r t => r = .ok false ∧ t = s) (tokenIsHeld strict name) s :=
  .andThen ⟨trivial, fun _ => ⟨trivial, tokenIsHeldBy_ends strict s.holderNames hn⟩⟩

theorem Minted.refl (s : Ledger) : Minted [] s s := fun p n => by simp

theorem Minted.trans {A B : List Name} (hst : Minted A s t) (htu : Minted B t u) :
    Minted (A ++ B) s u := by
  intro p n
  rw [htu, hst p n, hst .minted n, mem_append]
  by_cases hm : (.minted, n) ∈ s.files
  · simp [hm]
  · simp only [hm, not_false_eq_true, and_true, true_or, true_and, false_or]
    tauto

theorem Minted.skip (h : (.minted, name) ∈ s.files) : Minted [name] s s := by
  intro p n
  constructor
  · exact .inl
  · rintro (hin | ⟨-, hn, hno⟩)
    · exact hin
    · rw [mem_singleton.mp hn] at hno
      exact absurd h hno

theorem Ready.mint (h : Ready minted s) (hne : (.minted, name) ∉ s.files)
    (hfr : .free ∈ (s.put .minted name h.marks).dirs) :
    Minted [name] s ((s.put .minted name h.marks).put .free name hfr) ∧
      Ready (name :: minted) ((s.put .minted name h.marks).put .free name hfr) := by
  have hf : ∀ p n, (p, n) ∈ ((s.put .minted name h.marks).put .free name hfr).files ↔
      (p = .free ∨ p = .minted) ∧ n = name ∨ (p, n) ∈ s.files := by
    intro p n
    rw [mem_put, mem_put, Prod.mk.injEq, Prod.mk.injEq]
    tauto
  refine ⟨fun p n => ?_, h.free, h.marks, fun n => ?_, fun n hn => ?_⟩
  · rw [hf, mem_singleton]
    constructor
    · rintro (⟨hp, rfl⟩ | hin)
      · exact .inr ⟨hp.symm, rfl, hne⟩
      · exact .inl hin
    · rintro (hin | ⟨hp, hna, -⟩)
      · exact .inr hin
      · exact .inl ⟨hp.symm, hna⟩
  · rw [hf, mem_cons, h.listed]
    tauto
  · obtain ⟨ht, hpl⟩ := hn
    simp only [hf] at hpl ⊢
    by_cases hna : n = name
    · exact .inl ⟨.inr trivial, hna⟩
    · refine .inr (h.marked n ⟨ht, ?_⟩)
      rcases hpl with (⟨-, heq⟩ | hin) | ⟨holder, (⟨-, heq⟩ | hin)⟩
      · exact absurd heq hna
      · exact .inl hin
      · exact absurd heq hna
      · exact .inr ⟨holder, hin⟩

theorem mintNames_ends {strict : Bool} {rest : List Name → LedgerProg (Except Failure Unit)}
    {Q : Except Failure Unit → Ledger → Prop}
    {names : List Name} (hto : ∀ n ∈ names, isToken n = true) (hr : Ready minted s)
    (hre : ∀ minted t, Ready minted t → Minted names s t → Ends Q (rest minted) t) :
    Ends Q (mintNames strict rest names minted) s := by
  induction names generalizing minted s with
  | nil => exact hre minted s hr (Minted.refl s)
  | cons name names ih =>
    have hl := fun n hn => hto n (.tail _ hn)
    unfold mintNames
    by_cases hold : name ∈ minted
    · rw [if_pos hold]
      refine ih hl hr fun minted t ht hm => hre minted t ht ?_
      exact (Minted.skip ((hr.listed name).mp hold)).trans hm
    · rw [if_neg hold]
      have hne : (.minted, name) ∉ s.files := fun hin => hold ((hr.listed name).mpr hin)
      -- a token of the name would be present, and so marked
      have ha : ∀ p, p = .free ∨ (∃ h, p = .held h) → (p, name) ∉ s.files := by
        intro p hp hin
        refine hne (hr.marked name ⟨hto name (.head _), ?_⟩)
        rcases hp with rfl | ⟨h, rfl⟩
        · exact .inl hin
        · exact .inr ⟨h, hin⟩
      refine .perform trivial fun _ => ?_
      rw [quiet_create hr.marks hne]
      have hh : ∀ h, (.held h, name) ∉ (s.put .minted name hr.marks).files := by
        intro h
        rw [mem_put]
        simp [ha (.held h) (.inr ⟨h, rfl⟩)]
      have hf : (.free, name) ∉ (s.put .minted name hr.marks).files := by
        rw [mem_put]
        simp [ha .free (.inl rfl)]
      refine .bind ((tokenIsHeld_ends strict hh).imp ?_)
      rintro r t - ⟨rfl, rfl⟩
      refine .perform trivial fun _ => ?_
      have hd : .free ∈ (s.put .minted name hr.marks).dirs := hr.free
      rw [quiet_create hd hf]
      obtain ⟨hm, hr'⟩ := hr.mint hne hd
      exact ih hl hr' fun minted t ht hre' => hre minted t ht (hm.trans hre')

theorem mintKinds_ends (strict : Bool) {kinds : List (Name × Int)} (hc : ∀ d ∈ kinds, 0 ≤ d.2)
    (hre : Ready minted s) :
    Ends (fun r t => r = .ok () ∧ Minted (kinds.flatMap fun d =>
      (List.range d.2.toNat).map (tokenName d.1)) s t)
      (mintKinds strict kinds minted) s := by
  induction kinds generalizing minted s with
  | nil => exact ⟨trivial, rfl, Minted.refl s⟩
  | cons d kinds ih =>
    have hd : ¬ d.2 < 0 := Int.not_lt.mpr (hc d (.head _))
    have hto : ∀ n ∈ (range d.2.toNat).map (tokenName d.1), isToken n = true := by
      intro n hn
      obtain ⟨i, -, rfl⟩ := mem_map.mp hn
      exact tokenName_isToken d.1 i
    rw [mintKinds, if_neg hd]
    refine mintNames_ends hto hre fun minted t ht hm => ?_
    refine (ih (fun d hd => hc d (.tail _ hd)) ht).imp ?_
    rintro r u - ⟨rfl, hr⟩
    exact ⟨rfl, hm.trans hr⟩

end

def Grown (names : List Name) (s t : Ledger) : Prop :=
  ∀ p n, (p, n) ∈ t.files ↔ (p, n) ∈ s.files ∨ p = .minted ∧ Present s n ∨
    (p = .minted ∨ p = .free) ∧ n ∈ names ∧ (.minted, n) ∉ s.files ∧ ¬ Present s n

theorem ensureCapacity_ends (strict : Bool) {capacity : List (Name × Int)}
    (hc : ∀ d ∈ capacity, 0 ≤ d.2) (s : Ledger) :
    Ends (fun r t => r = .ok () ∧ Grown (capacity.flatMap fun d =>
      (List.range d.2.toNat).map (tokenName d.1)) s t)
      (ensureCapacity strict capacity) s := by
  refine .andThen ⟨trivial, fun _ => ⟨trivial, ?_⟩⟩
  refine .andThen ⟨trivial, fun _ => ⟨trivial, ?_⟩⟩
  refine .bind ((mintedCensus_ends strict (.tail _ (.head _)) (.head _)).imp ?_)
  rintro r t - ⟨⟨minted, rfl, hr⟩, ha⟩
  have hp := sortedItems_perm capacity
  refine (mintKinds_ends strict (fun d hd => hc d (hp.mem_iff.mp hd)) hr).imp ?_
  rintro r u - ⟨rfl, hm⟩
  refine ⟨rfl, fun p n => ?_⟩
  have hf : ∀ q, (q, n) ∈ t.files ↔ (q, n) ∈ s.files ∨ q = .minted ∧ Present s n := fun q => ha q n
  rw [hm, hf, hf, (hp.flatMap_right _).mem_iff]
  simp only [true_and]
  tauto

end PrismaBuild.ResourceLedger
