import PrismaBuild.NameOrder
import PrismaBuild.Ranking

namespace PrismaBuild.StorageTiers

open Ranking List Option

structure Pacing where
  (rate held yielded poolRead : Option ℚ)

/-- A field that is missing or of another type is `none`. -/
structure Receipt (ι : Type) where
  unix : ℚ
  actionKey : Name
  mover : Bool
  identity : Option ι
  (sealed staged seconds fileRate : Option ℚ)
  sharers : Option Int
  pacing : Option Pacing

def positive (x : Option ℚ) : Option ℚ := x.filter (0 < ·)

section

variable {ι : Type}

def delivered (r : Receipt ι) : Option ℚ := positive (r.pacing.bind Pacing.rate)

def fellShort (r : Receipt ι) : Bool :=
  match positive r.sealed, positive r.staged, positive r.seconds with
  | some sealed, some staged, some seconds =>
    let held := r.pacing.elim 0 fun p => (positive p.held).getD 0 + (positive p.yielded).getD 0
    0 < seconds - held && staged / 10 ^ 6 / (seconds - held) < sealed
  | _, _, _ => false

def measuredThePool (r : Receipt ι) : Bool :=
  match (r.pacing.bind Pacing.poolRead).filter (0 ≤ ·), positive r.staged with
  | some poolRead, some staged => staged / 2 ≤ poolRead
  | _, _ => true

def singleReaderShare (r : Receipt ι) : Option ℚ :=
  match positive r.fileRate, delivered r, r.sharers.filter (1 ≤ ·) with
  | some rate, some delivered, some sharers => some (min rate (delivered / sharers))
  | _, _, _ => none

def isReader (r : Receipt ι) : Bool := r.mover || (positive r.sealed).isSome

structure Fold where
  ceiling : Option ℚ := none
  key : Option Name := none
  best : Option ℚ := none
  shares : List ℚ := []

def Fold.read (st : Fold) (m : Receipt ι × ℚ) : Fold :=
  let st := { st with shares := st.shares ++ (singleReaderShare m.1).toList }
  if st.best = none ∧ isReader m.1 = false then st
  else
    let st := if st.ceiling.any (· < m.2) then
      { st with ceiling := none, key := none, best := none } else st
    if fellShort m.1 then { st with ceiling := some m.2, key := some m.1.actionKey, best := none }
    else { st with best := some (st.best.elim m.2 (max m.2)) }

def median (xs : List ℚ) : ℚ :=
  let sorted := sortBy id xs
  if xs.length % 2 = 1 then sorted.getD (xs.length / 2) 0
  else (sorted.getD (xs.length / 2 - 1) 0 + sorted.getD (xs.length / 2) 0) / 2

structure Supply where
  (ceiling best : Option ℚ)
  receipt : Option Name
  (mayGrow probing : Bool)
  probe : Option ℚ
  basis : Option (ℚ × Nat)

def Fold.supply (st : Fold) : Supply :=
  let probing := st.ceiling.isSome && !st.shares.isEmpty
  { ceiling := st.ceiling
    best := st.best
    receipt := st.key
    mayGrow := st.ceiling.isNone
    probing := probing
    probe := if probing then st.ceiling.map (· + median st.shares) else none
    basis := if probing then some (median st.shares, st.shares.length) else none }

variable [DecidableEq ι] (asked : Option ι)

def measurement (r : Receipt ι) : Option ℚ :=
  if asked ≠ none ∧ r.mover = true ∧ r.identity ≠ asked then none else (delivered r).filter fun _ =>
    measuredThePool r

/-- The measuring receipts in the order of their stamps, each with what it delivered. -/
def measured (records : List (Receipt ι)) : List (Receipt ι × ℚ) :=
  (sortBy Receipt.unix records).filterMap fun r => (measurement asked r).map (r, ·)

def fillSupplyFromRecords (records : List (Receipt ι)) : Supply :=
    ((measured asked records).foldl Fold.read {}).supply

end

section

variable {ι : Type} {ms : List (Receipt ι × ℚ)} {st : Fold}

/-- The last receipt that fell short, and the measurements after it. -/
def lastShort (ms : List (Receipt ι × ℚ)) : Option (Receipt ι × ℚ) :=
    (ms.rdropWhile fun m => !fellShort m.1).getLast?

def later (ms : List (Receipt ι × ℚ)) : List (Receipt ι × ℚ) :=
    ms.rtakeWhile fun m => !fellShort m.1

/-- A delivery above the ceiling that the fold looks at: it is a reader's, or comes after one. -/
def Exceeded (c : ℚ) (ms : List (Receipt ι × ℚ)) : Prop :=
  ∃ before m after, ms = before ++ m :: after ∧ c < m.2 ∧ ∃ r ∈ before ++ [m], isReader r.1 = true

def Standing (ms : List (Receipt ι × ℚ)) (st : Fold) : Prop :=
  match lastShort ms with
  | none => st.ceiling = none
  | some s =>
    ¬ Exceeded s.2 (later ms) ∧ st.ceiling = some s.2 ∧
      (st.best = none ↔ ∀ m ∈ later ms, isReader m.1 = false) ∧
        (∀ b ∈ st.best, b ≤ s.2) ∨
      Exceeded s.2 (later ms) ∧ st.ceiling = none ∧ st.best ≠ none

theorem isReader_of_fellShort {r : Receipt ι} (h : fellShort r = true) : isReader r = true := by
  unfold fellShort at h
  split at h
  next hs _ _ => simp [isReader, hs]
  next => cases h

theorem exceeded_concat {c : ℚ} {m : Receipt ι × ℚ} : Exceeded c (ms ++ [m]) ↔
    Exceeded c ms ∨ c < m.2 ∧ ∃ r ∈ ms ++ [m], isReader r.1 = true := by
  constructor
  · rintro ⟨before, x, after, heq, hlt, hr⟩
    rcases eq_nil_or_concat after with rfl | ⟨after, y, rfl⟩
    · obtain ⟨rfl, hm⟩ := append_inj' heq rfl
      cases hm
      exact .inr ⟨hlt, hr⟩
    · rw [concat_eq_append, ← cons_append, ← append_assoc] at heq
      exact .inl ⟨before, x, after, (append_inj' heq rfl).1, hlt, hr⟩
  · rintro (⟨before, x, after, rfl, hlt, hr⟩ | ⟨hlt, hr⟩)
    · exact ⟨before, x, after ++ [m], by simp, hlt, hr⟩
    · exact ⟨ms, m, [], rfl, hlt, hr⟩

theorem standing_short {m : Receipt ι × ℚ} (h : fellShort m.1 = true) (hc : st.ceiling = some m.2)
    (hb : st.best = none) :
    Standing (ms ++ [m]) st := by
  have hla : lastShort (ms ++ [m]) = some m := by
    rw [lastShort, rdropWhile_concat_neg _ _ _ (by simp [h]), getLast?_concat]
  have hl : later (ms ++ [m]) = [] := rtakeWhile_concat_neg _ _ _ (by simp [h])
  unfold Standing
  rw [hla, hl]
  refine .inl ⟨?_, hc, by simp [hb], by simp [hb]⟩
  rintro ⟨before, x, after, heq, -⟩
  simp at heq

theorem Standing.read (h : Standing ms st) (m : Receipt ι × ℚ) :
    Standing (ms ++ [m]) (st.read m) := by
  by_cases hsh : fellShort m.1 = true
  · have hrea : ¬ (st.best = none ∧ isReader m.1 = false) := by simp [isReader_of_fellShort hsh]
    apply standing_short hsh
    · simp only [Fold.read, if_neg hrea, hsh, if_true]
    · simp only [Fold.read, if_neg hrea, hsh, if_true]
  have hla : lastShort (ms ++ [m]) = lastShort ms := by
    rw [lastShort, rdropWhile_concat_pos _ _ _ (by simp [hsh]), lastShort]
  have hl : later (ms ++ [m]) = later ms ++ [m] := rtakeWhile_concat_pos _ _ _ (by simp [hsh])
  unfold Standing at h ⊢
  rw [hla, hl]
  cases hs : lastShort ms with
  | none =>
    rw [hs] at h
    have h := h
    simp only [Fold.read, hsh, h]
    split <;> rfl
  | some s =>
    rw [hs] at h
    by_cases hf : st.best = none ∧ isReader m.1 = false
    · have hrea : (st.read m).ceiling = st.ceiling ∧ (st.read m).best = st.best := by
        simp [Fold.read, if_pos hf]
      rcases h with ⟨hu, hc, hn, hle⟩ | ⟨-, -, hb⟩
      · have ha : ∀ x ∈ later ms ++ [m], isReader x.1 = false := by
          intro x hx
          rcases mem_append.mp hx with hx | hx
          · exact hn.mp hf.1 x hx
          · rw [mem_singleton.mp hx]
            exact hf.2
        refine .inl ⟨fun he => ?_, hrea.1.trans hc, iff_of_true (hrea.2.trans hf.1) ha,
          hrea.2 ▸ hle⟩
        rcases exceeded_concat.mp he with he | ⟨-, r, hr, hre⟩
        · exact hu he
        · rw [ha r hr] at hre
          cases hre
      · exact absurd hf.1 hb
    · have hbe : (st.read m).best ≠ none := by simp [Fold.read, if_neg hf, hsh]
      rcases h with ⟨hu, hc, hn, hle⟩ | ⟨he, hc, -⟩
      · have hre : ∃ r ∈ later ms ++ [m], isReader r.1 = true := by
          by_contra ha
          refine hf ⟨hn.mpr fun x hx => ?_, ?_⟩
          · exact Bool.eq_false_iff.mpr fun hx' => ha ⟨x, mem_append_left _ hx, hx'⟩
          · exact Bool.eq_false_iff.mpr fun hm => ha ⟨m, by simp, hm⟩
        by_cases hlt : s.2 < m.2
        · refine .inr ⟨exceeded_concat.mpr (.inr ⟨hlt, hre⟩), ?_, hbe⟩
          simp [Fold.read, if_neg hf, hsh, hc, hlt]
        · refine .inl ⟨fun he => ?_, ?_, iff_of_false hbe fun ha => ?_, fun b hb => ?_⟩
          · exact (exceeded_concat.mp he).elim hu fun h => hlt h.1
          · simp [Fold.read, if_neg hf, hsh, hc, hlt]
          · obtain ⟨r, hr, hre⟩ := hre
            rw [ha r hr] at hre
            cases hre
          · simp only [Fold.read, if_neg hf, hsh, hc, any_some, hlt, decide_false] at hb
            cases hst : st.best with
            | none =>
              simp [hst] at hb
              linarith
            | some b' =>
              have := hle b' hst
              simp [hst] at hb
              rw [← hb]
              exact max_le (not_lt.mp hlt) this
      · refine .inr ⟨exceeded_concat.mpr (.inl he), ?_, hbe⟩
        simp [Fold.read, if_neg hf, hsh, hc]

theorem standing (ms : List (Receipt ι × ℚ)) : Standing ms (ms.foldl Fold.read {}) := by
  induction ms using reverseRecOn with
  | nil => rfl
  | append_singleton ms m ih =>
    rw [foldl_concat]
    exact ih.read m

theorem shares_eq (ms : List (Receipt ι × ℚ)) :
    (ms.foldl Fold.read {}).shares = ms.filterMap fun m => singleReaderShare m.1 := by
  induction ms using reverseRecOn with
  | nil => rfl
  | append_singleton ms m ih =>
    have hr : ∀ st : Fold, (st.read m).shares = st.shares ++ (singleReaderShare m.1).toList := by
      intro st
      simp only [Fold.read]
      split
      · rfl
      · split <;> split <;> rfl
    rw [foldl_concat, hr, ih, filterMap_append]
    cases hs : singleReaderShare m.1 <;> simp [hs]

theorem positive_some {x : Option ℚ} {q : ℚ} (h : positive x = some q) : 0 < q := by
  simpa using (filter_eq_some_iff.mp h).2

theorem median_pos {xs : List ℚ} (hne : xs ≠ []) (hp : ∀ x ∈ xs, 0 < x) : 0 < median xs := by
  have hl := length_pos_iff.mpr hne
  have hg : ∀ i < xs.length, 0 < (sortBy id xs).getD i 0 := by
    intro i hi
    have hi' : i < (sortBy id xs).length := by rwa [sortBy, length_insertionSort]
    rw [getD_eq_getElem?_getD, getElem?_eq_getElem hi']
    exact hp _ ((mem_insertionSort _).mp (getElem_mem hi'))
  have hh := hg (xs.length / 2) (by omega)
  unfold median
  split
  · exact hh
  · have hlo := hg (xs.length / 2 - 1) (by omega)
    linarith

end

section

variable {ι : Type}

/-- What an answer is to say of the measurements. -/
structure Answers (ms : List (Receipt ι × ℚ)) (supply : Supply) : Prop where
  ceiling : ∀ c, supply.ceiling = some c ↔ ∃ s, lastShort ms = some s ∧ s.2 = c ∧ ∀ m ∈ later ms,
    m.2 ≤ c
  best : ∀ c b, supply.ceiling = some c → supply.best = some b → b ≤ c
  probing : supply.probing = true ↔ supply.ceiling ≠ none ∧ ∃ m ∈ ms, singleReaderShare m.1 ≠ none
  probe : supply.probing = true → ∃ c p, supply.ceiling = some c ∧ supply.probe = some p ∧ c < p

theorem Standing.answers {ms : List (Receipt ι × ℚ)} {st : Fold} (h : Standing ms st)
    (hsh : st.shares = ms.filterMap fun m => singleReaderShare m.1)
    (hco : ∀ s, lastShort ms = some s → (∃ m ∈ later ms, s.2 < m.2) → Exceeded s.2 (later ms)) :
      Answers ms st.supply := by
  refine ⟨fun c => ?_, fun c b hc hb => ?_, ?_, fun hp => ?_⟩
  · show st.ceiling = some c ↔ _
    unfold Standing at h
    cases hs : lastShort ms with
    | none =>
      rw [hs] at h
      simp only [show st.ceiling = none from h]
      simp
    | some s =>
      rw [hs] at h
      rcases h with ⟨hu, hc, -⟩ | ⟨⟨before, m, after, hl, hlt, -⟩, hc, -⟩
      · rw [hc]
        constructor
        · rintro ⟨⟩
          exact ⟨s, rfl, rfl, fun m hm => not_lt.mp fun hlt => hu (hco s hs ⟨m, hm, hlt⟩)⟩
        · rintro ⟨s', ⟨⟩, rfl, -⟩
          rfl
      · rw [hc]
        refine iff_of_false nofun ?_
        rintro ⟨s', ⟨⟩, rfl, hle⟩
        exact absurd hlt (not_lt.mpr (hle m (by simp [hl])))
  · unfold Standing at h
    have hc := hc
    cases hs : lastShort ms with
    | none =>
      rw [hs] at h
      cases h.symm.trans hc
    | some s =>
      rw [hs] at h
      rcases h with ⟨-, hc', -, hle⟩ | ⟨-, hc', -⟩
      · cases hc'.symm.trans hc
        exact hle b hb
      · cases hc'.symm.trans hc
  · simp [Fold.supply, hsh, isSome_iff_ne_none, ne_none_iff_exists']
  · obtain ⟨hso, hne⟩ := (Bool.and_eq_true _ _).mp hp
    obtain ⟨c, hc⟩ := isSome_iff_exists.mp hso
    have hpo : 0 < median st.shares := by
      refine median_pos (by simpa using hne) fun x hx => ?_
      rw [hsh] at hx
      obtain ⟨m, -, hm⟩ := mem_filterMap.mp hx
      unfold singleReaderShare at hm
      split at hm
      next rate q sharers hr hq hs =>
        cases hm
        have ho : 1 ≤ sharers := by simpa using (filter_eq_some_iff.mp hs).2
        have hd : (0 : ℚ) < sharers := by exact_mod_cast ho
        exact lt_min (positive_some hr) (div_pos (positive_some hq) hd)
      next => cases hm
    refine ⟨c, c + median st.shares, hc, ?_, by linarith⟩
    simp [Fold.supply, hne, hc]

variable [DecidableEq ι] (asked : Option ι) {records : List (Receipt ι)}

theorem measured_perm (hst : (records.map Receipt.unix).Nodup) {records' : List (Receipt ι)}
    (h : records'.Perm records) :
    measured asked records' = measured asked records := by
  have hs : ∀ rs : List (Receipt ι),
    (sortBy Receipt.unix rs).Pairwise (Later Receipt.unix fun _ _ => True) :=
    fun rs => sortBy_pairwise _ (pairwise_of_forall fun _ _ => trivial)
  have hp : (sortBy Receipt.unix records').Perm (sortBy Receipt.unix records) :=
    (perm_insertionSort _ _).trans (h.trans (perm_insertionSort _ _).symm)
  unfold measured
  rw [hp.eq_of_pairwise (fun a b ha hb hab hba => ?_) (hs _) (hs _)]
  have hin : a ∈ records ∧ b ∈ records :=
    ⟨h.mem_iff.mp ((mem_insertionSort _).mp ha), (mem_insertionSort _).mp hb⟩
  refine inj_on_of_nodup_map hst hin.1 hin.2 (le_antisymm ?_ ?_)
  · exact hab.elim le_of_lt fun h => h.1.le
  · exact hba.elim le_of_lt fun h => h.1.le

/-- The answer is the one described exactly where a delivery above the last shortfall, if there is
one, is a reader's or comes after a reader's: until then the fence of the rebuild keeps the fold
from looking at it. -/
theorem answers_iff (hstamps : (records.map Receipt.unix).Nodup) :
    (Answers (measured asked records) (fillSupplyFromRecords asked records) ∧
      ∀ records', records'.Perm records →
      fillSupplyFromRecords asked records' = fillSupplyFromRecords asked records) ↔
    ∀ s, lastShort (measured asked records) = some s →
      (∃ m ∈ later (measured asked records), s.2 < m.2) →
      Exceeded s.2 (later (measured asked records)) := by
  have hst := standing (measured asked records)
  constructor
  · rintro ⟨h, -⟩ s hs ⟨m, hm, hlt⟩
    unfold Standing at hst
    rw [hs] at hst
    rcases hst with ⟨-, hc, -⟩ | ⟨he, -⟩
    · obtain ⟨s', hs', -, hle⟩ := (h.ceiling s.2).mp hc
      exact absurd hlt (not_lt.mpr (hle m hm))
    · exact he
  · intro hco
    refine ⟨hst.answers (shares_eq _) hco, fun records' hp => ?_⟩
    simp only [fillSupplyFromRecords, measured_perm asked hstamps hp]

end

def shortCopy : Receipt Unit := ⟨1, "m", true, none, some 20, some 10000000, some 1, some 10,
    some 1, some ⟨some 10, none, none, none⟩⟩

def prewarm : Receipt Unit := ⟨2, "w", false, none, none, none, none, none, none,
    some ⟨some 50, none, none, none⟩⟩

/-- A mover falls short at ten, and a prewarm cycle that the pool then serves at fifty is passed
over. -/
theorem prewarm_refutes_nothing : ([shortCopy, prewarm].map Receipt.unix).Nodup ∧
    ¬ Answers (measured none [shortCopy, prewarm])
    (fillSupplyFromRecords none [shortCopy, prewarm]) := by
  refine ⟨by decide +kernel, fun h => ?_⟩
  obtain ⟨s, -, -, hle⟩ := (h.ceiling 10).mp (by decide +kernel)
  have ha : ((later (measured none [shortCopy, prewarm])).map Prod.snd).all (· ≤ 10) = true := by
    simpa using hle
  exact absurd ha (by decide +kernel)

def fullCopy : Receipt Unit :=
  ⟨2, "n", true, none, some 20, some 20000000, some 1, some 20, some 1,
    some ⟨some 20, none, none, none⟩⟩

/-- A mover falls short at ten and a later one delivers twenty, which lifts the ceiling. -/
theorem answers_shortCopy :
    Answers (measured none [shortCopy, fullCopy])
    (fillSupplyFromRecords none [shortCopy, fullCopy]) := by
  refine ((answers_iff none (by decide +kernel)).mpr fun s hs _ => ?_).1
  have hten : (lastShort (measured none [shortCopy, fullCopy])).map Prod.snd = some 10 := by
    decide +kernel
  rw [hs] at hten
  have hl : (later (measured none [shortCopy, fullCopy])).map (fun m => (m.2, isReader m.1)) =
    [(20, true)] := by
    decide +kernel
  obtain ⟨m, hm, he⟩ := map_eq_singleton_iff.mp hl
  obtain ⟨htwenty, hr⟩ := Prod.mk.inj he
  refine ⟨[], m, [], hm, ?_, m, by simp, hr⟩
  rw [Option.some.inj hten, htwenty]
  norm_num

end PrismaBuild.StorageTiers
