import PrismaBuild.ActionParams

namespace PrismaBuild.CpuTopology

open List

/-- What `str.isdigit` and `int` say of a character: on the ten ASCII digits it is known, elsewhere
it is left open. -/
structure Numerals where
  isdigit : Char → Bool
  value : Char → Option Nat
  ascii : ∀ c : Char, c.isDigit = true → isdigit c = true ∧ value c = some (c.toNat - '0'.toNat)

inductive Refusal
  | cpuList (text : Name)
  | cpuRange (part : Name)
  | literal (part : Name)
  deriving DecidableEq

abbrev Run := Nat × Nat

variable (py : Numerals) {list : List Run}

def isdigit (text : Name) : Bool := !text.isEmpty && text.all py.isdigit

def int (text : Name) : Option Nat := text.foldlM (fun n c => (py.value c).map (10 * n + ·)) 0

/-- The bounds that `parse_cpus` reads in one part of the list. -/
def parseBounds (text part : Name) : Except Refusal Run :=
  let bounds := part.splitOn '-'
  if bounds.length > 2 ∨ bounds.any (fun x => !isdigit py x) then .error (.cpuList text)
  else
    match int py (bounds.headD []), int py (bounds.getLastD []) with
    | some lo, some hi => if hi < lo then .error (.cpuRange part) else .ok (lo, hi)
    | _, _ => .error (.literal part)

def parseRanges (text : Name) : List Name → Except Refusal (List Run)
  | [] => .ok []
  | part :: rest =>
    if part = [] then parseRanges text rest
    else do
      let run ← parseBounds py text part
      let more ← parseRanges text rest
      .ok (run :: more)

/-- The ranges that a CPU list spells out, in its own order. -/
def rangesIn (text : Name) : Except Refusal (List Run) :=
    parseRanges py text ((Action.strip text).splitOn ',')

/-- What the loop of `parse_cpus` puts into its set. -/
def covered (ranges : List Run) : List Nat :=
    ranges.flatMap fun run => List.range' run.1 (run.2 + 1 - run.1)

/-- `sorted` of the set of these numbers. -/
def sortedSet (cpus : List Nat) : List Nat := cpus.dedup.mergeSort

def parseCpus (text : Name) : Except Refusal (List Nat) := do
  let ranges ← rangesIn py text
  .ok (sortedSet (covered ranges))

def spell (run : Run) : Name :=
  if run.2 > run.1 then Nat.toDigits 10 run.1 ++ '-' :: Nat.toDigits 10 run.2 else
    Nat.toDigits 10 run.1

/-- The loop of `as_range` from an open run on: each run is flushed when the next CPU does not
continue it. -/
def runs (start prev : Nat) : List Nat → List Run
  | [] => [(start, prev)]
  | cpu :: rest =>
    if cpu = prev + 1 then runs start cpu rest else (start, prev) :: runs cpu cpu rest

def runsOf : List Nat → List Run
  | [] => []
  | cpu :: rest => runs cpu cpu rest

def spellAll (list : List Run) : Name := [','].intercalate (list.map spell)

def asRange (cpus : List Nat) : Name := spellAll (runsOf cpus.mergeSort)

theorem int_toDigits (n : Nat) : int py (Nat.toDigits 10 n) = some n := by
  have hf : ∀ (cs : Name) (m : Nat), (∀ c ∈ cs, c.isDigit = true) →
      cs.foldlM (fun n c => (py.value c).map (10 * n + ·)) m = some (Nat.ofDigitChars 10 cs m) := by
    intro cs
    induction cs with
    | nil => exact fun _ _ => rfl
    | cons c cs ih =>
      intro m hc
      obtain ⟨hd, hs⟩ := forall_mem_cons.mp hc
      rw [foldlM_cons, (py.ascii c hd).2, Nat.ofDigitChars_cons]
      exact ih _ hs
  rw [int, hf _ 0 fun c hc => Nat.isDigit_of_mem_toDigits (by decide) (by decide) hc,
    Nat.ofDigitChars_ten_toDigits]

theorem isdigit_toDigits (n : Nat) : isdigit py (Nat.toDigits 10 n) = true := by
  have hl := Nat.length_toDigits_pos (b := 10) (n := n)
  have ha : (Nat.toDigits 10 n).all py.isdigit = true := all_eq_true.mpr fun c hc =>
    (py.ascii c (Nat.isDigit_of_mem_toDigits (by decide) (by decide) hc)).1
  simp [isdigit, ha, ne_nil_of_length_pos hl]

theorem mem_spell {c : Char} {run : Run} (h : c ∈ spell run) : c.isDigit = true ∨ c = '-' := by
  have hd : ∀ n, c ∈ Nat.toDigits 10 n → c.isDigit = true := fun n =>
    Nat.isDigit_of_mem_toDigits (by decide) (by decide)
  unfold spell at h
  split at h
  · rcases mem_append.mp h with hm | hm
    · exact Or.inl (hd _ hm)
    · rcases mem_cons.mp hm with rfl | hm
      · exact Or.inr rfl
      · exact Or.inl (hd _ hm)
  · exact Or.inl (hd _ h)

theorem parseBounds_spell (text : Name) {run : Run} (h : run.1 ≤ run.2) :
    parseBounds py text (spell run) = .ok run := by
  obtain ⟨lo, hi⟩ := run
  have hm : ∀ n, '-' ∉ Nat.toDigits 10 n := not_mem_toDigits (by decide)
  unfold parseBounds spell
  simp only at h
  rcases Nat.lt_or_eq_of_le h with hr | rfl
  · simp [hr, Nat.not_lt.mpr h, splitOn_append_cons_self, splitOn_eq_singleton (hm _),
      isdigit_toDigits, int_toDigits]
  · simp [splitOn_eq_singleton (hm _), isdigit_toDigits, int_toDigits]

theorem spell_ne_nil (run : Run) : spell run ≠ [] := by
  have hl := ne_nil_of_length_pos (Nat.length_toDigits_pos (b := 10) (n := run.1))
  unfold spell
  split
  · simp
  · exact hl

theorem mem_intercalate {c : Char} (h : c ∈ spellAll list) :
    c = ',' ∨ ∃ run ∈ list, c ∈ spell run := by
  induction list with
  | nil => cases h
  | cons run rest ih =>
    cases rest with
    | nil => exact Or.inr ⟨run, by simp, by simpa [spellAll] using h⟩
    | cons next rest =>
      rw [spellAll, map_cons, map_cons, intercalate_cons_cons, mem_append, mem_append] at h
      rcases h with (hr | hr) | hr
      · exact Or.inr ⟨run, by simp, hr⟩
      · exact Or.inl (mem_singleton.mp hr)
      · exact (ih hr).imp_right fun ⟨r, hm, hc⟩ => ⟨r, mem_cons_of_mem _ hm, hc⟩

theorem strip_spelled (list : List Run) :
    Action.strip (spellAll list) = spellAll list := by
  have hs : ∀ c : Char, c.isDigit = true → Action.pySpace c = false := by
    intro c hd
    simp only [Char.isDigit, Bool.and_eq_true, decide_eq_true_eq, ge_iff_le,
      UInt32.le_iff_toNat_le] at hd
    change 48 ≤ c.toNat ∧ c.toNat ≤ 57 at hd
    simp [Action.pySpace]
    omega
  have hc : ∀ c ∈ spellAll list, Action.pySpace c = false := by
    intro c hm
    rcases mem_intercalate hm with rfl | ⟨run, -, hr⟩
    · rfl
    · rcases mem_spell hr with hd | rfl
      · exact hs c hd
      · rfl
  have hd : ∀ cs : Name, (∀ c ∈ cs, Action.pySpace c = false) →
    cs.dropWhile Action.pySpace = cs := by
    intro cs h
    cases cs with
    | nil => rfl
    | cons c cs => rw [dropWhile_cons_of_neg (by simp [h c])]
  rw [Action.strip, hd _ hc, hd _ fun c hm => hc c (mem_reverse.mp hm), reverse_reverse]

theorem parseRanges_spelled (text : Name) (h : ∀ run ∈ list, run.1 ≤ run.2) :
    parseRanges py text (list.map spell) = .ok list := by
  induction list with
  | nil => rfl
  | cons run rest ih =>
    obtain ⟨hr, hs⟩ := forall_mem_cons.mp h
    rw [map_cons, parseRanges, if_neg (spell_ne_nil run), parseBounds_spell py text hr, ih hs]
    rfl

theorem rangesIn_spelled (h : ∀ run ∈ list, run.1 ≤ run.2) :
    rangesIn py (spellAll list) = .ok list := by
  rw [rangesIn, strip_spelled]
  cases list with
  | nil => rfl
  | cons run rest =>
    have hs : (spellAll (run :: rest)).splitOn ',' = (run :: rest).map spell := by
      refine splitOn_intercalate ',' (fun part hp hm => ?_) (by simp)
      obtain ⟨r, -, rfl⟩ := mem_map.mp hp
      rcases mem_spell hm with hd | hd <;> cases hd
    rw [hs, parseRanges_spelled py _ h]

theorem mem_sortedSet {cpus : List Nat} {x : Nat} : x ∈ sortedSet cpus ↔ x ∈ cpus := by
  rw [sortedSet, mem_mergeSort, mem_dedup]

theorem sortedSet_nodup (cpus : List Nat) : (sortedSet cpus).Nodup :=
  (mergeSort_perm _ _).nodup_iff.mpr (nodup_dedup _)

theorem sortedSet_congr {a b : List Nat} (h : ∀ x, x ∈ a ↔ x ∈ b) : sortedSet a = sortedSet b := by
  refine Perm.eq_of_pairwise (fun _ _ _ _ => Nat.le_antisymm) (pairwise_mergeSort' (· ≤ ·) _)
    (pairwise_mergeSort' (· ≤ ·) _) ?_
  refine (perm_ext_iff_of_nodup (sortedSet_nodup a) (sortedSet_nodup b)).mpr fun x => ?_
  rw [mem_sortedSet, mem_sortedSet, h]

theorem mem_covered_cons {run : Run} {x : Nat} (h : run.1 ≤ run.2) :
    x ∈ covered (run :: list) ↔ run.1 ≤ x ∧ x ≤ run.2 ∨ x ∈ covered list := by
  have hr : run.1 + (run.2 + 1 - run.1) = run.2 + 1 := by omega
  rw [covered, flatMap_cons, mem_append, mem_range'_1, hr, Nat.lt_succ_iff, covered]

theorem runs_spec {start prev : Nat} {rest : List Nat} (h : start ≤ prev)
    (hs : (prev :: rest).Pairwise (· ≤ ·)) :
    (∀ run ∈ runs start prev rest, run.1 ≤ run.2 ∧ start ≤ run.1) ∧
      (∀ x, x ∈ covered (runs start prev rest) ↔ start ≤ x ∧ x ≤ prev ∨ x ∈ rest) ∧
      ((prev :: rest).Pairwise (· < ·) → (runs start prev rest).Pairwise fun r s =>
      r.2 + 1 < s.1) := by
  induction rest generalizing start prev with
  | nil =>
    refine ⟨by simpa [runs] using h, fun x => ?_, fun _ => pairwise_singleton _ _⟩
    rw [runs, mem_covered_cons h]
    rfl
  | cons cpu rest ih =>
    obtain ⟨hp, hs⟩ := pairwise_cons.mp hs
    have hc := hp cpu (by simp)
    unfold runs
    by_cases he : cpu = prev + 1
    · rw [if_pos he]
      obtain ⟨hr, hv, hq⟩ := ih (show start ≤ cpu by omega) hs
      refine ⟨hr, fun x => ?_, fun hl => hq (pairwise_cons.mp hl).2⟩
      rw [hv, mem_cons]
      by_cases hx : x ∈ rest <;> simp [hx]
      omega
    · rw [if_neg he]
      obtain ⟨hr, hv, hq⟩ := ih (le_refl cpu) hs
      refine ⟨?_, fun x => ?_, fun hl => ?_⟩
      · refine forall_mem_cons.mpr ⟨⟨h, le_refl _⟩, fun run hm => ⟨(hr run hm).1, ?_⟩⟩
        exact h.trans (hc.trans (hr run hm).2)
      · rw [mem_covered_cons h, hv, mem_cons, ← Nat.le_antisymm_iff, eq_comm]
      · obtain ⟨hp, hl⟩ := pairwise_cons.mp hl
        refine pairwise_cons.mpr ⟨fun run hm => ?_, hq hl⟩
        have hf := hp cpu (by simp)
        have hg := (hr run hm).2
        change prev + 1 < run.1
        omega

theorem runsOf_spec (cpus : List Nat) : (∀ run ∈ runsOf cpus.mergeSort, run.1 ≤ run.2) ∧
    (∀ x, x ∈ covered (runsOf cpus.mergeSort) ↔ x ∈ cpus) ∧
    (cpus.Nodup → (runsOf cpus.mergeSort).Pairwise fun r s => r.2 + 1 < s.1) := by
  have hs : cpus.mergeSort.Pairwise (· ≤ ·) := pairwise_mergeSort' (· ≤ ·) cpus
  have hp := mergeSort_perm cpus (fun a b => decide (a ≤ b))
  simp only [← hp.mem_iff, ← hp.nodup_iff]
  cases hl : cpus.mergeSort with
  | nil => simp [runsOf, covered]
  | cons cpu rest =>
    rw [hl] at hs
    obtain ⟨hr, hv, hq⟩ := runs_spec (le_refl cpu) hs
    refine ⟨fun run hm => (hr run hm).1, fun x => ?_, fun hn => hq ?_⟩
    · rw [runsOf, hv, mem_cons, ← Nat.le_antisymm_iff, eq_comm]
    · exact hs.imp₂ (fun _ _ hab hne => Nat.lt_of_le_of_ne hab hne) hn

/-- A CPU list that is written reads back as the set it was made from; what was read is written as
ranges that are apart, and reads back as itself. -/
theorem cpuList_roundTrip : (∀ cpus : List Nat,
    parseCpus py (asRange cpus) = .ok (sortedSet cpus)) ∧
    ∀ text cpus, parseCpus py text = .ok cpus → parseCpus py (asRange cpus) = .ok cpus ∧
      ∃ ranges, rangesIn py (asRange cpus) = .ok ranges ∧ ranges.Pairwise fun r s =>
      r.2 + 1 < s.1 := by
  have hp : ∀ cpus : List Nat, parseCpus py (asRange cpus) = .ok (sortedSet cpus) := by
    intro cpus
    obtain ⟨hr, hv, -⟩ := runsOf_spec cpus
    rw [parseCpus, asRange, rangesIn_spelled py hr, ← sortedSet_congr hv]
    rfl
  refine ⟨hp, fun text cpus ht => ?_⟩
  obtain ⟨ranges, -, he⟩ := bind_ok.mp ht
  cases he
  obtain ⟨hr, -, hq⟩ := runsOf_spec (sortedSet (covered ranges))
  refine ⟨?_, _, rangesIn_spelled py hr, hq (sortedSet_nodup _)⟩
  rw [hp, sortedSet_congr fun x => mem_sortedSet]

def asciiNumerals : Numerals where
  isdigit := Char.isDigit
  value c := if c.isDigit then some (c.toNat - '0'.toNat) else none
  ascii _ h := ⟨h, if_pos h⟩

theorem cpuList_of_four : parseCpus asciiNumerals (asRange [6, 3, 4, 6]) =
    .ok (sortedSet [6, 3, 4, 6]) ∧
    ∃ ranges, rangesIn asciiNumerals (asRange (sortedSet [6, 3, 4, 6])) = .ok ranges ∧
      ranges.Pairwise fun r s => r.2 + 1 < s.1 := by
  have hp := (cpuList_roundTrip asciiNumerals).1 [6, 3, 4, 6]
  exact ⟨hp, ((cpuList_roundTrip asciiNumerals).2 _ _ hp).2⟩

end PrismaBuild.CpuTopology
