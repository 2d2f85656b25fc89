import PrismaBuild.PartitionCover

namespace PrismaBuild.Decomposition

open List

variable {l : Limits} {seconds : List ℚ}

/-- No later than another sequence of cut positions in lexicographic order. -/
def NoLater (cuts other : List Nat) : Prop := cuts = other ∨ List.Lex (· < ·) cuts other

section

variable (hpos : ∀ x ∈ seconds, 0 < x)

include hpos

variable {start : Nat} {pairs : List (Nat × Nat)}

theorem Pieces.length_le (h : Pieces l seconds start pairs) :
    (pairs.length : Int) ≤ batchesAt l seconds start := by
  induction h with
  | done => simp [batchesAt_end]
  | @batch start finish rest hf later ih =>
    have hlt := Nat.lt_of_lt_of_le hf.lt hf.le
    have hne := reachable_of_cuttable hpos later.cuttable
    have hm := (batchesAt_cases hpos hlt).1 finish hf hne
    simp only [length_cons, Nat.cast_add, Nat.cast_one]
    omega

theorem Pieces.length_tail {finish : Nat} {rest : List (Nat × Nat)}
    (hf : Feasible l seconds start finish)
    (later : Pieces l seconds finish rest)
      (hl : ((rest.length + 1 : Nat) : Int) = batchesAt l seconds start) :
    (rest.length : Int) = batchesAt l seconds finish ∧
      batchesAt l seconds finish = batchesAt l seconds start - 1 := by
  have hlt := Nat.lt_of_lt_of_le hf.lt hf.le
  have hne := reachable_of_cuttable hpos later.cuttable
  have hm := (batchesAt_cases hpos hlt).1 finish hf hne
  have hle := later.length_le hpos
  push_cast at hl
  omega

theorem Pieces.wallsAt_le (h : Pieces l seconds start pairs)
    (hl : (pairs.length : Int) = batchesAt l seconds start) {w : WithTop ℚ} (hz : 0 ≤ w)
    (hw : ∀ c ∈ pairs, (wallOf l seconds c.1 c.2 : WithTop ℚ) ≤ w) :
      wallsAt l seconds start ≤ w := by
  induction h with
  | done =>
    have he : wallsAt l seconds seconds.length = 0 := by
      refine getD_of_getElem? ?_
      rw [walls, fillDown_above _ (Nat.le_refl _), getElem?_append_right (by simp)]
      simp
    rw [he]
    exact hz
  | @batch start finish rest hf later ih =>
    have hlt := Nat.lt_of_lt_of_le hf.lt hf.le
    have hne := reachable_of_cuttable hpos (Cuttable.batch hf later.cuttable)
    obtain ⟨hr, hco⟩ := Pieces.length_tail hpos hf later hl
    have ht := ih hr fun c hc => hw c (.tail _ hc)
    calc wallsAt l seconds start
        ≤ max (wallOf l seconds start finish : WithTop ℚ) (wallsAt l seconds finish) :=
          (wallsAt_cases hpos hlt hne).1 finish hf hco
      _ ≤ w := max_le (hw (start, finish) (.head _)) ht

omit hpos in
theorem Chosen.length_eq (h : Chosen l seconds start pairs) :
    (pairs.length : Int) = batchesAt l seconds start := by
  induction h with
  | done => simp [batchesAt_end]
  | batch hk _ _ ih =>
    have hc := hk.count
    simp only [length_cons, Nat.cast_add, Nat.cast_one]
    omega

theorem Chosen.le {other : List (Nat × Nat)} (h : Chosen l seconds start pairs)
    (ho : Pieces l seconds start other) (hle : (other.length : Int) = batchesAt l seconds start)
    (hz : 0 ≤ wallsAt l seconds 0) (hw : ∀ c ∈ other,
      (wallOf l seconds c.1 c.2 : WithTop ℚ) ≤ wallsAt l seconds 0) :
    NoLater (pairs.map Prod.snd) (other.map Prod.snd) := by
  induction h generalizing other with
  | done =>
    cases ho with
    | done => exact .inl rfl
    | batch hf later => exact .inr .nil
  | @batch start finish rest hk hl _ ih =>
    cases ho with
    | done => exact absurd hk.feasible.lt (Nat.not_lt.mpr hk.feasible.le)
    | @batch _ other rest' hf later =>
      obtain ⟨hr, hco⟩ := Pieces.length_tail hpos hf later hle
      have hb : ∀ c ∈ rest', (wallOf l seconds c.1 c.2 : WithTop ℚ) ≤ wallsAt l seconds 0 :=
        fun c hc => hw c (.tail _ hc)
      have hke : Keeps l seconds start other :=
        ⟨hf, hco, hw _ (.head _), later.wallsAt_le hpos hr hz hb⟩
      rcases Nat.lt_or_eq_of_le (hl other hke) with hlt | rfl
      · exact .inr (.rel hlt)
      · exact (ih later hr hb).imp (congrArg (finish :: ·)) .cons

end

/-- No batch of one cut has a wall above the largest wall of another. -/
def NoLarger (l : Limits) (seconds : List ℚ) (pairs other : List (Nat × Nat)) : Prop :=
  ∀ c ∈ pairs, ∃ d ∈ other, wallOf l seconds c.1 c.2 ≤ wallOf l seconds d.1 d.2

/-- The best cut of a run: the most batches, then the least largest wall, then the earliest cuts. -/
structure Best (l : Limits) (seconds : List ℚ) (pairs : List (Nat × Nat)) : Prop where
  pieces : Pieces l seconds 0 pairs
  count : ∀ other, Pieces l seconds 0 other → other.length ≤ pairs.length
  wall : ∀ other, Pieces l seconds 0 other → other.length = pairs.length →
    NoLarger l seconds pairs other
  earliest : ∀ other, Pieces l seconds 0 other → other.length = pairs.length →
    NoLarger l seconds other pairs →
    NoLater (pairs.map Prod.snd) (other.map Prod.snd)

variable {start : Nat}

theorem Chosen.wall_le {pairs : List (Nat × Nat)} (h : Chosen l seconds start pairs) :
    ∀ c ∈ pairs, (wallOf l seconds c.1 c.2 : WithTop ℚ) ≤ wallsAt l seconds 0 := by
  induction h with
  | done => exact fun c hc => absurd hc not_mem_nil
  | batch hk _ _ ih =>
    intro c hc
    rcases mem_cons.mp hc with rfl | hc
    · exact hk.wall
    · exact ih c hc

theorem Pieces.start_eq (h : Pieces l seconds start []) : start = seconds.length := by
  cases h
  rfl

section

variable (hpos : ∀ x ∈ seconds, 0 < x) (hsetup : 0 ≤ l.setup)

include hpos hsetup

variable {pairs : List (Nat × Nat)}

theorem Pieces.wall_pos {start : Nat} (h : Pieces l seconds start pairs) :
    ∀ c ∈ pairs, 0 < wallOf l seconds c.1 c.2 := by
  induction h with
  | done => exact fun c hc => absurd hc not_mem_nil
  | batch hf _ ih =>
    intro c hc
    rcases mem_cons.mp hc with rfl | hc
    · have hw := work_pos hpos hf.lt hf.le
      exact add_pos_of_nonneg_of_pos hsetup hw
    · exact ih c hc

theorem Pieces.exists_ceiling (h : Pieces l seconds 0 pairs) (hne : pairs ≠ [])
    (hl : (pairs.length : Int) = batchesAt l seconds 0) :
    ∃ d ∈ pairs, wallsAt l seconds 0 ≤ (wallOf l seconds d.1 d.2 : WithTop ℚ) := by
  have hn := toFinset_nonempty_iff pairs |>.mpr hne
  obtain ⟨d, hd, hma⟩ := Finset.exists_max_image pairs.toFinset (fun c => wallOf l seconds c.1 c.2)
    hn
  have hm : d ∈ pairs := mem_toFinset.mp hd
  refine ⟨d, hm, h.wallsAt_le hpos hl ?_ fun c hc => ?_⟩
  · exact_mod_cast (h.wall_pos hpos hsetup d hm).le
  · exact_mod_cast hma c (mem_toFinset.mpr hc)

theorem Chosen.best (hne : seconds ≠ []) (h : Chosen l seconds 0 pairs) : Best l seconds pairs := by
  have hl := h.length_eq
  have hs : ∀ other : List (Nat × Nat), other.length = pairs.length →
    (other.length : Int) = batchesAt l seconds 0 :=
    fun other ho => by rw [ho, hl]
  have hn : ∀ other, Pieces l seconds 0 other → other ≠ [] := by
    rintro other hot rfl
    exact hne (length_eq_zero_iff.mp hot.start_eq.symm)
  refine ⟨h.pieces, fun other hot => ?_, fun other hot ho => ?_, fun other hot ho hw => ?_⟩
  · have hle := hot.length_le hpos
    omega
  · intro c hc
    obtain ⟨d, hd, hce⟩ := hot.exists_ceiling hpos hsetup (hn other hot) (hs other ho)
    exact ⟨d, hd, by exact_mod_cast (h.wall_le c hc).trans hce⟩
  · obtain ⟨d, hd, -⟩ := h.pieces.exists_ceiling hpos hsetup (hn pairs h.pieces) hl
    have hz : (0 : WithTop ℚ) ≤ wallsAt l seconds 0 := by
      have hd0 : (0 : WithTop ℚ) ≤ (wallOf l seconds d.1 d.2 : WithTop ℚ) := by
        exact_mod_cast (h.pieces.wall_pos hpos hsetup d hd).le
      exact hd0.trans (h.wall_le d hd)
    refine h.le hpos hot (hs other ho) hz fun c hc => ?_
    obtain ⟨d, hd, hcd⟩ := hw c hc
    have hle : (wallOf l seconds c.1 c.2 : WithTop ℚ) ≤ (wallOf l seconds d.1 d.2 : WithTop ℚ) := by
      exact_mod_cast hcd
    exact hle.trans (h.wall_le d hd)

end

section

variable {F : Type} [FloatFormat F]

/-- A run that can be cut at all is cut in the best way, and the search for its cuts never comes to
nothing. -/
theorem partitionRun_best (tasks : List (LogicalTask F)) (r : Run) (l : Limits)
    (hsetup : 0 ≤ l.setup)
    (hne : slice tasks r ≠ []) : (∀ refusal, partitionRun tasks r l = .error refusal →
      refusal.reason ≠ .noReconstruction) ∧
    ((∃ other, Pieces l ((slice tasks r).map LogicalTask.seconds) 0 other) →
      ∃ pairs, partitionRun tasks r l = .ok (pairs.map fun c =>
      List.range' (r.first + c.1) (c.2 - c.1)) ∧
        Best l ((slice tasks r).map LogicalTask.seconds) pairs) := by
  have hpos := seconds_pos (slice tasks r)
  have hs : (slice tasks r).map LogicalTask.seconds ≠ [] := by simpa using hne
  obtain ⟨refusal, hr, hre, hn⟩ | ⟨pairs, hc, hok⟩ := partitionRun_chosen tasks r l hne
  · refine ⟨fun other ho => ?_, fun ⟨other, ho⟩ => absurd ho.cuttable hn⟩
    cases hr.symm.trans ho
    exact hre
  · refine ⟨fun other ho => ?_, fun _ => ⟨pairs, hok, hc.best hpos hsetup hs⟩⟩
    cases hok.symm.trans ho

end

section

open PrismaBuild.Action (ZeroOne)

def demoRun : Run := ⟨0, 2, "model"⟩

def demoLimits : Limits := ⟨0, 1, 1⟩

theorem demoRun_pieces : Pieces demoLimits ((slice twoTasks.tasks demoRun).map LogicalTask.seconds)
    0 [(0, 1), (1, 2)] := by
  refine .batch ?_ (.batch ?_ .done)
  · exact ⟨by decide, by decide +kernel, by decide +kernel, by decide +kernel⟩
  · exact ⟨by decide, by decide +kernel, by decide +kernel, by decide +kernel⟩

theorem demoRun_best : ∃ pairs, partitionRun twoTasks.tasks demoRun demoLimits =
      .ok (pairs.map fun c => List.range' (demoRun.first + c.1) (c.2 - c.1)) ∧
    Best demoLimits ((slice twoTasks.tasks demoRun).map LogicalTask.seconds) pairs :=
  (partitionRun_best twoTasks.tasks demoRun demoLimits (by decide +kernel)
    (by simp [slice, twoTasks, demoRun])).2
    ⟨_, demoRun_pieces⟩

end

end PrismaBuild.Decomposition
