import PrismaBuild.Partition

namespace PrismaBuild.Decomposition

open List

section

variable {seconds : List ℚ}

variable {finish i start : Nat}

theorem sums_getD (hi : i ≤ seconds.length) : (sums seconds).getD i 0 = (seconds.take i).sum := by
  have hlt : i < (sums seconds).length := by
    simp only [sums, length_scanl]
    omega
  rw [getD_eq_getElem _ _ hlt]
  simp only [sums, getElem_scanl]
  rw [sum_eq_foldl]

theorem work_eq (hle : start ≤ finish) (hf : finish ≤ seconds.length) :
    work seconds start finish = ((seconds.drop start).take (finish - start)).sum := by
  have hs : seconds.take finish = seconds.take start ++ (seconds.drop start).take
    (finish - start) := by
    rw [← take_add]
    congr 1
    omega
  rw [work, sums_getD hf, sums_getD (hle.trans hf), hs, sum_append]
  ring

theorem work_add {a b c : Nat} : work seconds a b + work seconds b c = work seconds a c := by
  unfold work
  ring

variable (hpos : ∀ x ∈ seconds, 0 < x)

include hpos

theorem work_pos (hlt : start < finish) (hf : finish ≤ seconds.length) :
    0 < work seconds start finish := by
  rw [work_eq hlt.le hf]
  refine sum_pos _ (fun x hx => hpos x (mem_of_mem_drop (mem_of_mem_take hx))) ?_
  intro hn
  have hl := congrArg length hn
  simp only [length_take, length_drop, length_nil] at hl
  omega

theorem work_mono (start : Nat) {a b : Nat} (hab : a ≤ b) (hb : b ≤ seconds.length) :
    work seconds start a ≤ work seconds start b := by
  rw [← work_add (c := b)]
  rcases Nat.eq_or_lt_of_le hab with rfl | hlt
  · simp [work]
  · have := work_pos hpos hlt hb
    linarith

theorem seconds_le_work (hs : start ≤ i) (hi : i < finish) (hf : finish ≤ seconds.length) :
    seconds.get ⟨i, by omega⟩ ≤ work seconds start finish := by
  have ho : work seconds i (i + 1) = seconds.get ⟨i, by omega⟩ := by
    rw [work_eq (by omega) (by omega), drop_eq_getElem_cons (by omega), Nat.add_sub_cancel_left,
      take_succ_cons, take_zero, sum_cons, sum_nil, add_zero, get_eq_getElem]
  have h1 : 0 ≤ work seconds start i := by
    have := work_mono hpos start hs (by omega)
    simpa [work] using this
  have h2 : 0 ≤ work seconds (i + 1) finish := by
    have := work_mono hpos (i + 1) hi hf
    simpa [work] using this
  have h3 : work seconds start i + work seconds i (i + 1) + work seconds (i + 1) finish =
    work seconds start finish := by
    rw [work_add, work_add]
  rw [← ho]
  linarith

end

variable {l : Limits} {seconds : List ℚ}

/-- A batch between two positions of a run that keeps to both limits. -/
structure Feasible (l : Limits) (seconds : List ℚ) (start finish : Nat) : Prop where
  lt : start < finish
  le : finish ≤ seconds.length
  floor : l.minWork ≤ work seconds start finish
  ceiling : work seconds start finish ≤ l.maxWork

theorem mem_ends (hpos : ∀ x ∈ seconds, 0 < x) {start finish : Nat} (hs : start < seconds.length) :
    finish ∈ ends l seconds start ↔ Feasible l seconds start finish := by
  obtain ⟨h1, h2, h3⟩ := bisectFirst_spec (fun m => decide (l.minWork ≤ work seconds start m))
    (seconds.length - start) (start + 1) (seconds.length + 1) (by omega) (by omega)
    (by
      intro a b _ hab hb ha
      have := work_mono hpos start hab (by omega)
      simp only [decide_eq_true_eq] at ha ⊢
      linarith)
  obtain ⟨h4, h5, h6⟩ := bisectLast_spec (fun m => decide (work seconds start m ≤ l.maxWork))
    (seconds.length - start) start (seconds.length + 1) (by omega) (by omega)
    (by
      intro a b _ hab hb hb'
      have := work_mono hpos start hab (by omega)
      simp only [decide_eq_true_eq] at hb' ⊢
      linarith)
  simp only [decide_eq_true_eq] at h3 h6
  rw [ends, mem_range'_1]
  dsimp only [window]
  constructor
  · rintro ⟨hfi, hl⟩
    have hf : start < finish ∧ finish < seconds.length + 1 := by omega
    exact ⟨hf.1, by omega, (h3 finish hf.1 hf.2).mpr hfi, (h6 finish hf.1 hf.2).mpr (by omega)⟩
  · rintro ⟨hlt, hle, hfl, hc⟩
    have hfi := (h3 finish hlt (by omega)).mp hfl
    have hl := (h6 finish hlt (by omega)).mp hc
    omega

section

variable (hpos : ∀ x ∈ seconds, 0 < x)

theorem getD_of_getElem? {α : Type} {t : List α} {i : Nat} {a d : α} (h : t[i]? = some a) :
    t.getD i d = a := by
  rw [getD_eq_getElem?_getD, h, Option.getD_some]

theorem batchesAt_end : batchesAt l seconds seconds.length = 0 := by
  refine getD_of_getElem? ?_
  rw [batches, fillDown_above _ (Nat.le_refl _), getElem?_append_right (by simp)]
  simp

variable {start : Nat}

include hpos in
theorem batchesAt_eq (hs : start < seconds.length) :
    batchesAt l seconds start = bestCount (batches l seconds) (ends l seconds start) := by
  refine getD_of_getElem? (fillDown_at ?_ (by simp) hs)
  intro t t' s hs' ht
  refine foldl_ext _ _ _ fun best finish hf => ?_
  have hfi := (mem_ends hpos hs').mp hf
  simp only [getD_eq_getElem?_getD, ht finish hfi.lt]

include hpos in
theorem batchesAt_cases (hs : start < seconds.length) :
    (∀ f, Feasible l seconds start f → batchesAt l seconds f ≠ unreachable →
      batchesAt l seconds f + 1 ≤ batchesAt l seconds start) ∧
      (batchesAt l seconds start = unreachable ∨
      ∃ f, Feasible l seconds start f ∧ batchesAt l seconds f ≠ unreachable ∧
        batchesAt l seconds start = batchesAt l seconds f + 1) := by
  obtain ⟨-, h2, h3⟩ := foldl_largest (fun f => batchesAt l seconds f ≠ unreachable)
    (fun f => batchesAt l seconds f + 1) (ends l seconds start) unreachable
  rw [batchesAt_eq hpos hs]
  refine ⟨fun f hf hne => h2 f ((mem_ends hpos hs).mpr hf) hne, ?_⟩
  rcases h3 with h3 | ⟨f, hf, hne, h3⟩
  · exact .inl h3
  · exact .inr ⟨f, (mem_ends hpos hs).mp hf, hne, h3⟩

include hpos in
theorem batchesAt_nonneg (hs : start ≤ seconds.length)
    (hne : batchesAt l seconds start ≠ unreachable) :
    0 ≤ batchesAt l seconds start ∧ (start < seconds.length → 1 ≤ batchesAt l seconds start) := by
  -- the positions that remain decrease along the cut
  induction hn : seconds.length - start using Nat.strongRecOn generalizing start with
  | ind n ih =>
    rcases Nat.eq_or_lt_of_le hs with rfl | hlt
    · rw [batchesAt_end]
      exact ⟨le_refl 0, fun h => absurd h (lt_irrefl _)⟩
    · obtain hun | ⟨f, hf, hfn, heq⟩ := (batchesAt_cases hpos hlt).2
      · exact absurd hun hne
      · have hlt' := hf.lt
        have := (ih (seconds.length - f) (by omega) hf.le hfn rfl).1
        exact ⟨by omega, fun _ => by omega⟩

inductive Cuttable (l : Limits) (seconds : List ℚ) : Nat → Prop
  | done : Cuttable l seconds seconds.length
  | batch {start finish : Nat} (feasible : Feasible l seconds start finish)
    (rest : Cuttable l seconds finish) :
      Cuttable l seconds start

include hpos in
theorem reachable_of_cuttable (h : Cuttable l seconds start) :
    batchesAt l seconds start ≠ unreachable := by
  induction h with
  | done =>
    rw [batchesAt_end]
    decide
  | @batch start finish hf _ ih =>
    have hlt := hf.lt
    have hle := hf.le
    have hm := (batchesAt_cases hpos (by omega)).1 finish hf ih
    have hnn := (batchesAt_nonneg hpos hf.le ih).1
    unfold unreachable at *
    omega

include hpos in
theorem wallsAt_cases (hs : start < seconds.length)
    (hne : batchesAt l seconds start ≠ unreachable) :
    (∀ f, Feasible l seconds start f → batchesAt l seconds f = batchesAt l seconds start - 1 →
      wallsAt l seconds start ≤ max (wallOf l seconds start f : WithTop ℚ) (wallsAt l seconds f)) ∧
      (wallsAt l seconds start = ⊤ ∨
      ∃ f, Feasible l seconds start f ∧ batchesAt l seconds f = batchesAt l seconds start - 1 ∧
        wallsAt l seconds start = max (wallOf l seconds start f : WithTop ℚ)
        (wallsAt l seconds f)) := by
  have heq : wallsAt l seconds start = bestWall l seconds (walls l seconds) start := by
    refine getD_of_getElem? ((fillDown_at ?_ (by simp) hs).trans (by rw [if_neg hne]; rfl))
    intro t t' s hs' ht
    split
    · rfl
    · refine foldl_ext _ _ _ fun best finish hf => ?_
      have hfi := (mem_ends hpos hs').mp hf
      simp only [getD_eq_getElem?_getD, ht finish hfi.lt]
  have hfo : bestWall l seconds (walls l seconds) start = (ends l seconds start).foldl
    (fun best finish =>
      if batchesAt l seconds finish = batchesAt l seconds start - 1 ∧
          max (wallOf l seconds start finish : WithTop ℚ) (wallsAt l seconds finish) < best then
        max (wallOf l seconds start finish : WithTop ℚ) (wallsAt l seconds finish) else best)
          ⊤ := by
    refine foldl_ext _ _ _ fun best finish _ => ?_
    by_cases h : batchesAt l seconds finish = batchesAt l seconds start - 1
    · simp [h, wallsAt]
    · simp [h]
  obtain ⟨-, h2, h3⟩ := foldl_largest
    (fun f => batchesAt l seconds f = batchesAt l seconds start - 1)
    (fun f => OrderDual.toDual (max (wallOf l seconds start f : WithTop ℚ) (wallsAt l seconds f)))
    (ends l seconds start) (OrderDual.toDual ⊤)
  rw [heq, hfo]
  refine ⟨fun f hf hc => OrderDual.toDual_le_toDual.mp (h2 f ((mem_ends hpos hs).mpr hf) hc), ?_⟩
  rcases h3 with h3 | ⟨f, hf, hc, h3⟩
  · exact .inl h3
  · exact .inr ⟨f, (mem_ends hpos hs).mp hf, hc, h3⟩

include hpos in
theorem wallsAt_attained (hs : start < seconds.length)
    (hne : batchesAt l seconds start ≠ unreachable) :
    ∃ f, Feasible l seconds start f ∧ batchesAt l seconds f = batchesAt l seconds start - 1 ∧
      wallsAt l seconds start = max (wallOf l seconds start f : WithTop ℚ)
      (wallsAt l seconds f) := by
  obtain ⟨hle, ht | ha⟩ := wallsAt_cases hpos hs hne
  · -- nothing was below the top: then the batch that attains the count is at the top too
    obtain hun | ⟨f, hf, hfn, hco⟩ := (batchesAt_cases hpos hs).2
    · exact absurd hun hne
    · have hc : batchesAt l seconds f = batchesAt l seconds start - 1 := by omega
      have hm := hle f hf hc
      rw [ht] at hm
      exact ⟨f, hf, hc, ht.trans (top_le_iff.mp hm).symm⟩
  · exact ha

inductive Pieces (l : Limits) (seconds : List ℚ) : Nat → List (Nat × Nat) → Prop
  | done : Pieces l seconds seconds.length []
  | batch {start finish : Nat} {rest : List (Nat × Nat)}
    (feasible : Feasible l seconds start finish)
      (later : Pieces l seconds finish rest) : Pieces l seconds start ((start, finish) :: rest)

structure Keeps (l : Limits) (seconds : List ℚ) (start finish : Nat) : Prop where
  feasible : Feasible l seconds start finish
  count : batchesAt l seconds finish = batchesAt l seconds start - 1
  wall : (wallOf l seconds start finish : WithTop ℚ) ≤ wallsAt l seconds 0
  later : wallsAt l seconds finish ≤ wallsAt l seconds 0

inductive Chosen (l : Limits) (seconds : List ℚ) : Nat → List (Nat × Nat) → Prop
  | done : Chosen l seconds seconds.length []
  | batch {start finish : Nat} {rest : List (Nat × Nat)} (keeps : Keeps l seconds start finish)
      (least : ∀ f, Keeps l seconds start f → finish ≤ f) (later : Chosen l seconds finish rest) :
      Chosen l seconds start ((start, finish) :: rest)

include hpos in
theorem cuts_chosen {fuel : Nat} (hfu : seconds.length - start ≤ fuel) (hs : start ≤ seconds.length)
    (hne : batchesAt l seconds start ≠ unreachable)
    (hw : wallsAt l seconds start ≤ wallsAt l seconds 0) :
    ∃ pairs, cuts l seconds fuel start = some pairs ∧ Chosen l seconds start pairs := by
  induction fuel generalizing start with
  | zero =>
    obtain rfl : start = seconds.length := by omega
    exact ⟨[], by simp [cuts], .done⟩
  | succ fuel ih =>
    unfold cuts
    by_cases hlt : start < seconds.length
    · obtain ⟨f, hf, hc, hwa⟩ := wallsAt_attained hpos hlt hne
      rw [hwa] at hw
      rw [if_pos hlt]
      cases hfi : (ends l seconds start).find? fun finish =>
          batchesAt l seconds finish = batchesAt l seconds start - 1 ∧
            (wallOf l seconds start finish : WithTop ℚ) ≤ wallsAt l seconds 0 ∧
            wallsAt l seconds finish ≤ wallsAt l seconds 0 with
      | none =>
        have hn := find?_eq_none.mp hfi f ((mem_ends hpos hlt).mpr hf)
        exact absurd (by simp [hc, (max_le_iff.mp hw).1, (max_le_iff.mp hw).2]) hn
      | some g =>
        obtain ⟨hgc, hgwa, hgw⟩ : batchesAt l seconds g = batchesAt l seconds start - 1 ∧
            (wallOf l seconds start g : WithTop ℚ) ≤ wallsAt l seconds 0 ∧
            wallsAt l seconds g ≤ wallsAt l seconds 0 := by
          simpa using find?_some hfi
        have hg := (mem_ends hpos hlt).mp (mem_of_find?_eq_some hfi)
        have ho := (batchesAt_nonneg hpos hs hne).2 hlt
        have hgn : batchesAt l seconds g ≠ unreachable := by
          unfold unreachable
          omega
        have hgl := hg.lt
        obtain ⟨pairs, hp, hch⟩ := @ih g (by omega) hg.le hgn hgw
        refine ⟨(start, g) :: pairs, by simp [hp], .batch ⟨hg, hgc, hgwa, hgw⟩ (fun f hf => ?_) hch⟩
        refine find?_le_of_pairwise pairwise_lt_range' hfi ((mem_ends hpos hlt).mpr hf.feasible) ?_
        simp [hf.count, hf.wall, hf.later]
    · rw [if_neg hlt]
      obtain rfl : start = seconds.length := by omega
      exact ⟨[], rfl, .done⟩

theorem Chosen.pieces {pairs : List (Nat × Nat)} (h : Chosen l seconds start pairs) :
    Pieces l seconds start pairs := by
  induction h with
  | done => exact .done
  | batch hk _ _ ih => exact .batch hk.feasible ih

end

variable {start : Nat}

theorem Cuttable.holds (h : Cuttable l seconds start) {i : Nat} (hi : start ≤ i)
    (hlt : i < seconds.length) : ∃ s f, Feasible l seconds s f ∧ s ≤ i ∧ i < f := by
  induction h with
  | done => omega
  | @batch start finish hf _ ih =>
    by_cases hif : i < finish
    · exact ⟨start, finish, hf, hi, hif⟩
    · exact ih (by omega)

theorem Pieces.cuttable {pairs : List (Nat × Nat)} (h : Pieces l seconds start pairs) :
    Cuttable l seconds start := by
  induction h with
  | done => exact .done
  | batch hf _ ih => exact .batch hf ih

variable {F : Type} [FloatFormat F]

theorem seconds_pos (tasks : List (LogicalTask F)) : ∀ x ∈ tasks.map LogicalTask.seconds,
    0 < x := by
  intro x hx
  obtain ⟨t, -, rfl⟩ := mem_map.mp hx
  exact t.seconds_pos

theorem partitionRun_chosen (tasks : List (LogicalTask F)) (r : Run) (l : Limits)
    (hne : slice tasks r ≠ []) :
    (∃ refusal, partitionRun tasks r l = .error refusal ∧ refusal.reason ≠ .noReconstruction ∧
      ¬ Cuttable l ((slice tasks r).map LogicalTask.seconds) 0) ∨
    ∃ pairs, Chosen l ((slice tasks r).map LogicalTask.seconds) 0 pairs ∧
      partitionRun tasks r l = .ok (pairs.map fun c =>
      List.range' (r.first + c.1) (c.2 - c.1)) := by
  have hpos := seconds_pos (slice tasks r)
  have hl : 0 < ((slice tasks r).map LogicalTask.seconds).length := by
    rw [length_map]
    exact length_pos_iff.mpr hne
  unfold partitionRun
  dsimp only
  split
  next hm =>
    refine .inl ⟨_, rfl, nofun, fun hc => ?_⟩
    obtain ⟨s, f, hf, -, -⟩ := hc.holds (Nat.zero_le 0) hl
    have := work_pos hpos hf.lt hf.le
    have := hf.ceiling
    linarith
  next hm =>
    split
    next hmi =>
      refine .inl ⟨_, rfl, nofun, fun hc => ?_⟩
      obtain ⟨s, f, hf, -, -⟩ := hc.holds (Nat.zero_le 0) hl
      have := hf.floor
      have := hf.ceiling
      linarith
    next hmi =>
      split
      next t ht =>
        refine .inl ⟨_, rfl, nofun, fun hc => ?_⟩
        have hb : l.maxWork < t.seconds := by simpa using find?_some ht
        obtain ⟨i, hi, rfl⟩ := getElem_of_mem (mem_of_find?_eq_some ht)
        have hi' : i < ((slice tasks r).map LogicalTask.seconds).length := by rwa [length_map]
        obtain ⟨s, f, hf, hsi, hif⟩ := hc.holds (Nat.zero_le i) hi'
        have hle := seconds_le_work hpos hsi hif hf.le
        have := hf.ceiling
        simp only [get_eq_getElem, getElem_map] at hle
        linarith
      next =>
        split
        next hun => exact .inl ⟨_, rfl, nofun, fun hc => reachable_of_cuttable hpos hc hun⟩
        next hun =>
          obtain ⟨pairs, hp, hch⟩ :=
            cuts_chosen hpos (Nat.le_refl _) (Nat.zero_le _) hun (le_refl _)
          rw [Nat.sub_zero] at hp
          rw [hp]
          exact .inr ⟨pairs, hch, rfl⟩

end PrismaBuild.Decomposition
