import Mathlib

namespace PrismaBuild

open List Option

variable {σ τ α : Type} {step : σ → α → Option σ}

def firstRun (step : σ → α → Option σ) : σ → List α → List α
  | _, [] => []
  | s, a :: rest =>
    match step s a with
    | none => []
    | some s' => a :: firstRun step s' rest

theorem isPrefix_firstRun_iff {run items : List α} {s : σ} :
    run <+: firstRun step s items ↔ run <+: items ∧ (run.foldlM step s).isSome = true := by
  induction items generalizing run s with
  | nil =>
    cases run with
    | nil => simp [firstRun]
    | cons a run => simp [firstRun]
  | cons b items ih =>
    cases run with
    | nil => simp
    | cons a run =>
      rw [firstRun, foldlM_cons]
      cases hs : step s b with
      | none =>
        simp only [prefix_nil, reduceCtorEq, false_iff, cons_prefix_cons, not_and]
        rintro ⟨rfl, -⟩
        simp [hs]
      | some s' =>
        simp only [cons_prefix_cons, ih, and_assoc]
        refine and_congr_right fun hab => ?_
        subst hab
        simp [hs]

theorem firstRun_isPrefix (step : σ → α → Option σ) (items : List α) (s : σ) :
    firstRun step s items <+: items :=
  (isPrefix_firstRun_iff.mp (prefix_refl _)).1

theorem exists_foldlM_firstRun (step : σ → α → Option σ) (items : List α) (s : σ) :
    ∃ s', (firstRun step s items).foldlM step s = some s' :=
  isSome_iff_exists.mp (isPrefix_firstRun_iff.mp (prefix_refl _)).2

theorem foldlM_simulates {step' : τ → α → Option τ} {R : σ → τ → Prop} {items : List α} {s s' : σ}
    {t : τ}
    (hs : ∀ a ∈ items, ∀ s t s', R s t → step s a = some s' → ∃ t', step' t a = some t' ∧ R s' t')
    (h : R s t) (hr : items.foldlM step s = some s') : ∃ t', items.foldlM step' t = some t' ∧
      R s' t' := by
  induction items generalizing s t with
  | nil =>
    cases some.inj hr
    exact ⟨t, rfl, h⟩
  | cons a items ih =>
    rw [foldlM_cons] at hr
    obtain ⟨u, hu, hr⟩ := bind_eq_some_iff.mp hr
    obtain ⟨v, hv, huv⟩ := hs a (.head _) s t u h hu
    obtain ⟨t', ht', hR⟩ := ih (fun b hb => hs b (.tail a hb)) huv hr
    refine ⟨t', ?_, hR⟩
    rw [foldlM_cons, hv]
    exact ht'

theorem append_eq_of_not_mem {own later before after : List α} {a : α}
    (h : own ++ later = before ++ a :: after)
    (hn : a ∉ later) : ∃ rest, own = before ++ a :: rest := by
  rcases append_eq_append_iff.mp h with ⟨mid, -, hl⟩ | ⟨mid, ho, hl⟩
  · refine absurd ?_ hn
    rw [hl]
    exact mem_append_right _ (.head _)
  · cases mid with
    | nil =>
      refine absurd ?_ hn
      rw [nil_append] at hl
      rw [← hl]
      exact .head _
    | cons first mid =>
      obtain ⟨rfl, -⟩ := cons.inj (hl.trans cons_append)
      exact ⟨mid, ho⟩

variable {done rest : List α} {β : Type}

theorem filter_mem_map_of_append [DecidableEq β] {label : α → β}
    (h : ((done ++ rest).map label).Nodup) :
    (done ++ rest).filter (fun a => label a ∈ done.map label) = done ∧
      (done ++ rest).filter (fun a => label a ∉ done.map label) = rest := by
  rw [map_append] at h
  have hd : ∀ a ∈ done, label a ∈ done.map label := fun a ha => mem_map_of_mem ha
  have hr : ∀ a ∈ rest, label a ∉ done.map label := fun a ha hi =>
    (nodup_append'.mp h).2.2 hi (mem_map_of_mem ha)
  rw [filter_append, filter_append]
  constructor
  · rw [filter_eq_self.mpr (by simpa using hd), filter_eq_nil_iff.mpr (by simpa using hr),
      append_nil]
  · rw [filter_eq_nil_iff.mpr (by simpa using hd), filter_eq_self.mpr (by simpa using hr),
      nil_append]

end PrismaBuild
