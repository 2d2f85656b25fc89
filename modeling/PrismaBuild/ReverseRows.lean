import PrismaBuild.NameOrder

namespace PrismaBuild.Recorder

open List

abbrev Bytes := List UInt8

abbrev BlockSize := { n : Nat // 1 ≤ n }

def newline : UInt8 := 10

/-- An open recorder file: its end at the first seek, and what a read of so many bytes at a position
returns. -/
structure Handle where
  eof : Nat
  read : Nat → Nat → Bytes

inductive Ending
  | exhausted
  | expired
  | changed
  deriving DecidableEq

structure Yield where
  rows : List Bytes
  ending : Ending

/-- The `for row in ready` loop: what it yields, and the number of budget checks made unless one of
them ended it. -/
def emit (expired : Nat → Bool) : List Bytes → Bool → Nat → List Bytes × Option Nat
  | [], _, calls => ([], some calls)
  | row :: rest, first, calls =>
    if row = [] then emit expired rest first calls
    else if first = false ∧ expired calls = true then ([], none)
    else
      let more := emit expired rest false (if first then calls else calls + 1)
      (row :: more.1, more.2)

/-- The rows that one block completes, newest first, and the pieces of the row it leaves unfinished,
right to left. -/
def complete (pending : List Bytes) : List Bytes → List Bytes × List Bytes
  | [] => ([], pending)
  | [part] => ([], pending ++ [part])
  | part :: rest => ((rest.getLastD [] ++ pending.reverse.flatten) :: rest.dropLast.reverse, [part])

def ready (start position : Nat) (pending parts : List Bytes) : List Bytes :=
  (complete pending parts).1 ++ if position = start then
    [(complete pending parts).2.reverse.flatten] else []

def scan (handle : Handle) (block : BlockSize) (start : Nat) (expired : Nat → Bool) (position : Nat)
    (pending : List Bytes)
    (calls : Nat) : Yield :=
  if start < position then
    if expired calls then ⟨[], .expired⟩
    else
      let size := min block.val (position - start)
      if expired (calls + 1) then ⟨[], .expired⟩
      else
        let chunk := handle.read (position - size) size
        if chunk.length ≠ size then ⟨[], .changed⟩
        else
          let parts := chunk.splitOn newline
          let out := emit expired (ready start (position - size) pending parts) true (calls + 2)
          match out.2 with
          | none => ⟨out.1, .expired⟩
          | some calls =>
            let older := scan handle block start expired (position - size)
              (if position - size = start then [] else (complete pending parts).2) calls
            ⟨out.1 ++ older.rows, older.ending⟩
  else ⟨[], .exhausted⟩
  termination_by position
  decreasing_by
    have := block.property
    omega

/-- `_reverse_csv_rows`: the budget is asked in order, its n-th answer being `expired n`. -/
def reverseCsvRows (handle : Handle) (block : BlockSize) (start : Nat) (expired : Nat → Bool) :
    Yield :=
  if expired 0 then ⟨[], .expired⟩ else scan handle block start expired handle.eof [] 1

/-- Every read returns the file's own bytes, as many as were asked for. -/
def Handle.Complete (handle : Handle) (data : Bytes) : Prop :=
  handle.eof = data.length ∧
    ∀ position size, position + size ≤ data.length →
    handle.read position size = (data.drop position).take size

def backwards (bytes : Bytes) : List Bytes := ((bytes.splitOn newline).filter (· ≠ [])).reverse

theorem emit_spec (expired : Nat → Bool) (rows : List Bytes) (first : Bool) (calls : Nat) :
    (emit expired rows first calls).1 <+: rows.filter (· ≠ []) ∧
      ((emit expired rows first calls).2 = none → ∃ n, expired n = true) ∧
      ((emit expired rows first calls).2 ≠ none →
      (emit expired rows first calls).1 = rows.filter (· ≠ [])) := by
  induction rows generalizing first calls with
  | nil => simp [emit]
  | cons row rest ih =>
    unfold emit
    by_cases he : row = []
    · simpa [he] using ih first calls
    · by_cases hx : first = false ∧ expired calls = true
      · simpa [he, hx] using ⟨calls, hx.2⟩
      · simpa [he, hx] using ih false (if first then calls else calls + 1)

section

variable {xs ys : Bytes}

theorem backwards_append (xs ys : Bytes) :
    backwards (xs ++ newline :: ys) = backwards ys ++ backwards xs := by
  simp [backwards, splitOn_append_cons_self]

theorem backwards_plain (h : newline ∉ xs) : backwards xs = [xs].filter (· ≠ []) := by
  rw [backwards, splitOn_eq_singleton h]
  by_cases hx : xs = [] <;> simp [hx]

theorem splitOn_first (h : newline ∈ xs) : ∃ front rest, xs = front ++ newline :: rest ∧
    newline ∉ front ∧ xs.splitOn newline = front :: rest.splitOn newline := by
  obtain ⟨front, rest, hx, hf⟩ := eq_append_cons_of_mem h
  refine ⟨front, rest, hx, hf, ?_⟩
  rw [hx, splitOn_append_cons_self, splitOn_eq_singleton hf]
  rfl

theorem backwards_tail (h : newline ∉ ys) (xs : Bytes) : backwards (xs ++ ys) =
    (((xs.splitOn newline).getLastD [] ++ ys) :: (xs.splitOn newline).dropLast.reverse).filter
    (· ≠ []) := by
  by_cases hm : newline ∈ xs
  · obtain ⟨front, rest, hx, hf, hs⟩ := splitOn_first hm
    have hl : rest.length < xs.length := by
      rw [hx, length_append, length_cons]
      omega
    rw [hs, hx, append_assoc, cons_append, backwards_append, backwards_tail h rest,
      backwards_plain hf,
      ← filter_append, cons_append]
    cases hr : rest.splitOn newline with
    | nil => exact absurd hr (splitOn_ne_nil _ _)
    | cons part parts => simp
  · have hb : newline ∉ xs ++ ys := by simp [hm, h]
    rw [backwards_plain hb, splitOn_eq_singleton hm]
    rfl
  termination_by xs.length

variable {pending : List Bytes} (h : newline ∉ pending.reverse.flatten)
include h

theorem backwards_complete (older chunk : Bytes) :
    backwards (older ++ (chunk ++ pending.reverse.flatten)) =
        (complete pending (chunk.splitOn newline)).1.filter (· ≠ []) ++
          backwards (older ++ (complete pending (chunk.splitOn newline)).2.reverse.flatten) ∧
      newline ∉ (complete pending (chunk.splitOn newline)).2.reverse.flatten := by
  by_cases hm : newline ∈ chunk
  · obtain ⟨front, rest, hx, hf, hs⟩ := splitOn_first hm
    have hc : complete pending (chunk.splitOn newline) = (((rest.splitOn newline).getLastD [] ++
        pending.reverse.flatten) :: (rest.splitOn newline).dropLast.reverse, [front]) := by
      rw [hs]
      cases hr : rest.splitOn newline with
      | nil => exact absurd hr (splitOn_ne_nil _ _)
      | cons part parts => rfl
    rw [hc, ← backwards_tail h rest, hx]
    have ho : older ++ (front ++ newline :: rest ++ pending.reverse.flatten) =
        older ++ front ++ newline :: (rest ++ pending.reverse.flatten) := by simp
    rw [ho, backwards_append]
    simpa using hf
  · rw [splitOn_eq_singleton hm]
    simpa [complete, hm] using h

theorem backwards_ready (start position : Nat) (data chunk : Bytes) :
    let left := if position = start then [] else (complete pending (chunk.splitOn newline)).2
    backwards (data.take (position - start) ++ (chunk ++ pending.reverse.flatten)) =
        (ready start position pending (chunk.splitOn newline)).filter (· ≠ []) ++
          backwards (data.take (position - start) ++ left.reverse.flatten) ∧
      newline ∉ left.reverse.flatten := by
  obtain ⟨hb, hn⟩ := backwards_complete h (data.take (position - start)) chunk
  rw [hb, ready, filter_append]
  by_cases hs : position = start
  · simp only [hs, Nat.sub_self, take_zero, nil_append, if_true]
    rw [backwards_plain hn]
    simp [backwards]
  · simpa [hs] using hn

end

theorem slice_split {data : Bytes} {start position : Nat} (size : Nat)
    (hs : size ≤ position - start) (hp : start < position) :
    (data.drop start).take (position - start) =
      (data.drop start).take (position - size - start) ++ (data.drop (position - size)).take
      size := by
  have he : position - start = position - size - start + size := by omega
  have hd : data.drop (position - size) = (data.drop start).drop (position - size - start) := by
    rw [drop_drop]
    congr 1
    omega
  rw [he, hd, take_add]

variable {expired : Nat → Bool}

def Reads (expired : Nat → Bool) (out : Yield) (bytes : Bytes) : Prop :=
  out.rows <+: backwards bytes ∧
    (out.ending = .expired ∧ (∃ n, expired n = true) ∨ out.ending = .exhausted ∧
    out.rows = backwards bytes)

theorem reads_expired {n : Nat} (h : expired n = true) (bytes : Bytes) :
    Reads expired ⟨[], .expired⟩ bytes :=
  ⟨⟨_, nil_append _⟩, Or.inl ⟨rfl, n, h⟩⟩

theorem reads_append {out : Yield} {older bytes : Bytes} {rows : List Bytes}
    (h : Reads expired out older) (hb : backwards bytes = rows ++ backwards older) :
    Reads expired ⟨rows ++ out.rows, out.ending⟩ bytes := by
  obtain ⟨hp, he⟩ := h
  refine ⟨hb ▸ (prefix_append_right_inj rows).mpr hp, ?_⟩
  rcases he with hx | ⟨hd, hr⟩
  · exact Or.inl hx
  · exact Or.inr ⟨hd, by rw [hb, hr]⟩

/-- The loop invariant: from any position, the rows still to come are those of the bytes before it
together with the unfinished row. -/
theorem scan_spec {handle : Handle} {data : Bytes} (hh : handle.Complete data) (block : BlockSize)
    (start : Nat)
    (expired : Nat → Bool) (position : Nat) (pending : List Bytes) (calls : Nat)
      (hp : position ≤ data.length)
    (hn : newline ∉ pending.reverse.flatten) (he : position ≤ start → pending = []) :
    Reads expired (scan handle block start expired position pending calls)
      ((data.drop start).take (position - start) ++ pending.reverse.flatten) := by
  unfold scan
  by_cases hl : start < position
  · rw [if_pos hl]
    by_cases hx : expired calls = true
    · rw [if_pos hx]
      exact reads_expired hx _
    by_cases hy : expired (calls + 1) = true
    · rw [if_neg hx, if_pos hy]
      exact reads_expired hy _
    have hb := block.property
    generalize hz : min block.val (position - start) = size
    have hr : handle.read (position - size) size = (data.drop (position - size)).take size :=
      hh.2 _ _ (by omega)
    have hc : (handle.read (position - size) size).length = size := by
      rw [hr, length_take, length_drop]
      omega
    rw [if_neg hx, if_neg hy, slice_split size (by omega) hl, ← hr, append_assoc]
    generalize handle.read (position - size) size = chunk at hc
    simp only [hc, ne_eq, not_true_eq_false, if_false]
    generalize hu : (if position - size = start then
      [] else (complete pending (chunk.splitOn newline)).2) = left
    obtain ⟨hs, hq⟩ := backwards_ready hn start (position - size) (data.drop start) chunk
    rw [hu] at hs hq
    have hi := fun n => scan_spec hh block start expired (position - size) left n (by omega) hq
      (fun hv => by rw [← hu, if_pos (by omega)])
    obtain ⟨hf, ho, hk⟩ := emit_spec expired
      (ready start (position - size) pending (chunk.splitOn newline)) true (calls + 2)
    split
    next hv => exact ⟨hs ▸ hf.trans (prefix_append _ _), Or.inl ⟨rfl, ho hv⟩⟩
    next n hv =>
      rw [hk (by simp [hv])]
      exact reads_append (hi n) hs
  · rw [if_neg hl, he (by omega)]
    have hz : position - start = 0 := by omega
    rw [hz]
    exact ⟨⟨_, nil_append _⟩, Or.inr ⟨rfl, rfl⟩⟩
  termination_by position

/-- Read backwards in blocks of any size, a file gives its rows from the last to the first, and a
reading that runs out of time gives the first of them. -/
theorem reverse_rows_exact {handle : Handle} {data : Bytes} (hh : handle.Complete data)
    (block : BlockSize) (start : Nat) :
    reverseCsvRows handle block start (fun _ => false) = ⟨backwards (data.drop start), .exhausted⟩ ∧
      ∀ expired, (reverseCsvRows handle block start expired).rows <+: backwards
      (data.drop start) := by
  have hr : ∀ expired, Reads expired (reverseCsvRows handle block start expired)
    (data.drop start) := by
    intro expired
    unfold reverseCsvRows
    by_cases hx : expired 0 = true
    · rw [if_pos hx]
      exact reads_expired hx _
    · rw [if_neg hx, hh.1]
      have ht : (data.drop start).take (data.length - start) = data.drop start :=
        take_of_length_le (by simp)
      simpa [ht] using scan_spec hh block start expired data.length [] 1 (le_refl _) (by simp)
        (fun _ => rfl)
  refine ⟨?_, fun expired => (hr expired).1⟩
  rcases (hr fun _ => false).2 with ⟨_, _, hx⟩ | ⟨he, hw⟩
  · exact absurd hx Bool.false_ne_true
  · exact congrArg₂ Yield.mk hw he

theorem reverse_rows_of_four : Handle.Complete
    ⟨4, fun p n => (([97, 10, 10, 98] : Bytes).drop p).take n⟩ [97, 10, 10, 98] ∧
    (reverseCsvRows ⟨4, fun p n => (([97, 10, 10, 98] : Bytes).drop p).take n⟩ ⟨3, by decide⟩ 0
    fun _ => false).rows =
      [[98], [97]] := by
  refine ⟨⟨rfl, fun _ _ _ => rfl⟩, ?_⟩
  rw [(reverse_rows_exact ⟨rfl, fun _ _ _ => rfl⟩ ⟨3, by decide⟩ 0).1]
  decide

end PrismaBuild.Recorder
