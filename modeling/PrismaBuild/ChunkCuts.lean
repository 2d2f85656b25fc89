import PrismaBuild.ManifestLayout
import PrismaBuild.Spans

namespace PrismaBuild.DataManifest

open Spans List Option

variable {α : Type} {size : α → Int}

section

variable {endBytes position startBytes : Int} {pre rest : List α}

theorem entriesFrom_before (hp : ∀ e ∈ pre, 0 < size e)
    (hs : position + total size pre ≤ startBytes) (hen : startBytes < endBytes) :
    entriesFrom size startBytes endBytes position (pre ++ rest) =
      entriesFrom size startBytes endBytes (position + total size pre) rest := by
  induction pre generalizing position with
  | nil => rw [nil_append, total_nil, Int.add_zero]
  | cons e pre ih =>
    rw [total_cons] at hs ⊢
    have he := hp e (.head _)
    have hr := total_nonneg fun x hx => hp x (.tail _ hx)
    rw [cons_append, entriesFrom, if_neg (by omega), if_neg (by omega),
      ih (fun x hx => hp x (.tail _ hx)) (by omega), Int.add_assoc]

variable {mid : List α}

theorem entriesFrom_within (hp : ∀ e ∈ mid, 0 < size e)
    (hs : startBytes ≤ position) (hen : position + total size mid ≤ endBytes) :
    entriesFrom size startBytes endBytes position (mid ++ rest) =
      mid ++ entriesFrom size startBytes endBytes (position + total size mid) rest := by
  induction mid generalizing position with
  | nil => rw [nil_append, nil_append, total_nil, Int.add_zero]
  | cons e mid ih =>
    rw [total_cons] at hen ⊢
    have he := hp e (.head _)
    have hr := total_nonneg fun x hx => hp x (.tail _ hx)
    rw [cons_append, entriesFrom, if_neg (by omega), if_pos (by omega),
      ih (fun x hx => hp x (.tail _ hx)) (by omega) (by omega), Int.add_assoc, cons_append]

variable {post : List α}

theorem entriesFrom_after (h : endBytes ≤ position) :
    entriesFrom size startBytes endBytes position post = [] := by
  cases post with
  | nil => rfl
  | cons e post => rw [entriesFrom, if_pos h]

theorem entriesBetween_eq (hp : ∀ e ∈ pre ++ mid ++ post, 0 < size e) (hne : mid ≠ []) :
    entriesBetween size (pre ++ mid ++ post) (total size pre) (total size pre + total size mid) =
    mid := by
  have hpr : ∀ e ∈ pre, 0 < size e := fun e he => hp e (by simp [he])
  have hm : ∀ e ∈ mid, 0 < size e := fun e he => hp e (by simp [he])
  have hlt := total_pos hm hne
  rw [entriesBetween, append_assoc, entriesFrom_before hpr (by omega) (by omega),
    entriesFrom_within hm (by omega) (by omega), entriesFrom_after (by omega), append_nil]

end

section

variable {chunkBytes startBytes endBytes : Int}

structure Packed (size : α → Int) (chunkBytes startBytes : Int) (done : List α) (acc : Packing) :
    Prop where
  position : acc.position = startBytes + total size done
  reached : done ≠ [] → acc.cut.isSome ∧ acc.reached = some acc.position
  groups : ∃ groups opened, done = groups.flatten ++ opened ∧ Greedy size chunkBytes groups opened ∧
    acc.chunks = spans size startBytes groups ∧
    acc.cut.getD acc.position = startBytes + total size groups.flatten

theorem packed_nil (hc : 0 ≤ chunkBytes) :
    Packed size chunkBytes startBytes [] ⟨[], none, none, startBytes⟩ := by
  have ht : startBytes = startBytes + total size ([] : List α) := by rw [total_nil, Int.add_zero]
  exact ⟨ht, fun h => absurd rfl h, [], [], rfl, ⟨closed_nil size _, hc, nofun⟩, rfl, ht⟩

theorem Packed.pack {done : List α} {acc : Packing} (h : Packed size chunkBytes startBytes done acc)
    (hd : ∀ e ∈ done, 0 < size e) {e : α} (he : 0 < size e) (hch : 0 < chunkBytes) :
    Packed size chunkBytes startBytes (done ++ [e])
      (acc.pack chunkBytes acc.position (acc.position + size e)) := by
  obtain ⟨groups, opened, hs, hgr, hc, hcu⟩ := h.groups
  have hop : ∀ x ∈ opened, 0 < size x := fun x hx => hd x (by rw [hs]; exact mem_append_right _ hx)
  have hp := h.position
  have hdo : total size done = total size groups.flatten + total size opened := by
    rw [hs, total_append]
  have hen : total size (done ++ [e]) = total size done + size e := by simp
  have ho : total size [e] = size e := by simp
  have hsn : ∀ group : List α, spans size startBytes (groups ++ [group]) = spans size startBytes
    groups ++
      [(startBytes + total size groups.flatten,
        startBytes + total size groups.flatten + total size group)] := by
    intro group
    rw [spans_append]
    rfl
  unfold Packing.pack
  rw [hcu]
  by_cases hov : chunkBytes < total size opened + size e
  · by_cases hn : opened = []
    · -- the entry is larger than a chunk, and none is open
      have hz : total size opened = 0 := by rw [hn, total_nil]
      have hf : ¬ (chunkBytes < acc.position + size e - (startBytes + total size groups.flatten) ∧
          startBytes + total size groups.flatten < acc.position) := by omega
      have hl : chunkBytes < acc.position + size e - (startBytes + total size groups.flatten) := by
        omega
      simp only [if_neg hf, if_pos hl]
      refine ⟨by show acc.position + size e = _; omega, fun _ => ⟨rfl, rfl⟩, groups ++ [[e]], [],
        ?_, ?_, ?_, ?_⟩
      · rw [hs, hn]
        simp
      · refine hgr.closed.alone (by omega) (by omega) fun g hg => ?_
        have := hgr.last g hg
        omega
      · show acc.chunks ++ _ = _
        rw [hsn, hc, ho, show acc.position + size e = startBytes + total size groups.flatten + size
          e by omega]
      · show acc.position + size e = _
        rw [flatten_append, total_append, flatten_singleton, ho]
        omega
    · have hope := total_pos hop hn
      have hf : chunkBytes < acc.position + size e - (startBytes + total size groups.flatten) ∧
          startBytes + total size groups.flatten < acc.position := by omega
      have hflu : acc.chunks ++ [(startBytes + total size groups.flatten, acc.position)] =
          spans size startBytes (groups ++ [opened]) := by
        rw [hsn, hc, show acc.position = startBytes + total size groups.flatten + total size
          opened by omega]
      have hfl : total size (groups ++ [opened]).flatten = total size groups.flatten +
        total size opened := by
        rw [flatten_append, total_append, flatten_singleton]
      simp only [if_pos hf]
      by_cases hl : chunkBytes < acc.position + size e - acc.position
      · simp only [if_pos hl]
        refine ⟨by show acc.position + size e = _; omega, fun _ => ⟨rfl, rfl⟩,
          groups ++ [opened] ++ [[e]], [], ?_, ?_, ?_, ?_⟩
        · rw [hs]
          simp
        · refine (hgr.close hn).alone (by omega) (by omega) fun g hg => ?_
          obtain rfl : opened = g := by simpa using hg
          exact hov
        · show acc.chunks ++ _ ++ _ = _
          rw [hflu, spans_append (startBytes) (groups ++ [opened]) [[e]], hfl]
          show _ = spans size startBytes (groups ++ [opened]) ++ [(_, _ + total size [e])]
          rw [ho, show acc.position = startBytes +
            (total size groups.flatten + total size opened) by omega]
        · show acc.position + size e = _
          rw [flatten_append, total_append, flatten_singleton, hfl, ho]
          omega
      · simp only [if_neg hl]
        refine ⟨by show acc.position + size e = _; omega, fun _ => ⟨rfl, rfl⟩, groups ++ [opened],
          [e], ?_, ?_, hflu, ?_⟩
        · rw [hs]
          simp
        · exact hgr.next hn hov (by omega)
        · show acc.position = _
          rw [hfl]
          omega
  · have hf : ¬ (chunkBytes < acc.position + size e - (startBytes + total size groups.flatten) ∧
        startBytes + total size groups.flatten < acc.position) := by omega
    have hsm : ¬ chunkBytes < acc.position + size e - (startBytes + total size groups.flatten) := by
      omega
    simp only [if_neg hf, if_neg hsm]
    refine ⟨by show acc.position + size e = _; omega, fun _ => ⟨rfl, rfl⟩, groups, opened ++ [e],
      ?_, ?_, hc, rfl⟩
    · rw [hs, append_assoc]
    · exact hgr.add he (by omega)

end

section

variable {startBytes endBytes chunkBytes : Int} {windowBytes : Option Int} {rest : List Int}
    {acc : Packing}

theorem packEntries_before {pre : List α} (hp : ∀ e ∈ pre, 0 < size e) (index : Nat) (acc : Packing)
    (hle : acc.position + total size pre ≤ startBytes) :
    packEntries startBytes endBytes chunkBytes windowBytes index acc (pre.map size ++ rest) =
      packEntries startBytes endBytes chunkBytes windowBytes (index + pre.length)
      { acc with position := acc.position + total size pre } rest := by
  induction pre generalizing index acc with
  | nil => simp
  | cons e pre ih =>
    rw [total_cons] at hle ⊢
    have he := hp e (.head _)
    have hr := total_nonneg fun x hx => hp x (.tail _ hx)
    have hs := ih (fun x hx => hp x (.tail _ hx)) (index + 1)
      { acc with position := acc.position + size e }
      (by show acc.position + size e + _ ≤ _; omega)
    rw [map_cons, cons_append, packEntries, if_neg (by omega), if_pos (by omega), hs, length_cons]
    simp only [Int.add_assoc, Nat.add_assoc, Nat.add_comm 1]

theorem packEntries_after {post : List α} (hp : ∀ e ∈ post, 0 < size e) (index : Nat)
    (hen : endBytes ≤ acc.position) (hs : startBytes ≤ acc.position) :
    ∃ position, packEntries startBytes endBytes chunkBytes windowBytes index acc (post.map size) =
      .ok { acc with position := position } := by
  cases post with
  | nil => exact ⟨acc.position, rfl⟩
  | cons e post =>
    have he := hp e (.head _)
    refine ⟨acc.position + size e, ?_⟩
    rw [map_cons, packEntries, if_neg (by omega), if_neg (by omega), if_pos hen]

@[simp] theorem Packing.pack_position (chunkBytes a b : Int) (acc : Packing) :
    (acc.pack chunkBytes a b).position = b := by
  unfold Packing.pack
  dsimp only
  generalize acc.cut.getD a = cut
  split <;> split <;> rfl

theorem packEntries_inside {s : Int} {index : Nat} (hs : 0 < s)
    (hst : startBytes ≤ acc.position) (he : acc.position + s ≤ endBytes) :
    packEntries startBytes endBytes chunkBytes windowBytes index acc (s :: rest) =
      match windowBytes.filter (· < s) with
      | some window => .error (.entryExceedsWindow index acc.position (acc.position + s) window)
      | none => packEntries startBytes endBytes chunkBytes windowBytes (index + 1)
          (acc.pack chunkBytes acc.position (acc.position + s)) rest := by
  rw [packEntries, if_neg (by omega), if_neg (by omega), if_neg (by omega), if_neg (by omega)]
  exact if_neg (by omega)

def WithinWindow (size : α → Int) (windowBytes : Option Int) (entries : List α) : Prop :=
  ∀ window ∈ windowBytes, ∀ e ∈ entries, size e ≤ window

theorem filter_within {e : α} {entries : List α}
    (h : WithinWindow size windowBytes (e :: entries)) :
    windowBytes.filter (· < size e) = none := by
  cases windowBytes with
  | none => rfl
  | some window =>
    have := h window rfl e (.head _)
    simp [Option.filter]
    omega

theorem packEntries_within {mid done : List α} (hpos : ∀ e ∈ done ++ mid, 0 < size e)
    (hc : 0 < chunkBytes) (hwi : WithinWindow size windowBytes mid) (index : Nat)
    (h : Packed size chunkBytes startBytes done acc)
      (hen : acc.position + total size mid ≤ endBytes) :
    ∃ acc' index', Packed size chunkBytes startBytes (done ++ mid) acc' ∧
      packEntries startBytes endBytes chunkBytes windowBytes index acc (mid.map size ++ rest) =
        packEntries startBytes endBytes chunkBytes windowBytes index' acc' rest := by
  induction mid generalizing done index acc with
  | nil => exact ⟨acc, index, by rwa [append_nil], rfl⟩
  | cons e mid ih =>
    have hd : ∀ x ∈ done, 0 < size x := fun x hx => hpos x (mem_append_left _ hx)
    have he := hpos e (by simp)
    have hm : 0 ≤ total size mid := total_nonneg fun x hx => hpos x (by simp [hx])
    have hpo := h.position
    have hdo := total_nonneg hd
    rw [total_cons] at hen
    have hp := h.pack hd he hc
    have hr := ih (by simpa using hpos) (fun w hw x hx => hwi w hw x (.tail _ hx)) (index + 1) hp
      (by rw [Packing.pack_position]; omega)
    rw [map_cons, cons_append, packEntries_inside he (by omega) (by omega), filter_within hwi]
    simpa using hr

theorem packEntries_exceeds {mid : List α} (hp : ∀ e ∈ mid, 0 < size e) {window : Int}
    (hla : ∃ e ∈ mid, window < size e) (index : Nat) (hs : startBytes ≤ acc.position)
    (hen : acc.position + total size mid ≤ endBytes) :
    ∃ i a b, packEntries startBytes endBytes chunkBytes (some window) index acc
      (mid.map size ++ rest) =
      .error (.entryExceedsWindow i a b window) := by
  induction mid generalizing index acc with
  | nil =>
    obtain ⟨e, he, -⟩ := hla
    cases he
  | cons e mid ih =>
    have he := hp e (.head _)
    have hm := total_nonneg fun x hx => hp x (.tail _ hx)
    rw [total_cons] at hen
    rw [map_cons, cons_append, packEntries_inside he hs (by omega)]
    by_cases ht : window < size e
    · refine ⟨index, acc.position, acc.position + size e, ?_⟩
      simp [Option.filter, ht]
    · have hl : ∃ x ∈ mid, window < size x := by
        obtain ⟨x, hx, hlt⟩ := hla
        rcases mem_cons.mp hx with rfl | hx
        · exact absurd hlt ht
        · exact ⟨x, hx, hlt⟩
      have hf : startBytes ≤ (acc.pack chunkBytes acc.position
        (acc.position + size e)).position := by
        rw [Packing.pack_position]
        omega
      have hr := ih (fun x hx => hp x (.tail _ hx)) hl (index + 1) hf
        (by rw [Packing.pack_position]; omega)
      simpa [Option.filter, ht] using hr

end

section

variable {startBytes endBytes chunkBytes : Int} {windowBytes : Option Int}

theorem splitRangeIntoChunks_eq {sizes : List Int} (hc : 0 < chunkBytes) (hs : 0 ≤ startBytes)
    (hlt : startBytes < endBytes) (hw : ∀ window ∈ windowBytes, 0 < window) :
    splitRangeIntoChunks startBytes endBytes chunkBytes sizes windowBytes =
      packEntries startBytes endBytes chunkBytes windowBytes 0 ⟨[], none, none, 0⟩ sizes >>=
      Packing.finish endBytes := by
  have ha : ¬ (windowBytes.any (· ≤ 0)) = true := by
    cases windowBytes with
    | none => exact Bool.false_ne_true
    | some window =>
      have := hw window rfl
      simp
      omega
  rw [splitRangeIntoChunks, if_neg (by omega), if_neg (by omega), if_neg (by omega),
    if_neg (by omega), if_neg ha]

theorem Packed.finish {mid : List α} {acc : Packing} (hm : ∀ e ∈ mid, 0 < size e)
    (h : Packed size chunkBytes startBytes mid acc) (hne : mid ≠ []) (position : Int) :
    ∃ groups, groups.flatten = mid ∧ Closed size chunkBytes groups ∧
      Packing.finish (startBytes + total size mid) { acc with position := position } =
      .ok (spans size startBytes groups) := by
  obtain ⟨hs, hr⟩ := h.reached hne
  obtain ⟨cut, hcu⟩ := isSome_iff_exists.mp hs
  obtain ⟨groups, opened, rfl, hg, hc, ho⟩ := h.groups
  rw [h.position] at hr
  rw [hcu, getD_some] at ho
  have hop : ∀ e ∈ opened, 0 < size e := fun e he => hm e (mem_append_right _ he)
  simp only [Packing.finish, hcu, hr, ne_eq, not_true_eq_false, if_false, total_append]
  by_cases hn : opened = []
  · refine ⟨groups, by rw [hn, append_nil], hg.closed, ?_⟩
    rw [if_neg (by rw [hn, total_nil]; omega), hc]
  · have hp := total_pos hop hn
    refine ⟨groups ++ [opened], by rw [flatten_append, flatten_singleton], hg.close hn, ?_⟩
    rw [if_pos (by omega), hc, ho, spans_append, ← Int.add_assoc]
    rfl

variable {pre mid post : List α}

theorem splitRangeIntoChunks_aligned (hpos : ∀ e ∈ pre ++ mid ++ post, 0 < size e) (hne : mid ≠ [])
    (hch : 0 < chunkBytes)
    (hpositive : ∀ window ∈ windowBytes, 0 < window) (hwi : WithinWindow size windowBytes mid) :
    ∃ groups, groups.flatten = mid ∧ Closed size chunkBytes groups ∧
      splitRangeIntoChunks (total size pre) (total size pre + total size mid) chunkBytes
        ((pre ++ mid ++ post).map size)
        windowBytes = .ok (spans size (total size pre) groups) := by
  have hpr : ∀ e ∈ pre, 0 < size e := fun e he => hpos e (by simp [he])
  have hm : ∀ e ∈ mid, 0 < size e := fun e he => hpos e (by simp [he])
  have hpo : ∀ e ∈ post, 0 < size e := fun e he => hpos e (by simp [he])
  have hlt := total_pos hm hne
  have hs := total_nonneg hpr
  have hfir : Packed size chunkBytes (total size pre) [] ⟨[], none, none, total size pre⟩ :=
    packed_nil (by omega)
  obtain ⟨acc, index, hp, hw⟩ := packEntries_within hm hch hwi (0 + pre.length) hfir (Int.le_refl _)
  rw [nil_append] at hp
  have ht := hp.position
  have hen : total size pre + total size mid ≤ acc.position := by omega
  have hfr : total size pre ≤ acc.position := by omega
  obtain ⟨position, ha⟩ := packEntries_after hpo index hen hfr
  obtain ⟨groups, hf, hc, hfi⟩ := hp.finish hm hne position
  refine ⟨groups, hf, hc, ?_⟩
  rw [splitRangeIntoChunks_eq hch hs (by omega) hpositive, map_append, map_append, append_assoc,
    packEntries_before hpr 0 _ (by show 0 + _ ≤ _; omega)]
  simp only [Int.zero_add]
  rw [hw, ha]
  exact hfi

theorem splitRangeIntoChunks_exceeds (hpo : ∀ e ∈ pre ++ mid ++ post, 0 < size e)
    (hc : 0 < chunkBytes)
    {window : Int} (hw : 0 < window) (hl : ∃ e ∈ mid, window < size e) :
    ∃ i a b, splitRangeIntoChunks (total size pre) (total size pre + total size mid) chunkBytes
      ((pre ++ mid ++ post).map size) (some window) =
      .error (.entryExceedsWindow i a b window) := by
  have hpr : ∀ e ∈ pre, 0 < size e := fun e he => hpo e (by simp [he])
  have hm : ∀ e ∈ mid, 0 < size e := fun e he => hpo e (by simp [he])
  have hne : mid ≠ [] := by
    obtain ⟨e, he, -⟩ := hl
    exact ne_nil_of_mem he
  have hlt := total_pos hm hne
  have hs := total_nonneg hpr
  have hp : ∀ w ∈ some window, 0 < w := by
    rintro w ⟨⟩
    exact hw
  obtain ⟨i, a, b, her⟩ := packEntries_exceeds hm hl (0 + pre.length)
    (Int.le_refl (Packing.position ⟨[], none, none, total size pre⟩)) (Int.le_refl _)
  refine ⟨i, a, b, ?_⟩
  rw [splitRangeIntoChunks_eq hc hs (by omega) hp, map_append, map_append, append_assoc,
    packEntries_before hpr 0 _ (by show 0 + _ ≤ _; omega)]
  simp only [Int.zero_add]
  rw [her]
  rfl

end

section

variable {startBytes endBytes chunkBytes : Int} {windowBytes : Option Int}

structure Read (size : α → Int) (entries : List α) (startBytes : Int) (done : List α)
    (acc : Packing) : Prop where
  position : acc.position = total size done
  before : acc.cut = none → acc.position ≤ startBytes
  start : acc.cut ≠ none → Boundary size entries startBytes
  reached : ∀ r, acc.reached = some r → Boundary size entries r

theorem Packing.pack_ends (acc : Packing) (chunkBytes a b : Int) :
    (acc.pack chunkBytes a b).cut ≠ none ∧ (acc.pack chunkBytes a b).reached = some b := by
  unfold Packing.pack
  dsimp only
  generalize acc.cut.getD a = cut
  split <;> split <;> exact ⟨some_ne_none _, rfl⟩

theorem packEntries_ends {entries done rest : List α} (hsp : entries = done ++ rest) {index : Nat}
    {acc packed : Packing}
    (h : Read size entries startBytes done acc)
    (hok : packEntries startBytes endBytes chunkBytes windowBytes index acc (rest.map size) = .ok
      packed) :
    (packed.cut ≠ none → Boundary size entries startBytes) ∧ ∀ r, packed.reached = some r →
      Boundary size entries r := by
  induction rest generalizing done index acc with
  | nil =>
    cases hok
    exact ⟨h.start, h.reached⟩
  | cons e rest ih =>
    have hm : entries = done ++ [e] ++ rest := by rw [hsp, append_assoc, singleton_append]
    have hp : acc.position + size e = total size (done ++ [e]) := by
      rw [h.position, total_append, total_cons, total_nil, Int.add_zero]
    rw [map_cons, packEntries] at hok
    split at hok
    · cases hok
    split at hok
    · next hs =>
      have hrea : Read size entries startBytes (done ++ [e])
        { acc with position := acc.position + size e } :=
        ⟨hp, fun _ => hs, h.start, h.reached⟩
      exact ih hm hrea hok
    split at hok
    · cases hok
      exact ⟨h.start, h.reached⟩
    split at hok
    · cases hok
    split at hok
    · cases hok
    next hf _ =>
    split at hok
    · cases hok
    obtain ⟨hc, hre⟩ := acc.pack_ends chunkBytes acc.position (acc.position + size e)
    refine ih hm ⟨?_, fun hn => absurd hn hc, fun _ => ?_, fun r hr => ?_⟩ hok
    · rw [Packing.pack_position]
      exact hp
    · -- the first packed entry is at the start of the range, as those before it end there at the
      -- latest
      by_cases hn : acc.cut = none
      · have hle := h.before hn
        refine ⟨done, e :: rest, hsp, ?_⟩
        rw [← h.position]
        omega
      · exact h.start hn
    · rw [hre] at hr
      cases hr
      exact ⟨done ++ [e], rest, hm, hp⟩

variable {chunks : List (Int × Int)}

theorem Packing.finish_ok {packed : Packing} (h : packed.finish endBytes = .ok chunks) :
    packed.cut ≠ none ∧ packed.reached = some endBytes := by
  unfold Packing.finish at h
  split at h
  · cases h
  next cut hc =>
  obtain ⟨hr, h⟩ := guard_ok.mp h
  rw [hc]
  exact ⟨some_ne_none _, not_not.mp hr⟩

theorem boundaries_of_splitRangeIntoChunks {entries : List α}
    (h : splitRangeIntoChunks startBytes endBytes chunkBytes (entries.map size) windowBytes = .ok
    chunks) :
    Boundary size entries startBytes ∧ Boundary size entries endBytes := by
  unfold splitRangeIntoChunks at h
  split at h
  · cases h
  obtain ⟨hs, h⟩ := guard_ok.mp h
  split at h
  · cases h
  split at h
  · cases h
  split at h
  · cases h
  obtain ⟨packed, hp, hf⟩ := bind_ok.mp h
  have hfi : Read size entries startBytes [] ⟨[], none, none, 0⟩ :=
    ⟨rfl, fun _ => by show 0 ≤ startBytes; omega, fun hc => absurd rfl hc, nofun⟩
  obtain ⟨hc, hr⟩ := packed.finish_ok hf
  obtain ⟨hb, he⟩ := packEntries_ends (nil_append entries).symm hfi hp
  exact ⟨hb hc, he endBytes hr⟩

end

section

structure Chunks (size : α → Int) (entries : List α) (startBytes endBytes chunkBytes : Int)
    (chunks : List (Int × Int)) :
    Prop where
  tiles : Tiles startBytes chunks endBytes
  boundary : ∀ chunk ∈ chunks, Boundary size entries chunk.1 ∧ Boundary size entries chunk.2
  length : ∀ chunk ∈ chunks, chunk.2 - chunk.1 ≤ chunkBytes ∨
    (entriesBetween size entries chunk.1 chunk.2).length = 1
  neighbours : chunks.IsChain fun a b => chunkBytes < a.2 - a.1 + (b.2 - b.1)
  bytes : ∀ chunk ∈ chunks, total size (entriesBetween size entries chunk.1 chunk.2) =
    chunk.2 - chunk.1
  entries : chunks.flatMap (fun chunk => entriesBetween size entries chunk.1 chunk.2) =
    entriesBetween size entries startBytes endBytes

variable {pre post : List α} {groups : List (List α)}

theorem flatMap_spans (hp : ∀ e ∈ pre ++ groups.flatten ++ post, 0 < size e)
    (hne : ∀ group ∈ groups, group ≠ []) :
    (spans size (total size pre) groups).flatMap (fun chunk =>
      entriesBetween size (pre ++ groups.flatten ++ post) chunk.1 chunk.2) = groups.flatten := by
  induction groups generalizing pre with
  | nil => rfl
  | cons group groups ih =>
    have hs : pre ++ (group ++ groups.flatten) ++ post = pre ++ group ++ groups.flatten ++
      post := by simp
    have hh : pre ++ (group ++ groups.flatten) ++ post = pre ++ group ++
      (groups.flatten ++ post) := by simp
    rw [flatten_cons] at hp ⊢
    have hr := ih (by rwa [hs] at hp) fun g hg => hne g (.tail _ hg)
    rw [total_append] at hr
    rw [spans, flatMap_cons]
    congr 1
    · rw [hh] at hp ⊢
      exact entriesBetween_eq hp (hne group (.head _))
    · rw [hs]
      exact hr

theorem chunks_of_closed {chunkBytes : Int}
    (hp : ∀ e ∈ pre ++ groups.flatten ++ post, 0 < size e) (hfl : groups.flatten ≠ [])
    (h : Closed size chunkBytes groups) :
    Chunks size (pre ++ groups.flatten ++ post) (total size pre)
      (total size pre + total size groups.flatten) chunkBytes
      (spans size (total size pre) groups) := by
  have hw : ∀ group ∈ groups, 0 < total size group := by
    intro group hg
    refine total_pos (fun e he => hp e ?_) (h.whole group hg).1
    exact mem_append_left _ (mem_append_right _ (mem_flatten.mpr ⟨group, hg, he⟩))
  -- every chunk is one group of entries, with the groups before and after it around
  have hc : ∀ chunk ∈ spans size (total size pre) groups, ∃ before group after, group ∈ groups ∧
      pre ++ groups.flatten ++ post = before ++ group ++ after ∧ chunk.1 = total size before ∧
      chunk.2 = total size before + total size group ∧
      entriesBetween size (pre ++ groups.flatten ++ post) chunk.1 chunk.2 = group := by
    intro chunk hm
    obtain ⟨before, group, after, rfl, hf, hs⟩ := exists_group_of_mem_spans hm
    have hin : group ∈ before ++ group :: after := by simp
    have hsp : pre ++ (before ++ group :: after).flatten ++ post = pre ++ before.flatten ++ group ++
      (after.flatten ++ post) := by
      simp
    rw [← total_append] at hf
    rw [hf] at hs
    refine ⟨pre ++ before.flatten, group, after.flatten ++ post, hin, hsp, hf, hs, ?_⟩
    rw [hsp] at hp ⊢
    rw [hf, hs]
    exact entriesBetween_eq hp (h.whole group hin).1
  refine ⟨spans_tiles hw, fun chunk hm => ?_, fun chunk hm => ?_, spans_chain h.chain,
    fun chunk hm => ?_, ?_⟩
  · obtain ⟨before, group, after, -, hsp, hf, hs, -⟩ := hc chunk hm
    rw [hsp, hs]
    exact ⟨⟨before, group ++ after, append_assoc _ _ _, hf⟩, boundary_append⟩
  · obtain ⟨before, group, after, hg, -, hf, hs, hen⟩ := hc chunk hm
    rw [hen]
    rcases (h.whole group hg).2 with hle | ho
    · left
      omega
    · exact .inr ho
  · obtain ⟨before, group, after, -, -, hf, hs, hen⟩ := hc chunk hm
    rw [hen]
    omega
  · rw [flatMap_spans hp fun group hg => (h.whole group hg).1, entriesBetween_eq hp hfl]

/-- Cutting a range into chunks: a non-empty aligned one that respects the window is cut into whole
entries, one that is not aligned is refused, and so is, under a name of its own, an entry larger
than the window. -/
theorem splitRangeIntoChunks_cuts {entries : List α} (hpos : ∀ e ∈ entries, 0 < size e)
    {startBytes endBytes chunkBytes : Int}
    (hchunk : 0 < chunkBytes) (windowBytes : Option Int) :
    (Boundary size entries startBytes → Boundary size entries endBytes → startBytes < endBytes →
      (∀ window ∈ windowBytes, 0 < window) →
      WithinWindow size windowBytes (entriesBetween size entries startBytes endBytes) →
      ∃ chunks, splitRangeIntoChunks startBytes endBytes chunkBytes (entries.map size) windowBytes =
      .ok chunks ∧
        Chunks size entries startBytes endBytes chunkBytes chunks) ∧
    (¬ (Boundary size entries startBytes ∧ Boundary size entries endBytes) →
      ∃ error, splitRangeIntoChunks startBytes endBytes chunkBytes (entries.map size) windowBytes =
      .error error) ∧
    (Boundary size entries startBytes → Boundary size entries endBytes → startBytes < endBytes →
      ∀ window, windowBytes = some window → 0 < window →
      ((∃ i a b, splitRangeIntoChunks startBytes endBytes chunkBytes (entries.map size)
      windowBytes =
          .error (.entryExceedsWindow i a b window)) ↔
          ∃ e ∈ entriesBetween size entries startBytes endBytes, window < size e)) := by
  refine ⟨fun hs hen hlt hp hw => ?_, fun hn => ?_, fun hs hen hlt window hso hp => ?_⟩
  · obtain ⟨pre, mid, post, rfl, rfl, rfl, hne⟩ := exists_between hpos hs hen hlt
    rw [entriesBetween_eq hpos hne] at hw
    obtain ⟨groups, rfl, hc, hok⟩ := splitRangeIntoChunks_aligned hpos hne hchunk hp hw
    exact ⟨_, hok, chunks_of_closed hpos hne hc⟩
  · cases hr : splitRangeIntoChunks startBytes endBytes chunkBytes (entries.map size)
      windowBytes with
    | error error => exact ⟨error, rfl⟩
    | ok chunks => exact absurd (boundaries_of_splitRangeIntoChunks hr) hn
  · obtain ⟨pre, mid, post, rfl, rfl, rfl, hne⟩ := exists_between hpos hs hen hlt
    subst hso
    rw [entriesBetween_eq hpos hne]
    refine ⟨fun ⟨i, a, b, her⟩ => ?_, fun hl => ?_⟩
    · by_contra hnone
      have hwi : WithinWindow size (some window) mid := by
        rintro _ ⟨⟩ e he
        by_contra hl
        exact hnone ⟨e, he, by omega⟩
      obtain ⟨groups, -, -, hok⟩ := splitRangeIntoChunks_aligned hpos hne hchunk
        (by rintro _ ⟨⟩; exact hp) hwi
      rw [hok] at her
      cases her
    · exact splitRangeIntoChunks_exceeds hpos hchunk hp hl

theorem splitRangeIntoChunks_cuts_seven :
    splitRangeIntoChunks 0 7 4 [3, 2, 2] (some 3) = .ok [(0, 3), (3, 7)] ∧
      ∃ chunks, splitRangeIntoChunks 0 7 4 ([3, 2, 2].map id) (some 3) = .ok chunks ∧
      Chunks id [3, 2, 2] 0 7 4 chunks := by
  refine ⟨rfl, (@splitRangeIntoChunks_cuts Int id [3, 2, 2] (by decide) 0 7 4 (by decide)
    (some 3)).1
    ⟨[], [3, 2, 2], rfl, rfl⟩ ⟨[3, 2, 2], [], rfl, rfl⟩ (by decide) ?_ ?_⟩
  · rintro _ ⟨⟩
    decide
  · rintro _ ⟨⟩
    decide

/-- An empty range is refused though its ends are boundaries, and a window of nothing under another
name. -/
theorem splitRangeIntoChunks_degenerate : Boundary id [1] 0 ∧ Boundary id [1] 1 ∧
      splitRangeIntoChunks 0 0 1 [1] none =
        .error (.value "a chunked range must be non-empty and half-open") ∧
      splitRangeIntoChunks 0 1 1 [1] (some 0) =
        .error (.value "window_bytes must be a positive whole number of bytes") ∧
      1 ∈ entriesBetween id [1] 0 1 :=
  ⟨⟨[], [1], rfl, rfl⟩, ⟨[1], [], rfl, rfl⟩, rfl, rfl, by decide⟩

end

end PrismaBuild.DataManifest
