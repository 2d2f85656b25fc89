import PrismaBuild.ActionParts

namespace PrismaBuild.Action

open Contract List

variable {F : Type}

structure Input where
  id : Text idText
  sha256 : Text sha256Text
  bytes : Nat

def inputKeys : List Name := ["bytes", "id", "sha256"]

theorem inputKeys_sorted : KeysSorted inputKeys := by decide +kernel

def Input.fields (r : Input) : List (Name × Json F) :=
  [("bytes", .int r.bytes), ("id", .str r.id.1), ("sha256", .str r.sha256.1)]

def Input.toJson (r : Input) : Json F := .obj r.fields

/-- The loop of `_normalize_inputs`. -/
def inputRows (index : Nat) (seen : List Name) : List (Json F) → Checked (List Input)
  | [] => .ok []
  | j :: rest => do
    let fields ← exactMapping inputKeys (item "action.inputs" index) j
    let id ← text idText (field (item "action.inputs" index) "id") (entry fields "id")
    if seen.contains id.1 then fail "action.inputs" "ids must be unique"
    else do
      let digest ← sha256 (field (item "action.inputs" index) "sha256") (entry fields "sha256")
      let bytes ← nonnegativeInteger (field (item "action.inputs" index) "bytes")
        (entry fields "bytes")
      let rest ← inputRows (index + 1) (id.1 :: seen) rest
      pure (⟨id, digest, bytes⟩ :: rest)

def FreshIds (seen : List Name) (rows : List Input) : Prop :=
  (rows.map fun r => r.id.1).Nodup ∧ ∀ r ∈ rows, r.id.1 ∉ seen

variable {rows : List Input} {seen : List Name} {index : Nat}

theorem freshIds_cons {r : Input} : FreshIds seen (r :: rows) ↔ r.id.1 ∉ seen ∧
    FreshIds (r.id.1 :: seen) rows := by
  unfold FreshIds
  rw [map_cons, nodup_cons, forall_mem_cons, mem_map]
  constructor
  · rintro ⟨⟨hne, hn⟩, hr, hre⟩
    refine ⟨hr, hn, fun q hq hm => ?_⟩
    rcases mem_cons.mp hm with he | hm
    · exact hne ⟨q, hq, he⟩
    · exact hre q hq hm
  · rintro ⟨hr, hn, hre⟩
    refine ⟨⟨?_, hn⟩, hr, fun q hq hm => hre q hq (mem_cons_of_mem _ hm)⟩
    rintro ⟨q, hq, he⟩
    exact hre q hq (he ▸ mem_cons_self)

variable {js : List (Json F)}

theorem inputRows_fresh (h : inputRows index seen js = .ok rows) : FreshIds seen rows := by
  induction js generalizing index seen rows with
  | nil =>
    cases h
    exact ⟨nodup_nil, by simp⟩
  | cons j js ih =>
    obtain ⟨fields, -, h1⟩ := bind_ok.mp h
    obtain ⟨id, -, h2⟩ := bind_ok.mp h1
    obtain ⟨hn, h2⟩ := guard_ok.mp h2
    obtain ⟨digest, -, h3⟩ := bind_ok.mp h2
    obtain ⟨bytes, -, h4⟩ := bind_ok.mp h3
    obtain ⟨rest, hr, he⟩ := bind_ok.mp h4
    cases he
    exact freshIds_cons.mpr ⟨by simpa using hn, ih hr⟩

theorem inputRows_toJson (index : Nat) (h : FreshIds seen rows) :
    inputRows index seen (rows.map fun r => (r.toJson : Json F)) = .ok rows := by
  induction rows generalizing index seen with
  | nil => rfl
  | cons r rows ih =>
    obtain ⟨hr, hre⟩ := freshIds_cons.mp h
    have hk := inputKeys_sorted
    have hke : (r.fields : List (Name × Json F)).map Prod.fst = inputKeys := rfl
    have hn : seen.contains r.id.1 = false := by simpa using hr
    rw [map_cons, inputRows, Input.toJson, exactMapping_obj _ hke]
    simp only [bind, Except.bind, entry_at hk hke (i := 0) rfl, entry_at hk hke (i := 1) rfl,
      entry_at hk hke (i := 2) rfl, text_str, sha256, nonnegativeInteger_int, hn,
      ih (index + 1) hre]
    rfl

theorem inputRows_ok (hs : ∀ j ∈ js, j.Sorted)
    (h : inputRows index seen js = .ok rows) : js = rows.map fun r => r.toJson := by
  induction js generalizing index seen rows with
  | nil => cases h; rfl
  | cons j js ih =>
    obtain ⟨fields, hf, h1⟩ := bind_ok.mp h
    obtain ⟨id, hid, h2⟩ := bind_ok.mp h1
    obtain ⟨-, h2⟩ := guard_ok.mp h2
    obtain ⟨digest, hd, h3⟩ := bind_ok.mp h2
    obtain ⟨bytes, hb, h4⟩ := bind_ok.mp h3
    obtain ⟨rest, hr, he⟩ := bind_ok.mp h4
    cases he
    obtain ⟨rfl, hk⟩ := exactMapping_ok inputKeys_sorted (hs j (by simp)) hf
    rw [map_cons, ← ih (fun w hw => hs w (by simp [hw])) hr, fields_eq_entries inputKeys_sorted hk]
    simp only [inputKeys, map_cons, map_nil, text_ok hid, text_ok hd,
      nonnegativeInteger_ok hb, Input.toJson, Input.fields]

structure Inputs where
  rows : List Input
  sorted : KeysSorted (rows.map fun r => r.id.1)

def Inputs.toJson (inputs : Inputs) : Json F := .arr (inputs.rows.map fun r => r.toJson)

def idLe (a b : Input) : Prop := nameLe a.id.1 b.id.1 = true

instance : DecidableRel idLe := fun a b => inferInstanceAs (Decidable (nameLe a.id.1 b.id.1 = true))

instance : Std.Total idLe := ⟨fun a b => nameLe_total a.id.1 b.id.1⟩

instance : IsTrans Input idLe := ⟨fun _ _ _ => nameLe_trans⟩

theorem keysSorted_of_le {keys : List Name} (hn : keys.Nodup)
    (hle : keys.Pairwise fun a b => nameLe a b = true) : KeysSorted keys :=
  (hn.and hle).imp fun h => Json.before_of_le_ne h.2 h.1

theorem sortInputs_sorted (h : (rows.map fun r => r.id.1).Nodup) :
    KeysSorted ((rows.insertionSort idLe).map fun r => r.id.1) := by
  refine keysSorted_of_le ?_ ?_
  · exact ((perm_insertionSort idLe rows).map _).nodup_iff.mpr h
  · rw [pairwise_map]
    exact pairwise_insertionSort idLe rows

def sortInputs (rows : List Input) (h : (rows.map fun r => r.id.1).Nodup) : Inputs :=
  ⟨rows.insertionSort idLe, sortInputs_sorted h⟩

def normalizeInputs : Json F → Checked Inputs
  | .arr items =>
    match h : inputRows 0 [] items with
    | .ok rows => .ok (sortInputs rows (inputRows_fresh h).1)
    | .error e => .error e
  | _ => fail "action.inputs" "must be an array"

theorem freshIds_nil : FreshIds [] rows ↔ (rows.map fun r => r.id.1).Nodup := by
  simp [FreshIds]

theorem normalizeInputs_rows (h : (rows.map fun r => r.id.1).Nodup) :
    normalizeInputs (.arr (rows.map fun r => r.toJson) : Json F) = .ok (sortInputs rows h) := by
  have hr := inputRows_toJson (F := F) 0 (freshIds_nil.mpr h)
  unfold normalizeInputs
  dsimp only
  split
  next rows' hr' =>
    rw [hr] at hr'
    cases hr'
    rfl
  next e he =>
    rw [hr] at he
    cases he

theorem normalizeInputs_ok {j : Json F} (hj : j.Sorted) {inputs : Inputs}
    (h : normalizeInputs j = .ok inputs) :
    ∃ rows, ∃ hn : (rows.map fun r : Input => r.id.1).Nodup, j = .arr (rows.map fun r => r.toJson) ∧
      inputs = sortInputs rows hn := by
  cases j with
  | arr items =>
    dsimp only [normalizeInputs] at h
    split at h
    next rows hr =>
      cases h
      refine ⟨rows, (inputRows_fresh hr).1, ?_, rfl⟩
      rw [← inputRows_ok (Json.sortedItems_iff.mp hj) hr]
    next => cases h
  | null => cases h
  | bool b => cases h
  | int n => cases h
  | str s => cases h
  | float x => cases h
  | obj fields => cases h

theorem sortInputs_perm {rows' : List Input} (hp : rows.Perm rows')
    (h : (rows.map fun r => r.id.1).Nodup)
    (h' : (rows'.map fun r => r.id.1).Nodup) : sortInputs rows h = sortInputs rows' h' := by
  have heq : rows.insertionSort idLe = rows'.insertionSort idLe := by
    have han : ∀ a b, a ∈ rows.insertionSort idLe → b ∈ rows'.insertionSort idLe → idLe a b →
      idLe b a → a = b := by
      intro a b ha hb hab hba
      have hid := nameLe_antisymm hab hba
      have hm : b ∈ rows := hp.mem_iff.mpr ((mem_insertionSort idLe).mp hb)
      exact inj_on_of_nodup_map h ((mem_insertionSort idLe).mp ha) hm hid
    refine List.Perm.eq_of_pairwise han (pairwise_insertionSort idLe rows)
      (pairwise_insertionSort idLe rows') ?_
    exact ((perm_insertionSort idLe rows).trans hp).trans (perm_insertionSort idLe rows').symm
  simp only [sortInputs, heq]

theorem sortInputs_self (inputs : Inputs) :
    sortInputs inputs.rows (keysSorted_nodup inputs.sorted) = inputs := by
  obtain ⟨rows, hs⟩ := inputs
  have hle : rows.Pairwise idLe := by
    have hs' := pairwise_map.mp hs
    exact hs'.imp fun h => le_of_before h
  simp only [sortInputs, List.Pairwise.insertionSort_eq hle]

end PrismaBuild.Action
