import PrismaBuild.ActionBody

namespace PrismaBuild.Action

open Contract List

variable {F : Type}

theorem sorted_of_forall_str {items : List (Json F)} (h : ∀ v ∈ items, ∃ s, v = .str s) :
    (Json.arr items).Sorted := by
  refine Json.sortedItems_iff.mpr fun v hv => ?_
  obtain ⟨s, rfl⟩ := h v hv
  trivial

theorem Task.toJson_sorted (t : Task) : (t.toJson : Json F).Sorted := by
  refine obj_sorted taskKeys_sorted rfl ?_
  have ha : (t.argv.toJson : Json F).Sorted := by
    refine sorted_of_forall_str fun v hv => ?_
    obtain ⟨s, -, rfl⟩ := mem_map.mp hv
    exact ⟨_, rfl⟩
  simp [Task.fields, ha, Json.Sorted]

theorem Input.toJson_sorted (r : Input) : (r.toJson : Json F).Sorted := by
  refine obj_sorted inputKeys_sorted rfl ?_
  simp [Input.fields, Json.Sorted]

theorem rows_sorted (rows : List Input) :
    (Json.arr (rows.map fun r => r.toJson) : Json F).Sorted := by
  refine Json.sortedItems_iff.mpr fun v hv => ?_
  obtain ⟨r, -, rfl⟩ := mem_map.mp hv
  exact r.toJson_sorted

theorem ClosureFile.toJson_sorted (f : ClosureFile) : (f.toJson : Json F).Sorted := by
  refine obj_sorted closureFileKeys_sorted rfl ?_
  simp [ClosureFile.fields, Json.Sorted]

theorem filesJson_sorted (files : List ClosureFile) : (filesJson files : Json F).Sorted := by
  refine Json.sortedItems_iff.mpr fun v hv => ?_
  obtain ⟨f, -, rfl⟩ := mem_map.mp hv
  exact f.toJson_sorted

theorem StringMap.toJson_sorted {spec : TextSpec} (m : StringMap spec) :
    (m.toJson : Json F).Sorted := by
  refine obj_sorted m.sorted ?_ ?_
  · simp [entriesJson]
  · intro p hp
    obtain ⟨q, -, rfl⟩ := mem_map.mp hp
    trivial

theorem Environment.toJson_sorted (e : Environment) : (e.toJson : Json F).Sorted := by
  refine obj_sorted environmentKeys_sorted rfl ?_
  simp [Environment.fields, StringMap.toJson_sorted]

theorem Scope.toJson_sorted (s : Scope) : (s.toJson : Json F).Sorted := by
  refine obj_sorted scopeKeys_sorted rfl ?_
  have ht : ∀ t : Option (Text scopeText), (tokenJson t : Json F).Sorted := by
    intro t
    cases t with
    | none => trivial
    | some t => trivial
  simp [Scope.fields, ht, Json.Sorted]

theorem actionBodyKeys_sorted : KeysSorted actionBodyKeys := by decide +kernel

theorem actionKeys_sorted : KeysSorted actionKeys := by decide +kernel

def withInputs (items : List (Json F)) (fields : List (Name × Json F)) : List (Name × Json F) :=
  fields.map fun p => if p.1 = "inputs".toList then (p.1, .arr items) else p

theorem withInputs_of_not_mem (items : List (Json F)) {fields : List (Name × Json F)}
    (h : "inputs".toList ∉ fields.map Prod.fst) : withInputs items fields = fields := by
  have hid : ∀ p ∈ fields, (if p.1 = "inputs".toList then (p.1, Json.arr items) else p) = p := by
    intro p hp
    refine if_neg fun he => h ?_
    rw [← he]
    exact mem_map_of_mem hp
  exact (map_congr_left hid).trans (map_id fields)

variable [FloatFormat F]

theorem Input.eq_of_pyEq {r r' : Input} (h : (r.toJson : Json F).pyEq r'.toJson = true) :
    r = r' := by
  obtain ⟨id, digest, bytes⟩ := r
  obtain ⟨id', digest', bytes'⟩ := r'
  simp only [Input.toJson, Input.fields, Json.pyEq, Json.pyEqFields, Bool.and_eq_true,
    beq_iff_eq] at h
  obtain ⟨⟨-, hb⟩, ⟨-, hid⟩, ⟨-, hd⟩, -⟩ := h
  have hb' : ((bytes : Int) : ℚ) = ((bytes' : Int) : ℚ) := by
    simpa only [Json.number, beq_iff_eq] using hb
  rw [Subtype.ext hid, Subtype.ext hd, Int.natCast_inj.mp (Rat.intCast_injective hb')]

theorem rows_eq_of_pyEq {rows rows' : List Input}
    (h : Json.pyEqItems (rows.map fun r => (r.toJson : Json F)) (rows'.map fun r => r.toJson) =
    true) : rows = rows' := by
  induction rows generalizing rows' with
  | nil =>
    cases rows' with
    | nil => rfl
    | cons r' rows' => simp [Json.pyEqItems] at h
  | cons r rows ih =>
    cases rows' with
    | nil => simp [Json.pyEqItems] at h
    | cons r' rows' =>
      simp only [map_cons, Json.pyEqItems, Bool.and_eq_true] at h
      rw [Input.eq_of_pyEq h.1, ih h.2]

theorem checkSchema_v2 : checkSchema (.str actionSchemaV2 : Json F) = .ok () := by
  have hne : actionSchemaV2 ≠ actionSchemaV1 := by decide +kernel
  have h1 : (Json.str actionSchemaV2 : Json F).pyEq (.str actionSchemaV1) = false := by
    simp [Json.pyEq, hne]
  have h2 : (Json.str actionSchemaV2 : Json F).pyEq (.str actionSchemaV2) = true := pyEq_str.mpr rfl
  simp [checkSchema, h1, h2]

theorem checkSchema_ok {schema : Json F} (h : checkSchema schema = .ok ()) :
    schema = .str actionSchemaV2 := by
  unfold checkSchema at h
  obtain ⟨-, h⟩ := guard_ok.mp h
  obtain ⟨h2, h⟩ := guard_ok.mp h
  exact pyEq_str.mp (by simpa using h2)

variable [HashFunction]

theorem CodeClosure.toJson_sorted (c : CodeClosure F) : c.toJson.Sorted := by
  refine obj_sorted closureKeys_sorted rfl ?_
  simp [CodeClosure.fields, filesJson_sorted, Json.Sorted]

/-- The fields of a body that lists its inputs in an order of its own. -/
def ActionBody.listing (b : ActionBody F) (rows : List Input) : List (Name × Json F) :=
  [("code_closure", b.closure.toJson), ("environment", b.environment.toJson),
    ("execution_scope", b.scope.toJson),
    ("inputs", .arr (rows.map fun r => r.toJson)), ("params", .obj b.params.fields),
    ("schema", .str actionSchemaV2),
    ("task", b.task.toJson)]

theorem ActionBody.listing_values (b : ActionBody F) (rows : List Input) :
    ∀ p ∈ b.listing rows, p.2.Sorted := by
  have hs : (Json.str actionSchemaV2 : Json F).Sorted := trivial
  simp only [ActionBody.listing, forall_mem_cons, CodeClosure.toJson_sorted,
    Environment.toJson_sorted,
    Scope.toJson_sorted, rows_sorted, b.params.sorted, hs, Task.toJson_sorted, true_and]
  simp

theorem ActionBody.listing_sorted (b : ActionBody F) (rows : List Input) :
    (Json.obj (b.listing rows)).Sorted :=
  obj_sorted actionBodyKeys_sorted rfl (b.listing_values rows)

theorem ActionBody.toJson_sorted (b : ActionBody F) :
    b.toJson.Sorted := b.listing_sorted b.inputs.rows

def ActionBody.document (b : ActionBody F) : Document F := ⟨b.toJson, b.toJson_sorted⟩

variable {rows : List Input}

theorem normalizeActionBody_listing (b : ActionBody F) (hn : (rows.map fun r => r.id.1).Nodup)
    (h : b.inputs = sortInputs rows hn) :
    normalizeActionBody ⟨.obj (b.listing rows), b.listing_sorted rows⟩ = .ok b := by
  have hk := actionBodyKeys_sorted
  have hke : (b.listing rows).map Prod.fst = actionBodyKeys := rfl
  have hi : normalizeInputs (.arr (rows.map fun r => r.toJson) : Json F) = .ok b.inputs := by
    rw [normalizeInputs_rows hn, h]
  rw [normalizeActionBody, mapping_obj _ _ hke]
  simp only [bind, Except.bind, entry_at hk hke (i := 0) rfl, entry_at hk hke (i := 1) rfl,
    entry_at hk hke (i := 2) rfl, entry_at hk hke (i := 3) rfl, entry_at hk hke (i := 4) rfl,
    entry_at hk hke (i := 5) rfl, entry_at hk hke (i := 6) rfl, checkSchema_v2,
    normalizeTask_toJson,
    normalizeScope_toJson, ensure_of b.measured, normalizeParams_toJson, ensure_of b.progress, hi,
    ensure_of b.produced, normalizeEnvironment_toJson, ensure_of b.bound,
    validateCodeClosure_toJson]
  rfl

variable {b : ActionBody F}

theorem normalizeActionBody_ok {body : Document F} (h : normalizeActionBody body = .ok b) :
    ∃ rows, ∃ hn : (rows.map fun r : Input => r.id.1).Nodup, body.1 = .obj (b.listing rows) ∧
    b.inputs = sortInputs rows hn := by
  obtain ⟨fields, hf, h1⟩ := bind_ok.mp h
  obtain ⟨⟨⟩, hs, h2⟩ := bind_ok.mp h1
  obtain ⟨task, ht, h3⟩ := bind_ok.mp h2
  obtain ⟨scope, hsc, h4⟩ := bind_ok.mp h3
  obtain ⟨measured, -, h5⟩ := bind_ok.mp h4
  obtain ⟨params, hp, h6⟩ := bind_ok.mp h5
  obtain ⟨progress, -, h7⟩ := bind_ok.mp h6
  obtain ⟨inputs, hi, h8⟩ := bind_ok.mp h7
  obtain ⟨produced, -, h9⟩ := bind_ok.mp h8
  obtain ⟨environment, hen, h10⟩ := bind_ok.mp h9
  obtain ⟨bound, -, h11⟩ := bind_ok.mp h10
  obtain ⟨closure, hc, he⟩ := bind_ok.mp h11
  cases he
  obtain ⟨hb, hk⟩ := mapping_ok actionBodyKeys_sorted hf
  obtain ⟨rows, hn, hr, hso⟩ := normalizeInputs_ok (entry_sorted fields.2 "inputs") hi
  have hp' : entry fields.1 "params" = .obj params.fields := normalizeParams_ok hp
  refine ⟨rows, hn, ?_, hso⟩
  rw [hb, fields_eq_entries actionBodyKeys_sorted hk]
  simp only [actionBodyKeys, map_cons, map_nil, checkSchema_ok hs,
    normalizeTask_ok (entry_sorted fields.2 "task") ht,
    normalizeScope_ok (entry_sorted fields.2 "execution_scope") hsc, hp', hr,
    normalizeEnvironment_ok (entry_sorted fields.2 "environment") hen,
    validateCodeClosure_ok (entry_sorted fields.2 "code_closure") hc, ActionBody.listing]

theorem normalizeActionBody_document (b : ActionBody F) : normalizeActionBody b.document = .ok b :=
  normalizeActionBody_listing b (keysSorted_nodup b.inputs.sorted) (sortInputs_self b.inputs).symm

theorem listing_eq_of_pyEq
    (h : (Json.obj (b.listing rows)).pyEq b.toJson = true) :
    Json.obj (b.listing rows) = b.toJson := by
  have hf : Json.pyEqFields (b.listing rows) (b.listing b.inputs.rows) = true := h
  simp only [ActionBody.listing, Json.pyEqFields, Bool.and_eq_true] at hf
  obtain ⟨-, -, -, ⟨-, hr⟩, -⟩ := hf
  rw [rows_eq_of_pyEq hr]
  rfl

def Reordered (body body' : Document F) : Prop :=
  ∃ fields items items', body.1 = .obj fields ∧ entry fields "inputs" = .arr items ∧
    items.Perm items' ∧
    body'.1 = .obj (withInputs items' fields)

theorem withInputs_listing (b : ActionBody F) (rows rows' : List Input) :
    withInputs (rows'.map fun r => r.toJson) (b.listing rows) = b.listing rows' := by
  have hpr : "inputs".toList ∉ (["code_closure", "environment", "execution_scope"] : List
    Name) := by
    decide +kernel
  have hp : "inputs".toList ∉ (["params", "schema", "task"] : List Name) := by decide +kernel
  have hs : ∀ l, b.listing l = (b.listing l).take 3 ++
    ("inputs".toList, .arr (l.map fun r => r.toJson)) ::
      (b.listing l).drop 4 := fun _ => rfl
  have ht : withInputs (rows'.map fun r => r.toJson) ((b.listing rows).take 3) =
    (b.listing rows).take 3 :=
    withInputs_of_not_mem _ hpr
  have hd : withInputs (rows'.map fun r => r.toJson) ((b.listing rows).drop 4) =
    (b.listing rows).drop 4 :=
    withInputs_of_not_mem _ hp
  rw [hs rows, withInputs, map_append, map_cons, if_pos rfl]
  rw [withInputs] at ht hd
  rw [ht, hd]
  rfl

theorem entry_listing_inputs (b : ActionBody F) (rows : List Input) :
    entry (b.listing rows) "inputs" = .arr (rows.map fun r => r.toJson) := by
  have hk : (b.listing rows).map Prod.fst = actionBodyKeys := rfl
  exact entry_at actionBodyKeys_sorted hk (i := 3) rfl

theorem normalizeActionBody_reordered {body body' : Document F} (h : Reordered body body')
    (hb : normalizeActionBody body = .ok b) : normalizeActionBody body' = .ok b := by
  obtain ⟨fields, items, items', hbo, hi, hp, hb'⟩ := h
  obtain ⟨rows, hn, hl, hs⟩ := normalizeActionBody_ok hb
  rw [hbo] at hl
  cases hl
  rw [entry_listing_inputs] at hi
  cases hi
  obtain ⟨rows', rfl, hr⟩ : ∃ rows' : List Input, items' = rows'.map (fun r => r.toJson) ∧
    rows'.Perm rows := by
    have := congrFun (congrFun (eq_map_comp_perm (fun r : Input => (r.toJson : Json F))) items')
      rows
    exact this.mpr hp.symm
  have hn' := (hr.map _).nodup_iff.mpr hn
  rw [withInputs_listing] at hb'
  obtain ⟨v, hv⟩ := body'
  cases hb'
  exact normalizeActionBody_listing b hn' (hs.trans (sortInputs_perm hr.symm hn hn'))

end PrismaBuild.Action
