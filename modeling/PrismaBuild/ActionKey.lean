import PrismaBuild.ActionNormal

namespace PrismaBuild.Action

open Contract List

section

variable {F : Type} [FloatFormat F] [HashFunction]

def ActionBody.sealed (b : ActionBody F) (key : Text sha256Text) : Document F :=
  ⟨.obj (("action_key", .str key.1) :: b.fields),
    obj_sorted actionKeys_sorted rfl (List.forall_mem_cons.mpr
    ⟨trivial, b.listing_values b.inputs.rows⟩)⟩

def sealAction (body : Document F) : Checked (Document F) := do
  let b ← normalizeActionBody body
  let key ← canonicalSha256 b.toJson
  pure (b.sealed key)

def bodyOf (fields : List (Name × Json F)) (h : Json.SortedFields fields) : Document F :=
  ⟨.obj (actionBodyKeys.map fun k => (k, entry fields k)), by
    refine obj_sorted actionBodyKeys_sorted ?_ ?_
    · simp [List.map_map, Function.comp_def]
    · intro p hp
      obtain ⟨k, -, rfl⟩ := List.mem_map.mp hp
      exact entry_sorted h k⟩

def validateAction (action : Document F) : Checked (Document F) := do
  let fields ← mapping actionKeys "action" action
  let rawBody := bodyOf fields.1 fields.2
  let b ← normalizeActionBody rawBody
  if rawBody.1.pyEq b.toJson = false then
    fail [] "action body is valid but not in normalized contract form"
  else do
    let recorded ← sha256 "action.action_key" (entry fields.1 "action_key")
    let expected ← canonicalSha256 b.toJson
    if recorded ≠ expected then fail "action.action_key" "does not match the canonical action body"
    else pure (b.sealed recorded)

variable {v : Json F} {raw : ByteArray}

theorem canonicalSha256_ok {key : Text sha256Text} (h : canonicalSha256 v = .ok key) :
    ∃ raw, canonicalBytes v = .ok raw ∧ key = HashFunction.digest raw := by
  obtain ⟨raw, hr, he⟩ := bind_ok.mp h
  exact ⟨raw, hr, (Except.ok.inj he).symm⟩

theorem canonicalSha256_of (h : canonicalBytes v = .ok raw) :
    canonicalSha256 v = .ok (HashFunction.digest raw) := by
  rw [canonicalSha256, h]
  rfl

theorem sealAction_ok {body a : Document F} (h : sealAction body = .ok a) :
    ∃ b raw, normalizeActionBody body = .ok b ∧ canonicalBytes b.toJson = .ok raw ∧
    a = b.sealed (HashFunction.digest raw) := by
  obtain ⟨b, hb, h1⟩ := bind_ok.mp h
  obtain ⟨key, hk, he⟩ := bind_ok.mp h1
  obtain ⟨raw, hr, rfl⟩ := canonicalSha256_ok hk
  exact ⟨b, raw, hb, hr, (Except.ok.inj he).symm⟩

variable {b : ActionBody F}

theorem sealAction_of {body : Document F}
    (h : normalizeActionBody body = .ok b) (hr : canonicalBytes b.toJson = .ok raw) :
    sealAction body = .ok (b.sealed (HashFunction.digest raw)) := by
  rw [sealAction, h]
  simp only [bind, Except.bind, canonicalSha256_of hr]
  rfl

theorem sealed_keys (b : ActionBody F) (key : Text sha256Text) :
    (("action_key".toList, (Json.str key.1 : Json F)) :: b.fields).map Prod.fst = actionKeys := rfl

theorem bodyOf_sealed (b : ActionBody F) (key : Text sha256Text)
    (h : Json.SortedFields (("action_key".toList, (Json.str key.1 : Json F)) :: b.fields)) :
    bodyOf (("action_key".toList, .str key.1) :: b.fields) h = b.document := by
  have hk := actionKeys_sorted
  have hke := sealed_keys b key
  refine Subtype.ext ?_
  simp only [bodyOf, actionBodyKeys, map_cons, map_nil, entry_at hk hke (i := 1) rfl,
    entry_at hk hke (i := 2) rfl, entry_at hk hke (i := 3) rfl, entry_at hk hke (i := 4) rfl,
    entry_at hk hke (i := 5) rfl, entry_at hk hke (i := 6) rfl, entry_at hk hke (i := 7) rfl]
  rfl

theorem validateAction_sealed (hr : canonicalBytes b.toJson = .ok raw) :
    validateAction (b.sealed (HashFunction.digest raw)) =
    .ok (b.sealed (HashFunction.digest raw)) := by
  have hk := sealed_keys b (HashFunction.digest raw)
  have heq : b.document.1.pyEq b.toJson = true := Json.pyEq_refl (canonicalBytes_ok hr).1
  rw [validateAction, ActionBody.sealed, mapping_obj _ _ hk]
  simp only [bind, Except.bind, bodyOf_sealed, normalizeActionBody_document, heq,
    Bool.true_eq_false, if_false,
    entry_at actionKeys_sorted hk (i := 0) rfl, sha256, text_str, canonicalSha256_of hr, ne_eq,
    not_true_eq_false]
  rfl

def actionKey (a : Document F) : Json F :=
  match a.1 with
  | .obj fields => entry fields "action_key"
  | _ => .null

theorem actionKey_sealed (b : ActionBody F) (key : Text sha256Text) :
    actionKey (b.sealed key) = .str key.1 :=
  entry_at actionKeys_sorted (sealed_keys b key) (i := 0) rfl

theorem canonicalBytes_sealed (hr : canonicalBytes b.toJson = .ok raw)
    (key : Text sha256Text) : ∃ sealed, canonicalBytes (b.sealed key).1 = .ok sealed := by
  have hb : Json.printableFields b.fields = true := (canonicalBytes_ok hr).1
  have hp : (b.sealed key).1.printable = true := by
    simp [ActionBody.sealed, Json.printable, Json.printableFields, hb]
  exact ⟨_, canonicalBytes_of hp⟩

theorem validateAction_ok {v a : Document F} (h : validateAction v = .ok a) :
    a = v ∧ ∃ fields, ∃ hs : Json.SortedFields fields, v.1 = .obj fields ∧
    sealAction (bodyOf fields hs) = .ok v := by
  obtain ⟨fields, hf, h1⟩ := bind_ok.mp h
  obtain ⟨b, hb, h2⟩ := bind_ok.mp h1
  obtain ⟨heq, h2⟩ := guard_ok.mp h2
  obtain ⟨recorded, hr, h3⟩ := bind_ok.mp h2
  obtain ⟨expected, he, h4⟩ := bind_ok.mp h3
  split at h4
  next => cases h4
  next hke =>
    obtain rfl : recorded = expected := not_not.mp hke
    obtain ⟨hv, hk⟩ := mapping_ok actionKeys_sorted hf
    obtain ⟨rows, hn, hbo, hso⟩ := normalizeActionBody_ok hb
    have hra : (bodyOf fields.1 fields.2).1 = b.toJson := by
      rw [hbo]
      refine listing_eq_of_pyEq ?_
      rw [← hbo]
      simpa using heq
    have hva : v.1 = (b.sealed recorded).1 := by
      have hen := Json.obj.inj hra
      rw [hv, fields_eq_entries actionKeys_sorted hk, actionKeys, map_cons, hen, text_ok hr]
      rfl
    have hav : a = v := Subtype.ext ((congrArg Subtype.val (Except.ok.inj h4)).symm.trans hva.symm)
    refine ⟨hav, fields.1, fields.2, hv, ?_⟩
    rw [sealAction, hb]
    simp only [bind, Except.bind, he]
    rw [← hav]
    exact h4

def NoCollision (v w : Json F) : Prop :=
  ∀ raw raw', canonicalBytes v = .ok raw → canonicalBytes w = .ok raw' →
    HashFunction.digest raw = HashFunction.digest raw' → raw = raw'

theorem key_eq_iff {b b' : ActionBody F} {raw raw' : ByteArray}
    (hr : canonicalBytes b.toJson = .ok raw)
    (hr' : canonicalBytes b'.toJson = .ok raw') (hnc : NoCollision b.toJson b'.toJson) :
    HashFunction.digest raw = HashFunction.digest raw' ↔ b.toJson = b'.toJson := by
  constructor
  · intro h
    obtain rfl := hnc raw raw' hr hr' h
    exact canonicalBytes_inj b.toJson_sorted b'.toJson_sorted hr hr'
  · intro h
    rw [h, hr'] at hr
    rw [Except.ok.inj hr]

/-- A sealed action validates as itself, also when written and read back; keys are equal exactly
when the normalized bodies are; the order of the inputs does not matter; and what validates is
sealed. -/
theorem action_key_identifies_normalized_action :
    (∀ body a : Document F, sealAction body = .ok a → validateAction a = .ok a ∧
      ∃ raw, canonicalBytes a.1 = .ok raw ∧
        ∀ path, ∃ w : Document F, decodeStrictJson raw path = .ok w.1 ∧ validateAction w = .ok a) ∧
    (∀ (body body' a a' : Document F) (b b' : ActionBody F), sealAction body = .ok a →
      sealAction body' = .ok a' →
      normalizeActionBody body = .ok b → normalizeActionBody body' = .ok b' →
      NoCollision b.toJson b'.toJson →
        (actionKey a = actionKey a' ↔ b.toJson = b'.toJson)) ∧
    (∀ body body' a : Document F, Reordered body body' → sealAction body = .ok a →
      sealAction body' = .ok a) ∧
    (∀ v a : Document F, validateAction v = .ok a → a = v ∧
      ∃ fields, ∃ hs : Json.SortedFields fields, v.1 = .obj fields ∧
      sealAction (bodyOf fields hs) = .ok v) := by
  refine ⟨?_, ?_, ?_, fun v a => validateAction_ok⟩
  · intro body a h
    obtain ⟨b, raw, hb, hra, rfl⟩ := sealAction_ok h
    obtain ⟨sealed, hse⟩ := canonicalBytes_sealed hra (HashFunction.digest raw)
    refine ⟨validateAction_sealed hra, sealed, hse, fun path => ?_⟩
    exact ⟨b.sealed _, decodeStrictJson_canonicalBytes (b.sealed _).2 hse path,
      validateAction_sealed hra⟩
  · intro body body' a a' b b' h h' hb hb' hnc
    obtain ⟨c, raw, hc, hra, rfl⟩ := sealAction_ok h
    obtain ⟨c', raw', hc', hr', rfl⟩ := sealAction_ok h'
    obtain rfl : b = c := Except.ok.inj (hb.symm.trans hc)
    obtain rfl : b' = c' := Except.ok.inj (hb'.symm.trans hc')
    rw [actionKey_sealed, actionKey_sealed, Json.str.injEq, ← key_eq_iff hra hr' hnc]
    exact Subtype.ext_iff.symm
  · intro body body' a hr h
    obtain ⟨b, raw, hb, hra, rfl⟩ := sealAction_ok h
    exact sealAction_of (normalizeActionBody_reordered hr hb) hra

end

inductive ZeroOne
  | zero
  | one

instance : FloatFormat ZeroOne where
  finite _ := true
  value
    | .zero => 0
    | .one => 1
  ofInt n := if n = 0 then some .zero else if n = 1 then some .one else none
  total xs := if xs.all (fun x => match x with | .zero => true | .one => false) then .zero else .one
  repr
    | .zero => ['0', '.', '0']
    | .one => ['1', '.', '0']
  parse token := if token = ['0', '.', '0'] then .zero else .one
  parse_repr x _ := by cases x <;> rfl
  repr_token x _ := by
    cases x with
    | zero =>
      exact ⟨[], ['0'], ['.', '0'], [], rfl, .inl rfl, .inl rfl,
        .inr ⟨['0'], rfl, by simp [Digits]⟩, .inl rfl,
        .inl (by simp)⟩
    | one =>
      exact ⟨[], ['1'], ['.', '0'], [], rfl, .inl rfl, .inr ⟨'1', [], rfl, by simp, by simp⟩,
        .inr ⟨['0'], rfl, by simp [Digits]⟩, .inl rfl, .inl (by simp)⟩

def hexDigits (n : Nat) : Name := (List.range 64).map fun i =>
    Nat.digitChar (n / 16 ^ (63 - i) % 16)

theorem hexDigits_accepted (n : Nat) : sha256Text.problem (hexDigits n) = none := by
  have hch : ∀ k < 16, (Nat.digitChar k).toNat ≠ 0 ∧ 32 ≤ (Nat.digitChar k).toNat ∧
      ((Nat.digitChar k).isDigit || oneOf "abcdef" (Nat.digitChar k)) = true := by decide +kernel
  have hm : ∀ c ∈ hexDigits n, ∃ k < 16, c = Nat.digitChar k := by
    intro c hc
    obtain ⟨i, -, rfl⟩ := mem_map.mp hc
    exact ⟨_, Nat.mod_lt _ (by decide), rfl⟩
  have hl : (hexDigits n).length = 64 := by simp [hexDigits]
  have hne : hexDigits n ≠ [] := by
    intro h
    rw [h] at hl
    cases hl
  have h0 : ((hexDigits n).any fun c => c.toNat == 0) = false := by
    rw [any_eq_false]
    intro c hc
    obtain ⟨k, hk, rfl⟩ := hm c hc
    simpa using (hch k hk).1
  have h32 : ((hexDigits n).any fun c => decide (c.toNat < 32)) = false := by
    rw [any_eq_false]
    intro c hc
    obtain ⟨k, hk, rfl⟩ := hm c hc
    simpa using (hch k hk).2.1
  have hre : sha256Re (hexDigits n) = true := by
    rw [sha256Re, hl, Bool.and_eq_true, all_eq_true]
    refine ⟨rfl, fun c hc => ?_⟩
    obtain ⟨k, hk, rfl⟩ := hm c hc
    exact (hch k hk).2.2
  simp only [TextSpec.problem, hne, false_and, if_false, h0, h32, Bool.false_eq_true, and_false,
    sha256Text,
    Option.any_some, hre, Bool.not_true]

instance : HashFunction :=
  ⟨fun raw => ⟨hexDigits (raw.utf8Decode?.elim 0 Array.size), hexDigits_accepted _⟩⟩

theorem digest_encodeUtf8 (cs : Name) :
    HashFunction.digest (encodeUtf8 cs) = ⟨hexDigits cs.length, hexDigits_accepted cs.length⟩ := by
  simp [HashFunction.digest, utf8Decode_encodeUtf8]

def hexKey (n : Nat) : Text sha256Text := ⟨hexDigits n, hexDigits_accepted n⟩

def zeros : Text sha256Text := ⟨hexDigits 0, hexDigits_accepted 0⟩

theorem accepted_a : idText.problem "a" = none := by decide +kernel
theorem accepted_b : idText.problem "b" = none := by decide +kernel
theorem accepted_x : idText.problem "x" = none := by decide +kernel
theorem accepted_y : idText.problem "y" = none := by decide +kernel
theorem accepted_model : idText.problem "model" = none := by decide +kernel
theorem accepted_measured : plainText.problem "measured" = none := by decide +kernel

def demoFile : ClosureFile := ⟨⟨⟨"a.py", by decide +kernel⟩, by decide +kernel⟩, zeros, 1⟩
def demoTask : Task where
  definitionId := ⟨"demo", by decide +kernel⟩
  definitionVersion := ⟨"1", by decide +kernel⟩
  taskClass := .generation
  determinism := .deterministic
  artifactFamily := ⟨"demo", by decide +kernel⟩
  artifactKind := ⟨"demo", by decide +kernel⟩
  argv := ⟨[⟨"/bin/run", by decide +kernel⟩], by decide +kernel⟩
  workingDirectory := ⟨⟨".", by decide +kernel⟩, by decide +kernel⟩
  resultPath := ⟨⟨"out", by decide +kernel⟩, by decide +kernel⟩

theorem passed {check : Checked Unit} (h : check.isOk = true) : check = .ok () := by
  cases check with
  | ok a => rfl
  | error e => cases h

def demoClosure : CodeClosure ZeroOne where
  files := [demoFile]
  nonempty := by simp
  follows := by simp [Follows]
  digest := ⟨hexDigits (closureBody [demoFile] : Json ZeroOne).text.length, hexDigits_accepted _⟩
  bound := by
    rw [canonicalSha256, canonicalBytes_of (by decide +kernel)]
    simp only [bind, Except.bind, pure, Except.pure, digest_encodeUtf8]

theorem level_sorted : (Json.obj [("level", .float .one)] : Json ZeroOne).Sorted := by
  simp [Json.Sorted, Json.Ordered, Json.SortedFields]

theorem level_printable : (Json.obj [("level", .float .one)] : Json ZeroOne).printable = true := by
  decide +kernel

def demoParams : Params ZeroOne where
  fields := [("level", .float .one)]
  sorted := level_sorted
  printable := level_printable
  normal := by rfl

def demoInput (id : Text idText) : Input := ⟨id, zeros, 0⟩

def demoBody (params : Params ZeroOne) (inputs : Inputs)
    (hp : (checkProgressParams params.fields).isOk = true)
    (ho : (checkProducedOutput params.fields inputs).isOk = true) : ActionBody ZeroOne where
  task := demoTask
  inputs := inputs
  closure := demoClosure
  params := params
  environment := ⟨StringMap.empty envText, StringMap.empty plainText⟩
  scope := .portable
  measured := rfl
  progress := passed hp
  produced := passed ho
  bound := passed (by decide +kernel)

theorem noInputs_sorted : KeysSorted (([] : List Input).map fun r => r.id.1) := List.Pairwise.nil

theorem noFields_sorted : (Json.obj [] : Json ZeroOne).Sorted := by
  simp [Json.Sorted, Json.Ordered, Json.SortedFields]

theorem noFields_printable : (Json.obj [] : Json ZeroOne).printable = true := rfl

theorem noFields_normal : normalizeJsonValue paramsPath (.obj [] : Json ZeroOne) = .ok (.obj []) :=
    rfl

def noParams : Params ZeroOne := ⟨[], noFields_sorted, noFields_printable, noFields_normal⟩

theorem noParams_progress : (checkProgressParams noParams.fields).isOk = true := by decide +kernel

theorem noParams_produced : (checkProducedOutput noParams.fields ⟨[], noInputs_sorted⟩).isOk =
    true := by decide +kernel

def plain : ActionBody ZeroOne := demoBody noParams ⟨[], noInputs_sorted⟩ noParams_progress
    noParams_produced

def leveled : ActionBody ZeroOne :=
  demoBody demoParams ⟨[demoInput ⟨"a", accepted_a⟩,
    demoInput ⟨"b", accepted_b⟩], by decide +kernel⟩
    (by decide +kernel) (by decide +kernel)

theorem plain_bytes : canonicalBytes plain.toJson = .ok (encodeUtf8 plain.toJson.text) :=
  canonicalBytes_of (by decide +kernel)

theorem leveled_bytes : canonicalBytes leveled.toJson = .ok (encodeUtf8 leveled.toJson.text) :=
  canonicalBytes_of (by decide +kernel)

theorem plain_digest_ne : HashFunction.digest (encodeUtf8 plain.toJson.text) ≠
    HashFunction.digest (encodeUtf8 leveled.toJson.text) := by
  rw [digest_encodeUtf8, digest_encodeUtf8]
  decide +kernel

theorem plain_leveled_noCollision : NoCollision plain.toJson leveled.toJson := by
  intro raw raw' hr hr' h
  have he := Except.ok.inj (plain_bytes.symm.trans hr)
  have he' := Except.ok.inj (leveled_bytes.symm.trans hr')
  rw [← he, ← he'] at h
  exact absurd h plain_digest_ne

def leveledReversed : Document ZeroOne :=
  ⟨.obj (leveled.listing leveled.inputs.rows.reverse), leveled.listing_sorted _⟩

theorem leveled_reordered : Reordered leveled.document leveledReversed :=
  ⟨leveled.fields, _, leveled.inputs.rows.reverse.map fun r => r.toJson, rfl,
    entry_listing_inputs leveled _,
    (reverse_perm _).symm.map _, congrArg Json.obj
    (withInputs_listing leveled leveled.inputs.rows _).symm⟩

theorem plain_and_leveled_sealed : ∃ a a' : Document ZeroOne,
    sealAction plain.document = .ok a ∧ sealAction leveledReversed = .ok a' ∧
    validateAction a = .ok a ∧
      ¬ actionKey a = actionKey a' ∧ sealAction leveled.document = .ok a' := by
  have hp := sealAction_of (normalizeActionBody_document plain) plain_bytes
  have hl := sealAction_of (normalizeActionBody_document leveled) leveled_bytes
  obtain ⟨hv, hk, ho, -⟩ := action_key_identifies_normalized_action (F := ZeroOne)
  refine ⟨_, _, hp, ho _ _ _ leveled_reordered hl, (hv _ _ hp).1, fun h => ?_, hl⟩
  have heq := (hk _ _ _ _ _ _ hp hl (normalizeActionBody_document plain)
    (normalizeActionBody_document leveled)
    plain_leveled_noCollision).mp h
  exact plain_digest_ne (by rw [heq])

end PrismaBuild.Action
