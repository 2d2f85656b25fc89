import PrismaBuild.JsonRoundTrip
import PrismaBuild.JsonSorted

namespace PrismaBuild.Contract

open List

inductive Problem
  | text (message : String)
  | fieldsDiffer (missing extra : List Name)
  | duplicateKey (key : Name)
  | nonFinite (word : Name)

/-- An `ActionContractError`: the field it is about and what is wrong with it. -/
structure Error where
  path : Name
  problem : Problem

abbrev Checked (α : Type) := Except Error α

def fail {α : Type} (path : Name) (message : String) : Checked α := .error ⟨path, .text message⟩

def item (path : Name) (index : Nat) : Name := path ++ '[' :: (Nat.toDigits 10 index ++ [']'])

def field (path key : Name) : Name := path ++ '.' :: key

/-- A value with nothing wrong with it, or the first thing that is wrong. -/
def refine {α : Type} (problem : α → Option String) (path : Name) (a : α) :
    Checked { a : α // problem a = none } :=
  match h : problem a with
  | none => .ok ⟨a, h⟩
  | some message => fail path message

variable {α : Type} {key path : Name}

theorem refine_val {problem : α → Option String} (path : Name) (a : { a : α // problem a = none }) :
    refine problem path a.1 = .ok a := by
  obtain ⟨a, ha⟩ := a
  unfold refine
  split
  next => rfl
  next h =>
    rw [ha] at h
    cases h

theorem refine_ok {problem : α → Option String} {a : α}
    {b : { a : α // problem a = none }} (h : refine problem path a = .ok b) : a = b.1 := by
  unfold refine at h
  split at h
  · cases h; rfl
  · cases h

structure TextSpec where
  pattern : Option (Name → Bool) := none
  allowEmpty : Bool := false
  allowControl : Bool := false

def TextSpec.mustBe (spec : TextSpec) : String :=
  if spec.allowEmpty then "must be a string" else "must be a non-empty string"

def TextSpec.problem (spec : TextSpec) (s : Name) : Option String :=
  if s = [] ∧ spec.allowEmpty = false then some spec.mustBe
  else if (s.any fun c => c.toNat == 0) then some "contains a NUL character"
  else if spec.allowControl = false ∧ (s.any fun c => decide (c.toNat < 32)) then
    some "contains a NUL or control character"
  else if (spec.pattern.any fun accepts => !accepts s) then some "has an invalid value"
  else none

abbrev Text (spec : TextSpec) := { s : Name // spec.problem s = none }

variable {F : Type}

def text (spec : TextSpec) (path : Name) : Json F → Checked (Text spec)
  | .str s => refine spec.problem path s
  | _ => fail path spec.mustBe

variable {spec : TextSpec}

theorem text_str (path : Name) (s : Text spec) : text spec path (.str s.1 : Json F) = .ok s :=
  refine_val path s

variable {j : Json F}

theorem text_ok {s : Text spec} (h : text spec path j = .ok s) : j = .str s.1 := by
  cases j with
  | str t => rw [refine_ok h]
  | null => cases h
  | bool b => cases h
  | int n => cases h
  | float x => cases h
  | arr items => cases h
  | obj fields => cases h

def tokenRe (first rest : Char → Bool) (limit : Option Nat) : Name → Bool
  | [] => false
  | c :: cs => first c && cs.all rest && limit.all fun n => decide (cs.length ≤ n)

def oneOf (chars : String) (c : Char) : Bool := chars.toList.contains c

def idRe : Name → Bool :=
  tokenRe (fun c => c.isLower || c.isDigit) (fun c => c.isLower || c.isDigit || oneOf "._/-" c)
    (some 255)

def versionRe : Name → Bool :=
  tokenRe Char.isAlphanum (fun c => c.isAlphanum || oneOf "._+:-" c) (some 127)

def scopeTokenRe : Name → Bool :=
  tokenRe Char.isAlphanum (fun c => c.isAlphanum || oneOf "._+:/-" c) (some 255)

def envRe : Name → Bool :=
  tokenRe (fun c => c.isAlpha || c == '_') (fun c => c.isAlphanum || c == '_') none

def sha256Re (s : Name) : Bool :=
  s.length == 64 && s.all fun c => c.isDigit || oneOf "abcdef" c

def plainText : TextSpec := {}
def payloadText : TextSpec := { allowEmpty := true, allowControl := true }
def keyText : TextSpec := { allowEmpty := true }
def idText : TextSpec := { pattern := some idRe }
def versionText : TextSpec := { pattern := some versionRe }
def scopeText : TextSpec := { pattern := some scopeTokenRe }
def envText : TextSpec := { pattern := some envRe }
def sha256Text : TextSpec := { pattern := some sha256Re }

instance : LawfulBEq (Text sha256Text) := inferInstance

def sha256 (path : Name) (j : Json F) : Checked (Text sha256Text) := text sha256Text path j

def nonnegativeInteger (path : Name) : Json F → Checked Nat
  | .int n => if 0 ≤ n then .ok n.toNat else fail path "must be a non-negative integer"
  | _ => fail path "must be a non-negative integer"

theorem nonnegativeInteger_int (path : Name) (n : Nat) :
    nonnegativeInteger path (.int n : Json F) = .ok n := by
  simp [nonnegativeInteger]

theorem nonnegativeInteger_ok {n : Nat} (h : nonnegativeInteger path j = .ok n) : j = .int n := by
  cases j with
  | int m =>
    obtain ⟨hm, h⟩ := ite_ok.mp h
    cases h
    rw [Int.toNat_of_nonneg hm]
  | null => cases h
  | bool b => cases h
  | str s => cases h
  | float x => cases h
  | arr items => cases h
  | obj fields => cases h

/-- `_exact_mapping`: an object with exactly these keys. -/
def exactMapping (keys : List Name) (path : Name) : Json F → Checked (List (Name × Json F))
  | .obj fields =>
    let missing := keys.filter fun k => !(fields.map Prod.fst).contains k
    let extra := (fields.map Prod.fst).filter fun k => !keys.contains k
    if missing = [] ∧ extra = [] then .ok fields else .error ⟨path, .fieldsDiffer missing extra⟩
  | _ => fail path "must be an object"

def entry (fields : List (Name × Json F)) (key : Name) : Json F := (Json.get? fields key).getD .null

def KeysSorted (keys : List Name) : Prop := keys.Pairwise fun a b => Json.before a b = true

instance (keys : List Name) : Decidable (KeysSorted keys) := by
  unfold KeysSorted
  infer_instance

variable {fields : List (Name × Json F)}

theorem ordered_iff : Json.Ordered fields ↔ KeysSorted (fields.map Prod.fst) := by
  rw [KeysSorted, pairwise_map]
  rfl

variable {keys : List Name}

theorem obj_sorted (hk : KeysSorted keys)
    (h : fields.map Prod.fst = keys) (hv : ∀ p ∈ fields, p.2.Sorted) : (Json.obj fields).Sorted :=
  ⟨ordered_iff.mpr (h ▸ hk), Json.sortedFields_iff.mpr hv⟩

theorem keysSorted_nodup (h : KeysSorted keys) : keys.Nodup := by
  refine h.imp ?_
  rintro a b hab rfl
  rw [Json.before_iff, nameLe_refl] at hab
  cases hab

theorem le_of_before {a b : Name} (hab : Json.before a b = true) : nameLe a b = true := by
  rcases nameLe_total a b with h | h
  · exact h
  · rw [Json.before_iff, h] at hab
    cases hab

theorem keys_eq_of_sorted {other : List Name} (hk : KeysSorted keys) (ho : KeysSorted other)
    (hm : ∀ k, k ∈ keys ↔ k ∈ other) : keys = other := by
  refine List.Perm.eq_of_pairwise
    (fun a b _ _ => nameLe_antisymm) (hk.imp le_of_before) (ho.imp le_of_before) ?_
  exact (perm_ext_iff_of_nodup (keysSorted_nodup hk) (keysSorted_nodup ho)).mpr hm

theorem exactMapping_ok (hk : KeysSorted keys)
    (hj : j.Sorted) (h : exactMapping keys path j = .ok fields) :
    j = .obj fields ∧ fields.map Prod.fst = keys := by
  cases j with
  | obj fs =>
    obtain ⟨hn, h⟩ := ite_ok.mp h
    cases h
    refine ⟨rfl, keys_eq_of_sorted (ordered_iff.mp hj.1) hk fun k => ?_⟩
    obtain ⟨hm, he⟩ := hn
    rw [filter_eq_nil_iff] at hm he
    constructor
    · intro hme
      simpa using he k hme
    · intro hme
      simpa using hm k hme
  | null => cases h
  | bool b => cases h
  | int n => cases h
  | str s => cases h
  | float x => cases h
  | arr items => cases h

theorem exactMapping_obj (path : Name) (h : fields.map Prod.fst = keys) :
    exactMapping keys path (.obj fields) = .ok fields := by
  have hm : (keys.filter fun k => !(fields.map Prod.fst).contains k) = [] := by
    rw [h]
    simp
  have he : ((fields.map Prod.fst).filter fun k => !keys.contains k) = [] := by
    rw [h]
    simp
  simp only [exactMapping, hm, he, and_self, if_true]

variable {v : Json F}

theorem entry_of_mem (hs : KeysSorted (fields.map Prod.fst)) (h : (key, v) ∈ fields) :
    entry fields key = v := by
  have hn := keysSorted_nodup hs
  induction fields with
  | nil => cases h
  | cons p rest ih =>
    rw [map_cons, nodup_cons] at hn
    unfold entry Json.get?
    rcases mem_cons.mp h with rfl | h
    · simp
    · have hne : p.1 ≠ key := by
        rintro rfl
        exact hn.1 (mem_map.mpr ⟨_, h, rfl⟩)
      rw [find?_cons_of_neg (by simpa using hne)]
      exact ih hs.tail h hn.2

theorem entry_at (hk : KeysSorted keys)
    (h : fields.map Prod.fst = keys) {i : Nat} (hi : fields[i]? = some (key, v)) :
    entry fields key = v :=
  entry_of_mem (h ▸ hk) (mem_of_getElem? hi)

theorem fields_eq_entries (hk : KeysSorted keys) (h : fields.map Prod.fst = keys) :
    fields = keys.map fun k => (k, entry fields k) := by
  subst h
  rw [map_map]
  conv_lhs => rw [← map_id fields]
  refine map_congr_left fun p hp => ?_
  exact Prod.ext rfl (entry_of_mem hk hp).symm

theorem pyEq_str [FloatFormat F] {s : Name} : v.pyEq (.str s) = true ↔ v = .str s := by
  cases v <;> simp [Json.pyEq, Json.number]

theorem pyEq_str_self [FloatFormat F] (s : Name) :
    ((.str s : Json F).pyEq (.str s) = false) = False :=
  eq_false (by rw [pyEq_str.mpr rfl]; exact Bool.noConfusion)

/-- JSON data as the program holds it: every object a finite map. -/
abbrev Document (F : Type) := { v : Json F // v.Sorted }

/-- `_exact_mapping` of a document. -/
def mapping (keys : List Name) (path : Name) (d : Document F) :
    Checked { fields : List (Name × Json F) // Json.SortedFields fields } :=
  match d with
  | ⟨.obj fields, h⟩ => do
    let _ ← exactMapping keys path (.obj fields)
    pure ⟨fields, h.2⟩
  | _ => fail path "must be an object"

theorem mapping_ok (hk : KeysSorted keys) {d : Document F}
    {fields : { fields : List (Name × Json F) // Json.SortedFields fields }}
    (h : mapping keys path d = .ok fields) : d.1 = .obj fields.1 ∧
      fields.1.map Prod.fst = keys := by
  obtain ⟨v, hv⟩ := d
  cases v with
  | obj fs =>
    obtain ⟨fs', hfs, he⟩ := bind_ok.mp h
    cases he
    have hm := exactMapping_ok hk hv hfs
    exact ⟨rfl, by rw [← hm.2, ← Json.obj.inj hm.1]⟩
  | null => cases h
  | bool b => cases h
  | int n => cases h
  | str s => cases h
  | float x => cases h
  | arr items => cases h

theorem mapping_obj (path : Name) (h : (Json.obj fields).Sorted) (hk : fields.map Prod.fst = keys) :
    mapping keys path ⟨.obj fields, h⟩ = .ok ⟨fields, h.2⟩ := by
  simp only [mapping, exactMapping_obj path hk]
  rfl

theorem entry_sorted (h : Json.SortedFields fields) (key : Name) : (entry fields key).Sorted := by
  unfold entry Json.get?
  cases hf : fields.find? fun p => p.1 == key with
  | none => trivial
  | some p => exact Json.sortedFields_iff.mp h p (mem_of_find?_eq_some hf)

def ensure : (check : Checked Unit) → Checked (PLift (check = .ok ()))
  | .ok () => .ok ⟨rfl⟩
  | .error e => .error e

theorem ensure_of {check : Checked Unit} (h : check = .ok ()) : ensure check = .ok ⟨h⟩ := by
  subst h
  rfl

def setEntry {α : Type} (key : Name) (a : α) : List (Name × α) → List (Name × α)
  | [] => [(key, a)]
  | (k, b) :: rest =>
    if k = key then (key, a) :: rest
    else if nameLe key k then (key, a) :: (k, b) :: rest
    else (k, b) :: setEntry key a rest

theorem mem_setEntry {a : α} {entries : List (Name × α)} {k : Name}
    (h : k ∈ (setEntry key a entries).map Prod.fst) : k = key ∨ k ∈ entries.map Prod.fst := by
  induction entries with
  | nil => exact .inl (by simpa [setEntry] using h)
  | cons p rest ih =>
    unfold setEntry at h
    split at h
    · simp only [map_cons, mem_cons] at h ⊢; tauto
    · split at h
      · simpa using h
      · rcases mem_cons.mp h with h | h
        · exact .inr (by simp [h])
        · rcases ih h with h | h
          · exact .inl h
          · exact .inr (mem_cons_of_mem _ h)

theorem setEntry_sorted {a : α} {entries : List (Name × α)}
    (h : KeysSorted (entries.map Prod.fst)) :
    KeysSorted ((setEntry key a entries).map Prod.fst) := by
  induction entries with
  | nil => exact pairwise_singleton _ _
  | cons p rest ih =>
    obtain ⟨hp, hr⟩ := pairwise_cons.mp h
    unfold setEntry
    split
    next he =>
      exact pairwise_cons.mpr ⟨fun k hk => he ▸ hp k hk, hr⟩
    next hne =>
      split
      next hle =>
        have hke := Json.before_of_le_ne hle (Ne.symm hne)
        refine pairwise_cons.mpr ⟨fun k hk => ?_, h⟩
        rcases mem_cons.mp hk with rfl | hk
        · exact hke
        · exact Json.before_trans hke (hp k hk)
      next hle =>
        refine pairwise_cons.mpr ⟨fun k hk => ?_, ih hr⟩
        rcases mem_setEntry hk with rfl | hk
        · exact Json.before_iff.mpr (Bool.eq_false_iff.mpr hle)
        · exact hp k hk

theorem setEntry_last {a : α} {entries : List (Name × α)}
    (h : ∀ k ∈ entries.map Prod.fst, Json.before k key = true) :
    setEntry key a entries = entries ++ [(key, a)] := by
  induction entries with
  | nil => rfl
  | cons p rest ih =>
    have hp := Json.before_iff.mp (h p.1 (by simp))
    have hne : p.1 ≠ key := by
      intro he
      rw [he, nameLe_refl] at hp
      cases hp
    simp [setEntry, hne, hp, ih fun k hk => h k (mem_cons_of_mem _ hk)]

section

def encodeUtf8 (cs : Name) : ByteArray := (String.ofList cs).toUTF8

theorem utf8Decode_encodeUtf8 (cs : Name) : (encodeUtf8 cs).utf8Decode? = some cs.toArray := by
  simp [encodeUtf8, String.toUTF8]

variable [FloatFormat F]

def canonicalBytes (v : Json F) : Checked ByteArray :=
  if v.printable then .ok (encodeUtf8 v.text) else fail [] "value is not finite canonical JSON data"

def canonicalFileBytes (v : Json F) : Checked ByteArray :=
  if v.printable then .ok (encodeUtf8 (v.text ++ ['\n'])) else
    fail [] "value is not finite canonical JSON data"

def decodeStrictJson (raw : ByteArray) (path : Name) : Checked (Json F) :=
  match raw.utf8Decode? with
  | none => fail path "is not strict UTF-8 JSON"
  | some cs =>
    match Json.scan cs.toList with
    | .ok v => .ok v
    | .error .malformed => fail path "is not strict UTF-8 JSON"
    | .error (.duplicateKey key) => .error ⟨path, .duplicateKey key⟩
    | .error (.nonFinite word) => .error ⟨path, .nonFinite word⟩

variable {v : Json F} {raw : ByteArray}

theorem decodeStrictJson_encodeUtf8 {cs : Name} (h : Json.scan cs = .ok v) (path : Name) :
    decodeStrictJson (encodeUtf8 cs) path = .ok v := by
  simp [decodeStrictJson, utf8Decode_encodeUtf8, h]

theorem decodeStrictJson_sorted {path : Name} (h : decodeStrictJson raw path = .ok v) :
    v.Sorted := by
  unfold decodeStrictJson at h
  split at h
  · cases h
  · split at h
    next hv => cases h; exact Json.scan_sorted hv
    next => cases h
    next => cases h
    next => cases h

theorem canonicalBytes_of (h : v.printable = true) : canonicalBytes v = .ok (encodeUtf8 v.text) :=
  if_pos h

theorem canonicalBytes_ok (h : canonicalBytes v = .ok raw) : v.printable = true ∧
    raw = encodeUtf8 v.text := by
  unfold canonicalBytes at h
  obtain ⟨hv, h⟩ := ite_ok.mp h
  cases h; exact ⟨hv, rfl⟩

theorem decodeStrictJson_canonicalBytes (hs : v.Sorted)
    (h : canonicalBytes v = .ok raw) (path : Name) : decodeStrictJson raw path = .ok v := by
  obtain ⟨hv, rfl⟩ := canonicalBytes_ok h
  have hsc := Json.scan_text hs hv (.inl rfl)
  rw [append_nil] at hsc
  exact decodeStrictJson_encodeUtf8 hsc path

theorem canonicalBytes_inj {v w : Json F} (hv : v.Sorted) (hw : w.Sorted)
    (h : canonicalBytes v = .ok raw) (h' : canonicalBytes w = .ok raw) : v = w := by
  have hdv := decodeStrictJson_canonicalBytes hv h []
  rw [decodeStrictJson_canonicalBytes hw h' []] at hdv
  exact (Except.ok.inj hdv).symm

/-- Canonical bytes are a normal form: a document that has them reads back from its own, so does
whatever was read before in any spelling, and no two documents share them. -/
theorem canonicalBytes_normal (path : Name) :
    (∀ d : Document F, (canonicalBytes d.1 >>= (decodeStrictJson · path)) = (canonicalBytes d.1).map
    fun _ => d.1) ∧
    (∀ raw raw' (v : Json F), decodeStrictJson raw path = .ok v → canonicalBytes v = .ok raw' →
      decodeStrictJson raw' path = .ok v) ∧
    ∀ (d e : Document F) raw, canonicalBytes d.1 = .ok raw → canonicalBytes e.1 = .ok raw →
      d = e := by
  refine ⟨fun d => ?_, fun raw raw' v hv hr => ?_, fun d e raw hd he => ?_⟩
  · cases hd : canonicalBytes d.1 with
    | error e => rfl
    | ok raw => exact decodeStrictJson_canonicalBytes d.2 hd path
  · exact decodeStrictJson_canonicalBytes (decodeStrictJson_sorted hv) hr path
  · exact Subtype.ext (canonicalBytes_inj d.2 e.2 hd he)

end

/-- SHA-256 as far as records depend on it: a function of the bytes with a well-formed text. -/
class HashFunction where
  digest : ByteArray → Text sha256Text

variable [FloatFormat F] [HashFunction]

def canonicalSha256 (v : Json F) : Checked (Text sha256Text) := do
  let raw ← canonicalBytes v
  pure (HashFunction.digest raw)

end PrismaBuild.Contract
