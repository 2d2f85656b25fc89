import PrismaBuild.NameOrder

namespace PrismaBuild

theorem bind_ok {ε α β : Type} {x : Except ε α} {f : α → Except ε β} {b : β} :
    (x >>= f) = .ok b ↔ ∃ a, x = .ok a ∧ f a = .ok b := by
  cases x with
  | error e => simp [bind, Except.bind]
  | ok a => simp [bind, Except.bind]

section

variable {ε α : Type} {c : Prop} [Decidable c] {e : ε} {x : Except ε α} {a : α}

theorem guard_ok : (if c then .error e else x) = .ok a ↔ ¬ c ∧ x = .ok a := by
  by_cases h : c <;> simp [h]

theorem ite_ok : (if c then x else .error e) = .ok a ↔ c ∧ x = .ok a := by
  by_cases h : c <;> simp [h]

end

theorem except_mapError_ok {ε ε' α : Type} {f : ε → ε'} {x : Except ε α} {a : α}
    (h : x.mapError f = .ok a) : x = .ok a := by
  cases x with
  | error e => cases h
  | ok b => cases h; rfl

def IntDigits (digits : Name) : Prop :=
  digits = ['0'] ∨ ∃ d ds, digits = d :: ds ∧ d ≠ '0' ∧ ∀ c ∈ d :: ds, c.isDigit = true

def Digits (digits : Name) : Prop :=
  digits ≠ [] ∧ ∀ c ∈ digits, c.isDigit = true

structure FloatToken (token : Name) : Prop where
  parts : ∃ sign digits frac exp, token = sign ++ (digits ++ (frac ++ exp)) ∧
    (sign = [] ∨ sign = ['-']) ∧ IntDigits digits ∧
    (frac = [] ∨ ∃ ds, frac = '.' :: ds ∧ Digits ds) ∧
    (exp = [] ∨ ∃ esign ds, exp = 'e' :: (esign ++ ds) ∧
    (esign = [] ∨ esign = ['+'] ∨ esign = ['-']) ∧
      Digits ds) ∧
    (frac ≠ [] ∨ exp ≠ [])

/-- Floating-point numbers as far as documents need them: which are finite, how numbers compare,
the conversion of an integer unless it overflows, sums, and the text of a finite one, which reads
back as the same number. -/
class FloatFormat (F : Type) where
  finite : F → Bool
  value : F → ℚ
  ofInt : Int → Option F
  total : List F → F
  repr : F → Name
  parse : Name → F
  parse_repr : ∀ x, finite x = true → parse (repr x) = x
  repr_token : ∀ x, finite x = true → FloatToken (repr x)

/-- JSON data. An object is the finite map of its fields, listed in key order. -/
inductive Json (F : Type)
  | null
  | bool (b : Bool)
  | int (n : Int)
  | float (x : F)
  | str (s : Name)
  | arr (items : List (Json F))
  | obj (fields : List (Name × Json F))

namespace Json

variable {F : Type}

@[elab_as_elim]
theorem induct {P : Json F → Prop} (null : P null) (bool : ∀ b, P (bool b)) (int : ∀ n, P (int n))
    (float : ∀ x, P (float x)) (str : ∀ s, P (str s))
    (arr : ∀ items, (∀ v ∈ items, P v) → P (arr items))
    (obj : ∀ fields, (∀ p ∈ fields, P p.2) → P (obj fields)) (v : Json F) : P v := by
  refine @Json.rec F P (fun items => ∀ v ∈ items, P v) (fun fields => ∀ p ∈ fields, P p.2)
    (fun p => P p.2) null bool int float str arr obj (by simp) ?_ (by simp) ?_ (fun _ _ hv => hv) v
  · intro w rest hw hr
    exact List.forall_mem_cons.mpr ⟨hw, hr⟩
  · intro p rest hp hr
    exact List.forall_mem_cons.mpr ⟨hp, hr⟩

def before (a b : Name) : Bool := !nameLe b a

def Ordered (fields : List (Name × Json F)) : Prop :=
  fields.Pairwise fun p q => before p.1 q.1 = true

mutual

/-- Every object in the value lists its fields in key order, each key once. -/
def Sorted : Json F → Prop
  | arr items => SortedItems items
  | obj fields => Ordered fields ∧ SortedFields fields
  | _ => True

def SortedItems : List (Json F) → Prop
  | [] => True
  | v :: rest => Sorted v ∧ SortedItems rest

def SortedFields : List (Name × Json F) → Prop
  | [] => True
  | (_, v) :: rest => Sorted v ∧ SortedFields rest

end

theorem sortedItems_iff {items : List (Json F)} : SortedItems items ↔ ∀ v ∈ items, Sorted v := by
  induction items with
  | nil => simp [SortedItems]
  | cons v rest ih => simp [SortedItems, ih]

theorem sortedFields_iff {fields : List (Name × Json F)} : SortedFields fields ↔
    ∀ p ∈ fields, Sorted p.2 := by
  induction fields with
  | nil => simp [SortedFields]
  | cons p rest ih => simp [SortedFields, ih]

def get? (fields : List (Name × Json F)) (key : Name) : Option (Json F) :=
  (fields.find? fun p => p.1 == key).map Prod.snd

def insertField (key : Name) (v : Json F) : List (Name × Json F) → List (Name × Json F)
  | [] => [(key, v)]
  | (k, w) :: rest =>
    if nameLe key k then (key, v) :: (k, w) :: rest else (k, w) :: insertField key v rest

theorem before_iff {a b : Name} : before a b = true ↔ nameLe b a = false := by
  simp [before]

theorem insertField_last {key : Name} {v : Json F} {acc : List (Name × Json F)}
    (h : ∀ p ∈ acc, before p.1 key = true) : insertField key v acc = acc ++ [(key, v)] := by
  induction acc with
  | nil => rfl
  | cons p acc ih =>
    have hp := before_iff.mp (h p (by simp))
    simp [insertField, hp, ih fun q hq => h q (by simp [hq])]

section

/-- The escapes of a JSON text that keeps every other character as it is. -/
def escapeChar (c : Char) : Name :=
  if c = '"' then ['\\', '"']
  else if c = '\\' then ['\\', '\\']
  else if c = '\n' then ['\\', 'n']
  else if c = '\r' then ['\\', 'r']
  else if c = '\t' then ['\\', 't']
  else if c = Char.ofNat 8 then ['\\', 'b']
  else if c = Char.ofNat 12 then ['\\', 'f']
  else if c.toNat < 32 then
    ['\\', 'u', '0', '0', Nat.digitChar (c.toNat / 16), Nat.digitChar (c.toNat % 16)]
  else [c]

def escaped (s : Name) : Name := s.flatMap escapeChar

def quoted (s : Name) : Name := '"' :: (escaped s ++ ['"'])

def intText (n : Int) : Name :=
  if n < 0 then '-' :: Nat.toDigits 10 n.natAbs else Nat.toDigits 10 n.natAbs

variable [FloatFormat F]

mutual

def text : Json F → Name
  | null => "null".toList
  | bool true => "true".toList
  | bool false => "false".toList
  | int n => intText n
  | float x => FloatFormat.repr x
  | str s => quoted s
  | arr items => '[' :: (itemsText items ++ [']'])
  | obj fields => '{' :: (fieldsText fields ++ ['}'])

def itemsText : List (Json F) → Name
  | [] => []
  | [v] => text v
  | v :: w :: rest => text v ++ ',' :: itemsText (w :: rest)

def fieldsText : List (Name × Json F) → Name
  | [] => []
  | [(k, v)] => quoted k ++ ':' :: text v
  | (k, v) :: q :: rest => quoted k ++ ':' :: (text v ++ ',' :: fieldsText (q :: rest))

end

def maxDigits : Nat := 4300

mutual

/-- Every number in the value has a text: finite, and within the digit limit. -/
def printable : Json F → Bool
  | int n => (Nat.toDigits 10 n.natAbs).length ≤ maxDigits
  | float x => FloatFormat.finite x
  | arr items => printableItems items
  | obj fields => printableFields fields
  | _ => true

def printableItems : List (Json F) → Bool
  | [] => true
  | v :: rest => printable v && printableItems rest

def printableFields : List (Name × Json F) → Bool
  | [] => true
  | (_, v) :: rest => printable v && printableFields rest

end

theorem printableItems_iff {items : List (Json F)} : printableItems items = true ↔
    ∀ v ∈ items, printable v = true := by
  induction items with
  | nil => simp [printableItems]
  | cons v rest ih => simp [printableItems, ih]

theorem printableFields_iff {fields : List (Name × Json F)} : printableFields fields = true ↔
    ∀ p ∈ fields, printable p.2 = true := by
  induction fields with
  | nil => simp [printableFields]
  | cons p rest ih => simp [printableFields, ih]

def number : Json F → Option ℚ
  | bool b => some (if b then 1 else 0)
  | int n => some n
  | float x => if FloatFormat.finite x then some (FloatFormat.value x) else none
  | _ => none

mutual

/-- The language's own equality: numbers compare by value, whatever their kind. -/
def pyEq : Json F → Json F → Bool
  | null, null => true
  | str a, str b => a == b
  | arr a, arr b => pyEqItems a b
  | obj a, obj b => pyEqFields a b
  | a, b =>
    match a.number, b.number with
    | some x, some y => x == y
    | _, _ => false

def pyEqItems : List (Json F) → List (Json F) → Bool
  | [], [] => true
  | a :: as, b :: bs => pyEq a b && pyEqItems as bs
  | _, _ => false

def pyEqFields : List (Name × Json F) → List (Name × Json F) → Bool
  | [], [] => true
  | (k, a) :: as, (l, b) :: bs => k == l && pyEq a b && pyEqFields as bs
  | _, _ => false

end

theorem pyEq_refl {v : Json F} (hv : printable v = true) : pyEq v v = true := by
  induction v using Json.induct with
  | null => rfl
  | bool b => simp [pyEq, number]
  | int n => simp [pyEq, number]
  | float x =>
    have hx : FloatFormat.finite x = true := hv
    simp [pyEq, number, hx]
  | str s => simp [pyEq]
  | arr items ih =>
    have hp := printableItems_iff.mp hv
    change pyEqItems items items = true
    clear hv
    induction items with
    | nil => rfl
    | cons v rest ihr =>
      simp only [pyEqItems, Bool.and_eq_true]
      exact ⟨ih v (by simp) (hp v (by simp)),
        ihr (fun w hw => ih w (by simp [hw])) fun w hw => hp w (by simp [hw])⟩
  | obj fields ih =>
    have hp := printableFields_iff.mp hv
    change pyEqFields fields fields = true
    clear hv
    induction fields with
    | nil => rfl
    | cons p rest ihr =>
      simp only [pyEqFields, Bool.and_eq_true, beq_self_eq_true, true_and]
      exact ⟨ih p (by simp) (hp p (by simp)),
        ihr (fun q hq => ih q (by simp [hq])) fun q hq => hp q (by simp [hq])⟩

end

end Json

end PrismaBuild
