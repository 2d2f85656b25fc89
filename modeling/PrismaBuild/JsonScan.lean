import PrismaBuild.Json

namespace PrismaBuild.Json

inductive ScanError
  | malformed
  | duplicateKey (key : Name)
  | nonFinite (word : Name)

variable {F : Type}

def isSpace (c : Char) : Bool := c == ' ' || c == '\t' || c == '\n' || c == '\r'

def skipSpace (cs : Name) : Name := cs.dropWhile isSpace

def hexValue (c : Char) : Option Nat :=
  if c.isDigit then some (c.toNat - 48)
  else if 97 ≤ c.toNat ∧ c.toNat ≤ 102 then some (c.toNat - 87)
  else if 65 ≤ c.toNat ∧ c.toNat ≤ 70 then some (c.toNat - 55)
  else none

def hexUnit (a b c d : Char) : Option Nat := do
  let a ← hexValue a
  let b ← hexValue b
  let c ← hexValue c
  let d ← hexValue d
  pure (((a * 16 + b) * 16 + c) * 16 + d)

def unescape (c : Char) : Option Nat :=
  if c = '"' then some 34
  else if c = '\\' then some 92
  else if c = '/' then some 47
  else if c = 'b' then some 8
  else if c = 'f' then some 12
  else if c = 'n' then some 10
  else if c = 'r' then some 13
  else if c = 't' then some 9
  else none

/-- The units of a string up to its closing quote. An escaped unit may be half of a pair. -/
def scanUnits : Name → Option (List Nat × Name)
  | [] => none
  | c :: rest =>
    if c = '"' then some ([], rest)
    else if c = '\\' then
      match rest with
      | [] => none
      | e :: rest =>
        if e = 'u' then
          match rest with
          | a :: b :: x :: y :: rest =>
            match hexUnit a b x y with
            | some n => (scanUnits rest).map fun r => (n :: r.1, r.2)
            | none => none
          | _ => none
        else
          match unescape e with
          | some n => (scanUnits rest).map fun r => (n :: r.1, r.2)
          | none => none
    else if c.toNat < 32 then none
    else (scanUnits rest).map fun r => (c.toNat :: r.1, r.2)

def highHalf (u : Nat) : Bool := 0xD800 ≤ u && u < 0xDC00
def lowHalf (u : Nat) : Bool := 0xDC00 ≤ u && u < 0xE000

/-- The text of a sequence of units: adjacent halves are one character. A half alone is refused: a
text that keeps one has no canonical bytes. -/
def joinUnits : List Nat → Option Name
  | [] => some []
  | u :: rest =>
    if highHalf u then
      match rest with
      | l :: rest =>
        if lowHalf l then
          (joinUnits rest).map (Char.ofNat (0x10000 + (u - 0xD800) * 0x400 + (l - 0xDC00)) :: ·)
        else none
      | [] => none
    else if lowHalf u then none
    else (joinUnits rest).map (Char.ofNat u :: ·)

def scanString (cs : Name) : Option (Name × Name) := do
  let (units, rest) ← scanUnits cs
  let s ← joinUnits units
  pure (s, rest)

def scanInt : Name → Option (Name × Name)
  | '0' :: rest => some (['0'], rest)
  | cs =>
    match cs.takeWhile Char.isDigit with
    | [] => none
    | d :: ds => some (d :: ds, cs.dropWhile Char.isDigit)

def scanFrac : Name → Name × Name
  | '.' :: rest =>
    match rest.takeWhile Char.isDigit with
    | [] => ([], '.' :: rest)
    | d :: ds => ('.' :: d :: ds, rest.dropWhile Char.isDigit)
  | cs => ([], cs)

def scanSign : Name → Name × Name
  | '+' :: rest => (['+'], rest)
  | '-' :: rest => (['-'], rest)
  | cs => ([], cs)

def scanExp : Name → Name × Name
  | [] => ([], [])
  | c :: rest =>
    if c = 'e' ∨ c = 'E' then
      match (scanSign rest).2.takeWhile Char.isDigit with
      | [] => ([], c :: rest)
      | d :: ds => (c :: ((scanSign rest).1 ++ d :: ds), (scanSign rest).2.dropWhile Char.isDigit)
    else ([], c :: rest)

def scanMinus : Name → Name × Name
  | '-' :: rest => (['-'], rest)
  | cs => ([], cs)

def ofDigits (sign digits : Name) : Int :=
  if sign = [] then Nat.ofDigitChars 10 digits 0 else -(Nat.ofDigitChars 10 digits 0 : Int)

variable [FloatFormat F]

def scanNumber (cs : Name) : Except ScanError (Json F × Name) :=
  match scanInt (scanMinus cs).2 with
  | none => .error .malformed
  | some (digits, rest) =>
    if (scanFrac rest).1 = [] ∧ (scanExp (scanFrac rest).2).1 = [] then
      if digits.length ≤ maxDigits then .ok (.int (ofDigits (scanMinus cs).1 digits), rest)
      else .error .malformed
    else
      .ok (.float (FloatFormat.parse ((scanMinus cs).1 ++ (digits ++ ((scanFrac rest).1 ++
        (scanExp (scanFrac rest).2).1)))), (scanExp (scanFrac rest).2).2)

def words : List (Name × Except ScanError (Json F)) :=
  [("null".toList, .ok .null), ("true".toList, .ok (.bool true)),
    ("false".toList, .ok (.bool false)),
    ("NaN".toList, .error (.nonFinite "NaN".toList)),
    ("Infinity".toList, .error (.nonFinite "Infinity".toList)),
    ("-Infinity".toList, .error (.nonFinite "-Infinity".toList))]

def scanAtom (cs : Name) : Except ScanError (Json F × Name) :=
  match words.find? fun w => w.1.isPrefixOf cs with
  | some (word, .ok v) => .ok (v, cs.drop word.length)
  | some (_, .error e) => .error e
  | none => scanNumber cs

def uniqueJsonObject : List (Name × Json F) → List (Name × Json F) →
    Except ScanError (List (Name × Json F))
  | acc, [] => .ok acc
  | acc, (key, v) :: rest =>
    if acc.any fun p => p.1 == key then .error (.duplicateKey key)
    else uniqueJsonObject (insertField key v acc) rest

mutual

def scanValue : Nat → Name → Except ScanError (Json F × Name)
  | 0, _ => .error .malformed
  | _ + 1, [] => .error .malformed
  | fuel + 1, c :: rest =>
    if c = '"' then
      match scanString rest with
      | some (s, rest) => .ok (.str s, rest)
      | none => .error .malformed
    else if c = '{' then
      match skipSpace rest with
      | '}' :: rest => .ok (.obj [], rest)
      | rest => do
        let (pairs, rest) ← scanFields fuel rest
        let fields ← uniqueJsonObject [] pairs
        pure (.obj fields, rest)
    else if c = '[' then
      match skipSpace rest with
      | ']' :: rest => .ok (.arr [], rest)
      | rest => do
        let (items, rest) ← scanItems fuel rest
        pure (.arr items, rest)
    else scanAtom (c :: rest)

def scanItems : Nat → Name → Except ScanError (List (Json F) × Name)
  | 0, _ => .error .malformed
  | fuel + 1, cs => do
    let (v, rest) ← scanValue fuel cs
    match skipSpace rest with
    | ']' :: rest => pure ([v], rest)
    | ',' :: rest => do
      let (items, rest) ← scanItems fuel (skipSpace rest)
      pure (v :: items, rest)
    | _ => .error .malformed

def scanFields : Nat → Name → Except ScanError (List (Name × Json F) × Name)
  | 0, _ => .error .malformed
  | fuel + 1, '"' :: rest =>
    match scanString rest with
    | none => .error .malformed
    | some (key, rest) =>
      match skipSpace rest with
      | ':' :: rest => do
        let (v, rest) ← scanValue fuel (skipSpace rest)
        match skipSpace rest with
        | '}' :: rest => pure ([(key, v)], rest)
        | ',' :: rest => do
          let (fields, rest) ← scanFields fuel (skipSpace rest)
          pure ((key, v) :: fields, rest)
        | _ => .error .malformed
      | _ => .error .malformed
  | _ + 1, _ => .error .malformed

end

/-- One value and nothing but space around it. Every recursion consumes a character, so the
length of the text is fuel enough. -/
def scan (cs : Name) : Except ScanError (Json F) := do
  let (v, rest) ← scanValue (cs.length + 1) (skipSpace cs)
  if skipSpace rest = [] then pure v else .error .malformed

end PrismaBuild.Json
