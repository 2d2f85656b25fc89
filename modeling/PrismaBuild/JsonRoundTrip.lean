import PrismaBuild.JsonScan

namespace PrismaBuild.Json

open List

variable {F : Type}

theorem hexValue_digitChar : ∀ d < 16, hexValue (Nat.digitChar d) = some d := by decide

variable {n : Nat} {cs digits exp frac : Name}

theorem hexUnit_control (hn : n < 32) :
    hexUnit '0' '0' (Nat.digitChar (n / 16)) (Nat.digitChar (n % 16)) = some n := by
  have h0 : hexValue '0' = some 0 := by decide
  have h1 := hexValue_digitChar (n / 16) (by omega)
  have h2 := hexValue_digitChar (n % 16) (by omega)
  simp only [hexUnit, h0, h1, h2]
  show some _ = some n
  congr 1
  omega

theorem scanUnits_quote (rest : Name) : scanUnits ('"' :: rest) = some ([], rest) := by
  rw [scanUnits.eq_def]
  rfl

theorem scanUnits_escape {e : Char} (hu : e ≠ 'u') (he : unescape e = some n) (rest : Name) :
    scanUnits ('\\' :: e :: rest) = (scanUnits rest).map fun r => (n :: r.1, r.2) := by
  rw [scanUnits.eq_def]
  simp [hu, he]

theorem scanUnits_hex {a b c d : Char} (h : hexUnit a b c d = some n) (rest : Name) :
    scanUnits ('\\' :: 'u' :: a :: b :: c :: d :: rest) = (scanUnits rest).map fun r =>
    (n :: r.1, r.2) := by
  rw [scanUnits.eq_def]
  simp [h]

theorem scanUnits_escapeChar (c : Char) (rest : Name) :
    scanUnits (escapeChar c ++ rest) = (scanUnits rest).map fun r => (c.toNat :: r.1, r.2) := by
  unfold escapeChar
  split
  next h => subst h; exact scanUnits_escape (by decide) rfl rest
  split
  next h => subst h; exact scanUnits_escape (by decide) rfl rest
  split
  next h => subst h; exact scanUnits_escape (by decide) rfl rest
  split
  next h => subst h; exact scanUnits_escape (by decide) rfl rest
  split
  next h => subst h; exact scanUnits_escape (by decide) rfl rest
  split
  next h => subst h; exact scanUnits_escape (by decide) rfl rest
  split
  next h => subst h; exact scanUnits_escape (by decide) rfl rest
  split
  next h => exact scanUnits_hex (hexUnit_control h) rest
  next hq hb _ _ _ _ _ hc =>
    rw [singleton_append, scanUnits.eq_def]
    simp only [if_neg hq, if_neg hb, if_neg hc]

theorem scanUnits_escaped (s rest : Name) :
    scanUnits (escaped s ++ '"' :: rest) = some (s.map Char.toNat, rest) := by
  induction s with
  | nil => exact scanUnits_quote rest
  | cons c s ih =>
    have he : escaped (c :: s) = escapeChar c ++ escaped s := rfl
    rw [he, append_assoc, scanUnits_escapeChar, ih]
    rfl

theorem toNat_not_half (c : Char) : highHalf c.toNat = false ∧ lowHalf c.toNat = false := by
  have hv : c.toNat < 0xD800 ∨ 0xDFFF < c.toNat ∧ c.toNat < 0x110000 := c.valid
  simp only [highHalf, lowHalf, Bool.and_eq_false_iff, decide_eq_false_iff_not]
  omega

theorem joinUnits_toNat (s : Name) : joinUnits (s.map Char.toNat) = some s := by
  induction s with
  | nil => rfl
  | cons c s ih =>
    obtain ⟨hh, hl⟩ := toNat_not_half c
    rw [map_cons, joinUnits.eq_def]
    simp [hh, hl, ih]

theorem scanString_escaped (s rest : Name) :
    scanString (escaped s ++ '"' :: rest) = some (s, rest) := by
  simp [scanString, scanUnits_escaped, joinUnits_toNat]

def Ends (rest : Name) : Prop :=
  rest = [] ∨ ∃ c cs, rest = c :: cs ∧ (c = ',' ∨ c = ']' ∨ c = '}' ∨ c = '\n')

variable {rest : Name}

theorem Ends.scanFrac (h : Ends rest) : scanFrac rest = ([], rest) := by
  rcases h with rfl | ⟨c, cs, rfl, rfl | rfl | rfl | rfl⟩ <;> rfl

theorem Ends.scanExp (h : Ends rest) : scanExp rest = ([], rest) := by
  rcases h with rfl | ⟨c, cs, rfl, rfl | rfl | rfl | rfl⟩ <;> rfl

theorem digitChar_ne_zero : ∀ d < 10, d ≠ 0 → Nat.digitChar d ≠ '0' := by decide

theorem toDigits_intDigits (n : Nat) : IntDigits (Nat.toDigits 10 n) := by
  by_cases hn : n = 0
  · subst hn
    exact .inl rfl
  · right
    have hh : ∃ d ds, Nat.toDigits 10 n = d :: ds ∧ d ≠ '0' := by
      induction n using Nat.strong_induction_on with
      | _ n ih =>
        rw [Nat.toDigits_eq_if (by decide)]
        split
        next hlt => exact ⟨_, [], rfl, digitChar_ne_zero n hlt hn⟩
        next hge =>
          obtain ⟨d, ds, he, hd⟩ := ih (n / 10) (by omega) (by omega)
          exact ⟨d, ds ++ [(n % 10).digitChar], by rw [he]; rfl, hd⟩
    obtain ⟨d, ds, he, hd⟩ := hh
    refine ⟨d, ds, he, hd, fun c hc => ?_⟩
    exact Nat.isDigit_of_mem_toDigits (by decide) (by decide) (he ▸ hc)

theorem takeWhile_digits {ds : Name} (hds : ∀ c ∈ ds, c.isDigit = true)
    (hr : ∀ c ∈ rest.head?, c.isDigit = false) :
    (ds ++ rest).takeWhile Char.isDigit = ds ∧ (ds ++ rest).dropWhile Char.isDigit = rest := by
  rw [takeWhile_append_of_pos hds, dropWhile_append_of_pos hds]
  cases rest with
  | nil => simp
  | cons c cs => simp [hr c rfl]

theorem scanInt_digits (hd : IntDigits digits)
    (hr : ∀ c ∈ rest.head?, c.isDigit = false) :
    scanInt (digits ++ rest) = some (digits, rest) := by
  rcases hd with rfl | ⟨d, ds, rfl, hd, ha⟩
  · rfl
  · obtain ⟨ht, hdr⟩ := takeWhile_digits ha hr
    unfold scanInt
    split
    next he => exact absurd (cons.inj he).1 hd
    next =>
      rw [ht, hdr]

theorem scanMinus_digits (hd : IntDigits digits) :
    scanMinus (digits ++ rest) = ([], digits ++ rest) := by
  rcases hd with rfl | ⟨d, ds, rfl, -, ha⟩
  · rfl
  · unfold scanMinus
    split
    next he =>
      have hdi := ha d (by simp)
      rw [(cons.inj he).1] at hdi
      exact absurd hdi (by decide)
    next => rfl

theorem Ends.not_digit (h : Ends rest) : ∀ c ∈ rest.head?, c.isDigit = false := by
  rcases h with rfl | ⟨c, cs, rfl, rfl | rfl | rfl | rfl⟩ <;> simp

theorem scanFrac_digits (hf : frac = [] ∨ ∃ ds, frac = '.' :: ds ∧ Digits ds)
    (hr : ∀ c ∈ rest.head?, c.isDigit = false ∧ c ≠ '.') :
    scanFrac (frac ++ rest) = (frac, rest) := by
  rcases hf with rfl | ⟨ds, rfl, hne, ha⟩
  · cases rest with
    | nil => rfl
    | cons c cs =>
      unfold scanFrac
      split
      next he => exact absurd (cons.inj he).1 (hr c rfl).2
      next => rfl
  · obtain ⟨ht, hd⟩ := takeWhile_digits ha fun c hc => (hr c hc).1
    cases ds with
    | nil => exact absurd rfl hne
    | cons d ds =>
      show scanFrac ('.' :: ((d :: ds) ++ rest)) = _
      simp only [scanFrac, ht, hd]

theorem scanSign_digits {esign ds : Name} (hs : esign = [] ∨ esign = ['+'] ∨ esign = ['-'])
    (hd : Digits ds) (rest : Name) : scanSign (esign ++ (ds ++ rest)) = (esign, ds ++ rest) := by
  obtain ⟨hne, ha⟩ := hd
  cases ds with
  | nil => exact absurd rfl hne
  | cons d ds =>
    have hdi := ha d (by simp)
    rcases hs with rfl | rfl | rfl
    · show scanSign (d :: (ds ++ rest)) = _
      unfold scanSign
      split
      next he =>
        rw [(cons.inj he).1] at hdi
        exact absurd hdi (by decide)
      next he =>
        rw [(cons.inj he).1] at hdi
        exact absurd hdi (by decide)
      next => rfl
    · rfl
    · rfl

theorem scanExp_digits
    (he : exp = [] ∨ ∃ esign ds, exp = 'e' :: (esign ++ ds) ∧
    (esign = [] ∨ esign = ['+'] ∨ esign = ['-']) ∧
      Digits ds) (hr : Ends rest) : scanExp (exp ++ rest) = (exp, rest) := by
  rcases he with rfl | ⟨esign, ds, rfl, hs, hd⟩
  · exact hr.scanExp
  · obtain ⟨ht, hdr⟩ := takeWhile_digits hd.2 hr.not_digit
    have hsi := scanSign_digits hs hd rest
    show scanExp ('e' :: ((esign ++ ds) ++ rest)) = _
    rw [append_assoc]
    simp only [scanExp, hsi, ht, hdr]
    cases ds with
    | nil => exact absurd rfl hd.1
    | cons d ds => simp

variable [FloatFormat F]

theorem scanNumber_int {n : Int} (hn : (Nat.toDigits 10 n.natAbs).length ≤ maxDigits)
    (hr : Ends rest) : scanNumber (intText n ++ rest) = .ok ((.int n : Json F), rest) := by
  have hd := toDigits_intDigits n.natAbs
  have hi := scanInt_digits hd hr.not_digit
  unfold intText
  split
  next hne =>
    have hm : scanMinus ('-' :: Nat.toDigits 10 n.natAbs ++ rest) =
      (['-'], Nat.toDigits 10 n.natAbs ++ rest) := rfl
    simp only [scanNumber, hm, hi, hr.scanFrac, hr.scanExp, and_self, if_true, if_pos hn, ofDigits,
      Nat.ofDigitChars_ten_toDigits]
    simp only [cons_ne_nil, if_false]
    congr 3
    omega
  next hp =>
    simp only [scanNumber, scanMinus_digits hd, hi, hr.scanFrac, hr.scanExp, and_self, if_true,
      if_pos hn, ofDigits, Nat.ofDigitChars_ten_toDigits]
    congr 3
    omega

theorem exp_head
    (he : exp = [] ∨ ∃ esign ds, exp = 'e' :: (esign ++ ds) ∧
    (esign = [] ∨ esign = ['+'] ∨ esign = ['-']) ∧
      Digits ds) (hr : Ends rest) : ∀ c ∈ (exp ++ rest).head?, c.isDigit = false ∧ c ≠ '.' := by
  rcases he with rfl | ⟨esign, ds, rfl, -, -⟩
  · rcases hr with rfl | ⟨c, cs, rfl, rfl | rfl | rfl | rfl⟩ <;> simp
  · simp

theorem frac_head (hf : frac = [] ∨ ∃ ds, frac = '.' :: ds ∧ Digits ds)
    (he : ∀ c ∈ (exp ++ rest).head?, c.isDigit = false ∧ c ≠ '.') :
    ∀ c ∈ (frac ++ (exp ++ rest)).head?, c.isDigit = false := by
  rcases hf with rfl | ⟨ds, rfl, -⟩
  · exact fun c hc => (he c hc).1
  · simp

variable {x : F}

theorem scanNumber_float (hx : FloatFormat.finite x = true) (hr : Ends rest) :
    scanNumber (FloatFormat.repr x ++ rest) = .ok ((.float x : Json F), rest) := by
  obtain ⟨sign, digits, frac, exp, he, hs, hd, hf, hex, hne⟩ := (FloatFormat.repr_token x hx).parts
  have hh := exp_head hex hr
  have hi := scanInt_digits hd (frac_head hf hh)
  have hfr := scanFrac_digits hf hh
  have hsc := scanExp_digits hex hr
  have hm : scanMinus (sign ++ (digits ++ (frac ++ (exp ++ rest)))) =
      (sign, digits ++ (frac ++ (exp ++ rest))) := by
    rcases hs with rfl | rfl
    · rw [nil_append]
      exact scanMinus_digits hd
    · rfl
  have hn : ¬ (frac = [] ∧ exp = []) := by
    rintro ⟨hf0, he0⟩
    rcases hne with h | h
    · exact h hf0
    · exact h he0
  have hp := FloatFormat.parse_repr x hx
  rw [he] at hp ⊢
  simp only [append_assoc, scanNumber, hm, hi, hfr, hsc, if_neg hn, hp]

def NumberHead (cs : Name) : Prop :=
  ∃ sign d ds, cs = sign ++ d :: ds ∧ (sign = [] ∨ sign = ['-']) ∧ d.isDigit = true

theorem intDigits_head (h : IntDigits digits) : ∃ d ds, digits = d :: ds ∧ d.isDigit = true := by
  rcases h with rfl | ⟨d, ds, rfl, -, ha⟩
  · exact ⟨'0', [], rfl, by decide⟩
  · exact ⟨d, ds, rfl, ha d (by simp)⟩

theorem intText_head (n : Int) : NumberHead (intText n) := by
  obtain ⟨d, ds, he, hd⟩ := intDigits_head (toDigits_intDigits n.natAbs)
  unfold intText
  rw [he]
  split
  · exact ⟨['-'], d, ds, rfl, .inr rfl, hd⟩
  · exact ⟨[], d, ds, rfl, .inl rfl, hd⟩

theorem repr_head (hx : FloatFormat.finite x = true) : NumberHead (FloatFormat.repr x) := by
  obtain ⟨sign, digits, frac, exp, he, hs, hd, -⟩ := (FloatFormat.repr_token x hx).parts
  obtain ⟨d, ds, hds, hdi⟩ := intDigits_head hd
  exact ⟨sign, d, ds ++ (frac ++ exp), by rw [he, hds]; rfl, hs, hdi⟩

theorem NumberHead.append (h : NumberHead cs) (rest : Name) : NumberHead (cs ++ rest) := by
  obtain ⟨sign, d, ds, rfl, hs, hd⟩ := h
  exact ⟨sign, d, ds ++ rest, by simp, hs, hd⟩

theorem isDigit_ne {d c : Char} (hd : d.isDigit = true) (hc : c.isDigit = false) :
    (c == d) = false := by
  rw [beq_eq_false_iff_ne]
  rintro rfl
  rw [hd] at hc
  cases hc

theorem scanAtom_number (h : NumberHead cs) :
    scanAtom cs = (scanNumber cs : Except ScanError (Json F × Name)) := by
  obtain ⟨sign, d, ds, rfl, hs, hd⟩ := h
  have hn : (words : List (Name × Except ScanError (Json F))).find?
      (fun w => w.1.isPrefixOf (sign ++ d :: ds)) = none := by
    rcases hs with rfl | rfl <;>
      simp [words, isPrefixOf, isDigit_ne hd (c := 'n') rfl, isDigit_ne hd (c := 't') rfl,
        isDigit_ne hd (c := 'f') rfl, isDigit_ne hd (c := 'N') rfl, isDigit_ne hd (c := 'I') rfl,
        isDigit_ne hd (c := '-') rfl]
  rw [scanAtom, hn]

theorem scanValue_atom {c : Char} (hq : c ≠ '"') (hb : c ≠ '{') (ha : c ≠ '[') (fuel : Nat)
    (rest : Name) :
    scanValue (fuel + 1) (c :: rest) =
      (scanAtom (c :: rest) : Except ScanError (Json F × Name)) := by
  simp [scanValue, hq, hb, ha]

theorem scanValue_number {cs : Name} (h : NumberHead cs) (fuel : Nat) :
    scanValue (fuel + 1) cs = (scanNumber cs : Except ScanError (Json F × Name)) := by
  rw [← scanAtom_number h]
  obtain ⟨sign, d, ds, rfl, hs, hd⟩ := h
  have hne : ∀ c : Char, c.isDigit = false → d ≠ c := by
    rintro c hc rfl
    rw [hd] at hc
    cases hc
  rcases hs with rfl | rfl
  · exact scanValue_atom (hne _ rfl) (hne _ rfl) (hne _ rfl) fuel ds
  · exact scanValue_atom (by decide) (by decide) (by decide) fuel (d :: ds)

theorem text_head {v : Json F} (hv : printable v = true) : ∃ c cs, text v = c :: cs ∧
    isSpace c = false ∧ c ≠ ']' ∧ c ≠ '}' := by
  have hn : ∀ cs : Name, NumberHead cs →
      ∃ c rest, cs = c :: rest ∧ isSpace c = false ∧ c ≠ ']' ∧ c ≠ '}' := by
    rintro cs ⟨sign, d, ds, rfl, rfl | rfl, hd⟩
    · have hne : ∀ c : Char, c.isDigit = false → d ≠ c := by
        rintro c hc rfl
        rw [hd] at hc
        cases hc
      refine ⟨d, ds, rfl, ?_, hne _ rfl, hne _ rfl⟩
      simp [isSpace, hne ' ' rfl, hne '\t' rfl, hne '\n' rfl, hne '\r' rfl]
    · exact ⟨'-', d :: ds, rfl, rfl, by decide, by decide⟩
  cases v with
  | null => exact ⟨'n', "ull".toList, rfl, rfl, by decide, by decide⟩
  | bool b =>
    cases b with
    | false => exact ⟨'f', "alse".toList, rfl, rfl, by decide, by decide⟩
    | true => exact ⟨'t', "rue".toList, rfl, rfl, by decide, by decide⟩
  | int n => exact hn _ (intText_head n)
  | float x => exact hn _ (repr_head hv)
  | str s => exact ⟨'"', escaped s ++ ['"'], rfl, rfl, by decide, by decide⟩
  | arr items => exact ⟨'[', itemsText items ++ [']'], rfl, rfl, by decide, by decide⟩
  | obj fields => exact ⟨'{', fieldsText fields ++ ['}'], rfl, rfl, by decide, by decide⟩

theorem skipSpace_text {v : Json F} (hv : printable v = true) (rest : Name) :
    skipSpace (text v ++ rest) = text v ++ rest := by
  obtain ⟨c, cs, he, hc, -⟩ := text_head hv
  simp [skipSpace, he, hc]

theorem itemsText_head {v : Json F} (items : List (Json F)) (hv : printable v = true)
    (rest : Name) :
    ∃ c cs, itemsText (v :: items) ++ rest = c :: cs ∧ isSpace c = false ∧ c ≠ ']' := by
  obtain ⟨c, cs, he, hs, hc, -⟩ := text_head hv
  cases items with
  | nil => exact ⟨c, cs ++ rest, by rw [itemsText, he]; rfl, hs, hc⟩
  | cons w items =>
    exact ⟨c, cs ++ ',' :: itemsText (w :: items) ++ rest, by rw [itemsText, he]; rfl, hs, hc⟩

theorem skipSpace_itemsText {v : Json F} (items : List (Json F)) (hv : printable v = true)
    (rest : Name) :
    skipSpace (itemsText (v :: items) ++ rest) = itemsText (v :: items) ++ rest := by
  obtain ⟨c, cs, he, hs, -⟩ := itemsText_head items hv rest
  simp [skipSpace, he, hs]

theorem fieldsText_head (p : Name × Json F) (fields : List (Name × Json F)) (rest : Name) :
    ∃ cs, fieldsText (p :: fields) ++ rest = '"' :: cs := by
  cases fields with
  | nil => exact ⟨_, rfl⟩
  | cons q fields => exact ⟨_, rfl⟩

def Reads (v : Json F) : Prop :=
  ∀ fuel rest, (text v).length ≤ fuel → Ends rest → scanValue fuel (text v ++ rest) = .ok (v, rest)

theorem scanItems_text {items : List (Json F)} (hne : items ≠ [])
    (hp : ∀ v ∈ items, printable v = true)
    (hr : ∀ v ∈ items, Reads v) (fuel : Nat) (rest : Name)
      (hf : (itemsText items).length + 1 ≤ fuel) :
    scanItems fuel (itemsText items ++ ']' :: rest) = .ok (items, rest) := by
  induction items generalizing fuel with
  | nil => exact absurd rfl hne
  | cons v items ih =>
    obtain ⟨fuel, rfl⟩ : ∃ n, fuel = n + 1 := ⟨fuel - 1, by omega⟩
    cases items with
    | nil =>
      have hv := hr v (by simp) fuel (']' :: rest) (by simpa [itemsText] using hf)
        (.inr ⟨_, _, rfl, .inr (.inl rfl)⟩)
      simp only [scanItems, itemsText, hv]
      rfl
    | cons w items =>
      rw [itemsText] at hf ⊢
      simp only [List.length_append, List.length_cons] at hf
      have hv := hr v (by simp) fuel (',' :: (itemsText (w :: items) ++ ']' :: rest)) (by omega)
        (.inr ⟨_, _, rfl, .inl rfl⟩)
      have ht := ih (by simp) (fun u hu => hp u (by simp [hu])) (fun u hu => hr u (by simp [hu]))
        fuel (by omega)
      have hs : skipSpace (',' :: (itemsText (w :: items) ++ ']' :: rest)) =
        ',' :: (itemsText (w :: items) ++ ']' :: rest) := rfl
      rw [List.append_assoc, List.cons_append, scanItems, hv]
      simp only [bind, Except.bind, hs, skipSpace_itemsText items (hp w (by simp)), ht]
      rfl

theorem scanFields_text {fields : List (Name × Json F)} (hne : fields ≠ [])
    (hp : ∀ p ∈ fields, printable p.2 = true) (hr : ∀ p ∈ fields, Reads p.2) (fuel : Nat)
    (rest : Name)
    (hf : (fieldsText fields).length + 1 ≤ fuel) :
      scanFields fuel (fieldsText fields ++ '}' :: rest) = .ok (fields, rest) := by
  induction fields generalizing fuel with
  | nil => exact absurd rfl hne
  | cons p fields ih =>
    obtain ⟨fuel, rfl⟩ : ∃ n, fuel = n + 1 := ⟨fuel - 1, by omega⟩
    obtain ⟨key, v⟩ := p
    cases fields with
    | nil =>
      simp only [fieldsText, List.length_append, List.length_cons] at hf
      have hv := hr (key, v) (by simp) fuel ('}' :: rest) (by dsimp only; omega)
        (.inr ⟨_, _, rfl, .inr (.inr (.inl rfl))⟩)
      have hs := scanString_escaped key (':' :: (text v ++ '}' :: rest))
      have he : fieldsText [(key, v)] ++ '}' :: rest =
          '"' :: (escaped key ++ '"' :: ':' :: (text v ++ '}' :: rest)) := by
        simp [fieldsText, quoted]
      have hc : skipSpace (':' :: (text v ++ '}' :: rest)) = ':' :: (text v ++ '}' :: rest) := rfl
      rw [he, scanFields]
      simp only [hs, hc, skipSpace_text (hp (key, v) (by simp)), hv]
      rfl
    | cons q fields =>
      simp only [fieldsText, List.length_append, List.length_cons] at hf
      have hv := hr (key, v) (by simp) fuel (',' :: (fieldsText (q :: fields) ++ '}' :: rest))
        (by dsimp only; omega) (.inr ⟨_, _, rfl, .inl rfl⟩)
      have ht := ih (by simp) (fun u hu => hp u (by simp [hu])) (fun u hu => hr u (by simp [hu]))
        fuel (by omega)
      have hs := scanString_escaped key (':' ::
        (text v ++ ',' :: (fieldsText (q :: fields) ++ '}' :: rest)))
      have he : fieldsText ((key, v) :: q :: fields) ++ '}' :: rest =
          '"' :: (escaped key ++ '"' :: ':' ::
          (text v ++ ',' :: (fieldsText (q :: fields) ++ '}' :: rest))) := by
        simp [fieldsText, quoted]
      have hc : skipSpace (':' :: (text v ++ ',' :: (fieldsText (q :: fields) ++ '}' :: rest))) =
        ':' :: (text v ++ ',' :: (fieldsText (q :: fields) ++ '}' :: rest)) := rfl
      have hco : skipSpace (',' :: (fieldsText (q :: fields) ++ '}' :: rest)) =
        ',' :: (fieldsText (q :: fields) ++ '}' :: rest) := rfl
      have hsp : skipSpace (fieldsText (q :: fields) ++ '}' :: rest) = fieldsText (q :: fields) ++
        '}' :: rest := by
        obtain ⟨cs, hcs⟩ := fieldsText_head q fields ('}' :: rest)
        rw [hcs]
        rfl
      rw [he, scanFields]
      simp only [hs, hc, skipSpace_text (hp (key, v) (by simp)), hv, bind, Except.bind, hco, hsp,
        ht]
      rfl

omit [FloatFormat F] in
theorem uniqueJsonObject_ordered (acc fields : List (Name × Json F)) (h : Ordered (acc ++ fields)) :
    uniqueJsonObject acc fields = .ok (acc ++ fields) := by
  induction fields generalizing acc with
  | nil => simp [uniqueJsonObject]
  | cons p fields ih =>
    obtain ⟨key, v⟩ := p
    have hb : ∀ q ∈ acc, before q.1 key = true :=
      fun q hq => (pairwise_append.mp h).2.2 q hq (key, v) (by simp)
    have hn : (acc.any fun q => q.1 == key) = false := by
      rw [any_eq_false]
      intro q hq heq
      have hle := before_iff.mp (hb q hq)
      rw [eq_of_beq heq, nameLe_refl] at hle
      cases hle
    rw [uniqueJsonObject, hn, insertField_last hb]
    have ha : acc ++ (key, v) :: fields = (acc ++ [(key, v)]) ++ fields := by simp
    rw [ha] at h ⊢
    exact ih _ h

variable {v : Json F}

theorem reads_of_printable (hs : v.Sorted) (hv : printable v = true) : Reads v := by
  induction v using Json.induct with
  | null =>
    rintro (- | fuel) rest hf -
    · cases hf
    · exact scanValue_atom (by decide) (by decide) (by decide) fuel ("ull".toList ++ rest)
  | bool b =>
    rintro (- | fuel) rest hf -
    · cases b <;> cases hf
    · cases b with
      | false =>
        exact scanValue_atom (by decide) (by decide) (by decide) fuel ("alse".toList ++ rest)
      | true => exact scanValue_atom (by decide) (by decide) (by decide) fuel ("rue".toList ++ rest)
  | int n =>
    rintro (- | fuel) rest hf hr
    · obtain ⟨sign, d, ds, he, -⟩ := intText_head n
      simp [text, he] at hf
    · have hn : (Nat.toDigits 10 n.natAbs).length ≤ maxDigits := by simpa [printable] using hv
      rw [text, scanValue_number ((intText_head n).append rest), scanNumber_int hn hr]
  | float x =>
    rintro (- | fuel) rest hf hr
    · obtain ⟨sign, d, ds, he, -⟩ := repr_head hv
      simp [text, he] at hf
    · rw [text, scanValue_number ((repr_head hv).append rest), scanNumber_float hv hr]
  | str s =>
    rintro (- | fuel) rest hf -
    · simp [text, quoted] at hf
    · have he : text (.str s : Json F) ++ rest = '"' :: (escaped s ++ '"' :: rest) := by
        simp [text, quoted]
      rw [he, scanValue, if_pos rfl, scanString_escaped]
  | arr items ih =>
    rintro (- | fuel) rest hf hr
    · simp [text] at hf
    have he : text (.arr items : Json F) ++ rest = '[' :: (itemsText items ++ ']' :: rest) := by
      simp [text]
    rw [he, scanValue, if_neg (by decide), if_neg (by decide), if_pos rfl]
    have hp := printableItems_iff.mp hv
    cases items with
    | nil => rfl
    | cons v items =>
      have hre := scanItems_text (cons_ne_nil v items) hp
        (fun w hw => ih w hw (sortedItems_iff.mp hs w hw) (hp w hw)) fuel rest
        (by simp [text] at hf; omega)
      obtain ⟨c, cs, hh, -, hc⟩ := itemsText_head items (hp v (by simp)) (']' :: rest)
      rw [skipSpace_itemsText items (hp v (by simp))]
      split
      next heq =>
        rw [hh] at heq
        exact absurd (cons.inj heq).1 hc
      next =>
        rw [hre]
        rfl
  | obj fields ih =>
    rintro (- | fuel) rest hf hr
    · simp [text] at hf
    have he : text (.obj fields : Json F) ++ rest = '{' :: (fieldsText fields ++ '}' :: rest) := by
      simp [text]
    rw [he, scanValue, if_neg (by decide), if_pos rfl]
    have hp := printableFields_iff.mp hv
    cases fields with
    | nil => rfl
    | cons p fields =>
      have hre := scanFields_text (cons_ne_nil p fields) hp
        (fun q hq => ih q hq (sortedFields_iff.mp hs.2 q hq) (hp q hq)) fuel rest
        (by simp [text] at hf; omega)
      have hu := uniqueJsonObject_ordered [] (p :: fields) hs.1
      obtain ⟨cs, hcs⟩ := fieldsText_head p fields ('}' :: rest)
      have hsp : skipSpace ('"' :: cs) = '"' :: cs := rfl
      rw [hcs] at hre ⊢
      rw [hsp]
      split
      next heq => exact absurd (cons.inj heq).1 (by decide)
      next =>
        simp only [hre, bind, Except.bind, hu]
        rfl

theorem scan_text (hs : v.Sorted) (hv : printable v = true)
    (hre : rest = [] ∨ rest = ['\n']) : scan (text v ++ rest) = .ok v := by
  have he : Ends rest ∧ skipSpace rest = [] := by
    rcases hre with rfl | rfl
    · exact ⟨.inl rfl, rfl⟩
    · exact ⟨.inr ⟨_, _, rfl, .inr (.inr (.inr rfl))⟩, rfl⟩
  have hr := reads_of_printable hs hv ((text v ++ rest).length + 1) rest (by simp; omega) he.1
  rw [scan, skipSpace_text hv, hr]
  simp [bind, Except.bind, he.2]
  rfl

end PrismaBuild.Json
