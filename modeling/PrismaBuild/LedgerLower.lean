import PrismaBuild.LedgerGrow

namespace PrismaBuild.ResourceLedger

open Prog Ledger List

section

theorem dash_not_mem_index (i : Nat) :
    '-' ∉ List.replicate (4 - (Nat.toDigits 10 i).length) '0' ++ Nat.toDigits 10 i := by
  intro h
  rcases mem_append.mp h with h | h
  · exact absurd (eq_of_mem_replicate h) (by decide)
  · exact dash_not_mem_toDigits (by decide) i h

theorem ofKind_tokenName (kind : Name) (i : Nat) : ofKind kind (tokenName kind i) = true := by
  refine isPrefixOf_iff_prefix.mpr ⟨replicate (4 - (Nat.toDigits 10 i).length) '0' ++ Nat.toDigits
    10 i, ?_⟩
  rw [append_assoc]
  rfl

theorem kindOf_tokenName (kind : Name) (i : Nat) : kindOf (tokenName kind i) = kind := by
  have hi : ∀ c ∈ (replicate (4 - (Nat.toDigits 10 i).length) '0' ++ Nat.toDigits 10 i).reverse,
    decide (c ≠ '-') = true := by
    intro c hc
    refine decide_eq_true fun heq => dash_not_mem_index i ?_
    rw [← heq]
    exact mem_reverse.mp hc
  rw [kindOf, if_pos (tokenName_isToken kind i)]
  unfold tokenName
  rw [reverse_append, reverse_cons, append_assoc, dropWhile_append_of_pos hi]
  simp

theorem ofDigitChars_pad (k : Nat) (digits : List Char) :
    Nat.ofDigitChars 10 (List.replicate k '0' ++ digits) 0 = Nat.ofDigitChars 10 digits 0 := by
  induction k with
  | zero => rfl
  | succ k ih => exact ih

theorem tokenName_injective (kind : Name) : Function.Injective (tokenName kind) := by
  intro i j h
  have hd := (cons.inj (append_cancel_left h)).2
  have hv := congrArg (fun digits => Nat.ofDigitChars 10 digits 0) hd
  rw [ofDigitChars_pad, ofDigitChars_pad, Nat.ofDigitChars_ten_toDigits,
    Nat.ofDigitChars_ten_toDigits] at hv
  exact hv

end

def firstNames (kind : Name) (count : Nat) : List Name := (List.range count).map (tokenName kind)

theorem firstNames_nodup (kind : Name) (count : Nat) : (firstNames kind count).Nodup :=
  nodup_range.map (tokenName_injective kind)

theorem length_firstNames (kind : Name) (count : Nat) : (firstNames kind count).length = count := by
  rw [firstNames, length_map, length_range]

variable {count : Nat} {kind n : Name}

theorem mem_firstNames : n ∈ firstNames kind count ↔ ∃ i < count, tokenName kind i = n := by
  simp [firstNames]

theorem firstNames_isKind (h : n ∈ firstNames kind count) :
    isToken n = true ∧ kindOf n = kind ∧ ofKind kind n = true := by
  obtain ⟨i, -, rfl⟩ := mem_firstNames.mp h
  exact ⟨tokenName_isToken kind i, kindOf_tokenName kind i, ofKind_tokenName kind i⟩

def shelf (s : Ledger) (kind : Name) : List Name := (s.names .free).filter (ofKind kind)

theorem mem_shelf {s : Ledger} : n ∈ shelf s kind ↔ (.free, n) ∈ s.files ∧
    ofKind kind n = true := by
  rw [shelf, mem_filter, mem_names]

theorem shelf_nodup (s : Ledger) (kind : Name) : (shelf s kind).Nodup := (names_nodup s _).filter _

section

variable {s t : Ledger} {kind : Name} {m : Nat}

theorem blind_none : blind (fun _ => none) = quiet := by
  funext o x s
  cases o <;> rfl

theorem Meets.ends {α : Type} {Q : α → Ledger → Prop} {p : LedgerProg α}
    (h : Meets (fun _ => none) Q p s) : Ends Q p s := by
  unfold Meets at h
  rwa [blind_none] at h

theorem heldTokens_ends (s : Ledger) :
    Ends (fun r t => r = (custody s, false) ∧ t = s) (heldTokens s.holderNames [] false) s := by
  refine (heldTokens_meets s.holderNames [] false).ends.imp ?_
  rintro ⟨H, unreadable⟩ t - ⟨rfl, ⟨seen, -, hH, ha⟩, -, hr⟩
  obtain rfl : unreadable = false := hr fun _ => ⟨rfl, rfl⟩
  obtain rfl : H = custody t := by
    rw [show H = _ from hH, ha rfl, nil_append]
    rfl
  exact ⟨rfl, rfl⟩

theorem retireFreeCapacity_ends (kind : Name) (m : Nat) (s : Ledger) :
    Ends (fun r t => (∃ out, r = .ok out) ∧
    Cleared (highest s kind (freeOf s kind + heldOf s kind - m)) s t)
      (retireFreeCapacity [(kind, (m : Int))]) s := by
  refine .andThen ⟨trivial, fun _ => ⟨trivial, ?_⟩⟩
  refine .bind ((heldTokens_ends s).imp ?_)
  rintro r t - ⟨rfl, rfl⟩
  have hs : sortedItems [(kind, (m : Int))] = [(kind, (m : Int))] := rfl
  have hm := Int.not_lt.mpr (Int.natCast_nonneg m)
  simp only [Bool.false_eq_true, if_false, hs]
  rw [retireKinds, if_neg hm]
  refine .andThen ⟨trivial, fun _ => ⟨trivial, ?_⟩⟩
  have hf := fun n (hn : n ∈ highest t kind (excessAt (custody t) none t (kind, (m : Int)))) =>
    (mem_highest hn).1
  refine .andThen ((retireTokens_meets _ 0 (highest_nodup t kind _) hf).ends.imp ?_)
  rintro r v - ⟨rfl, hc⟩
  rw [excessAt_custody] at hc
  exact ⟨trivial, ⟨_, rfl⟩, hc⟩

theorem mem_highest_iff {n : Name} (hh : heldOf s kind = 0) :
    n ∈ highest s kind (freeOf s kind + heldOf s kind - m) ↔ n ∈ (shelf s kind).drop m := by
  have hl := length_filter_free s kind
  rw [hh, Nat.add_zero, ← hl, highest, ← shelf, take_reverse, mem_reverse]
  by_cases hle : m ≤ (shelf s kind).length
  · rw [Nat.sub_sub_self hle]
  · rw [drop_eq_nil_of_le (by omega), drop_eq_nil_of_le (by omega)]

end

/-- `ensure_capacity({kind: count})`, where no operation fails. -/
def declare (strict : Bool) (kind : Name) (count : Nat) (s : Ledger) : Ledger :=
  (exec quiet () (ensureCapacity strict [(kind, (count : Int))]) s).2

/-- `retire_free_capacity({kind: count})`, where no operation fails. -/
def retire (kind : Name) (count : Nat) (s : Ledger) : Ledger :=
    (exec quiet () (retireFreeCapacity [(kind, (count : Int))]) s).2

/-- The kind's total: `capacity()[kind]`. -/
def supply (s : Ledger) (kind : Name) : Nat :=
    s.tokens .free kind + (custody s).countP (isKind kind)

def NothingHeld (s : Ledger) : Prop := ∀ h n, isToken n = true → (.held h, n) ∉ s.files

section

variable {s t u : Ledger} {kind : Name} {n m : Nat} {strict : Bool}

theorem custody_of_nothingHeld (h : NothingHeld s) : custody s = [] := by
  refine eq_nil_iff_forall_not_mem.mpr fun n hn => ?_
  obtain ⟨ht, holder, hin⟩ := mem_custody.mp hn
  exact h holder n ht hin

theorem present_iff (h : NothingHeld s) {x : Name} : Present s x ↔ isToken x = true ∧
    (.free, x) ∈ s.files := by
  constructor
  · rintro ⟨ht, hin | ⟨holder, hin⟩⟩
    · exact ⟨ht, hin⟩
    · exact absurd hin (h holder x ht)
  · exact fun hx => ⟨hx.1, .inl hx.2⟩

theorem declare_grown (strict : Bool) (kind : Name) (n : Nat) (s : Ledger) :
    Grown (firstNames kind n) s (declare strict kind n s) := by
  have hc : ∀ d ∈ [(kind, (n : Int))], 0 ≤ d.2 := forall_mem_singleton.mpr (Int.natCast_nonneg n)
  have hg := ((ensureCapacity_ends strict hc s).exec ()).2
  rw [flatMap_singleton, Int.toNat_natCast] at hg
  exact hg

theorem retire_cleared (hh : NothingHeld s) (p : Place) (x : Name) :
    (p, x) ∈ (retire kind m s).files ↔ (p, x) ∈ s.files ∧
    ¬ ((p = .free ∨ p = .minted) ∧ x ∈ (shelf s kind).drop m) := by
  have hn : heldOf s kind = 0 := by
    rw [heldOf, custody_of_nothingHeld hh]
    rfl
  rw [← mem_highest_iff hn]
  exact ((retireFreeCapacity_ends kind m s).exec ()).2 p x

structure Stocked (kind : Name) (m : Nat) (s : Ledger) : Prop where
  nothingHeld : NothingHeld s
  marked : ∀ x, Present s x → (.minted, x) ∈ s.files
  first : ∀ x ∈ firstNames kind m, (.free, x) ∈ s.files

theorem Stocked.lower (h : Stocked kind m s) (strict : Bool) (p : Place) (x : Name) :
    (p, x) ∈ (declare strict kind m (retire kind m s)).files ↔
      (p, x) ∈ s.files ∧ ¬ ((p = .free ∨ p = .minted) ∧ x ∈ (shelf s kind).drop m ∧
      x ∉ firstNames kind m) := by
  have hr : ∀ p x, (p, x) ∈ (retire kind m s).files ↔ _ := retire_cleared h.nothingHeld
  have hhe : NothingHeld (retire kind m s) := fun holder n ht hin =>
    h.nothingHeld holder n ht ((hr _ _).mp hin).1
  rw [declare_grown strict kind m _ p x, present_iff hhe, hr, hr, hr]
  by_cases hh : x ∈ (shelf s kind).drop m
  · -- it is retired, and minted again if its index is one of the first
    obtain ⟨hf, hk⟩ := mem_shelf.mp (mem_of_mem_drop hh)
    have hma := h.marked x ⟨isToken_of_ofKind hk, .inl hf⟩
    by_cases hp : p = .free ∨ p = .minted
    · have hin : (p, x) ∈ s.files := by
        rcases hp with rfl | rfl
        · exact hf
        · exact hma
      simp [hp, hin, hh, hp.symm]
    · obtain ⟨hpf, hpm⟩ := not_or.mp hp
      simp [hpf, hpm]
  · have hm := h.marked x
    have hfi := h.first x
    rw [present_iff h.nothingHeld] at hm
    simp only [hh, and_false, false_and, not_false_eq_true, and_true]
    refine ⟨?_, .inl⟩
    rintro (hin | ⟨rfl, hb⟩ | ⟨-, hx, -, hn⟩)
    · exact hin
    · exact hm hb
    · exact absurd ⟨(firstNames_isKind hx).1, hfi hx⟩ hn

theorem Stocked.lowered (h : Stocked kind m s) :
    Stocked kind m (declare strict kind m (retire kind m s)) := by
  have hl : ∀ p x, _ := h.lower strict
  refine ⟨fun holder x ht hin => h.nothingHeld holder x ht ((hl _ _).mp hin).1, fun x hx =>
    ?_, fun x hx => ?_⟩
  · obtain ⟨ht, hin | ⟨holder, hin⟩⟩ := hx
    · obtain ⟨hin, hs⟩ := (hl _ _).mp hin
      refine (hl _ _).mpr ⟨h.marked x ⟨ht, .inl hin⟩, fun hg => hs ⟨.inl rfl, hg.2⟩⟩
    · exact absurd ((hl _ _).mp hin).1 (h.nothingHeld holder x ht)
  · exact (hl _ _).mpr ⟨h.first x hx, fun hg => hg.2.2 hx⟩

theorem Stocked.length_le (h : Stocked kind m s) : m ≤ (shelf s kind).length := by
  have hs : firstNames kind m ⊆ shelf s kind := fun x hx =>
    mem_shelf.mpr ⟨h.first x hx, (firstNames_isKind hx).2.2⟩
  have hle := (subperm_of_subset (firstNames_nodup kind m) hs).length_le
  rwa [length_firstNames] at hle

theorem Stocked.lower_twice (h : Stocked kind m s)
    (ht : t = declare strict kind m (retire kind m s)) (p : Place) (x : Name) :
    (p, x) ∈ (declare strict kind m (retire kind m t)).files ↔ (p, x) ∈ t.files := by
  have hl : ∀ p x, _ := h.lower strict
  rw [← ht] at hl
  have hs := ht ▸ h.lowered
  have hna : t.names .free = (s.names .free).filter fun x =>
    ¬ (x ∈ (shelf s kind).drop m ∧ x ∉ firstNames kind m) := by
    refine sortNames_eq ((names_nodup s _).filter _) ((sortNames_pairwise _).filter _) fun x => ?_
    rw [← mem_sortNames, ← Ledger.names, mem_names, hl, mem_filter, mem_names, decide_eq_true_eq]
    tauto
  have hsh : shelf t kind = (shelf s kind).take m ++
      ((shelf s kind).drop m).filter fun x =>
      ¬ (x ∈ (shelf s kind).drop m ∧ x ∉ firstNames kind m) := by
    have hlo : ∀ x ∈ (shelf s kind).take m,
      decide (¬ (x ∈ (shelf s kind).drop m ∧ x ∉ firstNames kind m)) = true := by
      intro x hx
      have hn := shelf_nodup s kind
      rw [← take_append_drop m (shelf s kind)] at hn
      exact decide_eq_true fun hb => disjoint_of_nodup_append hn hx hb.1
    have hsp : ∀ (l : List Name) (P : Name → Bool),
      l.filter P = (l.take m).filter P ++ (l.drop m).filter P := by
      intro l P
      rw [← filter_append, take_append_drop]
    rw [shelf, hna, filter_comm, ← shelf, hsp, filter_eq_self.mpr hlo]
  have hd : ∀ x, x ∈ (shelf t kind).drop m → x ∈ firstNames kind m := by
    intro x hx
    have hle : ((shelf s kind).take m).length = m := by
      rw [length_take, Nat.min_eq_left h.length_le]
    rw [hsh, drop_left' hle] at hx
    obtain ⟨hin, hk⟩ := mem_filter.mp hx
    by_contra hno
    exact of_decide_eq_true hk ⟨hin, hno⟩
  rw [hs.lower strict]
  exact ⟨fun hin => hin.1, fun hin => ⟨hin, fun hg => hg.2.2 (hd x hg.2.1)⟩⟩

end

/-- Declaring a lower capacity holds: the kind has `m` tokens, its free ones are those of the first
indices, and retiring and declaring it again changes nothing. -/
def Lowered (strict : Bool) (kind : Name) (n m : Nat) (s : Ledger) : Prop :=
  let t := declare strict kind m (retire kind m (declare strict kind n s))
  supply t kind = m ∧ (∀ x, (.free, x) ∈ t.files ∧ isKind kind x = true ↔
    ∃ i < m, tokenName kind i = x) ∧
    ∀ p x, (p, x) ∈ (declare strict kind m (retire kind m t)).files ↔ (p, x) ∈ t.files

def offered (s : Ledger) (kind : Name) (n : Nat) : List Name :=
  sortNames (shelf s kind ++ (firstNames kind n).filter fun x => (.minted, x) ∉ s.files)

/-- No marker of a first index is without its token, and the lowest names in listing order are of no
later index. -/
def InOrder (s : Ledger) (kind : Name) (n m : Nat) : Prop :=
  (∀ x ∈ firstNames kind m, (.minted, x) ∈ s.files → (.free, x) ∈ s.files) ∧
    ∀ x ∈ (offered s kind n).take m, kindOf x = kind → x ∈ firstNames kind m

instance (s : Ledger) (kind : Name) (n m : Nat) : Decidable (InOrder s kind n m) :=
    inferInstanceAs (Decidable (_ ∧ _))

section

variable {s : Ledger} {kind : Name} {n m : Nat} {strict : Bool}

theorem firstNames_subset (hle : m ≤ n) : firstNames kind m ⊆ firstNames kind n := by
  intro x hx
  obtain ⟨i, hi, rfl⟩ := mem_firstNames.mp hx
  exact mem_firstNames.mpr ⟨i, by omega, rfl⟩

theorem mem_declare_free (hh : NothingHeld s) {x : Name} :
    (.free, x) ∈ (declare strict kind n s).files ↔ (.free, x) ∈ s.files ∨ x ∈ firstNames kind n ∧
    (.minted, x) ∉ s.files := by
  rw [declare_grown strict kind n s, present_iff hh]
  have ht : x ∈ firstNames kind n → isToken x = true := fun hx => (firstNames_isKind hx).1
  simp only [reduceCtorEq, false_and, or_true, true_and, false_or]
  tauto

theorem shelf_declare (strict : Bool) (hh : NothingHeld s) :
    shelf (declare strict kind n s) kind = offered s kind n := by
  refine (sortNames_eq (shelf_nodup _ _) ((sortNames_pairwise _).filter _) fun x => ?_).symm
  have hk : x ∈ firstNames kind n → ofKind kind x = true := fun hx => (firstNames_isKind hx).2.2
  rw [mem_shelf, mem_declare_free hh, mem_append, mem_shelf, mem_filter, decide_eq_true_eq]
  tauto

theorem declare_nothingHeld (hh : NothingHeld s) : NothingHeld (declare strict kind n s) := by
  intro holder x ht hin
  rw [declare_grown strict kind n s] at hin
  exact hh holder x ht (by simpa using hin)

theorem stocked_declare (hle : m ≤ n) (hh : NothingHeld s)
    (hma : ∀ x ∈ firstNames kind m, (.minted, x) ∈ s.files → (.free, x) ∈ s.files) :
    Stocked kind m (declare strict kind n s) := by
  refine ⟨declare_nothingHeld hh, fun x hx => ?_, fun x hx => ?_⟩
  · obtain ⟨ht, hin⟩ := (present_iff (declare_nothingHeld hh)).mp hx
    rw [declare_grown strict kind n s, present_iff hh]
    rcases (mem_declare_free hh).mp hin with hin | ⟨hfi, hn⟩
    · exact .inr (.inl ⟨rfl, ht, hin⟩)
    · by_cases hf : (.free, x) ∈ s.files
      · exact .inr (.inl ⟨rfl, ht, hf⟩)
      · exact .inr (.inr ⟨.inl rfl, hfi, hn, fun hb => hf hb.2⟩)
  · refine (mem_declare_free hh).mpr ?_
    by_cases hm : (.minted, x) ∈ s.files
    · exact .inl (hma x hx hm)
    · exact .inr ⟨firstNames_subset hle hx, hm⟩

theorem marks_of_lowered (hh : NothingHeld s)
    (h : ∀ x ∈ firstNames kind m, (.free, x) ∈
    (declare strict kind m (retire kind m (declare strict kind n s))).files) :
    ∀ x ∈ firstNames kind m, (.minted, x) ∈ s.files → (.free, x) ∈ s.files := by
  intro x hx hma
  by_contra hfree
  have hh' : NothingHeld (declare strict kind n s) := declare_nothingHeld hh
  have hn : (.free, x) ∉ (declare strict kind n s).files := by
    rw [mem_declare_free hh]
    tauto
  have hm := (declare_grown strict kind n s _ _).mpr (.inl hma)
  have hr : ∀ p x, (p, x) ∈ (retire kind m (declare strict kind n s)).files ↔ _ :=
    retire_cleared hh'
  have hh'' : NothingHeld (retire kind m (declare strict kind n s)) :=
    fun holder y ht hin => hh' holder y ht ((hr _ _).mp hin).1
  rcases (mem_declare_free hh'').mp (h x hx) with hin | ⟨-, hne⟩
  · exact hn ((hr _ _).mp hin).1
  · refine hne ((hr _ _).mpr ⟨hm, fun hg => hn ?_⟩)
    exact (mem_shelf.mp (mem_of_mem_drop hg.2)).1

theorem inOrder_of_lowered (hle : m ≤ n) (hh : NothingHeld s) (h : Lowered strict kind n m s) :
    InOrder s kind n m := by
  obtain ⟨-, hf, -⟩ := h
  have hfi := fun x hx => ((hf x).mpr (mem_firstNames.mp hx)).1
  have hm := marks_of_lowered hh hfi
  refine ⟨hm, fun x hx hk => ?_⟩
  rw [← shelf_declare strict hh] at hx
  have hs : Stocked kind m (declare strict kind n s) := stocked_declare hle hh hm
  obtain ⟨hin, hof⟩ := mem_shelf.mp (mem_of_mem_take hx)
  have hn := shelf_nodup (declare strict kind n s) kind
  rw [← take_append_drop m (shelf (declare strict kind n s) kind)] at hn
  have hst := (hs.lower strict .free x).mpr
    ⟨hin, fun hg => disjoint_of_nodup_append hn hx hg.2.1⟩
  have ht : isKind kind x = true := by
    rw [isKind, isToken_of_ofKind hof, hk]
    simp
  exact mem_firstNames.mpr ((hf x).mp ⟨hst, ht⟩)

theorem supply_eq (hh : NothingHeld s)
    (hf : ∀ x, (.free, x) ∈ s.files ∧ isKind kind x = true ↔ ∃ i < m, tokenName kind i = x) :
    supply s kind = m := by
  have hp : ((s.names .free).filter (isKind kind)).Perm (firstNames kind m) := by
    refine (perm_ext_iff_of_nodup ((names_nodup s _).filter _) (firstNames_nodup kind m)).mpr
      fun x => ?_
    rw [mem_filter, mem_names, hf, mem_firstNames]
  rw [supply, custody_of_nothingHeld hh, Ledger.tokens, countP_eq_length_filter, hp.length_eq,
    length_firstNames]
  rfl

theorem lowered_of_inOrder (hle : m ≤ n) (hhe : NothingHeld s) (h : InOrder s kind n m) :
    Lowered strict kind n m s := by
  have hs : Stocked kind m (declare strict kind n s) := stocked_declare hle hhe h.1
  have hl : ∀ p x, _ := hs.lower strict
  have hsh := h.2
  rw [← shelf_declare strict hhe] at hsh
  have hf : ∀ x, (.free, x) ∈ (declare strict kind m
    (retire kind m (declare strict kind n s))).files ∧ isKind kind x = true ↔
      ∃ i < m, tokenName kind i = x := by
    intro x
    rw [← mem_firstNames, hl]
    constructor
    · rintro ⟨⟨hin, hst⟩, ht⟩
      obtain ⟨ht, hk⟩ := Bool.and_eq_true_iff.mp ht
      have hk := eq_of_beq hk
      have hof := hk ▸ ofKind_kindOf ht
      have hm := mem_shelf.mpr ⟨hin, hof⟩
      rw [← take_append_drop m (shelf (declare strict kind n s) kind)] at hm
      rcases mem_append.mp hm with hlo | hh
      · exact hsh x hlo hk
      · by_contra hn
        exact hst ⟨.inl rfl, hh, hn⟩
    · intro hx
      obtain ⟨ht, hk, -⟩ := firstNames_isKind hx
      refine ⟨⟨hs.first x hx, fun hg => hg.2.2 hx⟩, ?_⟩
      rw [isKind, ht, hk]
      simp
  exact ⟨supply_eq hs.lowered.nothingHeld hf, hf, hs.lower_twice rfl⟩

end

/-- Declaring a lower capacity of a literal kind holds exactly where the textual order of the free
names is not against their indices. -/
theorem lowered_iff_inOrder (strict : Bool) (kind : Name) (_ : globFree kind = true) (n m : Nat)
    (hle : m ≤ n) (s : Ledger)
    (hheld : ∀ h x, isToken x = true → (.held h, x) ∉ s.files) : Lowered strict kind n m s ↔
      InOrder s kind n m :=
  ⟨inOrder_of_lowered hle hheld, lowered_of_inOrder hle hheld⟩

theorem lowered_three_two : Lowered true ['m'] 3 2 Ledger.empty ∧ InOrder Ledger.empty ['m'] 3 2 :=
  ⟨(lowered_iff_inOrder true ['m'] rfl 3 2 (by decide) Ledger.empty nofun).mpr
    (by decide), by decide⟩

theorem not_inOrder_empty {m i : Nat} (hi : i < m)
    (hle : nameLe (tokenName kind m) (tokenName kind i) = true) :
    ¬ InOrder Ledger.empty kind (m + 1) m := by
  intro h
  have hm : ∀ x, x ∈ offered Ledger.empty kind (m + 1) ↔ x ∈ firstNames kind (m + 1) := by
    intro x
    rw [offered, mem_sortNames, mem_append, mem_filter, mem_shelf]
    simp [Ledger.empty]
  have hp := (perm_ext_iff_of_nodup (sortNames_nodup _) (firstNames_nodup kind (m + 1))).mpr hm
  have hs : (offered Ledger.empty kind (m + 1)).Pairwise fun a b => nameLe a b = true :=
    sortNames_pairwise _
  rw [← offered] at hp
  have hl := hp.length_eq
  rw [length_firstNames] at hl
  have hne : ∀ j < m, tokenName kind m ≠ tokenName kind j := fun j hj heq =>
    absurd (tokenName_injective kind heq) (by omega)
  have hin := (hm _).mpr (mem_firstNames.mpr ⟨m, Nat.lt_succ_self m, rfl⟩)
  have hin' := (hm _).mpr (mem_firstNames.mpr ⟨i, by omega, rfl⟩)
  rw [← take_append_drop m (offered Ledger.empty kind (m + 1))] at hin hin' hs
  rcases mem_append.mp hin with hlo | hla
  · obtain ⟨j, hj, heq⟩ := mem_firstNames.mp (h.2 _ hlo (kindOf_tokenName kind m))
    exact hne j hj heq.symm
  · have ho : ((offered Ledger.empty kind (m + 1)).drop m).length = 1 := by
      rw [length_drop, hl]
      omega
    obtain ⟨last, hd⟩ := length_eq_one_iff.mp ho
    rw [hd, mem_singleton] at hla
    rw [hd, ← hla] at hin' hs
    have hb := (mem_append.mp hin').resolve_right fun heq => hne i hi (mem_singleton.mp heq).symm
    have hle' := (pairwise_append.mp hs).2.2 _ hb _ (.head _)
    exact hne i hi (nameLe_antisymm hle hle')

theorem lowered_ten_thousand : ¬ Lowered true ['m'] 10001 10000 Ledger.empty := by
  intro h
  have hn : NothingHeld Ledger.empty := nofun
  exact not_inOrder_empty (by decide : 9999 < 10000) (by decide)
    (inOrder_of_lowered (by decide) hn h)

end PrismaBuild.ResourceLedger
