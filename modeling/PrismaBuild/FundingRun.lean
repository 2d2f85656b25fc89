import PrismaBuild.Funding
import PrismaBuild.ActionKey

namespace PrismaBuild.Funding

open Contract Generations List

variable {F : Type} [FloatFormat F]

/-- The binding of one generation. A timestamp may be written as another number of the same value.
-/
structure SameBinding (a b : WindowRecord F) : Prop where
  tierId : a.tierId = b.tierId
  consumerActionKey : a.consumerActionKey = b.consumerActionKey
  planSha256 : a.planSha256 = b.planSha256
  moverActionKey : a.moverActionKey = b.moverActionKey
  rangeStartBytes : a.rangeStartBytes = b.rangeStartBytes
  rangeEndBytes : a.rangeEndBytes = b.rangeEndBytes
  kind : a.kind = b.kind
  tokens : a.tokens = b.tokens
  publishedUnix : a.publishedUnix = b.publishedUnix ∨ a.publishedUnix.same b.publishedUnix

theorem SameBinding.refl (a : WindowRecord F) : SameBinding a a :=
  ⟨rfl, rfl, rfl, rfl, rfl, rfl, rfl, rfl, .inl rfl⟩

theorem Stamp.same_trans {a b c : Stamp F} (h : a.same b) (h' : b.same c) : a.same c := by
  obtain ⟨p, ha, hb⟩ := h
  obtain ⟨q, hb', hc⟩ := h'
  obtain rfl : p = q := Option.some.inj (hb.symm.trans hb')
  exact ⟨p, ha, hc⟩

theorem SameBinding.trans {a b c : WindowRecord F} (h : SameBinding a b) (h' : SameBinding b c) :
    SameBinding a c where
  tierId := h.tierId.trans h'.tierId
  consumerActionKey := h.consumerActionKey.trans h'.consumerActionKey
  planSha256 := h.planSha256.trans h'.planSha256
  moverActionKey := h.moverActionKey.trans h'.moverActionKey
  rangeStartBytes := h.rangeStartBytes.trans h'.rangeStartBytes
  rangeEndBytes := h.rangeEndBytes.trans h'.rangeEndBytes
  kind := h.kind.trans h'.kind
  tokens := h.tokens.trans h'.tokens
  publishedUnix := by
    rcases h.publishedUnix with heq | hs
    · rw [heq]
      exact h'.publishedUnix
    · rcases h'.publishedUnix with heq | hs'
      · rw [← heq]
        exact .inr hs
      · exact .inr (Stamp.same_trans hs hs')

theorem differing_eq_nil {a b : WindowRecord F} (h : a.differing b = []) : SameBinding a b := by
  simp only [WindowRecord.differing, filterMap_eq_nil_iff, forall_mem_cons, not_mem_nil] at h
  simp only [ite_eq_left_iff, reduceCtorEq, imp_false, Bool.not_eq_true, Bool.not_eq_false,
    decide_eq_true_eq, not_not] at h
  obtain ⟨h1, h2, h3, h4, h5, h6, h7, h8, -, h10, -⟩ := h
  exact ⟨h1, h2, h3, h4, h5, h6, h7, h8, .inr h10⟩

def windows (F : Type) [FloatFormat F] : Versioning (WindowRecord F) Nonce FundingState where
  generation := WindowRecord.generation
  state := WindowRecord.state
  same := SameBinding
  born := .reserved
  step a b := b ∈ transitions a
  same_refl := SameBinding.refl
  same_trans := SameBinding.trans

/-- The funding records on file, and the generations that each file has held. -/
abbrev Files (F : Type) := Name × Name → Slot (WindowRecord F) Nonce

def Files.current (s : Files F) (path : Name × Name) : Option (WindowRecord F) := (s path).current

def Files.empty (F : Type) : Files F := fun _ => ⟨none, []⟩

def Files.next (s : Files F) (c : Call F) : Files F :=
  match c.outcome s.current with
  | .filed r => Function.update s r.path ((s r.path).file (windows F) r)
  | _ => s

inductive Replaces (filed : Option (WindowRecord F)) (r : WindowRecord F) : Prop
  | birth (hnone : filed = none) (hborn : r.state = .reserved)
  | advance (current : WindowRecord F) (hfiled : filed = some current)
    (hgen : current.generation = r.generation)
      (hsame : SameBinding current r) (hstep : current.state = r.state ∨
      r.state ∈ transitions current.state)
  | rotate (current : WindowRecord F) (hfiled : filed = some current)
    (hgen : current.generation ≠ r.generation)
      (hborn : r.state = .reserved)

variable {filed : Option (WindowRecord F)} {expectGeneration generation : Option Name}
    {checked : WindowRecord F}
  {rotate : Bool}

theorem refuseWrite_ok (hr : rotate = true → checked.state = .reserved)
    (h : refuseWrite filed checked expectGeneration rotate = .ok ()) : Replaces filed checked := by
  unfold refuseWrite at h
  cases filed with
  | none =>
    obtain ⟨-, h⟩ := guard_ok.mp h
    obtain ⟨hb, h⟩ := guard_ok.mp h
    cases rotate with
    | true => exact .birth rfl (hr rfl)
    | false => exact .birth rfl (by simpa using hb)
  | some current =>
    obtain ⟨hg, h⟩ := guard_ok.mp h
    cases rotate with
    | true =>
      simp only [if_true] at h
      obtain ⟨hne, h⟩ := guard_ok.mp h
      exact .rotate current rfl (Ne.symm hne) (hr rfl)
    | false =>
      simp only [Bool.false_eq_true, if_false] at h
      have hs : checked.generation = current.generation := by
        by_contra hne
        exact hg (.inr ⟨rfl, hne⟩)
      split at h
      next => cases h
      next hd =>
        obtain ⟨hst, h⟩ := guard_ok.mp h
        refine .advance current rfl hs.symm (differing_eq_nil hd) ?_
        by_cases heq : checked.state = current.state
        · exact .inl heq.symm
        · by_cases hm : checked.state ∈ transitions current.state
          · exact .inr hm
          · exact absurd ⟨heq, hm⟩ hst

variable {fault : Option Fault} {r : WindowRecord F}

theorem writeLocked_ok
    (h : writeLocked fault filed checked expectGeneration rotate = .ok r) :
    checked = r ∧ Replaces filed r := by
  unfold writeLocked at h
  obtain ⟨hb, h⟩ := guard_ok.mp h
  obtain ⟨-, h⟩ := guard_ok.mp h
  obtain ⟨_, hr, h⟩ := bind_ok.mp h
  obtain ⟨-, h⟩ := guard_ok.mp h
  cases h
  refine ⟨rfl, refuseWrite_ok (fun hro => ?_) hr⟩
  by_contra hne
  exact hb ⟨hro, hne⟩

variable {acquired : Bool}

theorem writeWindow_ok
    (h : writeWindow acquired fault filed checked expectGeneration = .ok r) :
    checked = r ∧ Replaces filed r := by
  unfold writeWindow at h
  obtain ⟨-, h⟩ := ite_ok.mp h
  exact writeLocked_ok h

omit [FloatFormat F] in
theorem ofWrite_filed {result : Except String (WindowRecord F)}
    (h : Outcome.ofWrite result = .filed r) : result = .ok r := by
  cases result with
  | error message => cases h
  | ok r' =>
    cases h
    rfl

variable {expect advanceTo : FundingState} {now : Json F}

theorem advanceLocked_filed (h : advanceLocked acquired fault filed expect advanceTo generation
    now = .filed r) :
    ∃ current, filed = some current ∧ r = { current with state := advanceTo, unix := some now } ∧
      Replaces filed r := by
  unfold advanceLocked at h
  split at h
  next => cases h
  next current =>
    split at h
    · cases h
    · split at h
      · cases h
      · split at h
        · cases h
        · split at h
          · cases h
          · split at h
            next written hw =>
              cases h
              obtain ⟨rfl, hr⟩ := writeWindow_ok hw
              exact ⟨current, rfl, rfl, hr⟩
            next => cases h

theorem advanceWindow_filed (h : advanceWindow acquired fault filed expect advanceTo generation
    now = .filed r) :
    ∃ current, filed = some current ∧ r = { current with state := advanceTo, unix := some now } ∧
      Replaces filed r := by
  unfold advanceWindow at h
  split at h
  · exact advanceLocked_filed h
  · cases h

theorem advanceWindow_ne_unchanged (hne : expect ≠ advanceTo) :
    advanceWindow acquired fault filed expect advanceTo generation now ≠ .unchanged := by
  intro h
  unfold advanceWindow at h
  split at h
  · unfold advanceLocked at h
    split at h
    · cases h
    · rw [if_neg hne] at h
      split at h
      · cases h
      · split at h
        · cases h
        · split at h
          · cases h
          · split at h <;> cases h
  · cases h

def Files.Placed (s : Files F) : Prop := ∀ path r, s.current path = some r → r.path = path

variable {s : Files F} {c : Call F}

theorem Call.outcome_filed (hs : s.Placed) (h : c.outcome s.current = .filed r) :
    Replaces (s.current r.path) r := by
  have ha : ∀ {path : Name × Name} {current : WindowRecord F}, s.current path = some current →
      current.path = r.path → Replaces (s.current path) r → Replaces (s.current r.path) r := by
    intro path current hc hp hr
    rw [← hp, hs path current hc]
    exact hr
  cases c with
  | writeWindow acquired fault record expectGeneration =>
    obtain ⟨checked, -, hw⟩ := bind_ok.mp (ofWrite_filed h)
    obtain ⟨rfl, hr⟩ := writeWindow_ok hw
    exact hr
  | rotate fault record expectGeneration =>
    obtain ⟨checked, -, hw⟩ := bind_ok.mp (ofWrite_filed h)
    obtain ⟨rfl, hr⟩ := writeLocked_ok hw
    exact hr
  | advanceWindow acquired fault path expect advanceTo generation now =>
    obtain ⟨current, hc, rfl, hr⟩ := advanceWindow_filed h
    exact ha hc rfl hr
  | advanceLocked acquired fault path expect advanceTo generation now =>
    obtain ⟨current, hc, rfl, hr⟩ := advanceLocked_filed h
    exact ha hc rfl hr

theorem Files.next_filed (h : c.outcome s.current = .filed r) :
    s.next c = Function.update s r.path ((s r.path).file (windows F) r) := by
  simp only [Files.next, h]

theorem Files.next_refused (h : ∀ r, c.outcome s.current ≠ .filed r) : s.next c = s := by
  unfold Files.next
  split
  next r hr => exact absurd hr (h r)
  next => rfl

theorem Files.Placed.next (hs : s.Placed) (c : Call F) : (s.next c).Placed := by
  by_cases hf : ∃ r, c.outcome s.current = .filed r
  · obtain ⟨r, hr⟩ := hf
    rw [Files.next_filed hr]
    intro path r' hr'
    by_cases hp : path = r.path
    · subst hp
      simp only [Files.current, Function.update_self] at hr'
      cases hr'
      rfl
    · simp only [Files.current, Function.update_of_ne hp] at hr'
      exact hs path r' hr'
  · rw [Files.next_refused fun r hr => hf ⟨r, hr⟩]
    exact hs

/-- A generation that comes on file is drawn fresh: its file never held it before. -/
def Fresh (s : Files F) (c : Call F) : Prop :=
  ∀ r, c.outcome s.current = .filed r →
    (∀ a, s.current r.path = some a → a.generation ≠ r.generation) →
    r.generation ∉ (s r.path).used

theorem next_move (hs : s.Placed) (hfr : Fresh s c) (path : Name × Name) :
    Move (windows F) (s path) (s.next c path) := by
  by_cases hf : ∃ r, c.outcome s.current = .filed r
  · obtain ⟨r, hr⟩ := hf
    rw [Files.next_filed hr]
    by_cases hp : path = r.path
    · subst hp
      rw [Function.update_self]
      cases c.outcome_filed hs hr with
      | birth hn hb =>
        refine .birth hn hb (hfr r hr fun a ha => ?_)
        cases hn.symm.trans ha
      | advance current hc hg hsa hst => exact .advance hc hg hsa hst
      | rotate current hc hg hb =>
        refine .rotate hc hb (hfr r hr fun a ha => ?_)
        obtain rfl : current = a := Option.some.inj (hc.symm.trans ha)
        exact hg
    · rw [Function.update_of_ne hp]
      exact .keep _
  · rw [Files.next_refused fun r hr => hf ⟨r, hr⟩]
    exact .keep _

theorem later_of_fresh (hs : s.Placed) {calls : List (Call F)}
    (hf : Throughout Files.next Fresh s calls) (path : Name × Name) :
    Later (windows F) (s path) (runTrace Files.next s calls path) := by
  induction calls generalizing s with
  | nil => exact .refl
  | cons c calls ih => exact (ih (hs.next c) hf.2).head (next_move hs hf.1 path)

theorem runTrace_placed (hs : s.Placed) (calls : List (Call F)) :
    (runTrace Files.next s calls).Placed :=
  runTrace_keeps Files.Placed (fun _ c h => h.next c) hs calls

omit [FloatFormat F] in
theorem empty_placed : (Files.empty F).Placed := nofun

/-- The file of one mover and tier through a run, with the records it holds after each call. -/
structure AppendOnly (calls : List (Call F)) (path : Name × Name) : Prop where
  /-- Within one generation the binding never changes. -/
  binding {earlier later : List (Call F)} (hearlier : earlier <+: later) (hlater : later <+: calls)
    {a b : WindowRecord F} (ha : (runTrace Files.next (Files.empty F) earlier).current path = some
    a)
    (hb : (runTrace Files.next (Files.empty F) later).current path = some b)
      (hgen : a.generation = b.generation) :
    SameBinding a b
  /-- A call that leaves the generation on file takes its state one step of the table, or none. -/
  step {before : List (Call F)} {c : Call F} (hbefore : before ++ [c] <+: calls)
    {a b : WindowRecord F}
    (ha : (runTrace Files.next (Files.empty F) before).current path = some a)
    (hb : (runTrace Files.next (Files.empty F) (before ++ [c])).current path = some b)
    (hgen : a.generation = b.generation) : a.state = b.state ∨ b.state ∈ transitions a.state
  /-- Consumed and released are final. -/
  final {earlier later : List (Call F)} (hearlier : earlier <+: later) (hlater : later <+: calls)
    {a b : WindowRecord F} (ha : (runTrace Files.next (Files.empty F) earlier).current path = some
    a)
    (hb : (runTrace Files.next (Files.empty F) later).current path = some b)
      (hgen : a.generation = b.generation)
    (hstate : a.state = .consumed ∨ a.state = .released) : b.state = a.state
  /-- A generation comes on file reserved. -/
  born {before : List (Call F)} {c : Call F} (hbefore : before ++ [c] <+: calls)
    {b : WindowRecord F}
    (hb : (runTrace Files.next (Files.empty F) (before ++ [c])).current path = some b)
    (hnew : ∀ a, (runTrace Files.next (Files.empty F) before).current path = some a →
      a.generation ≠ b.generation) :
    b.state = .reserved
  /-- A generation that was replaced is not on file again. -/
  replaced {first second third : List (Call F)} (hfirst : first <+: second)
    (hsecond : second <+: third)
    (hthird : third <+: calls) {a b c : WindowRecord F}
    (ha : (runTrace Files.next (Files.empty F) first).current path = some a)
    (hb : (runTrace Files.next (Files.empty F) second).current path = some b)
    (hc : (runTrace Files.next (Files.empty F) third).current path = some c)
      (hab : a.generation ≠ b.generation) :
    a.generation ≠ c.generation
  /-- A refused call leaves the record as it is. -/
  refused {before : List (Call F)} {c : Call F} (hbefore : before ++ [c] <+: calls)
    (hrefused : (c.outcome (runTrace Files.next (Files.empty F) before).current).refused) :
    (runTrace Files.next (Files.empty F) (before ++ [c])).current path =
      (runTrace Files.next (Files.empty F) before).current path
  /-- At most one call takes a generation from transferring to consumed. -/
  consumed (g : Nonce) :
    tally Files.next (fun s c => crosses (windows F) g .transferring .consumed (s path)
    (s.next c path))
      (Files.empty F) calls ≤ 1

theorem path_final {x y : FundingState} (hx : transitions x = [])
    (h : Relation.ReflTransGen (fun x y => y ∈ transitions x) x y) : y = x := by
  rcases Relation.ReflTransGen.cases_head h with heq | ⟨z, hz, -⟩
  · exact heq.symm
  · rw [hx] at hz
    cases hz

/-- Where every generation that comes on file is drawn fresh, a generation keeps its binding through
any run, and its state only follows the table of transitions. -/
theorem funding_appendOnly {calls : List (Call F)}
    (hfresh : Throughout Files.next Fresh (Files.empty F) calls)
    (path : Name × Name) : AppendOnly calls path := by
  have hsta : ∀ {before}, before <+: calls →
    Throughout Files.next Fresh (Files.empty F) before := by
    intro before hbe
    obtain ⟨rest, rfl⟩ := hbe
    exact hfresh.of_append.1
  have ht : ∀ {before}, before <+: calls →
      (runTrace Files.next (Files.empty F) before path).Tracked (windows F) := by
    intro before hbe
    exact (later_of_fresh empty_placed (hsta hbe) path).tracked nofun
  have hsi : ∀ {earlier later}, earlier <+: later → later <+: calls →
      Later (windows F) (runTrace Files.next (Files.empty F) earlier path)
        (runTrace Files.next (Files.empty F) later path) := by
    intro earlier later he hl
    obtain ⟨rest, rfl⟩ := he
    rw [runTrace_append]
    exact later_of_fresh (runTrace_placed empty_placed earlier) (hsta hl).of_append.2 path
  constructor
  case binding =>
    intro earlier later he hl a b ha hb hg
    exact ((hsi he hl).advanced (ht (he.trans hl)) ha hb hg).1
  case step =>
    intro before c hbe a b ha hb hg
    have hm := next_move (runTrace_placed empty_placed before) (hsta hbe).of_append.2.1 path
    rw [runTrace_append] at hb
    exact hm.step (ht ((prefix_append _ _).trans hbe)) ha hb hg
  case final =>
    intro earlier later he hl a b ha hb hg hst
    have hp := ((hsi he hl).advanced (ht (he.trans hl)) ha hb hg).2
    refine path_final ?_ hp
    rcases hst with hst | hst
    · exact hst ▸ rfl
    · exact hst ▸ rfl
  case born =>
    intro before c hbe b hb hn
    have hla := (hsta hbe).of_append.2.1
    rw [runTrace_append] at hb
    exact (next_move (runTrace_placed empty_placed before) hla path).born hb hn
  case replaced =>
    intro first second third hf hse hth a b c ha hb hc hab
    have hs' := hse.trans hth
    exact (hsi hf hs').not_again (ht (hf.trans hs')) (hsi hse hth) ha hb hc hab
  case refused =>
    intro before c hbe hre
    rw [runTrace_append]
    have hsa : Files.next (runTrace Files.next (Files.empty F) before) c = runTrace Files.next
      (Files.empty F) before := by
      refine Files.next_refused fun r hr => ?_
      rw [hr] at hre
      cases hre
    exact congrFun (congrArg Files.current hsa) path
  case consumed =>
    intro g
    have hba : ¬ (windows F).Path .consumed .transferring := fun h => nomatch path_final rfl h
    refine Nat.le_trans (tally_le_of_throughout
      (I := fun s : Files F => s.Placed ∧ (s path).Tracked (windows F)) _
      (fun s => chances (windows F) g .transferring (s path)) (fun s c hs hc => ?_)
      ⟨empty_placed, nofun⟩ hfresh) (chances_le_one _ _ _)
    have hm := next_move hs.1 hc path
    exact ⟨⟨hs.1.next c, hm.tracked hs.2⟩, hm.chances_le hs.2 (by decide) hba⟩

theorem advanceWindow_fresh (hs : s.Placed) {path : Name × Name} :
    Fresh s (.advanceWindow acquired fault path expect advanceTo generation now) := by
  intro r hr hn
  obtain ⟨current, hc, rfl, -⟩ := advanceWindow_filed hr
  rw [← hs path current hc] at hc
  exact absurd rfl (hn current hc)

section

open PrismaBuild.Action

def demoWindow : Json ZeroOne :=
  .obj [("consumer_action_key", .str (List.replicate 64 'a')),
    ("generation", .str (List.replicate 32 '0')),
    ("kind", .str "stage_gib"), ("mover_action_key", .str (List.replicate 64 'b')),
    ("plan_sha256", .str (List.replicate 64 'c')), ("published_unix", .float .one),
    ("range_end_bytes", .int 8),
    ("range_start_bytes", .int 0), ("schema", .str schemaV1), ("state", .str "reserved"),
    ("tier_id", .str "stage"),
    ("tokens", .arr [.str "stage_gib-0000"]), ("unix", .float .one)]

def demoPath : Name × Name := (List.replicate 64 'b', "stage")

def demoCalls : List (Call ZeroOne) :=
  [.writeWindow true none demoWindow none,
    .advanceWindow true none demoPath .reserved .transferring none (.float .one),
    .advanceWindow true none demoPath .transferring .consumed none (.float .one),
    .advanceWindow true none demoPath .transferring .consumed none (.float .one)]

theorem demoCalls_appendOnly :
    ((runTrace Files.next (Files.empty ZeroOne) demoCalls).current demoPath).map
    WindowRecord.state = some .consumed ∧
      AppendOnly demoCalls demoPath := by
  have hp := empty_placed (F := ZeroOne)
  have hb := hp.next (.writeWindow true none demoWindow none)
  have hm := hb.next (.advanceWindow true none demoPath .reserved .transferring none (.float .one))
  have hs := hm.next (.advanceWindow true none demoPath .transferring .consumed none (.float .one))
  have hf : Throughout Files.next Fresh (Files.empty ZeroOne) demoCalls :=
    ⟨fun _ _ _ => not_mem_nil, advanceWindow_fresh hb, advanceWindow_fresh hm,
      advanceWindow_fresh hs, trivial⟩
  exact ⟨by decide +kernel, funding_appendOnly hf demoPath⟩

end

end PrismaBuild.Funding
