import PrismaBuild.TierHandover

namespace PrismaBuild.TierHoldings

open Prog ResourceLedger Ledger List

variable {s : Holdings}

section

theorem cappedTokens_mirror (hs : Sound s) (holder : Name) (want : Int) :
    cappedTokens s.host (.held (mirrorOf holder)) hostMemoryKind want =
    (s.host.names (.held (mirrorOf holder))).take want.toNat := by
  have ha : (s.host.names (.held (mirrorOf holder))).filter (ofKind hostMemoryKind) =
      s.host.names (.held (mirrorOf holder)) := by
    refine filter_eq_self.mpr fun n hn => ?_
    obtain ⟨hnu, hk⟩ := hs.mirrors holder n (mem_names.mp hn)
    rw [← hk]
    exact ofKind_kindOf hnu.isToken
  rw [cappedTokens, ha]

theorem releaseMirror_ends (hs : Sound s) (holder : Name) (want : Int) :
    Transfer (.held (mirrorOf holder)) .free
    ((s.host.names (.held (mirrorOf holder))).take want.toNat) s.host
      (run (releaseCount (mirrorOf holder) [(hostMemoryKind, want)]) s.host).2 := by
  have hsh := run_of_ends (releaseCount_ends (mirrorOf holder) hostMemoryKind want s.host)
  rw [cappedTokens_mirror hs] at hsh
  have hin : ∀ n ∈ (s.host.names (.held (mirrorOf holder))).take want.toNat,
      (.held (mirrorOf holder), n) ∈ s.host.files := fun n hn => mem_names.mp (mem_of_mem_take hn)
  refine ⟨nofun, (names_nodup _ _).sublist (take_sublist _ _), fun n hn =>
    hs.mirrorToken holder n (hin n hn), hin,
    fun n hn => ?_, hsh⟩
  exact hs.hostUnique.absent (hs.mirrorToken holder n (hin n hn)) (hin n hn) nofun nofun nofun

theorem trim_tier (holder : Name) : (trimHostToOccupancy s holder).tier = s.tier := by
  unfold trimHostToOccupancy
  dsimp only
  split <;> rfl

theorem mirror_trim_self (hs : Sound s) (tier : Ledger) (holder : Name) :
    mirror (trimHostToOccupancy ⟨tier, s.host⟩ holder) holder = min (mirror s holder)
    (tier.tokens (.held holder) ramCapacityKind) := by
  have hm : mirror s holder = s.host.tokens (.held (mirrorOf holder)) hostMemoryKind := rfl
  unfold trimHostToOccupancy
  dsimp only
  split
  next hle =>
    show mirror s holder = _
    omega
  next hgt =>
    have ht := (releaseMirror_ends hs holder
      ((s.host.tokens (.held (mirrorOf holder)) hostMemoryKind : Int) -
      tier.tokens (.held holder) ramCapacityKind)).tokens_source hostMemoryKind
    rw [hs.countP_take] at ht
    unfold mirror at ht hm ⊢
    dsimp only
    omega

theorem mirror_trim_other (hs : Sound s) (tier : Ledger) {holder h : Name} (hne : h ≠ holder) :
    mirror (trimHostToOccupancy ⟨tier, s.host⟩ holder) h = mirror s h := by
  unfold trimHostToOccupancy
  dsimp only
  split
  · rfl
  · have ho : Place.held (mirrorOf h) ≠ .held (mirrorOf holder) :=
      fun he => hne (mirrorOf_inj.mp (Place.held.inj he))
    exact (releaseMirror_ends hs holder _).shifted.tokens_other ho nofun hostMemoryKind

theorem Mirrored.trim (hs : Sound s) (h : Mirrored s) {tier : Ledger} {holder : Name}
    (hd : Drained (.held holder) s.tier tier) :
    Mirrored (trimHostToOccupancy ⟨tier, s.host⟩ holder) := by
  intro k hp
  have hb : mirror s k = s.tier.tokens (.held k) ramCapacityKind := h k hp
  unfold occupancy
  rw [trim_tier]
  by_cases hk : k = holder
  · subst hk
    have hle := hd.tokens_le k ramCapacityKind
    rw [mirror_trim_self hs]
    dsimp only
    omega
  · have hne : Place.held k ≠ .held holder := fun he => hk (Place.held.inj he)
    rw [mirror_trim_other hs tier hk, hb, ← hd.tokens_other hne]

end

section

theorem released_mirrored {α : Type} {p : LedgerProg (Except Failure α)} {holder : Name}
    (hs : Sound s) (h : Mirrored s)
    (hdr : Issues (Drains Unheld (.held holder)) p) (hok : Succeeds p) :
      Mirrored (released true p s holder).2 := by
  have hd := run_of_ends (Issues.drained hdr s.tier)
  have he := run_of_ends (hok s.tier)
  unfold released
  generalize run p s.tier = ended at hd he
  obtain ⟨outcome, tier⟩ := ended
  obtain ⟨value, rfl⟩ := he
  exact h.trim hs hd

theorem releaseUnspent_mirrored (hs : Sound s) (h : Mirrored s) (holder : Name) (mode : Unspent) :
    Mirrored (releaseUnspent true s holder mode).2 := by
  cases mode with
  | whole =>
    exact released_mirrored hs h ((emptyIntoFree_drains (.inl rfl) _).andThen fun _ => trivial)
      ((release_succeeds holder).andThen fun _ => Succeeds.ret _)
  | keep names =>
    exact released_mirrored hs h ((releasePicked_drains (.inl rfl) _ _).andThen fun _ => trivial)
      ((releasePicked_succeeds holder _).andThen fun _ => Succeeds.ret _)
  | counts counts =>
    exact released_mirrored hs h ((releaseCount_drains (.inl rfl) _ _).andThen fun _ => trivial)
      ((releaseCount_succeeds holder counts).andThen fun _ => Succeeds.ret _)

theorem settleEgress_mirrored (hs : Sound s) (h : Mirrored s) (key : Name)
    (destroy free : List (Name × Int)) :
    Mirrored (settleEgress true s key destroy free).2 := by
  refine released_mirrored hs h ?_ ?_
  · refine (retireHeld_drains (.inr rfl) key destroy).andThen fun destroyed => ?_
    exact (releaseCount_drains (.inl rfl) key free).andThen fun _ => trivial
  · refine (retireHeld_succeeds key destroy).andThen fun destroyed => ?_
    exact (releaseCount_succeeds key free).andThen fun _ => Succeeds.ret _

end

/-- The state lets the call keep the host halves in step: a counted handover must not leave
occupancy behind while it takes a fill token along. -/
def Op.KeepsCount (s : Holdings) : Op → Prop
  | .handoverCount fromKey toKey count => Countable s fromKey toKey count
  | _ => True

section

variable {holder k : Name}

theorem tokens_heldBy_other (hne : k ≠ holder) (names : List Name) (kind : Name) :
    (heldBy holder names).tokens (.held k) kind = 0 := by
  refine countP_eq_zero.mpr fun n hn => ?_
  have hp := (mem_heldBy.mp (mem_names.mp hn)).1
  exact absurd (Place.held.inj hp) hne

def launch : Holder := ⟨"launch".toList, by decide⟩
def mover : Holder := ⟨"mover".toList, by decide⟩

/-- A holder with one token of each tier kind, and its host half. -/
def mixed : Holdings where
  tier := heldBy launch ["fill_mb_s_pool_side-0000".toList, "ram_gib-0000".toList]
  host := heldBy (mirrorOf launch) ["mem_gb-0000".toList]

def anEntry : Entry := ⟨"17".toList, "host.1.0".toList, true, true⟩

theorem mixed_sound : Sound mixed where
  tierUnique := unique_heldBy _ _
  hostUnique := unique_heldBy _ _
  tierFree n hn := nomatch (mem_heldBy.mp hn).1
  tierHeld h n hn := by
    rcases mem_cons.mp (mem_heldBy.mp hn).2 with rfl | hn
    · decide
    · rw [mem_singleton.mp hn]
      decide
  hostFree n hn := nomatch (mem_heldBy.mp hn).1
  mirrors h n hn := by
    rw [mem_singleton.mp (mem_heldBy.mp hn).2]
    decide

theorem handle_not_heldBy (e : Entry) (hk : isPrivateHolder k = false) (names : List Name)
    (n : Name) :
    (.held (e.handleOf holder), n) ∉ (heldBy k names).files := by
  intro hn
  have heq := Place.held.inj (mem_heldBy.mp hn).1
  rw [← heq, isPrivateHolder_handleOf] at hk
  cases hk

theorem mixed_fresh : Fresh mixed anEntry :=
  fun _ n => ⟨handle_not_heldBy anEntry rfl _ n,
    handle_not_heldBy anEntry (isPrivateHolder_mirrorOf launch) _ n⟩

theorem mixed_mirrored : Mirrored mixed := by
  intro h _
  by_cases hh : h = launch
  · subst hh
    decide
  · have hm : mirrorOf h ≠ mirrorOf launch := fun he => hh (mirrorOf_inj.mp he)
    exact (tokens_heldBy_other hm _ _).trans (tokens_heldBy_other hh _ _).symm

end

/-- Every call leaves the host halves in step with the tier, a counted handover exactly when it
moves occupancy only or all the occupancy its source has. -/
theorem perform_mirrored_iff (s : Holdings) (e : Entry) (op : Op) (hs : Sound s) (he : Fresh s e)
    (h : Mirrored s) :
    Mirrored (op.perform s e) ↔ op.KeepsCount s := by
  cases op with
  | take holder demand => exact iff_of_true (take_mirrored hs he h holder demand) trivial
  | takeAdvance grant gib kind =>
    exact iff_of_true (takeAdvance_mirrored hs he h grant gib kind) trivial
  | handover fromKey toKey => exact iff_of_true (handover_mirrored hs h fromKey toKey) trivial
  | handoverNamed source target names =>
    exact iff_of_true (handoverNamed_mirrored hs h source target names) trivial
  | handoverCount fromKey toKey count => exact handoverCount_mirrored_iff hs h fromKey toKey count
  | releaseUnspent holder mode =>
    exact iff_of_true (releaseUnspent_mirrored hs h holder mode) trivial
  | egress holder =>
    exact iff_of_true (released_mirrored hs h (emptyIntoFree_drains (.inl rfl) _)
      (release_succeeds holder)) trivial
  | settleEgress key destroy free =>
    exact iff_of_true (settleEgress_mirrored hs h key destroy free) trivial
  | cancelFence holder =>
    exact iff_of_true
      (h.trim hs (run_of_ends (Issues.drained (emptyIntoFree_drains (.inl rfl) (.held holder))
      s.tier))) trivial

/-- With two tokens handed over the occupancy goes along with the fill token, and the halves stay in
step. -/
theorem mixed_handoverCount_two : (Op.handoverCount launch mover 2).KeepsCount mixed ∧
    Mirrored ((Op.handoverCount launch mover 2).perform mixed anEntry) := by
  have hk : (Op.handoverCount launch mover 2).KeepsCount mixed := by
    unfold Op.KeepsCount Countable
    decide
  exact ⟨hk, (perform_mirrored_iff mixed anEntry (.handoverCount launch mover 2) mixed_sound
    mixed_fresh
    mixed_mirrored).mpr hk⟩

/-- One token is handed over, by name order the fill token, and one token of memory goes with it. -/
theorem mixed_handoverCount_one : Sound mixed ∧ Fresh mixed anEntry ∧ Mirrored mixed ∧
      occupancy ((Op.handoverCount launch mover 1).perform mixed anEntry) launch = 1 ∧
      mirror ((Op.handoverCount launch mover 1).perform mixed anEntry) launch = 0 ∧
      ¬ Mirrored ((Op.handoverCount launch mover 1).perform mixed anEntry) := by
  have ho : occupancy ((Op.handoverCount launch mover 1).perform mixed anEntry) launch = 1 := by
    decide
  have hm : mirror ((Op.handoverCount launch mover 1).perform mixed anEntry) launch = 0 := by decide
  refine ⟨mixed_sound, mixed_fresh, mixed_mirrored, ho, hm, fun h => ?_⟩
  have hb := h launch rfl
  omega

end PrismaBuild.TierHoldings
