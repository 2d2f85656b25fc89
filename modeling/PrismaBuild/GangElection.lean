import PrismaBuild.Dict
import PrismaBuild.NameOrder

namespace PrismaBuild.Gang

open List

variable {T : Type} [LinearOrder T]

structure GangMember (T : Type) where
  actionKey : Name
  publishedUnix : T

/-- A gang record with the members it names, which are at least one. -/
structure GangRecord (T : Type) where
  group : Name
  priority : Int
  first : GangMember T
  others : List (GangMember T)

def GangRecord.members (record : GangRecord T) : List (GangMember T) :=
    record.first :: record.others

/-- Higher priority, then earlier publication, then the name of the group. -/
abbrev Rank (T : Type) := Int ×ₗ T ×ₗ Name

def rank (record : GangRecord T) : Rank T :=
  let first := (record.others.map GangMember.publishedUnix).foldl min record.first.publishedUnix
  toLex (-record.priority, toLex (first, record.group))

structure Election where
  (actionKey host : Name)
  priority : Int

structure FiledGang (T : Type) where
  record : GangRecord T
  elections : List (Nat × Election)
  indexed : (elections.map Prod.fst).Nodup

structure CensusRow (T : Type) where
  publishedUnix : Option T
  resources : Option (List (Name × Int))

inductive MemberState
  | ready
  | claimed
  | terminal
  deriving DecidableEq

/-- The rows of every key, and the versions that are ready and claimed. -/
structure Census (T : Type) where
  rows : Name → List (CensusRow T)
  (readyVersions claimedVersions : List (Name × T))

structure ElectionRow (T : Type) where
  group : Name
  index : Nat
  (actionKey host : Name)
  priority : Int
  rank : Rank T
  demand : Option (List (Name × Int))
  memberState : MemberState

def memberDemand (census : Census T) (record : GangRecord T) (key : Name) :
    Option (List (Name × Int)) :=
  record.members.findSome? fun member =>
    if member.actionKey ≠ key then none
    else (census.rows key).findSome? fun row =>
      if row.publishedUnix ≠ some member.publishedUnix then none
      else row.resources.filter fun resources => resources.all fun item => decide (0 ≤ item.2)

def electedMemberState (census : Census T) (record : GangRecord T) (key : Name) : MemberState :=
  match record.members.find? fun member => member.actionKey = key with
  | none => .terminal
  | some member =>
    if (key, member.publishedUnix) ∈ census.claimedVersions then .claimed
    else if (key, member.publishedUnix) ∈ census.readyVersions then .ready
    else .terminal

def GangRecord.live (census : Census T) (record : GangRecord T) : Bool :=
  record.members.any fun member => (census.rows member.actionKey).any fun row =>
    row.publishedUnix = some member.publishedUnix

def electionRow (census : Census T) (record : GangRecord T) (index : Nat) (election : Election) :
    ElectionRow T :=
  ⟨record.group, index, election.actionKey, election.host, election.priority, rank record,
    memberDemand census record election.actionKey,
    electedMemberState census record election.actionKey⟩

def gangElectionRows (census : Census T) (gang : FiledGang T) : List (Name × ElectionRow T) :=
  if gang.record.live census then
    Dict.update [] (gang.elections.map fun item =>
      (item.2.actionKey, electionRow census gang.record item.1 item.2))
  else []

def gangElections (census : Census T) (gangs : List (FiledGang T)) : List (Name × ElectionRow T) :=
  gangs.foldl (fun found gang => Dict.update found (gangElectionRows census gang)) []

structure Declaration where
  group : Name
  index : Nat

inductive Position (T : Type)
  | rankedBehind (election : ElectionRow T)
  | electionPosition (mine : Option (ElectionRow T)) (siblingHere needsElection : Bool)

def standing (elections : List (Name × ElectionRow T)) (group : Name) :
    List (Nat × ElectionRow T) :=
  Dict.update [] (((elections.map Prod.snd).filter fun election => election.group = group).map
    fun election =>
    (election.index, election))

def ahead (elections : List (Name × ElectionRow T)) (record : GangRecord T) (group host : Name) :
    List (ElectionRow T) :=
  (elections.map Prod.snd).filter fun election =>
    election.group ≠ group ∧ election.host ∈ host :: (standing elections group).map
      (fun item => item.2.host) ∧
      election.rank < rank record

def electionPosition (elections : List (Name × ElectionRow T)) (record : GangRecord T)
    (declaration : Declaration) (host : Name) :
    Position T :=
  let standing := standing elections declaration.group
  let mine := standing.lookup declaration.index
  let siblingHere := standing.any fun item => item.1 ≠ declaration.index ∧ item.2.host = host
  match (ahead elections record declaration.group host).mergeSort fun a b => a.rank ≤ b.rank with
  | election :: _ => .rankedBehind election
  | [] => .electionPosition mine siblingHere (mine.isNone && !siblingHere)

def HoldsOn (elections : List (Name × ElectionRow T)) (gang : FiledGang T) (host : Name) : Prop :=
  ∃ election ∈ elections.map Prod.snd, election.group = gang.record.group ∧ election.host = host

/-- The gang is ranked behind, on this host and for the member of this index, because of the
election. -/
def BehindBy (elections : List (Name × ElectionRow T)) (gang : FiledGang T) (index : Nat)
    (host : Name) (election : ElectionRow T) : Prop :=
  electionPosition elections gang.record ⟨gang.record.group, index⟩ host = .rankedBehind election

section

variable {elections : List (Name × ElectionRow T)} {gang : FiledGang T} {index : Nat} {host : Name}
    {election : ElectionRow T}

theorem electionPosition_of_ahead (h : election ∈ ahead elections gang.record gang.record.group
    host) (index : Nat) :
    ∃ best, BehindBy elections gang index host best := by
  unfold BehindBy electionPosition
  cases hs : (ahead elections gang.record gang.record.group host).mergeSort fun a b =>
    a.rank ≤ b.rank with
  | nil =>
    have hp := mergeSort_perm (ahead elections gang.record gang.record.group host) fun a b =>
      a.rank ≤ b.rank
    rw [hs] at hp
    cases hp.mem_iff.mpr h
  | cons best rest => exact ⟨best, rfl⟩

theorem mem_ahead_of_behindBy (h : BehindBy elections gang index host election) :
    election ∈ ahead elections gang.record gang.record.group host := by
  unfold BehindBy electionPosition at h
  split at h
  next best rest hs =>
    cases h
    have hp := mergeSort_perm (ahead elections gang.record gang.record.group host) fun a b =>
      a.rank ≤ b.rank
    rw [hs] at hp
    exact hp.mem_iff.mp (.head _)
  next => cases h

theorem mem_ahead : election ∈ ahead elections gang.record gang.record.group host ↔
      election ∈ elections.map Prod.snd ∧ election.group ≠ gang.record.group ∧
        election.host ∈ host :: (standing elections gang.record.group).map
        (fun item => item.2.host) ∧
        election.rank < rank gang.record := by
  unfold ahead
  rw [mem_filter, decide_eq_true_iff]

end

section

variable {census : Census T} {gangs : List (FiledGang T)} {election : ElectionRow T}
    {gang : FiledGang T}
  {item : Name × ElectionRow T}

theorem mem_gangElectionRows (h : item ∈ gangElectionRows census gang) :
    ∃ filed ∈ gang.elections, item = (filed.2.actionKey,
    electionRow census gang.record filed.1 filed.2) := by
  unfold gangElectionRows at h
  split at h
  · rcases Dict.mem_of_mem_update h with h | h
    · cases h
    · obtain ⟨filed, hf, rfl⟩ := mem_map.mp h
      exact ⟨filed, hf, rfl⟩
  · cases h

theorem mem_foldl_update {found : List (Name × ElectionRow T)}
    (h : item ∈ gangs.foldl (fun found gang => Dict.update found (gangElectionRows census gang))
    found) :
    item ∈ found ∨ ∃ gang ∈ gangs, item ∈ gangElectionRows census gang := by
  induction gangs generalizing found with
  | nil => exact .inl h
  | cons gang gangs ih =>
    rcases ih h with h | ⟨other, ho, h⟩
    · rcases Dict.mem_of_mem_update h with h | h
      · exact .inl h
      · exact .inr ⟨gang, .head _, h⟩
    · exact .inr ⟨other, .tail _ ho, h⟩

theorem exists_filed (h : election ∈ (gangElections census gangs).map Prod.snd) :
    ∃ gang ∈ gangs, ∃ filed ∈ gang.elections,
    election = electionRow census gang.record filed.1 filed.2 := by
  obtain ⟨item, hi, rfl⟩ := mem_map.mp h
  rcases mem_foldl_update hi with hn | ⟨gang, hg, hi⟩
  · cases hn
  · obtain ⟨filed, hf, rfl⟩ := mem_gangElectionRows hi
    exact ⟨gang, hg, filed, hf, rfl⟩

theorem rank_of_group (hg : (gangs.map fun gang => gang.record.group).Nodup)
    (h : election ∈ (gangElections census gangs).map Prod.snd) (hga : gang ∈ gangs)
    (hgr : election.group = gang.record.group) : election.rank = rank gang.record := by
  obtain ⟨other, ho, filed, _, rfl⟩ := exists_filed h
  have hs := inj_on_of_nodup_map hg ho hga hgr
  rw [hs]
  rfl

theorem mem_standing (hgro : (gangs.map fun gang => gang.record.group).Nodup)
    (h : election ∈ (gangElections census gangs).map Prod.snd) :
    (election.index, election) ∈ standing (gangElections census gangs) election.group := by
  refine Dict.mem_update (.inr ?_) fun item hit hi => ?_
  · exact mem_map.mpr ⟨election, mem_filter.mpr ⟨h, decide_eq_true rfl⟩, rfl⟩
  · obtain ⟨other, ho, rfl⟩ := mem_map.mp hit
    obtain ⟨hin, hgr⟩ := mem_filter.mp ho
    obtain ⟨gang, hg, filed, hf, rfl⟩ := exists_filed h
    obtain ⟨gang', hg', filed', hf', rfl⟩ := exists_filed hin
    have hg := inj_on_of_nodup_map hgro hg' hg (of_decide_eq_true hgr)
    subst hg
    have hf := inj_on_of_nodup_map gang'.indexed hf' hf hi
    rw [hf]

end

section

variable (census : Census T) {gangs : List (FiledGang T)} {a b : FiledGang T} {host : Name}

theorem behind_of_holdsOn (hgroups : (gangs.map fun gang => gang.record.group).Nodup)
    (ha : a ∈ gangs)
    (hb : b ∈ gangs) (hr : rank a.record < rank b.record)
      (ho : HoldsOn (gangElections census gangs) a host)
    (hon : HoldsOn (gangElections census gangs) b host) (index : Nat) (here : Name) :
    ∃ election, BehindBy (gangElections census gangs) b index here election := by
  obtain ⟨first, hf, hg, hh⟩ := ho
  obtain ⟨second, hs, hgr, hho⟩ := hon
  refine electionPosition_of_ahead (mem_ahead.mpr ⟨hf, ?_, ?_, ?_⟩) index
  · intro hgro
    have hsa : a = b := inj_on_of_nodup_map hgroups ha hb (hg.symm.trans hgro)
    rw [hsa] at hr
    exact lt_irrefl _ hr
  · have hin := mem_standing hgroups hs
    rw [hgr] at hin
    refine .tail _ (mem_map.mpr ⟨_, hin, ?_⟩)
    rw [hho, hh]
  · rw [rank_of_group hgroups hf ha hg]
    exact hr

theorem rank_lt_of_behindBy (hg : (gangs.map fun gang => gang.record.group).Nodup) (hb : b ∈ gangs)
    {index : Nat} {election : ElectionRow T}
    (h : BehindBy (gangElections census gangs) a index host election)
    (hgr : election.group = b.record.group) : rank b.record < rank a.record := by
  obtain ⟨hin, _, _, hlt⟩ := mem_ahead.mp (mem_ahead_of_behindBy h)
  rw [rank_of_group hg hin hb hgr] at hlt
  exact hlt

/-- The gang is ranked behind somewhere because of an election of the other. -/
def Behind (gangs : List (FiledGang T)) (a b : FiledGang T) : Prop :=
  a ∈ gangs ∧ b ∈ gangs ∧ ∃ index host election,
    BehindBy (gangElections census gangs) a index host election ∧ election.group = b.record.group

theorem rank_lt_of_transGen (hgr : (gangs.map fun gang => gang.record.group).Nodup)
    (h : Relation.TransGen (Behind census gangs) a b) : rank b.record < rank a.record := by
  induction h with
  | single h =>
    obtain ⟨_, hb, index, host, election, hbe, hg⟩ := h
    exact rank_lt_of_behindBy census hgr hb hbe hg
  | tail _ h ih =>
    obtain ⟨_, hb, index, host, election, hbe, hg⟩ := h
    exact (rank_lt_of_behindBy census hgr hb hbe hg).trans ih

/-- Two gangs with elections on one host never both get a position, whatever they are looked at for.
The gang of smallest rank among those with elections always gets one. And no gang is behind itself
through any number of others. -/
theorem gangs_never_block (census : Census T) (gangs : List (FiledGang T))
    (hgroups : (gangs.map fun gang => gang.record.group).Nodup) :
    (∀ a ∈ gangs, ∀ b ∈ gangs, a ≠ b → ∀ host, HoldsOn (gangElections census gangs) a host →
      HoldsOn (gangElections census gangs) b host →
        (∀ index here, ∃ election, BehindBy (gangElections census gangs) a index here election) ∨
          ∀ index here, ∃ election, BehindBy (gangElections census gangs) b index here election) ∧
      (∀ a ∈ gangs, (∀ b ∈ gangs, (∃ host, HoldsOn (gangElections census gangs) b host) →
        rank a.record ≤ rank b.record) →
        ∀ index here election, ¬BehindBy (gangElections census gangs) a index here election) ∧
      ∀ a, ¬Relation.TransGen (Behind census gangs) a a := by
  refine ⟨fun a ha b hb hne host ho hon => ?_, fun a ha hbes index here election hbe =>
    ?_, fun a hc => ?_⟩
  · have hr : rank a.record ≠ rank b.record := fun heq =>
      hne (inj_on_of_nodup_map hgroups ha hb
        (congrArg (fun r : Rank T => (ofLex (ofLex r).2).2) heq))
    rcases lt_or_gt_of_ne hr with hlt | hgt
    · exact .inr (behind_of_holdsOn census hgroups ha hb hlt ho hon)
    · exact .inl (behind_of_holdsOn census hgroups hb ha hgt hon ho)
  · obtain ⟨hin, _, _, _⟩ := mem_ahead.mp (mem_ahead_of_behindBy hbe)
    obtain ⟨b, hb, filed, _, rfl⟩ := exists_filed hin
    have hlt := rank_lt_of_behindBy census hgroups hb hbe rfl
    exact absurd (hbes b hb ⟨_, _, hin, rfl, rfl⟩) (not_le_of_gt hlt)
  · exact lt_irrefl _ (rank_lt_of_transGen census hgroups hc)

end

/-- Two gangs of equal priority on one host, and both rows ready. -/
def demoGang (group : String) (published : Int) : FiledGang Int where
  record := ⟨group, 0, ⟨group, published⟩, []⟩
  elections := [(0, ⟨group, "host", 0⟩)]
  indexed := List.nodup_singleton _

def demoCensus : Census Int where
  rows := fun key => if key = "a" then [⟨some 1, none⟩] else [⟨some 2, none⟩]
  readyVersions := [("a", 1), ("b", 2)]
  claimedVersions := []

theorem demoGangs_share : (∀ index here, ∃ election,
        BehindBy (gangElections demoCensus [demoGang "a" 1, demoGang "b" 2]) (demoGang "b" 2) index
        here election) ∧
      ∀ index here election,
        ¬BehindBy (gangElections demoCensus [demoGang "a" 1, demoGang "b" 2]) (demoGang "a" 1) index
        here election := by
  obtain ⟨hs, hbe, _⟩ := gangs_never_block demoCensus [demoGang "a" 1, demoGang "b" 2] (by decide)
  have hf := hbe (demoGang "a" 1) (.head _) fun b hb _ => by
    rcases mem_pair.mp hb with rfl | rfl <;> decide
  refine ⟨?_, hf⟩
  have ho : HoldsOn (gangElections demoCensus [demoGang "a" 1, demoGang "b" 2]) (demoGang "a" 1)
    "host" := by
    exact ⟨_, mem_map.mpr ⟨_, .head _, rfl⟩, rfl, rfl⟩
  have hon : HoldsOn (gangElections demoCensus [demoGang "a" 1, demoGang "b" 2]) (demoGang "b" 2)
    "host" := by
    exact ⟨_, mem_map.mpr ⟨_, .tail _ (.head _), rfl⟩, rfl, rfl⟩
  have hne : demoGang "a" 1 ≠ demoGang "b" 2 := fun heq => by
    have hp := congrArg (fun gang => gang.record.first.publishedUnix) heq
    cases hp
  refine (hs _ (.head _) _ (.tail _ (.head _)) hne "host" ho hon).resolve_left fun h => ?_
  obtain ⟨election, he⟩ := h 0 []
  exact hf 0 [] election he

end PrismaBuild.Gang
