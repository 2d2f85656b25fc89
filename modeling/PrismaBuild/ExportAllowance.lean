import PrismaBuild.NameOrder

namespace PrismaBuild.Allowance

open List

structure DependentAllowance where
  cpus : List Int
  (memGb slots : Int)

structure Funded where
  cpus : List Int
  memGb : Int

structure Metadata where
  measurement : Bool := false
  dependentAllowance : Option DependentAllowance := none
  fundedBy : Option Name := none
  funded : Option Funded := none

structure Holder where
  name : Name
  metadata : Metadata

inductive FundingRefusal
  | demandOutsideAllowance
  | ownerHoldsNoAllowance
  | ownerAllowanceMalformed
  | measurementHolder
  | allowanceInUse
  | demandExceedsAllowance
  deriving DecidableEq

def exportDemand : List Name := ["cpu", "mem_gb"]

/-- `demand.get(kind, 0)`. -/
def amount (demand : List (Name × Int)) (kind : Name) : Int := (demand.lookup kind).getD 0

/-- `items[:stop]`, where a negative stop counts from the end. -/
def sliceTo (items : List Int) (stop : Int) : List Int :=
  items.take (if stop < 0 then (items.length + stop).toNat else stop.toNat)

def dependents (owner : Name) (holders : List Holder) : List Holder :=
  holders.filter fun holder => holder.name ≠ owner ∧ holder.metadata.fundedBy = some owner

def Holder.cpus (holder : Holder) : List Int := (holder.metadata.funded.map Funded.cpus).getD []

def Holder.memGb (holder : Holder) : Int := (holder.metadata.funded.map Funded.memGb).getD 0

/-- `_funding`, without the mark whether the owner measures. -/
def funding (owner : Name) (ofOwner : Metadata) (holders : List Holder)
    (demand : List (Name × Int)) :
    Except FundingRefusal Funded :=
  if (∃ item ∈ demand, item.1 ∉ exportDemand) ∨ amount demand "cpu" = 0 then
    .error .demandOutsideAllowance
  else
    match ofOwner.dependentAllowance with
    | none => .error .ownerHoldsNoAllowance
    | some allowance =>
      if allowance.slots ≤ 0 then .error .ownerAllowanceMalformed
      else if ∃ holder ∈ holders, holder.name ≠ owner ∧ holder.metadata.measurement = true then
        .error .measurementHolder
      else
        let used := (dependents owner holders).flatMap Holder.cpus
        let spare := allowance.cpus.filter fun cpu => cpu ∉ used
        let needCpu := amount demand "cpu"
        let needMem := amount demand "mem_gb"
        if allowance.slots ≤ (dependents owner holders).length then .error .allowanceInUse
        else if needCpu > spare.length ∨ needCpu > allowance.cpus.length / allowance.slots ∨
            needMem > allowance.memGb / allowance.slots then .error .demandExceedsAllowance
        else .ok ⟨sliceTo spare needCpu, needMem⟩

/-- A dependent asks to run on the owner's room, another holder comes, or a holder goes. -/
inductive Event
  | fund (name : Name) (demand : List (Name × Int))
  | hold (holder : Holder)
  | release (name : Name)

/-- The events of one owner. What else comes is not funded by it. -/
def Event.Of (owner : Name) : Event → Prop
  | .fund name _ => name ≠ owner
  | .hold holder => holder.metadata.fundedBy ≠ some owner
  | .release _ => True

def step (owner : Name) (ofOwner : Metadata) (holders : List Holder) : Event → List Holder
  | .fund name demand =>
    match funding owner ofOwner holders demand with
    | .error _ => holders
    | .ok funded => holders ++ [⟨name, { fundedBy := some owner, funded := some funded }⟩]
  | .hold holder => holders ++ [holder]
  | .release name => holders.filter fun holder => holder.name ≠ name

def run (owner : Name) (ofOwner : Metadata) (holders : List Holder) (events : List Event) :
    List Holder :=
  events.foldl (step owner ofOwner) holders

structure Within (allowance : DependentAllowance) (held : List Holder) : Prop where
  slots : (held.length : Int) ≤ allowance.slots
  disjoint : held.Pairwise fun a b => a.cpus.Disjoint b.cpus
  cpus : ∀ holder ∈ held, holder.cpus ⊆ allowance.cpus
  memory : ∀ holder ∈ held, holder.memGb ≤ allowance.memGb / allowance.slots

section

variable {owner : Name} {ofOwner : Metadata} {allowance : DependentAllowance}
    {holders : List Holder}

theorem Within.sublist {held less : List Holder} (h : Within allowance held)
    (hsu : less.Sublist held) : Within allowance less where
  slots := by
    have hl := hsu.length_le
    have hs := h.slots
    omega
  disjoint := h.disjoint.sublist hsu
  cpus holder hholder := h.cpus holder (hsu.subset hholder)
  memory holder hholder := h.memory holder (hsu.subset hholder)

end

end PrismaBuild.Allowance
