import PrismaBuild.ActionEdgesChains
import PrismaBuild.BatchOwner
import PrismaBuild.ChunkCharge
import PrismaBuild.Endings
import PrismaBuild.FreezeAgree
import PrismaBuild.LedgerRestore
import PrismaBuild.PartitionOptimal
import PrismaBuild.PosixLockProgress
import PrismaBuild.PrelaunchConverge
import PrismaBuild.ReaderAdmission
import PrismaBuild.TierRelease
import PrismaBuild.TurnSafe
import PrismaBuild.WithdrawalHistory
import PrismaBuild.ManifestRanges
import PrismaBuild.ClaimOrder
import PrismaBuild.JointNeed
import PrismaBuild.WindowReach
import PrismaBuild.TaskDataBatches
import PrismaBuild.GangElection
import PrismaBuild.LoneUnit
import PrismaBuild.BorrowFreshness
import PrismaBuild.EventRing
import PrismaBuild.ExportAllowance
import PrismaBuild.TerminalMark
import PrismaBuild.DrainDeadline
import PrismaBuild.IdleExcursion
import PrismaBuild.TierMint
import PrismaBuild.ReadyOrder
import PrismaBuild.FillSupply
import PrismaBuild.ProgressWatch
import PrismaBuild.ComposeMap
import PrismaBuild.ReverseRows
import PrismaBuild.CpuTopology
