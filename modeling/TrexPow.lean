import TrexPow.AcceptedChain
import TrexPow.AverageBlockTime
import TrexPow.Cancellation
import TrexPow.Completeness
import TrexPow.Conversions
import TrexPow.CycleDetection
import TrexPow.DifficultyRange
import TrexPow.DifficultyRuns
import TrexPow.DifficultyWindow
import TrexPow.HeadChange
import TrexPow.HonestChain
import TrexPow.HonestSolver
import TrexPow.MergedTrails
import TrexPow.MinerSafety
import TrexPow.MiningSeeds
import TrexPow.MiningSnapshot
import TrexPow.ParallelSafety
import TrexPow.RewardAccounting
import TrexPow.RewardHistory
import TrexPow.RewardSchedule
import TrexPow.SealFormat
import TrexPow.SharedMap
import TrexPow.StoragePallet
import TrexPow.Termination
import TrexPow.TimeRelease
import TrexPow.TrexPallet
import TrexPow.WorkerSeeds
