import Calibrd.Chain.ForkBranches
import Calibrd.Chain.BlockLookup
import Calibrd.Chain.Slots
import Calibrd.Chain.Hardforks
import Calibrd.Chain.PowerDown
import Calibrd.Chain.StakeSchedule
import Calibrd.Chain.Comments
import Calibrd.Protocol.FixedWords
import Calibrd.Protocol.Merkle
import Calibrd.Protocol.VerifyAuthority
import Calibrd.Chain.RecoveryRuns
import Calibrd.Chain.AccountNames
import Calibrd.Chain.OrderMatching
import Calibrd.Chain.PriceFeed
import Calibrd.Chain.ClaimDecay
import Calibrd.Chain.RewardCurves
import Calibrd.Chain.RewardRuns
import Calibrd.Chain.WithdrawRoutes
import Calibrd.Chain.Savings
import Calibrd.Chain.EscrowRuns
import Calibrd.Chain.BlockApplication
import Calibrd.Chain.NoReplay
import Calibrd.Chain.PendingRuns
