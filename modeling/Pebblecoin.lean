import Pebblecoin.Restoration
import Pebblecoin.InputVersions
import Pebblecoin.BlockIds
import Pebblecoin.SyncRuns
import Pebblecoin.PoolIndex
import Pebblecoin.PoolReadiness
import Pebblecoin.VoteOrder
import Pebblecoin.SigningOrder
import Pebblecoin.PeerlistManager
import Pebblecoin.Conversion
import Pebblecoin.WalletRetry
import Pebblecoin.GradeRounding
import Pebblecoin.ProofOfWork
import Pebblecoin.NextDifficulty
import Pebblecoin.BatchRings
import Pebblecoin.UsedHeights
import Pebblecoin.PastDay
import Pebblecoin.FailedAddition
import Pebblecoin.RegisteredDelegates
import Pebblecoin.RefusedBranches
import Pebblecoin.Base58
import Pebblecoin.ParseAmount
import Pebblecoin.InputRemoval
import Pebblecoin.MinerTransaction
import Pebblecoin.RecordedChange
import Pebblecoin.Varint
import Pebblecoin.ExactBalance
import Pebblecoin.ChainHistory
