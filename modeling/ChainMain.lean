import ChainMain.TieredRewards.ReachableInvariants
import ChainMain.TieredRewards.ExitLock
import ChainMain.TieredRewards.EagerBonus
import ChainMain.TieredRewards.ReferenceKeepers
import ChainMain.TieredRewards.RedelegationRouting
import ChainMain.TieredRewards.Deletions
import ChainMain.TieredRewards.ForceExit
import ChainMain.Foundations.EncodedStore
import ChainMain.Foundations.Outcomes
import ChainMain.Nft.Types
import ChainMain.Nft.Keeper
import ChainMain.Nft.Messages
import ChainMain.NftTransfer.Keeper
import ChainMain.Nft.Registry
import ChainMain.NftTransfer.Paths
import ChainMain.NftTransfer.Chain
import ChainMain.NftTransfer.ChainInvariant
import ChainMain.NftTransfer.ReferencePlatform
import ChainMain.NftTransfer.Enumerations
import ChainMain.Nft.Genesis
import ChainMain.NftTransfer.Genesis
import ChainMain.NftTransfer.Effects
import ChainMain.NftTransfer.ChannelIsolation
import ChainMain.NftTransfer.IncomingClasses
import ChainMain.NftTransfer.Network
import ChainMain.NftTransfer.Strands
import ChainMain.NftTransfer.NoDuplication
import ChainMain.NftTransfer.Hops
import ChainMain.NftTransfer.Vouchers
import ChainMain.NftTransfer.Refunds
import ChainMain.TieredRewards.VotingPower
import ChainMain.TieredRewards.Unbondings
import ChainMain.TieredRewards.Respelling
import ChainMain.TieredRewards.OwnerSpelling
import ChainMain.TieredRewards.BaseRewards
import ChainMain.TieredRewards.ExitDichotomy
import ChainMain.TieredRewards.SegmentBonus
import ChainMain.TieredRewards.SlashHook
import ChainMain.TieredRewards.AccrualCheckpoints
import ChainMain.Foundations.Utf8
import ChainMain.NftTransfer.ClassTraces
import ChainMain.Nft.KeyBytes
import ChainMain.NftTransfer.OwnerKeys
import ChainMain.Foundations.Grouping
import ChainMain.NftTransfer.OwnersPartition
import ChainMain.Inflation.Types
import ChainMain.Inflation.Keeper
import ChainMain.Inflation.CachedDecay
import ChainMain.Inflation.DecayExponent
import ChainMain.Inflation.SupplyCap
import ChainMain.Inflation.GenesisRoundTrip
import ChainMain.TieredRewards.VestingTracking
import ChainMain.TieredRewards.ForcedExitSteps
import ChainMain.TieredRewards.Migration
import ChainMain.TieredRewards.ExtraClaims
import ChainMain.TieredRewards.BatchClaims
import ChainMain.Foundations.Accumulation
import ChainMain.TieredRewards.GovTally
import ChainMain.TieredRewards.TallyLaws
import ChainMain.Foundations.RoundedShares
import ChainMain.TieredRewards.TallyBounds
import ChainMain.TieredRewards.Genesis
import ChainMain.TieredRewards.GenesisImport
import ChainMain.TieredRewards.GenesisLaws
import ChainMain.TieredRewards.RunLaws
