import Kiichain.SortedMap
import Kiichain.FixedPoint
import Kiichain.GoTime
import Kiichain.Runs
import Kiichain.Ledger
import Kiichain.Coins
import Kiichain.RewardsLiveness
import Kiichain.RewardsReplicas
import Kiichain.TokenFactoryAuthority
import Kiichain.OracleIterationOrder
import Kiichain.OracleAccounting
import Kiichain.FeeRounding
import Kiichain.FeeGenesis
import Kiichain.RewardsSolvency
import Kiichain.RewardsCompletion
import Kiichain.OracleRoundTrip
import Kiichain.FeeLiveness
import Kiichain.TokenFactoryConfiscation
import Kiichain.TokenFactoryFrontEnds
import Kiichain.AnteFeeless
import Kiichain.AnteGovVote
import Kiichain.FeeStaleness
import Kiichain.OracleMedian
import Kiichain.OracleStoredVotes
import Kiichain.OracleWindowEnd
import Kiichain.PrecompileOracle
import Kiichain.PrecompileIbc
import Kiichain.FeeWindow
import Kiichain.FeeConversion
import Kiichain.RewardsGenesis
import Kiichain.RewardsImport
import Kiichain.TokenFactoryIndex
import Kiichain.TokenFactoryGenesis
import Kiichain.OraclePartition
import Kiichain.OracleWhitelist
import Kiichain.OraclePruning
import Kiichain.OracleSlashSet
import Kiichain.OracleAbstain
import Kiichain.OracleAverages
import Kiichain.FeeDeduction
import Kiichain.RewardsLinear
import Kiichain.TokenFactoryMint
import Kiichain.FeeAccuracy
import Kiichain.FeeConvergence
import Kiichain.TokenFactoryDenoms
import Kiichain.TokenFactoryModuleAccounts
import Kiichain.TokenFactoryAtomicity
import Kiichain.AnteGovExpedited
import Kiichain.WasmBech32
import Kiichain.OracleRounds
import Kiichain.OracleSlashWindow
import Kiichain.OracleFreshness
import Kiichain.OracleHonest
import Kiichain.OracleAgreement
import Kiichain.FeeDrift
import Kiichain.RewardsConservation
import Kiichain.TokenFactorySupply
import Kiichain.TokenFactoryAdmins
import Kiichain.TokenFactoryImport
import Kiichain.AnteSigVerify
import Kiichain.FeeHistory
import Kiichain.SharedBank
import Kiichain.AnteHandler
import Kiichain.OracleAnte
import Kiichain.OracleQueries
import Kiichain.FeeBand
import Kiichain.TokenFactoryQueries
