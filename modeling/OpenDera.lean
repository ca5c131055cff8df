import OpenDera.Aggregate.Aggregator
import OpenDera.Balance.BalancerRun
import OpenDera.Balance.MaxSatHistory
import OpenDera.Circuit.Checkpointer
import OpenDera.Circuit.SchedulerAgreement
import OpenDera.Communication.ExchangeProgress
import OpenDera.Communication.ShardedAccumulatorQueue
import OpenDera.Compiler.GroupingSetsCorrect
import OpenDera.Compiler.ImplementNowCorrect
import OpenDera.Compiler.Incrementalize
import OpenDera.Compiler.OptimizeDistinct
import OpenDera.Compiler.RangeAggregates
import OpenDera.Compiler.SetOperations
import OpenDera.Compiler.StarJoins
import OpenDera.Compiler.VisitJoinCorrect
import OpenDera.Fxp.Rounding
import OpenDera.Group.LagCorrect
import OpenDera.Group.RankCorrect
import OpenDera.Group.RowNumber
import OpenDera.Group.TopKRank
import OpenDera.Operator.AsofJoinRun
import OpenDera.Operator.InputUpsertCircuit
import OpenDera.Sqllib.Timestamp
import OpenDera.Sqllib.Windows
import OpenDera.Storage.BatchFilters
import OpenDera.TimeSeries.RollingWaterline
import OpenDera.TimeSeries.WindowTransactions
import OpenDera.Trace.SaturatingCursor
import OpenDera.Utils.AdvanceRetreat
