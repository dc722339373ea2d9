import EvmDexPool.Lib.Fixed
import EvmDexPool.Lib.WideMul
import EvmDexPool.Lib.BinaryPower
import EvmDexPool.Lib.Ranges
import EvmDexPool.Lib.Densities
import EvmDexPool.Lib.Ledger
import EvmDexPool.Lib.Intervals
import EvmDexPool.Lib.Bitmaps
import EvmDexPool.Lib.BinaryLog
import EvmDexPool.Lib.Replay
import EvmDexPool.Log
import EvmDexPool.Reads
import EvmDexPool.LB.Math
import EvmDexPool.LB.Prices
import EvmDexPool.LB.Pool
import EvmDexPool.LB.Walk
import EvmDexPool.LB.RoundTrip
import EvmDexPool.LB.SwapOut
import EvmDexPool.LB.Trades
import EvmDexPool.LB.Waiting
import EvmDexPool.LB.Panics
import EvmDexPool.LB.Events
import EvmDexPool.LB.FeeClock
import EvmDexPool.LB.Reserves
import EvmDexPool.LB.BinTree
import EvmDexPool.LB.Fetcher
import EvmDexPool.V3.Tick
import EvmDexPool.V3.WordSearch
import EvmDexPool.V3.FullMath
import EvmDexPool.V3.TickMath
import EvmDexPool.V3.TickLogs
import EvmDexPool.V3.SqrtPriceMath
import EvmDexPool.V3.SwapMath
import EvmDexPool.V3.PriceUpdates
import EvmDexPool.V3.StepReturns
import EvmDexPool.V3.RangeCosts
import EvmDexPool.V3.ExactAmounts
import EvmDexPool.V3.SwapLoop
import EvmDexPool.V3.SwapDirection
import EvmDexPool.V3.SwapTermination
import EvmDexPool.V3.WayDown
import EvmDexPool.V3.Pool
import EvmDexPool.V3.Quote
import EvmDexPool.V3.Nets
import EvmDexPool.V3.InRange
import EvmDexPool.V3.Monotone
import EvmDexPool.V3.ThereAndBack
import EvmDexPool.V3.Charges
import EvmDexPool.V3.Requote
import EvmDexPool.V3.WordEdges
import EvmDexPool.V3.Positions
import EvmDexPool.V3.Fetcher
import EvmDexPool.V3.ContractLoop
import EvmDexPool.V3.ContractRuns
import EvmDexPool.V3.ContractHistory
import EvmDexPool.V3.NoArbitrage
import EvmDexPool.V3.FeeWatch
import EvmDexPool.V2.Pool
import EvmDexPool.V2.Quotes
import EvmDexPool.V2.ConstantProduct
import EvmDexPool.V2.FeeCalibration
import EvmDexPool.V2.StableCurve
import EvmDexPool.V2.StableLoop
import EvmDexPool.V2.StableQuotes
import EvmDexPool.V2.StableRuns
import EvmDexPool.V2.TradeRuns
import EvmDexPool.V2.Fetcher
import EvmDexPool.ERC4626.Pool
import EvmDexPool.ERC4626.Quotes
import EvmDexPool.ERC4626.VaultRuns
import EvmDexPool.FailedLog
import EvmDexPool.Pool
import EvmDexPool.StableAddress
import EvmDexPool.Collector.Registry
import EvmDexPool.Collector.PoolFetcher
import EvmDexPool.Collector.Subscriptions
import EvmDexPool.Collector.EventProcessor
import EvmDexPool.Collector.EventPaths
import EvmDexPool.Collector.Chain
import EvmDexPool.Collector.History
import EvmDexPool.Collector.Updater
import EvmDexPool.Collector.Cursor
import EvmDexPool.Collector.EventQueue
import EvmDexPool.Collector.EventSender
import EvmDexPool.Collector.WebsocketListener
import EvmDexPool.Collector.BlockSettler
import EvmDexPool.Collector.BlockSource
import EvmDexPool.Collector.Polling
import EvmDexPool.Collector.BlockTimes
import EvmDexPool.Collector.SettlerRuns
import EvmDexPool.Collector.WholeBlocks
import EvmDexPool.Collector.Pipeline
import EvmDexPool.Collector.GapDelivery
import EvmDexPool.Collector.GapOrder
import EvmDexPool.Collector.Bootstrap
import EvmDexPool.Collector.Session
import EvmDexPool.Collector.BufferOrder
import EvmDexPool.Collector.BootCursor
import EvmDexPool.Collector.BrokenOff
import EvmDexPool.Collector.Arrivals
import EvmDexPool.Collector.AppliedOnce
import EvmDexPool.Collector.FeeReader
import EvmDexPool.V3.FetchPool
import EvmDexPool.Collector.PolledRuns
import EvmDexPool.Collector.PolledPairs
import EvmDexPool.Collector.SessionPools
import EvmDexPool.Collector.FeeRace
import EvmDexPool.Collector.TrackedFees
import EvmDexPool.Collector.Running
import EvmDexPool.Collector.AddPools
