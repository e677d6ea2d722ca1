import WtBenchmarks.Ycsb.ScanRun
import WtBenchmarks.Ycsb.Bookkeeping
import WtBenchmarks.Ycsb.Sampling
import WtBenchmarks.Ycsb.Retry
import WtBenchmarks.Contention.Linearizable
import WtBenchmarks.Contention.WriteSet
import WtBenchmarks.Contention.VecStore
import WtBenchmarks.Contention.Calls
import WtBenchmarks.MicroLayers.Matrix
import WtBenchmarks.Criterion.Summary
import WtBenchmarks.MoePgo.Republish
import WtBenchmarks.MoeResident.Peak
import WtBenchmarks.MoeResident.HotPage
import WtBenchmarks.IndexBackends.PairedRetry
import WtBenchmarks.IndexBackends.Phases
import WtBenchmarks.IndexBackends.Shadow.Final
import WtBenchmarks.IndexBackends.Shadow.Shares
import WtBenchmarks.AnalyzePaired.Summaries
import WtBenchmarks.Kv.Exchange
import WtBenchmarks.KvJson.Agreement
import WtBenchmarks.Speedtest.Agreement
import WtBenchmarks.Tatp.Atomic
import WtBenchmarks.ConcurrentMix.Run
import WtBenchmarks.VacuumStress.Churn
import WtBenchmarks.VacuumYield.Load
import WtBenchmarks.PartitionTicks.Accounts
import WtBenchmarks.LinkBench.Run
import WtBenchmarks.Footprint.Check
import WtBenchmarks.OpLatency.Scaling
import WtBenchmarks.Fanout.Insert
import WtBenchmarks.IndexBackends.Allocator
import WtBenchmarks.Checksums
import WtBenchmarks.Result
import WtBenchmarks.NonUnique.Keys
import WtBenchmarks.RngStream
import WtBenchmarks.Shuffle
import WtBenchmarks.Codegraph.Digests
import WtBenchmarks.Codegraph.Generations
import WtBenchmarks.Ycsb.Evenness
import WtBenchmarks.ArcticConcurrent.Arms
