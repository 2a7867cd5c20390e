import P3arsec.Fluidanimate.Collisions
import P3arsec.Fluidanimate.Pairs
import P3arsec.Dedup.Encoder
import P3arsec.Dedup.PrintStats
import P3arsec.Dedup.ReorderBounds
import P3arsec.Dedup.Workers
import P3arsec.Dedup.Farm
import P3arsec.Dedup.PipeOfFarms
import P3arsec.Lib.FacilityLocation
import P3arsec.Streamcluster.Points
import P3arsec.Streamcluster.Gain
import P3arsec.Streamcluster.GainCorrect
import P3arsec.Canneal.Rounds
import P3arsec.Canneal.Threads
import P3arsec.Dedup.Fragment
import P3arsec.Dedup.Serial
import P3arsec.Dedup.Pthreads
import P3arsec.Dedup.Termination
import P3arsec.Dedup.Originals
import P3arsec.Dedup.Wakeups
import P3arsec.Dedup.Deadlock
import P3arsec.Vips.Threadpool
import P3arsec.Vips.Units
import P3arsec.Vips.Progress
import P3arsec.Vips.CreateThreads
import P3arsec.Fluidanimate.Border
import P3arsec.Fluidanimate.Partition
import P3arsec.Fluidanimate.Reflections
import P3arsec.Fluidanimate.Rebuild
import P3arsec.Fluidanimate.RebuildCorrect
import P3arsec.Fluidanimate.Tbb
import P3arsec.Fluidanimate.TbbMatches
import P3arsec.Fluidanimate.TbbCorrect
import P3arsec.Streamcluster.Kmedian
import P3arsec.Streamcluster.KmedianCost
import P3arsec.Raytrace.Tiles
import P3arsec.Blackscholes.Caf
import P3arsec.Blackscholes.Partitions
import P3arsec.Canneal.Rethreading
import P3arsec.Canneal.Actors
import P3arsec.Lib.Circular
import P3arsec.Dedup.RingBuffer
import P3arsec.Dedup.SharedQueue
import P3arsec.Lib.Holders
import P3arsec.Dedup.Mbuffer
import P3arsec.Dedup.MbufferSystem
import P3arsec.Dedup.RefineInPlace
import P3arsec.Dedup.Collapsed
import P3arsec.Lib.Crew
import P3arsec.Raytrace.ParallelFor
import P3arsec.Raytrace.OnDemand
import P3arsec.Raytrace.OnDemandCorrect
import P3arsec.Bodytrack.Barrier
import P3arsec.Bodytrack.Filters
import P3arsec.Bodytrack.Particles
import P3arsec.Facesim.ConjugateGradients
import P3arsec.Facesim.Assembly
import P3arsec.Facesim.Residual
import P3arsec.Facesim.AssemblyCorrect
import P3arsec.Streamcluster.Stream
import P3arsec.Freqmine.SinglePath
import P3arsec.Freqmine.Release
import P3arsec.Freqmine.Tiling
import P3arsec.Streamcluster.Feasible
import P3arsec.Lib.FloatingPoint
import P3arsec.Streamcluster.RoundedKmedian
import P3arsec.Streamcluster.Sampling
import P3arsec.Streamcluster.Weights
import P3arsec.Lib.Words
import P3arsec.Freqmine.Narrowing
import P3arsec.Lib.Descent
import P3arsec.Streamcluster.RoundedSeeding
import P3arsec.Streamcluster.Termination
import P3arsec.Lib.Trie
import P3arsec.Lib.Graft
import P3arsec.Freqmine.Sort
import P3arsec.Freqmine.SortInPlace
import P3arsec.Freqmine.MergedWork
import P3arsec.Freqmine.FirstTree
import P3arsec.Freqmine.ConditionalBase
import P3arsec.Freqmine.ConditionalScan
import P3arsec.Freqmine.ConditionalTree
import P3arsec.Swaptions.Estimator
import P3arsec.Lib.Tickets
import P3arsec.Bodytrack.Notify
import P3arsec.Lib.Paths
import P3arsec.Ferret.Load
import P3arsec.Streamcluster.CenterTable
import P3arsec.Lib.Blocks
import P3arsec.Facesim.Auxiliary
import P3arsec.Lib.Linearize
import P3arsec.Fastflow.SwsrBuffer
import P3arsec.Fastflow.UswsrBuffer
import P3arsec.Fastflow.UswsrChain
import P3arsec.Fastflow.UswsrCorrect
import P3arsec.Fastflow.MpmcQueue
import P3arsec.Fastflow.MpmcCorrect
import P3arsec.Fastflow.ParallelFor
import P3arsec.Fastflow.ParallelForEmitter
import P3arsec.Fastflow.ParallelForLoop
import P3arsec.Fastflow.ParallelForSteps
import P3arsec.Fastflow.ParallelForParts
import P3arsec.Fastflow.ParallelForHanded
import P3arsec.Fastflow.ParallelForDealt
import P3arsec.Fastflow.ParallelForCorrect
import P3arsec.Fastflow.SpinBarrier
import P3arsec.Lib.RoundRobin
import P3arsec.Fastflow.OrderedFarm
import P3arsec.Fastflow.OrderedFarmCorrect
import P3arsec.Dedup.FarmOrder
