import TimeWeighted.Error
import TimeWeighted.Arena.Pool
import TimeWeighted.Twap.Basic
import TimeWeighted.Aggregate.Recorder
import TimeWeighted.Aggregate.Store
import TimeWeighted.Engine.Query
import TimeWeighted.Proofs.Bytes.Codec
import TimeWeighted.Proofs.Arena.Handles
import TimeWeighted.Proofs.Arena.Regions
import TimeWeighted.Proofs.Buffer.Entries
import TimeWeighted.Proofs.Buffer.Shelf
import TimeWeighted.Proofs.Buffer.Growth
import TimeWeighted.Proofs.Buffer.Weave
import TimeWeighted.Proofs.Buffer.Interleaving
import TimeWeighted.Proofs.Slots
import TimeWeighted.Proofs.Twap.Family
import TimeWeighted.Proofs.Twap.Updates
import TimeWeighted.Proofs.Twap.Exhaustion
import TimeWeighted.Proofs.Store.Ledger
import TimeWeighted.Proofs.Store.Refinement
import TimeWeighted.Proofs.Store.Memo
import TimeWeighted.Proofs.Engine.Accounts
import TimeWeighted.Proofs.Engine.MergeTree
import TimeWeighted.Proofs.Engine.Updates
import TimeWeighted.Proofs.Engine.Gathering
import TimeWeighted.Proofs.Engine.Reduction
import TimeWeighted.Proofs.Engine.Frames
import TimeWeighted.Proofs.Engine.Partition
import TimeWeighted.Proofs.Engine.Reading
import TimeWeighted.Proofs.Engine.Sequential
import TimeWeighted.Proofs.Engine.Execution
import TimeWeighted.Proofs.Engine.Evolution
import TimeWeighted.Proofs.Engine.Calls
import TimeWeighted.Proofs.Engine.Handover
import TimeWeighted.Proofs.Engine.MergeCalls
import TimeWeighted.Proofs.Engine.Safety
import TimeWeighted.Proofs.Engine.InvalidRows
import TimeWeighted.Proofs.Arena.MemoryLaw
import TimeWeighted.Proofs.Arena.Ids
import TimeWeighted.Proofs.Arena.Minting
import TimeWeighted.Proofs.Arena.Invalidation
import TimeWeighted.Proofs.Bytes.Utf8Order
import TimeWeighted.Proofs.Engine.Operations
import TimeWeighted.Proofs.Engine.Instances
import TimeWeighted.Proofs.Engine.Answers
import TimeWeighted.Proofs.Average.Sums
import TimeWeighted.Proofs.Average.Floats
import TimeWeighted.Proofs.Average.Rounding
import TimeWeighted.Proofs.Average.Durations
import TimeWeighted.Proofs.Average.Ties
import TimeWeighted.Proofs.Engine.Ties
import TimeWeighted.Proofs.Average.StepFunction
import TimeWeighted.Proofs.Average.Instants
import TimeWeighted.Proofs.Average.Magnitudes
import TimeWeighted.Proofs.Average.Indefinite
import TimeWeighted.Proofs.Store.NoValue
import TimeWeighted.Proofs.Store.Growth
