import ChainRelay.Relay
import ChainRelay.Ring.Wakeup
import ChainRelay.Settings.Document
import ChainRelay.Store
import ChainRelay.Proofs.Memory.Agreement
import ChainRelay.Proofs.Ring.Tiling
import ChainRelay.Proofs.Ring.Queue
import ChainRelay.Proofs.Ring.Hidden
import ChainRelay.Proofs.Channel.Ledger
import ChainRelay.Proofs.Channel.View
import ChainRelay.Proofs.Channel.Traffic
import ChainRelay.Proofs.Channel.Frame
import ChainRelay.Proofs.Ring.Watch
import ChainRelay.Proofs.Channel.Twins
import ChainRelay.Proofs.Source.Reads
import ChainRelay.Proofs.Source.Domains
import ChainRelay.Proofs.Chunk.Codec
import ChainRelay.Proofs.Copy.Trail
import ChainRelay.Proofs.Copy.Proceed
import ChainRelay.Proofs.Copy.Alike
import ChainRelay.Proofs.Allocator.Issue
import ChainRelay.Proofs.Allocator.Draws
import ChainRelay.Proofs.Copy.Effects
import ChainRelay.Proofs.Copy.Append
import ChainRelay.Proofs.Copy.Conduct
import ChainRelay.Proofs.Copy.Ration
import ChainRelay.Proofs.Copy.Limits
import ChainRelay.Proofs.Store.Keeping
import ChainRelay.Proofs.Store.Balance
import ChainRelay.Proofs.Store.Account
import ChainRelay.Proofs.Store.Arrival
import ChainRelay.Proofs.Exchange.Claim
import ChainRelay.Proofs.Exchange.Course
import ChainRelay.Proofs.Exchange.Invariance
import ChainRelay.Proofs.Exchange.Reassembly
import ChainRelay.Proofs.Exchange.Heads
import ChainRelay.Proofs.Signal.Codec
import ChainRelay.Proofs.Store.Resolving
import ChainRelay.Proofs.Copy.Verdict
import ChainRelay.Proofs.Capture.Parts
import ChainRelay.Proofs.Capture.Delivery
import ChainRelay.Proofs.Capture.Plan
import ChainRelay.Proofs.Capture.Conduct
import ChainRelay.Proofs.Capture.Isolation
import ChainRelay.Proofs.Settings.Fit
import ChainRelay.Proofs.Relay.Failure
import ChainRelay.Proofs.Emission.Steps
import ChainRelay.Proofs.Emission.Progress
import ChainRelay.Proofs.Emission.Consumers
import ChainRelay.Proofs.Emission.Precedence
import ChainRelay.Proofs.Emission.Filing
import ChainRelay.Proofs.Emission.Filed
import ChainRelay.Proofs.Emission.Receipts
import ChainRelay.Proofs.Signal.Format
import ChainRelay.Proofs.Chunk.Draft
import ChainRelay.Proofs.Chunk.Format
import ChainRelay.Proofs.Chunk.Workshop
import ChainRelay.Proofs.Chunk.Custody
import ChainRelay.Proofs.Store.Walk
import ChainRelay.Proofs.Store.Eviction
import ChainRelay.Proofs.Ring.Headroom
import ChainRelay.Proofs.Channel.Refill
import ChainRelay.Proofs.Copy.Recital
import ChainRelay.Proofs.Capture.Fields
import ChainRelay.Proofs.Source.Reach
import ChainRelay.Proofs.Copy.Undivided
import ChainRelay.Proofs.Copy.Lookahead
import ChainRelay.Proofs.Chunk.Revision
import ChainRelay.Proofs.Allocator.Forecast
import ChainRelay.Proofs.Channel.Blocked
import ChainRelay.Proofs.Channel.Attachment
import ChainRelay.Proofs.Settings.Sizes
import ChainRelay.Proofs.Store.Backlog
import ChainRelay.Proofs.Ring.Vigil
