import GraphRoutes.Session.Run
import GraphRoutes.Proofs.Descent.Event
import GraphRoutes.Proofs.Search.Leaves
import GraphRoutes.Proofs.Search.Paths
import GraphRoutes.Proofs.Search.Distance
import GraphRoutes.Proofs.Descent.Lockstep
import GraphRoutes.Proofs.Search.Terrain
import GraphRoutes.Proofs.Descent.Move
import GraphRoutes.Proofs.Search.Branch
import GraphRoutes.Proofs.Search.Forms
import GraphRoutes.Proofs.Search.Returns
import GraphRoutes.Proofs.Search.Circuits
import GraphRoutes.Proofs.Elements
import GraphRoutes.Proofs.Pull
import GraphRoutes.Proofs.Search.Closing
import GraphRoutes.Proofs.Search.Bounds
import GraphRoutes.Proofs.Descent.Fruitless
import GraphRoutes.Proofs.Store.Ledger
import GraphRoutes.Proofs.Session.Reading
import GraphRoutes.Proofs.Session.Calls
import GraphRoutes.Proofs.Session.Incident
import GraphRoutes.Proofs.Session.Register
import GraphRoutes.Proofs.Session.Forms
import GraphRoutes.Proofs.Session.Streams
import GraphRoutes.Proofs.Session.Images
import GraphRoutes.Proofs.Session.Chains
import GraphRoutes.Proofs.Session.Hops
import GraphRoutes.Proofs.Session.Traversals
import GraphRoutes.Proofs.Session.Tracking
import GraphRoutes.Proofs.Session.Layers
import GraphRoutes.Proofs.Session.Collections
import GraphRoutes.Proofs.Session.Transparency
import GraphRoutes.Proofs.Session.Ways
import GraphRoutes.Proofs.Session.Lineages
import GraphRoutes.Proofs.Session.Accounts
import GraphRoutes.Proofs.Store.Excerpt
import GraphRoutes.Proofs.Session.Gathering
import GraphRoutes.Proofs.Session.Copies
import GraphRoutes.Proofs.Session.Subgraph
import GraphRoutes.Proofs.Search.Lines
import GraphRoutes.Proofs.Session.Records
import GraphRoutes.Proofs.Descent.Fruitful
import GraphRoutes.Proofs.Session.Failsafe
import GraphRoutes.Proofs.Search.Projection
import GraphRoutes.Proofs.Session.Multiplicity
import GraphRoutes.Proofs.Merge.Schedule
import GraphRoutes.Proofs.Merge.Rotation
import GraphRoutes.Proofs.Merge.Strand
import GraphRoutes.Proofs.Session.Strands
import GraphRoutes.Proofs.Session.Openings
import GraphRoutes.Proofs.Session.RoundRobin
import GraphRoutes.Proofs.Session.Merges
import GraphRoutes.Proofs.Session.Parts
import GraphRoutes.Proofs.Session.Exhaustive
import GraphRoutes.Proofs.Session.Interleaving
import GraphRoutes.Proofs.Search.Chronicle
import GraphRoutes.Proofs.Search.Questions
import GraphRoutes.Proofs.Search.Attested
import GraphRoutes.Proofs.Session.Predicates
import GraphRoutes.Proofs.Session.Repeats
import GraphRoutes.Proofs.Session.Counting
import GraphRoutes.Proofs.Search.Acyclic
import GraphRoutes.Proofs.Session.Spelling
import GraphRoutes.Proofs.Descent.Carried
import GraphRoutes.Proofs.Session.PathKinds
import GraphRoutes.Proofs.Session.Onlookers
import GraphRoutes.Proofs.Session.Watches
import GraphRoutes.Proofs.Session.Guards
import GraphRoutes.Proofs.Session.Lookaheads
import GraphRoutes.Proofs.Session.Lookouts
import GraphRoutes.Proofs.Session.Failures
import GraphRoutes.Proofs.Maintains
import GraphRoutes.Proofs.Session.Upkeep
import GraphRoutes.Proofs.Session.Endurance
import GraphRoutes.Proofs.Session.Sealing
import GraphRoutes.Proofs.Session.SharedSets
import GraphRoutes.Proofs.Session.Restarts
import GraphRoutes.Proofs.Session.Fleets
import GraphRoutes.Proofs.Session.Splitting
import GraphRoutes.Proofs.Session.Listeners
import GraphRoutes.Proofs.Session.Consumers
import GraphRoutes.Proofs.Session.Branches
import GraphRoutes.Proofs.Merge.Taps
import GraphRoutes.Proofs.Session.Drains
import GraphRoutes.Proofs.Session.Rereading
import GraphRoutes.Proofs.Session.Handlers
import GraphRoutes.Proofs.Session.Slicings
import GraphRoutes.Proofs.Session.Alternations
import GraphRoutes.Proofs.Session.EndlessSizes
import GraphRoutes.Proofs.Session.Tapping
import GraphRoutes.Proofs.Session.BlockShares
import GraphRoutes.Proofs.Session.Kinds
import GraphRoutes.Proofs.Session.Counts
import GraphRoutes.Proofs.Session.Queries
import GraphRoutes.Proofs.Session.Interruptions
import GraphRoutes.Proofs.Session.Appraisals
import GraphRoutes.Proofs.Session.SortedSteps
