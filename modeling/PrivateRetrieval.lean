import PrivateRetrieval.Bits.Stream
import PrivateRetrieval.Number.Decimal
import PrivateRetrieval.Random.Seeded
import PrivateRetrieval.Retrieval.Reader
import PrivateRetrieval.Store.Session
import PrivateRetrieval.Proofs.Log.Compaction
import PrivateRetrieval.Proofs.Log.Contents
import PrivateRetrieval.Proofs.Server.Upkeep
import PrivateRetrieval.Proofs.Server.Refinement
import PrivateRetrieval.Proofs.Server.Epochs
import PrivateRetrieval.Proofs.Codes.Packing
import PrivateRetrieval.Proofs.Codes.RiceRoundTrip
import PrivateRetrieval.Proofs.Codes.RiceDecoding
import PrivateRetrieval.Proofs.Codes.StreamRoundTrip
import PrivateRetrieval.Proofs.Client.KeyUpdates
import PrivateRetrieval.Proofs.Client.CatchingUp
import PrivateRetrieval.Proofs.Session.Agreement
import PrivateRetrieval.Proofs.Hints.Preparation
import PrivateRetrieval.Proofs.Hints.Queries
import PrivateRetrieval.Proofs.Hints.Runs
import PrivateRetrieval.Proofs.Hints.Exposure
import PrivateRetrieval.Proofs.Layers.Readiness
import PrivateRetrieval.Proofs.Layers.Reading
import PrivateRetrieval.Proofs.Session.Placing
import PrivateRetrieval.Proofs.Session.Reading
import PrivateRetrieval.Proofs.Session.Recovery
import PrivateRetrieval.Proofs.Server.Refusals
import PrivateRetrieval.Proofs.Number.Nearest
import PrivateRetrieval.Proofs.Server.LogLength
import PrivateRetrieval.Proofs.Layers.Geometry
import PrivateRetrieval.Proofs.Points.Marking
import PrivateRetrieval.Proofs.Retrieval.Requests
import PrivateRetrieval.Proofs.Retrieval.MatrixScheme
import PrivateRetrieval.Proofs.Layers.QueryForms
import PrivateRetrieval.Proofs.Log.Chains
import PrivateRetrieval.Proofs.Log.Replaying
import PrivateRetrieval.Proofs.Hints.Hiding
import PrivateRetrieval.Proofs.Hints.Coverage
import PrivateRetrieval.Proofs.Label.Columns
import PrivateRetrieval.Proofs.Sets.Pairs
import PrivateRetrieval.Proofs.Sets.Sequences
import PrivateRetrieval.Proofs.Layers.Routing
import PrivateRetrieval.Proofs.Layers.Notes
import PrivateRetrieval.Proofs.Session.FailedReads
