import CognitiveMemory.Client
import CognitiveMemory.Cosine
import CognitiveMemory.Daemon.Atomicity
import CognitiveMemory.Daemon.Instants
import CognitiveMemory.Daemon.Backlog
import CognitiveMemory.Daemon.Authors
import CognitiveMemory.Daemon.Bands
import CognitiveMemory.Daemon.Bounds
import CognitiveMemory.Daemon.BridgeTokens
import CognitiveMemory.Daemon.Clusters
import CognitiveMemory.Daemon.Coherence
import CognitiveMemory.Daemon.ReadYourWrites
import CognitiveMemory.Daemon.Budgets
import CognitiveMemory.Daemon.Clearing
import CognitiveMemory.Daemon.Confinement
import CognitiveMemory.Daemon.Conflicts
import CognitiveMemory.Daemon.Connection
import CognitiveMemory.Daemon.Consolidation
import CognitiveMemory.Daemon.CoreFloor
import CognitiveMemory.Daemon.TickSpares
import CognitiveMemory.Daemon.Boosts
import CognitiveMemory.Daemon.BatchOfOne
import CognitiveMemory.Daemon.Decay
import CognitiveMemory.Daemon.Events
import CognitiveMemory.Daemon.FloorCounter
import CognitiveMemory.Daemon.Identity
import CognitiveMemory.Daemon.Ingest
import CognitiveMemory.Daemon.JudgePrompt
import CognitiveMemory.Daemon.Lanes
import CognitiveMemory.Daemon.Noninterference
import CognitiveMemory.Daemon.Promotion
import CognitiveMemory.Daemon.Reinforcement
import CognitiveMemory.Daemon.Shelf
import CognitiveMemory.Daemon.SingleInstance
import CognitiveMemory.Daemon.Recovery
import CognitiveMemory.Daemon.Spaces
import CognitiveMemory.Daemon.Stream
import CognitiveMemory.Daemon.Strengthening
import CognitiveMemory.Daemon.Symmetry
import CognitiveMemory.Daemon.Thawing
import CognitiveMemory.Daemon.Tiers
import CognitiveMemory.Daemon.Trace
import CognitiveMemory.Daemon.Vanishing
import CognitiveMemory.Daemon.Writes
import CognitiveMemory.Extraction
import CognitiveMemory.EmbeddingCache
import CognitiveMemory.Handshake
import CognitiveMemory.HttpBridge
import CognitiveMemory.HttpBridge.Routes
import CognitiveMemory.RateLimit
import CognitiveMemory.Search.Answer
import CognitiveMemory.Search.Composite
import CognitiveMemory.Search.EdgeWeight
import CognitiveMemory.Search.LiveBridges
import CognitiveMemory.Search.Fusion
import CognitiveMemory.Search.Graph
import CognitiveMemory.Search.GraphExpansion
import CognitiveMemory.Search.Bfs
import CognitiveMemory.Search.TwoRuns
import CognitiveMemory.Search.Visibility
import CognitiveMemory.Store.Listing
import CognitiveMemory.Store.CrashSafety
import CognitiveMemory.Store.Upgrade
import CognitiveMemory.Daemon.Loops
