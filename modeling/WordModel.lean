import WordModel.Library.Checked
import WordModel.Library.Runs
import WordModel.Library.Answers
import WordModel.Library.Follow
import WordModel.Library.Unambiguous
import WordModel.Library.Decimal
import WordModel.Library.Javascript
import WordModel.Library.Prefixes
import WordModel.Library.Firsts
import WordModel.Library.Least
import WordModel.Library.Margins
import WordModel.Library.Observed
import WordModel.Library.Ranking
import WordModel.Library.Framing
import WordModel.Library.Stretches
import WordModel.Library.Outbox
import WordModel.ContextTree.Graph
import WordModel.ContextTree.Basic
import WordModel.ContextTree.Growth
import WordModel.ContextTree.Pool
import WordModel.ContextTree.Recording
import WordModel.ContextTree.Settling
import WordModel.ContextTree.Requests
import WordModel.ContextTree.Insertions
import WordModel.ContextTree.Recycling
import WordModel.ContextTree.Numbering
import WordModel.ContextTree.Feedback
import WordModel.ContextTree.Children
import WordModel.ContextTree.Degrees
import WordModel.ContextTree.Drawings
import WordModel.ContextTree.Levels
import WordModel.ContextTree.Depths
import WordModel.ContextTree.Learning
import WordModel.ContextTree.Naming
import WordModel.BoundedCTModel.Basic
import WordModel.BoundedCTModel.Callbacks
import WordModel.BoundedCTModel.Sizes
import WordModel.BoundedCTModel.Steps
import WordModel.BoundedCTModel.Mirror
import WordModel.BoundedCTModel.Queries
import WordModel.BoundedCTModel.Regrets
import WordModel.BoundedCTModel.Minimisers
import WordModel.BoundedCTModel.Mistakes
import WordModel.BoundedCTModel.Interface
import WordModel.BoundedCTModel.NGrams
import WordModel.BoundedCTModel.Learner
import WordModel.BoundedCTModel.Tables
import WordModel.BoundedCTModel.Alternation
import WordModel.BoundedCTModel.Orbits
import WordModel.BoundedCTModel.Labels
import WordModel.Packet.Basic
import WordModel.Packet.Headers
import WordModel.Packet.ModelServer
import WordModel.Packet.Sessions
import WordModel.Packet.WriteQueue
import WordModel.Packet.StdinTcp
import WordModel.Packet.Endpoint
import WordModel.Packet.Frames
import WordModel.Packet.Progress
import WordModel.Packet.ServiceClient
import WordModel.Packet.EchoServer
import WordModel.Packet.Exchange
import WordModel.Packet.Delivery
import WordModel.Packet.EchoExchange
import WordModel.NodeJs.Packet
import WordModel.NodeJs.ModelAdaptor
import WordModel.NodeJs.Rounds
import WordModel.NodeJs.Summary
import WordModel.NodeJs.Replies
import WordModel.SimpleModel.Parser
import WordModel.SimpleModel.Basic
import WordModel.SimpleModel.Modes
import WordModel.SimpleModel.Lookups
import WordModel.SimpleModel.Ranking
import WordModel.SimpleModel.Flows
import WordModel.Models.Moves
import WordModel.BoundedCTModel.Drawings
import WordModel.BoundedCTModel.Renaming
import WordModel.BoundedCTModel.Memory
import WordModel.ModelMultiplexer.Basic
import WordModel.ModelMultiplexer.Words
import WordModel.ModelMultiplexer.Levels
import WordModel.Server.Service
import WordModel.Server.Peer
import WordModel.Server.Conversation
import WordModel.Server.Refinement
import WordModel.Server.Bounded
import WordModel.Server.Delivery
import WordModel.NodeJs.SocketServer
import WordModel.ModelMultiplexer.Predictions
