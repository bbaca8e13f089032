import StateDb.Accepting
import StateDb.BigintWire
import StateDb.BptApart
import StateDb.BptBalance
import StateDb.BptCapacity
import StateDb.BptDeletion
import StateDb.BptLists
import StateDb.BptPresence
import StateDb.Conversation
import StateDb.DbFile
import StateDb.DbVector
import StateDb.DbWrapper
import StateDb.DeferralRuns
import StateDb.Fragmentation
import StateDb.GetAll
import StateDb.HandlerMemory
import StateDb.Handshake
import StateDb.LeafListRuns
import StateDb.NetUtils
import StateDb.Registry
import StateDb.ResponseFraming
import StateDb.ResponseSizes
import StateDb.SegmentContainer
import StateDb.SetGrammar
import StateDb.StatementRuns
import StateDb.Timers
import StateDb.UniformEncoding
import StateDb.UpdateOrder
import StateDb.WriteCompleteness
import StateDb.BigintOrder
import StateDb.BigintSums
import StateDb.BigintScale
import StateDb.BigintConvert
import StateDb.BigintDivision
import StateDb.BigintProduct
import StateDb.BigintPowers
import StateDb.BigintText
import StateDb.DatabaseTree
import StateDb.ServerSubmissions
import StateDb.ServerAnswers
import StateDb.Replica
import StateDb.StoredValues
import StateDb.Delivery
import StateDb.ServerHistory
import StateDb.ResponseBounds
import StateDb.Client
import StateDb.ClientRequests
