import DisconnectedYfs.TraceSystem
import DisconnectedYfs.PaddedArray
import DisconnectedYfs.OrderedMap
import DisconnectedYfs.RPCReplyWindow
import DisconnectedYfs.RPCAtMostOnce
import DisconnectedYfs.RPCMarshall
import DisconnectedYfs.RPCWireFormat
import DisconnectedYfs.RPCMarshallGrowth
import DisconnectedYfs.RPCRoundTrip
import DisconnectedYfs.RPCDecoding
import DisconnectedYfs.RPCSelectAio
import DisconnectedYfs.RPCPollMgr
import DisconnectedYfs.RPCThreadPool
import DisconnectedYfs.RPCHandles
import DisconnectedYfs.RPCConnection
import DisconnectedYfs.RPCFraming
import DisconnectedYfs.RPCLengthPrefix
import DisconnectedYfs.RPCClient
import DisconnectedYfs.RPCTimeouts
import DisconnectedYfs.RPCServer
import DisconnectedYfs.RPCReferences
import DisconnectedYfs.RPCReferenceCounts
import DisconnectedYfs.RPCCallLoop
import DisconnectedYfs.RPCCallConnections
import DisconnectedYfs.RPCCallSends
import DisconnectedYfs.RPCCallDeadlines
import DisconnectedYfs.RPCCancel
import DisconnectedYfs.RPCReplyConnections
import DisconnectedYfs.RPCDispatchBalance
import DisconnectedYfs.RPCEviction
import DisconnectedYfs.RPCStoredReplies
import DisconnectedYfs.RPCWindowOrder
import DisconnectedYfs.RPCLiveCalls
import DisconnectedYfs.RPCAckWindow
import DisconnectedYfs.RPCReplyDelivery
import DisconnectedYfs.RPCReplyBuffers
import DisconnectedYfs.RPCStaleSends
import DisconnectedYfs.RPCRestart
import DisconnectedYfs.RPCClientViews
import DisconnectedYfs.RPCTypedCalls
import DisconnectedYfs.RPCRemoteObject
import DisconnectedYfs.RPCRemoteCalls
import DisconnectedYfs.RPCBufferedCalls
import DisconnectedYfs.YFSExtentServer
import DisconnectedYfs.YFSExtentCache
import DisconnectedYfs.YFSExtentHistory
import DisconnectedYfs.YFSWriteBack
import DisconnectedYfs.YFSLockServer
import DisconnectedYfs.YFSDirectory
import DisconnectedYfs.YFSDirectoryFormat
import DisconnectedYfs.YFSOperations
import DisconnectedYfs.YFSHandlers
import DisconnectedYfs.YFSLockBalance
import DisconnectedYfs.YFSReplies
import DisconnectedYfs.YFSLockClient
import DisconnectedYfs.YFSSystem
import DisconnectedYfs.YFSLockProtocol
import DisconnectedYfs.YFSLockInvariant
import DisconnectedYfs.YFSLockRoles
import DisconnectedYfs.YFSMoveEffects
import DisconnectedYfs.YFSLockSimulation
import DisconnectedYfs.YFSMoveSimulation
import DisconnectedYfs.YFSSystemSimulation
import DisconnectedYfs.YFSStepEffects
import DisconnectedYfs.YFSCopySteps
import DisconnectedYfs.YFSLockRuns
import DisconnectedYfs.YFSMutualExclusion
import DisconnectedYfs.YFSWaiters
import DisconnectedYfs.YFSDisconnection
import DisconnectedYfs.YFSAssertions
import DisconnectedYfs.YFSWakeups
import DisconnectedYfs.YFSDispatchPool
import DisconnectedYfs.YFSVersionInvariant
import DisconnectedYfs.YFSStaleWrite
import DisconnectedYfs.YFSCoherence
import DisconnectedYfs.YFSRemoval
import DisconnectedYfs.YFSConflict
import DisconnectedYfs.YFSCachedCopies
import DisconnectedYfs.YFSFileSystem
import DisconnectedYfs.YFSCallEffects
import DisconnectedYfs.YFSNesting
import DisconnectedYfs.YFSKnowledge
import DisconnectedYfs.YFSOperationRules
import DisconnectedYfs.YFSFileRuns
import DisconnectedYfs.YFSContents
import DisconnectedYfs.YFSUnlinkStages
import DisconnectedYfs.YFSFileContents
import DisconnectedYfs.YFSFuse
import DisconnectedYfs.YFSFlushSize
import DisconnectedYfs.YFSDirectoryRuns
import DisconnectedYfs.YFSAllocation
import DisconnectedYfs.YFSNames
import DisconnectedYfs.YFSInums
import DisconnectedYfs.YFSDeadlock
import DisconnectedYfs.YFSUnlinking
import DisconnectedYfs.YFSConflictBranch
import DisconnectedYfs.YFSConflictCopies
import DisconnectedYfs.AtomicObject
import DisconnectedYfs.YFSSettling
import DisconnectedYfs.YFSAtomicity
