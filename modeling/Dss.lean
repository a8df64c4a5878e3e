import Dss.Config.Conformance
import Dss.Config.CopyMove
import Dss.Config.Loading
import Dss.Config.Pruning
import Dss.Daemon
import Dss.Dfs.Listing
import Dss.Dfs.Refinement
import Dss.Dfs.Selection
import Dss.Dfs.Subtree
import Dss.Fs.DistributedFileSystem
import Dss.Fs.FailedOperations
import Dss.Fs.FileSystemProvider
import Dss.Fs.Interleaving
import Dss.Fs.Linearization
import Dss.Fs.ListFiles
import Dss.Fs.LocalListing
import Dss.Fs.LocalLocks
import Dss.Fs.Locking
import Dss.Fs.Namespace
import Dss.Fs.PathLocks
import Dss.Fs.Transfer
import Dss.Http.Answers
import Dss.Http.Boundary
import Dss.Http.Callbacks
import Dss.Http.Completion
import Dss.Http.Connections
import Dss.Http.ContentLength
import Dss.Http.Exchange
import Dss.Http.FieldNames
import Dss.Http.HandlerResponses
import Dss.Http.HeaderAccess
import Dss.Http.HeaderMap
import Dss.Http.HttpServer
import Dss.Http.InputBound
import Dss.Http.LockStep
import Dss.Http.Network
import Dss.Http.Overloads
import Dss.Http.Persistence
import Dss.Http.Pipelining
import Dss.Http.Programs
import Dss.Http.Stalling
import Dss.Http.Timeout
