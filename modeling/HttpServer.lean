import HttpServer.Parser.Persist
import HttpServer.Parser.Serialise
import HttpServer.Reactor.Stream
import HttpServer.Reactor.Confine
import HttpServer.Reactor.Descriptors
import HttpServer.Reactor.Isolation
import HttpServer.Reactor.Bodies
import HttpServer.Reactor.Sendfile
import HttpServer.Reactor.Oversize
import HttpServer.Reactor.InStep
import HttpServer.Reactor.Registration
import HttpServer.Reactor.Pipeline
import HttpServer.Cache.Policy
import HttpServer.Cache.Capacity
import HttpServer.Cache.Growth
import HttpServer.Cache.Borrow
import HttpServer.ThreadPool.Roster
import HttpServer.ThreadPool.Retire
import HttpServer.HashTable.Tombstones
import HttpServer.HashTable.Rounding
import HttpServer.Config.RoundTrip
import HttpServer.Cache.Concurrent
import HttpServer.Logger
import HttpServer.ThreadPool.Joined
import HttpServer.Reactor.Company
import HttpServer.Reactor.Batch
import HttpServer.Cache.Inclusion
import HttpServer.HashTable.Amortised
import HttpServer.Reactor.Drain
import HttpServer.Cache.Custody
