import SocketAcl.Lib.System
import SocketAcl.Lib.Loop
import SocketAcl.Lib.Prog
import SocketAcl.Lib.Ring
import SocketAcl.Lib.IStream
import SocketAcl.Lib.Nested
import SocketAcl.Lib.Framing
import SocketAcl.Lib.Utf8
import SocketAcl.Lib.Utf8Text
import SocketAcl.Lib.Json
import SocketAcl.Lib.Parse
import SocketAcl.Lib.Field
import SocketAcl.Spec.Bytes
import SocketAcl.Spec.Packet
import SocketAcl.Spec.Rooms
import SocketAcl.Spec.Server
import SocketAcl.Spec.Checked
import SocketAcl.Spec.SharedCmd
import SocketAcl.Spec.UserStore
import SocketAcl.Spec.RedisHandler
import SocketAcl.Spec.Console
import SocketAcl.Spec.MySqlConsole
import SocketAcl.Spec.RedisConsole
import SocketAcl.Spec.Echo
import SocketAcl.Spec.FiberMutex
import SocketAcl.Spec.Ring
import SocketAcl.Spec.Fiber
import SocketAcl.Spec.FiberLock
import SocketAcl.Spec.FiberRwlock
import SocketAcl.Spec.FiberSem
import SocketAcl.Spec.MutexCode
import SocketAcl.Spec.Text
import SocketAcl.Spec.Client
import SocketAcl.Spec.Form
import SocketAcl.Proof.Steps
import SocketAcl.Proof.Mutex
import SocketAcl.Proof.Session
import SocketAcl.Proof.Script
import SocketAcl.Proof.Seats
import SocketAcl.Proof.Stale
import SocketAcl.Proof.OneSeat
import SocketAcl.Proof.Auth
import SocketAcl.Proof.Login
import SocketAcl.Proof.Speak
import SocketAcl.Proof.Isolation
import SocketAcl.Proof.Broadcast
import SocketAcl.Proof.UserList
import SocketAcl.Proof.Presence
import SocketAcl.Proof.Renaming
import SocketAcl.Proof.TwoRuns
import SocketAcl.Proof.Rejected
import SocketAcl.Proof.Bounds
import SocketAcl.Proof.ServerFraming
import SocketAcl.Proof.ClientFraming
import SocketAcl.Proof.ReceiveLoop
import SocketAcl.Proof.Readers
import SocketAcl.Proof.Codec
import SocketAcl.Proof.ClientCodec
import SocketAcl.Proof.Requests
import SocketAcl.Proof.TotalSize
import SocketAcl.Proof.Notifications
import SocketAcl.Proof.RoomMap
import SocketAcl.Proof.RoomAlgebra
import SocketAcl.Proof.Progress
import SocketAcl.Proof.LockDiscipline
import SocketAcl.Proof.Units
import SocketAcl.Proof.Protocol
import SocketAcl.Proof.Tearing
import SocketAcl.Proof.ChatText
import SocketAcl.Proof.Delivery
import SocketAcl.Proof.Echo
import SocketAcl.Proof.EchoServers
import SocketAcl.Proof.UserStore
import SocketAcl.Proof.LoadUser
import SocketAcl.Proof.ListGet
import SocketAcl.Proof.Tokens
import SocketAcl.Proof.MySqlConsole
import SocketAcl.Proof.RedisIteration
import SocketAcl.Proof.RedisConsole
import SocketAcl.Proof.FiberMutex
import SocketAcl.Proof.Ring
import SocketAcl.Proof.FiberQueues
import SocketAcl.Proof.Fiber
import SocketAcl.Proof.FiberLock
import SocketAcl.Proof.FiberRwlock
import SocketAcl.Proof.FiberSem
import SocketAcl.Proof.MutexFlow
import SocketAcl.Proof.MutexHandover
import SocketAcl.Proof.MutexCode
import SocketAcl.Proof.MutexLive
import SocketAcl.Proof.MutexExercise
