import SocketAcl.Lib.System
import SocketAcl.Spec.Rooms
import Mathlib.Logic.Function.Basic

/-!
# The chat server (`tcpCoroutine.cpp`, `RoomManager.cpp`)

One scheduler thread runs an accepting fiber and one fiber for each connection. A fiber runs
until it is switched out, which happens only inside `conn->read`, `conn->write`, `cmd.get`
and `room_mutex_.lock` on a held mutex. `Control` is the program point of a connection's
fiber: between two points the source runs without a switch. A label names the fiber that
moves and what the environment decides for it: the bytes a read returns, the reply Redis
gives, how many bytes a socket takes, the order in which an iteration over a room goes.
An accepted connection is a new one, whatever address its stream gets.

Reading past the end of an array (`deserialize` past `buf`, a C string without NUL past its
array) sees whatever the stack holds there (`Stack`).
-/

namespace SocketAcl

/-! ## Requests -/

/-- What lies behind the handler's locals on its stack. -/
structure Stack where
  behindBuf : Bytes
  behindLogin : Bytes
  behindChat : Bytes

/-- A stack with nothing but NULs behind the locals. -/
def Stack.clear : Stack := ⟨[], [], []⟩

/-- A request as the handler's `switch` sees it: the packet ID and the decoded fields. -/
inductive Request
  | login (userID authToken : Chars 32)
  | roomEnter (roomNumber : Int32)
  | roomChat (message : Chars 256)
  | unknown (id : PacketID)
  deriving DecidableEq

/-- One pass of the receive loop: zero `buf`, read `data` into it, decode the packet at
offset 0. -/
def dispatch (stack : Stack) (data : Bytes) : Request :=
  let buf := fill 256 data ++ stack.behindBuf
  let header := PacketHeader.deserialize buf
  if header.id = PacketID.reqLogin then
    let loginRequest := LoginRequest.deserialize buf
    .login loginRequest.userID loginRequest.authToken
  else if header.id = PacketID.reqRoomEnter then
    .roomEnter (RoomEnterRequest.deserialize buf).roomNumber
  else if header.id = PacketID.reqRoomChat then
    .roomChat (RoomChatRequest.deserialize buf).message
  else .unknown header.id

/-! ## Redis -/

/-- What Redis answers to a `GET`. -/
inductive RedisReply
  | bulk (value : Bytes)
  | nil
  | error
  | failed
  deriving DecidableEq

/-- What Redis holds under a key: a string, or a value of another type. -/
inductive RedisValue
  | string (value : Bytes)
  | other
  deriving DecidableEq

/-- Redis's answer to a `GET`. -/
def answer (store : Bytes → Option RedisValue) (key : Bytes) : RedisReply :=
  match store key with
  | some (.string value) => .bulk value
  | some .other => .error
  | none => .nil

/-- `redis_string::get`: `none` is `false`; a nil reply is `true` with an empty buffer. -/
def RedisReply.get : RedisReply → Option Bytes
  | .bulk value => some value
  | .nil => some []
  | .error => none
  | .failed => none

/-- `userExists && storedPassword == loginRequest.AuthToken.data()`. -/
def loginOk (reply : RedisReply) (authToken : Bytes) : Bool := reply.get = some authToken

/-! ## Program points -/

/-- The call site of a `Broadcast`: `SendUserListToAll`, a chat request, or the announcement
of `EnterRoom` or `LeaveRoom`. -/
inductive Site
  | userList
  | chat
  | entered (userID : Bytes)
  | left (userID : Bytes)
  deriving DecidableEq

/-- A call of a `RoomManager` method; each starts with `room_mutex_.lock()`. -/
inductive Call
  | enterRoom (roomNumber : Int32) (userID : Bytes)
  | leaveRoom (roomNumber : Int32) (userID : Bytes)
  | sendUserListToAll (roomNumber : Int32)
  | broadcast (site : Site) (roomNumber : Int32) (buffer : Bytes)
  deriving DecidableEq

/-- `BroadcastMessage` builds its packet and calls `Broadcast`. -/
def broadcastMessage (site : Site) (roomNumber : Int32) (message senderID : Bytes) : Call :=
  .broadcast site roomNumber (chatBuffer message senderID)

/-- What `EnterRoom` calls after its critical section. -/
def afterEnter (roomNumber : Int32) (userID : Bytes) : List Call :=
  [.sendUserListToAll roomNumber,
    broadcastMessage (.entered userID) roomNumber (userID ++ ascii " has entered the room.")
      (ascii "System")]

/-- What `LeaveRoom` calls after its critical section. -/
def afterLeave (roomNumber : Int32) (userID : Bytes) : List Call :=
  [broadcastMessage (.left userID) roomNumber (userID ++ ascii " has left the room.")
      (ascii "System"),
    .sendUserListToAll roomNumber]

/-- Where the handler goes on when the calls are done: the next read, or `delete conn`. -/
inductive Tail
  | loop
  | exit
  deriving DecidableEq

/-- What follows a run of `conn->write`s: the end of the login branch (with the user ID to
store on success), or the `unlock` of the method `cur`. -/
inductive After
  | login (user : Option Bytes)
  | unlock (cur : Call) (next : List Call) (tail : Tail)
  deriving DecidableEq

/-- The program point of a connection's fiber; `next` are the calls still to be made. -/
inductive Control
  /-- in `conn->read` -/
  | read
  /-- in `cmd.get` -/
  | get (userID authToken : Bytes)
  /-- at the `room_mutex_.lock()` of `call` -/
  | lock (call : Call) (next : List Call) (tail : Tail)
  /-- behind that `lock` -/
  | body (call : Call) (next : List Call) (tail : Tail)
  /-- before the first `conn->write` of `todo` -/
  | write (todo : List (ConnId × Bytes)) (k : After)
  /-- inside `conn->write`, with `rest` still to be sent -/
  | send (dest : ConnId) (rest : Bytes) (todo : List (ConnId × Bytes)) (k : After)
  /-- at the `room_mutex_.unlock()` of `cur` -/
  | unlock (cur : Call) (next : List Call) (tail : Tail)
  /-- at `delete conn` -/
  | delete
  /-- the fiber has ended (or was never started) -/
  | done
  deriving DecidableEq

/-- The point reached when a method returns. -/
def Control.ret (next : List Call) (tail : Tail) : Control :=
  match next, tail with
  | call :: next, tail => .lock call next tail
  | [], .loop => .read
  | [], .exit => .delete

/-- A handler's local variables. -/
structure Session where
  currentUserID : Bytes
  currentRoomNumber : Int32
  deriving DecidableEq

def Session.init : Session := ⟨[], -1⟩

/-- The body of the `switch`, up to the first switch point. -/
def Session.handle (stack : Stack) (ses : Session) : Request → Session × Control
  | .login userID authToken =>
    (ses, .get (cstr (userID.toList ++ authToken.toList ++ stack.behindLogin))
      (cstr (authToken.toList ++ stack.behindLogin)))
  | .roomEnter roomNumber =>
    let ses := { ses with currentRoomNumber := roomNumber }
    if ses.currentUserID ≠ [] then
      (ses, .lock (.enterRoom ses.currentRoomNumber ses.currentUserID) [] .loop)
    else (ses, .read)
  | .roomChat message =>
    if ses.currentRoomNumber ≠ -1 ∧ ses.currentUserID ≠ [] then
      (ses, .lock (broadcastMessage .chat ses.currentRoomNumber
        (cstr (message.toList ++ stack.behindChat)) ses.currentUserID) [] .loop)
    else (ses, .read)
  | .unknown _ => (ses, .read)

/-- Behind the receive loop. -/
def Session.finish (ses : Session) : Control :=
  if ses.currentRoomNumber ≠ -1 ∧ ses.currentUserID ≠ [] then
    .lock (.leaveRoom ses.currentRoomNumber ses.currentUserID) [] .exit
  else .delete

/-! ## The state and its steps -/

/-- What a run is observed by. -/
inductive Event
  /-- a request was read and led to `control` -/
  | recv (f : ConnId) (req : Request) (control : Control)
  /-- the login comparison, with the reply it used -/
  | login (f : ConnId) (userID authToken : Bytes) (reply : RedisReply)
  | enter (f : ConnId) (roomNumber : Int32) (userID : Bytes) (accepted : Bool)
  | leave (f : ConnId) (roomNumber : Int32) (userID : Bytes)
  /-- `Broadcast` acquired the mutex; `members` is the room at that moment -/
  | broadcast (f : ConnId) (site : Site) (roomNumber : Int32) (buffer : Bytes) (members : Option Room)
  /-- a `conn->write` was issued, by the method `cur` or by the login branch -/
  | write (f : ConnId) (cur : Option Call) (dest : ConnId) (data : Bytes)
  /-- the socket took these bytes -/
  | sent (dest : ConnId) (piece : Bytes)
  | deleted (f : ConnId)
  deriving DecidableEq

structure Fiber where
  session : Session
  control : Control

structure Server where
  rooms : Rooms
  /-- the fiber that holds `room_mutex_` -/
  owner : Option ConnId
  /-- the fiber the scheduler runs, `none` while it picks one -/
  running : Option ConnId
  fibers : ConnId → Fiber
  /-- the next connection to be accepted -/
  next : ℕ
  /-- connections on which a write has failed -/
  broken : ConnId → Bool
  log : List Event

def Server.init : Server where
  rooms := ∅
  owner := none
  running := none
  fibers := fun _ => ⟨.init, .done⟩
  next := 0
  broken := fun _ => false
  log := []

/-- What the environment decides for the step of a fiber. -/
inductive Act
  /-- the running fiber is switched out -/
  | suspend
  /-- `conn->read` returns `data` -/
  | recv (stack : Stack) (data : Bytes)
  /-- `conn->read` returns 0 or -1 -/
  | eof
  | reply (reply : RedisReply)
  /-- the critical section runs, iterating in this order and finding this garbage byte -/
  | run (order : List (Bytes × ConnId)) (type : UInt8)
  /-- the socket takes `n` more bytes -/
  | send (n : ℕ)
  /-- the write fails -/
  | fail
  /-- a step without a choice -/
  | go

inductive Label
  | accept
  | act (f : ConnId) (a : Act)

/-- What one step of a fiber changes. -/
structure Effect where
  fiber : Fiber
  rooms : Rooms
  owner : Option ConnId
  running : Option ConnId
  broken : ConnId → Bool
  events : List Event

/-- May a fiber be switched out here? -/
def Control.blocks (owner : Option ConnId) : Control → Bool
  | .read => true
  | .get _ _ => true
  | .send _ _ _ _ => true
  | .lock _ _ _ => owner.isSome
  | _ => false

/-- The method whose writes these are. -/
def After.cur : After → Option Call
  | .login _ => none
  | .unlock cur _ _ => some cur

namespace Server

variable (s : Server) (f : ConnId)

/-- Fiber `f` moves to `control` and keeps running. -/
def goto (control : Control) : Effect where
  fiber := { s.fibers f with control := control }
  rooms := s.rooms
  owner := s.owner
  running := some f
  broken := s.broken
  events := []

/-- The critical section of a method; a `rooms_[roomNumber]` in it touches the row. -/
def critical (call : Call) (next : List Call) (tail : Tail) (order : List (Bytes × ConnId))
    (type : UInt8) : Option Effect :=
  match call with
  | .enterRoom roomNumber userID =>
    let (accepted, rooms) := enterRoom s.rooms roomNumber userID f
    let control : Control :=
      if accepted then .unlock call (afterEnter roomNumber userID ++ next) tail
      else .write [(f, ascii "Room is full!")] (.unlock call next tail)
    some { s.goto f control with rooms := rooms, events := [.enter f roomNumber userID accepted] }
  | .leaveRoom roomNumber userID =>
    some { s.goto f (.unlock call (afterLeave roomNumber userID ++ next) tail) with
      rooms := leaveRoom s.rooms roomNumber userID, events := [.leave f roomNumber userID] }
  | .sendUserListToAll roomNumber =>
    if roomNumber ∉ s.rooms then some (s.goto f (.unlock call next tail))
    else if Row.Enumerates order (s.rooms.row roomNumber) then
      let users := firstTwo order
      let next := .broadcast .userList roomNumber (userListBuffer type users.1 users.2) :: next
      some { s.goto f (.unlock call next tail) with rooms := s.rooms.touch roomNumber }
    else none
  | .broadcast _ roomNumber buffer =>
    if roomNumber ∉ s.rooms then some (s.goto f (.unlock call next tail))
    else if Row.Enumerates order (s.rooms.row roomNumber) then
      some { s.goto f (.write (order.map fun e => (e.2, buffer)) (.unlock call next tail)) with
        rooms := s.rooms.touch roomNumber }
    else none

/-- The event of acquiring the mutex. -/
def acquired : Call → List Event
  | .broadcast site roomNumber buffer =>
    [.broadcast f site roomNumber buffer (s.rooms.lookup roomNumber)]
  | _ => []

/-- The step of fiber `f` on the environment's choice. -/
def fiberStep (a : Act) : Option Effect :=
  match (s.fibers f).control, a with
  -- `conn->read(buf.data(), buf.size(), false)` with `ret > 0`, and the `switch`
  | .read, .recv stack data =>
    if 0 < data.length ∧ data.length ≤ 256 then
      let req := dispatch stack data
      let next := (s.fibers f).session.handle stack req
      some { s.goto f next.2 with fiber := ⟨next.1, next.2⟩, events := [.recv f req next.2] }
    else none
  -- `ret <= 0`: out of the loop
  | .read, .eof => some (s.goto f (s.fibers f).session.finish)
  -- `userExists && storedPassword == loginRequest.AuthToken.data()`
  | .get userID authToken, .reply reply =>
    let control : Control :=
      if loginOk reply authToken then .write [(f, ascii "Login Success!")] (.login (some userID))
      else .write [(f, ascii "Login Failed!")] (.login none)
    some { s.goto f control with events := [.login f userID authToken reply] }
  | .lock call next tail, .go =>
    if s.owner = none then
      some { s.goto f (.body call next tail) with owner := some f, events := s.acquired f call }
    else none
  | .body call next tail, .run order type => s.critical f call next tail order type
  | .write ((dest, data) :: todo) k, .go =>
    some { s.goto f (.send dest data todo k) with events := [.write f k.cur dest data] }
  -- behind the write, whether or not it went through
  | .write [] (.login user), .go =>
    let session := match user with
      | some userID => { (s.fibers f).session with currentUserID := userID }
      | none => (s.fibers f).session
    some { s.goto f .read with fiber := ⟨session, .read⟩ }
  | .write [] (.unlock cur next tail), .go => some (s.goto f (.unlock cur next tail))
  -- the socket may take a part; the fiber can be switched out before the rest
  | .send dest rest todo k, .send n =>
    if 0 < n ∧ n ≤ rest.length ∧ s.broken dest = false then
      let control : Control := if n = rest.length then .write todo k else .send dest (rest.drop n) todo k
      some { s.goto f control with events := [.sent dest (rest.take n)] }
    else none
  -- the result of `conn->write` is not looked at: the next write is issued
  | .send dest _ todo k, .fail =>
    some { s.goto f (.write todo k) with broken := Function.update s.broken dest true }
  | .unlock _ next tail, .go => some { s.goto f (.ret next tail) with owner := none }
  | .delete, .go => some { s.goto f .done with running := none, events := [.deleted f] }
  -- a fiber is switched out only where acl or the mutex makes it wait
  | control, .suspend =>
    if s.running = some f ∧ control.blocks s.owner then
      some { s.goto f control with running := none }
    else none
  | _, _ => none

/-- The state after fiber `f` took a step with this effect. -/
def apply (e : Effect) : Server where
  rooms := e.rooms
  owner := e.owner
  running := e.running
  fibers := Function.update s.fibers f e.fiber
  next := s.next
  broken := e.broken
  log := s.log ++ e.events

/-- One step of the server: the accepting fiber starts a handler, or a handler's fiber moves. -/
def step : Label → Option Server
  | .accept =>
    if s.running = none then
      some { s with fibers := Function.update s.fibers s.next ⟨.init, .read⟩, next := s.next + 1 }
    else none
  | .act f a =>
    if s.running = none ∨ s.running = some f then (s.fiberStep f a).map (s.apply f) else none

end Server

/-- The chat server as a labelled system. -/
def chatServer : System Server Label := ⟨.init, Server.step⟩

end SocketAcl
