import SocketAcl.Lib.System
import SocketAcl.Spec.Rooms

/-!
# The console client and the echo servers (`Client.cpp`, `tcp.cpp`, `tcpCoroutine.cpp`)

One client on one connection to either echo server: `handle_client` on a thread, or the client
fiber of `run_tcp_coroutine_server`. TCP is two byte streams; a label says how many bytes a read
returns and whether a socket call fails. `conn->write` writes all it is given or fails.

The local arrays are memory that starts at `buf`, with anything in it at first: both servers
write one NUL behind what they read, which lies behind `buf` after a read of 256 bytes.
-/

namespace SocketAcl

namespace Echo

/-- The two servers. -/
inductive Server
  | thread
  | coroutine

/-- Where the client stands: in `std::getline`, in `conn.read`, or out of its loop. -/
inductive ClientAt
  | getline
  | read
  | exited
  deriving DecidableEq

/-- Where the server's handler stands: in `conn->read`, in `conn->write(buf, ret)`, or out of its loop. -/
inductive ServerAt
  | read
  | write (ret : ℕ)
  | closed
  deriving DecidableEq

structure State where
  client : ClientAt
  server : ServerAt
  clientBuf : Bytes
  serverBuf : Bytes
  toServer : Bytes
  toClient : Bytes
  /-- the lines typed and written, in order -/
  typed : List Bytes
  /-- the texts printed after `"Echo from server: "`, in order -/
  printed : List Bytes

/-- Both sides are connected; the arrays are not initialised. -/
def State.init (clientBuf serverBuf : Bytes) : State where
  client := .getline
  server := .read
  clientBuf := clientBuf
  serverBuf := serverBuf
  toServer := []
  toClient := []
  typed := []
  printed := []

inductive Label
  /-- `std::getline` gives `message`, and its `conn.write` goes through or fails -/
  | getline (message : Bytes) (ok : Bool)
  /-- the client's `conn.read` returns `n` bytes -/
  | clientRead (n : ℕ)
  /-- the client's `conn.read` returns 0 or -1 -/
  | clientFail
  | serverRead (n : ℕ)
  | serverFail
  | serverWrite (ok : Bool)

/-- What `conn->read(buf, size, false)` and `buf[ret] = '\0'` leave in the memory at `buf`. -/
def received (data buf : Bytes) : Bytes := memcpy data.length [0] (memcpy 0 data buf)

def step (kind : Server) (s : State) : Label → Option State
  | .getline message ok =>
    if s.client = .getline then
      if message = ascii "0" then some { s with client := .exited }
      else if message = [] then some s
      else if ok then
        some { s with client := .read, toServer := s.toServer ++ message, typed := s.typed ++ [message] }
      else some { s with client := .exited }
    else none
  -- `sizeof(buf) - 1`
  | .clientRead n =>
    if s.client = .read ∧ 0 < n ∧ n ≤ 255 ∧ n ≤ s.toClient.length then
      let buf := received (s.toClient.take n) s.clientBuf
      some { s with
        client := .getline
        clientBuf := buf
        toClient := s.toClient.drop n
        printed := s.printed ++ [cstr buf] }
    else none
  | .clientFail => if s.client = .read then some { s with client := .exited } else none
  | .serverRead n =>
    if s.server = .read ∧ 0 < n ∧ n ≤ 256 ∧ n ≤ s.toServer.length then
      some { s with
        server := .write n
        serverBuf := received (s.toServer.take n) s.serverBuf
        toServer := s.toServer.drop n }
    else none
  | .serverFail => if s.server = .read then some { s with server := .closed } else none
  | .serverWrite ok =>
    match s.server with
    | .write ret =>
      if ok then some { s with server := .read, toClient := s.toClient ++ s.serverBuf.take ret }
      else match kind with
        -- the result of `conn->write` is not looked at
        | .thread => some { s with server := .read }
        | .coroutine => some { s with server := .closed }
    | _ => none

/-! ## One handler by itself -/

/-- What a handler did: the indices of `buf` it wrote to, and the bytes it wrote to the socket. -/
structure Served where
  stores : List ℕ
  output : Bytes

/-- `handle_client`. A read gives some bytes, and the write behind it goes through or fails; behind the reads
given, `conn->read` returns 0 or -1. -/
def handleClient : List (Bytes × Bool) → Bytes → Served
  | [], _ => ⟨[], []⟩
  | (data, ok) :: reads, buf =>
    let ret := data.length
    if ret = 0 then ⟨[], []⟩
    else
      let buf := received data buf
      let rest := handleClient reads buf
      ⟨List.range ret ++ ret :: rest.stores, (if ok then buf.take ret else []) ++ rest.output⟩

/-- The client fiber of `run_tcp_coroutine_server`: it ends at a write that fails. -/
def clientFiber : List (Bytes × Bool) → Bytes → Served
  | [], _ => ⟨[], []⟩
  | (data, ok) :: reads, buf =>
    let ret := data.length
    if ret = 0 then ⟨[], []⟩
    else
      let buf := received data buf
      if ok then
        let rest := clientFiber reads buf
        ⟨List.range ret ++ ret :: rest.stores, buf.take ret ++ rest.output⟩
      else ⟨List.range ret ++ [ret], []⟩

def serve : Server → List (Bytes × Bool) → Bytes → Served
  | .thread => handleClient
  | .coroutine => clientFiber

end Echo

/-- The client and an echo server as a labelled system. -/
def echo (kind : Echo.Server) (clientBuf serverBuf : Bytes) : System Echo.State Echo.Label :=
  ⟨.init clientBuf serverBuf, Echo.step kind⟩

end SocketAcl
