import SocketAcl.Lib.Parse
import SocketAcl.Spec.Server

/-!
# The shared Redis command (`redis_command.cpp`, `redis_client.cpp`)

All client fibers log in through one `acl::redis cmd` on one connection. `cmd.get` builds the
request in the one request buffer of `cmd` (`build_request1`), writes it on the connection
and takes the next reply that arrives there (`redis_client::run`). A fiber may be switched
out while it writes and while it waits, and nothing locks the buffer or the connection.

A fiber that is switched out inside its write goes on with the bytes the buffer holds by then.
Redis is not part of the source: `parse` is how it reads a request from the bytes that have
arrived, and `store` is what it holds. The connection does not fail here.
-/

namespace SocketAcl

/-- `acl_ui64toa_radix(n, buf, sizeof(buf), 10)`. -/
def decimal (n : ℕ) : Bytes := (Nat.toDigits 10 n).map fun c => UInt8.ofNat c.toNat

/-- `"\r\n"`. -/
def crlf : Bytes := [13, 10]

/-- `redis_command::build_request`. -/
def buildRequest (argv : List Bytes) : Bytes :=
  ascii "*" ++ decimal argv.length ++ crlf ++
    argv.flatMap fun arg => ascii "$" ++ decimal arg.length ++ crlf ++ arg ++ crlf

/-- The request of `cmd.get(userID, ..)`. -/
def request (userID : Bytes) : Bytes := buildRequest [ascii "GET", userID]

/-- Where a fiber stands in the login branch. -/
inductive Login
  /-- outside `cmd.get` -/
  | out
  /-- in `conn_.write(req)`, with `sent` bytes written -/
  | write (userID authToken : Bytes) (sent : ℕ)
  /-- in `get_object`, before the first byte of a reply -/
  | wait (userID authToken : Bytes)
  deriving DecidableEq

structure Cmd where
  /-- the memory of `request_buf_` -/
  buffer : Bytes
  /-- what was written on the connection and not yet read by Redis -/
  wire : Bytes
  /-- replies that have arrived and were not taken, the next one first -/
  replies : List RedisReply
  logins : ConnId → Login
  log : List Event
  /-- for the statements only: the user IDs whose request was written and whose reply was not
  taken, in the order of the requests -/
  unanswered : List Bytes

def Cmd.init : Cmd where
  buffer := []
  wire := []
  replies := []
  logins := fun _ => .out
  log := []
  unanswered := []

inductive CmdLabel
  /-- the handler of `f` calls `cmd.get` -/
  | get (f : ConnId) (userID authToken : Bytes)
  /-- the socket takes `n` more bytes of the request of `f` -/
  | write (f : ConnId) (n : ℕ)
  /-- Redis reads a request and answers it -/
  | redis
  /-- `f` is resumed with the next reply and compares it -/
  | reply (f : ConnId)

variable (store : Bytes → Option RedisValue) (parse : Bytes → Option (Bytes × Bytes))

/-- One step of the logins. -/
def Cmd.step (s : Cmd) : CmdLabel → Option Cmd
  | .get f userID authToken =>
    if s.logins f = .out then
      some { s with
        buffer := memcpy 0 (request userID ++ [0]) s.buffer
        logins := Function.update s.logins f (.write userID authToken 0) }
    else none
  | .write f n =>
    match s.logins f with
    | .write userID authToken sent =>
      let wire := s.wire ++ (s.buffer.drop sent).take n
      if 0 < n ∧ sent + n < (request userID).length then
        some { s with
          wire := wire
          logins := Function.update s.logins f (.write userID authToken (sent + n)) }
      else if sent + n = (request userID).length then
        some { s with
          wire := wire
          logins := Function.update s.logins f (.wait userID authToken)
          unanswered := s.unanswered ++ [userID] }
      else none
    | _ => none
  | .redis =>
    match parse s.wire with
    | some (userID, rest) => some { s with wire := rest, replies := s.replies ++ [answer store userID] }
    | none => none
  | .reply f =>
    match s.logins f, s.replies with
    | .wait userID authToken, reply :: replies =>
      some { s with
        replies := replies
        logins := Function.update s.logins f .out
        log := s.log ++ [.login f userID authToken reply]
        unanswered := s.unanswered.tail }
    | _, _ => none

/-- The logins through the shared command as a labelled system. -/
def sharedCmd : System Cmd CmdLabel := ⟨.init, Cmd.step store parse⟩

/-- What the command relies on: Redis takes a request that has arrived whole, and leaves what
has arrived behind it. -/
structure InOrder (parse : Bytes → Option (Bytes × Bytes)) : Prop where
  whole : ∀ userID, parse (request userID) = some (userID, [])
  stable : Stable parse

/-- The outcome of a login that runs alone: the request is built, written and answered, and
the reply is compared with the token. -/
def alone (userID authToken : Bytes) : Option Bool :=
  ((sharedCmd store parse).run .init
    [.get 0 userID authToken, .write 0 (request userID).length, .redis, .reply 0]).bind fun s =>
      match s.log with
      | [.login _ _ authToken reply] => some (loginOk reply authToken)
      | _ => none

end SocketAcl
