import SocketAcl.Proof.Session

/-!
# Scripts: whole handler passes as lists of labels

The labels a handler goes through for one request when nothing else runs in between, from
the read to the next read. They make runs that evaluate.
-/

namespace SocketAcl

namespace Script

def loginPacket (userID authToken : Bytes) : Bytes :=
  LoginRequest.serialize
    { totalSize := 70, id := PacketID.reqLogin, type := 0
      userID := window 0 32 userID, authToken := window 0 32 authToken } (zeros 70)

def enterPacket (roomNumber : Int32) : Bytes :=
  RoomEnterRequest.serialize
    { totalSize := 10, id := PacketID.reqRoomEnter, type := 0, roomNumber := roomNumber } (zeros 10)

def chatPacket (message : Bytes) : Bytes :=
  PacketHeader.serialize
    { totalSize := UInt16.ofNat (6 + message.length), id := PacketID.reqRoomChat, type := 0 } (zeros 6)
    ++ message

variable (f : ConnId)

def recv (data : Bytes) : Label := .act f (.recv .clear data)
def go : Label := .act f .go
def suspend : Label := .act f .suspend
def run (order : List (Bytes × ConnId)) : Label := .act f (.run order 0)

/-- A login with the given reply, and the text written back. -/
def login (userID authToken : Bytes) (reply : RedisReply) (text : String) : List Label :=
  [recv f (loginPacket userID authToken), .act f (.reply reply), go f, .act f (.send text.length), go f]

/-- `Broadcast` of `n` bytes to the members in this order. -/
def broadcast (order : List (Bytes × ConnId)) (n : ℕ) : List Label :=
  [go f, run f order] ++ order.flatMap (fun _ => [go f, .act f (.send n)]) ++ [go f, go f]

/-- `SendUserListToAll` to the members in this order. -/
def userList (order : List (Bytes × ConnId)) : List Label :=
  [go f, run f order, go f] ++ broadcast f order 70

/-- An accepted entry, with the members the room has afterwards. -/
def enter (roomNumber : Int32) (order : List (Bytes × ConnId)) : List Label :=
  [recv f (enterPacket roomNumber), go f, run f [], go f] ++ userList f order ++ broadcast f order 294

/-- A refused entry. -/
def refused (roomNumber : Int32) : List Label :=
  [recv f (enterPacket roomNumber), go f, run f [], go f, .act f (.send 13), go f, go f]

/-- A `LeaveRoom` on the way out that leaves the room empty, and the `delete`. -/
def hangUp : List Label :=
  [.act f .eof, go f, run f [], go f, go f, run f [], go f, go f, run f [], go f, go f]

/-- A `LeaveRoom` on the way out with these members left, and the `delete`. -/
def leave (order : List (Bytes × ConnId)) : List Label :=
  [.act f .eof, go f, run f [], go f] ++ broadcast f order 294 ++ userList f order ++ [go f]

/-- Steps that leave the first seat alone: user IDs are stored and critical sections run only while
`rooms_` is empty (a user ID only before any room is asked for), and the only login is `"alice"`'s. -/
def first (s : Server) : Label → Bool
  | .act f (.reply reply) =>
    decide (s.pc f = .get (ascii "alice") (ascii "pw") ∧ reply = .bulk (ascii "pw"))
  | .act f .go => decide (s.rooms = ∅ ∧ (s.ses f).currentRoomNumber = -1) || match s.pc f with
    | .write [] (.login _) => false
    | _ => true
  | .act f (.run _ _) => decide (s.rooms = ∅) || match s.pc f with
    | .body (.enterRoom _ _) _ _ => false
    | .body (.leaveRoom _ _) _ _ => false
    | _ => true
  | _ => true

section

variable {s : Server} {f : ConnId}

theorem first_reply {reply : RedisReply} (h : first s (.act f (.reply reply)) = true) :
    s.pc f = .get (ascii "alice") (ascii "pw") ∧ reply = .bulk (ascii "pw") := of_decide_eq_true h

theorem first_store {user : Option Bytes} (h : first s (.act f .go) = true)
    (hc : s.pc f = .write [] (.login user)) : s.rooms = ∅ ∧ (s.ses f).currentRoomNumber = -1 := by
  simpa [first, hc] using h

theorem first_run {order : List (Bytes × ConnId)} {type : UInt8} {call : Call} {next : List Call}
    {tail : Tail} (h : first s (.act f (.run order type)) = true) (hc : s.pc f = .body call next tail)
    (hl : (∃ r u, call = .enterRoom r u) ∨ ∃ r u, call = .leaveRoom r u) : s.rooms = ∅ := by
  rcases hl with ⟨r, u, rfl⟩ | ⟨r, u, rfl⟩ <;> simpa [first, hc] using h

end

/-- The labels of a login as `"alice"`, with the stored password. -/
def loginAlice : List Label := login f (ascii "alice") (ascii "pw") (.bulk (ascii "pw")) "Login Success!"

/-- A first client connects, logs in as `"alice"` and enters room 1. -/
def aliceEnters : List Label := .accept :: loginAlice 0 ++ enter 0 1 [(ascii "alice", 0)]

/-- The members of room 1. -/
def pair : List (Bytes × ConnId) := [(ascii "alice", 0), (ascii "bob", 1)]

/-- "alice" enters room 1, then "bob". -/
def pairEnters : List Label :=
  aliceEnters ++ [suspend 0, .accept] ++
    login 1 (ascii "bob") (ascii "pw") (.bulk (ascii "pw")) "Login Success!" ++ enter 1 1 pair ++ [suspend 1]

/-- "alice" asks for room 1 once more and is refused, and "bob" hangs up. "carol" takes his place: in the
middle of a write of hers "alice" says "hi" and waits for the mutex. -/
def carolComes : List Label :=
  let both := [(ascii "alice", 0), (ascii "carol", 2)]
  pairEnters ++ refused 0 1 ++ [suspend 0] ++ leave 1 [(ascii "alice", 0)] ++ [.accept] ++
    login 2 (ascii "carol") (ascii "pw") (.bulk (ascii "pw")) "Login Success!" ++
    [recv 2 (enterPacket 1), go 2, run 2 [], go 2] ++ userList 2 both ++
    [go 2, run 2 both, go 2, .act 2 (.send 100), suspend 2, recv 0 (chatPacket (ascii "hi")), suspend 0,
      .act 2 (.send 194), go 2, .act 2 (.send 294), go 2, go 2, suspend 2] ++ broadcast 0 both 294

/-- Every seat of `f` passes the test. -/
def seats (s : Server) (f : ConnId) (test : Int32 → Bytes → Bool) : Bool :=
  decide (∀ row ∈ s.rooms.entries, ∀ m ∈ row.2.entries, m.2 = f → test row.1 m.1 = true)

theorem of_seats {s : Server} {f : ConnId} {test : Int32 → Bytes → Bool} (h : seats s f test = true) {r : Int32}
    {u : Bytes} (hc : s.rooms.cell r u = some f) : test r u = true := by
  have hrow := Finmap.lookup_eq_some_iff.1 (Nested.lookup_of_mem (Nested.mem_of_cell hc))
  exact of_decide_eq_true h _ hrow _ (Finmap.lookup_eq_some_iff.1 hc) rfl

end Script

/-- **The run of a first client** is one in which nothing else happens. -/
theorem alice_enters {C : Server → Label → Prop}
    (hC : ∀ s l t, Script.first s l = true → s.step l = some t → C s l) :
    ∃ s, chatServer.Reach C s ∧ s.rooms.cell 1 (ascii "alice") = some 0 ∧ s.pc 0 = .read ∧
      s.ses 0 = ⟨ascii "alice", 1⟩ := by
  obtain ⟨s, hs, hP⟩ := System.exists_reach (S := chatServer) (P := fun s =>
      decide (s.rooms.cell 1 (ascii "alice") = some 0 ∧ s.pc 0 = .read ∧ s.ses 0 = ⟨ascii "alice", 1⟩))
    Script.aliceEnters hC (by decide +kernel)
  exact ⟨s, hs, of_decide_eq_true hP⟩

end SocketAcl
