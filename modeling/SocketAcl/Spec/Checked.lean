import SocketAcl.Spec.Server

/-!
# The handler with its reads checked

One pass of the handler as in `dispatch` and `Session.handle`, where a read past the end of an
array is `none`: each `std::memcpy` out of `buf` is checked against its 256 bytes, and each C
string against the array it starts in.
-/

namespace SocketAcl

/-- The `n` bytes that `std::memcpy` takes out of a span, behind its first `off`. -/
def span? (off n : ℕ) (m : Bytes) : Option (Chars n) :=
  if off + n ≤ m.length then some (window off n m) else none

/-- The C string that starts at the front of an array. -/
def cstr? {n : ℕ} (m : Chars n) : Option Bytes := if 0 ∈ m.toList then some (cstr m.toList) else none

/-- `PacketHeader::Deserialize`. -/
def PacketHeader.deserialize? (buffer : Bytes) : Option PacketHeader := do
  let totalSize ← span? 0 2 buffer
  let id ← span? 2 2 buffer
  let type ← span? 4 1 buffer
  return { totalSize := u16At 0 totalSize.toList, id := u16At 0 id.toList, type := type.toList.getD 0 0 }

/-- `LoginRequest::Deserialize`. -/
def LoginRequest.deserialize? (buffer : Bytes) : Option LoginRequest := do
  let header ← PacketHeader.deserialize? buffer
  let userID ← span? headerSize 32 buffer
  let authToken ← span? (headerSize + 32) 32 buffer
  return { toPacketHeader := header, userID := userID, authToken := authToken }

/-- `RoomEnterRequest::Deserialize`. -/
def RoomEnterRequest.deserialize? (buffer : Bytes) : Option RoomEnterRequest := do
  let header ← PacketHeader.deserialize? buffer
  let roomNumber ← span? headerSize 4 buffer
  return { toPacketHeader := header, roomNumber := i32At 0 roomNumber.toList }

/-- `RoomChatRequest::Deserialize`. -/
def RoomChatRequest.deserialize? (buffer : Bytes) : Option RoomChatRequest := do
  let header ← PacketHeader.deserialize? buffer
  let message ← span? headerSize 256 buffer
  return { toPacketHeader := header, message := message }

/-- What the handler reads in one pass, from the header to its last look at the decoded packet; `reply` is
what Redis answers to the `cmd.get` of a login. -/
def receive? (ses : Session) (reply : RedisReply) (data : Bytes) : Option Request := do
  let buf := fill 256 data
  let header ← PacketHeader.deserialize? buf
  if header.id = PacketID.reqLogin then
    let loginRequest ← LoginRequest.deserialize? buf
    -- `cmd.get(loginRequest.UserID.data(), ..)`, and `currentUserID = ..` of the same string
    let _ ← cstr? loginRequest.userID
    -- `userExists && storedPassword == loginRequest.AuthToken.data()`
    let _ ← if reply.get.isSome then cstr? loginRequest.authToken else some []
    return .login loginRequest.userID loginRequest.authToken
  else if header.id = PacketID.reqRoomEnter then
    let roomEnterRequest ← RoomEnterRequest.deserialize? buf
    return .roomEnter roomEnterRequest.roomNumber
  else if header.id = PacketID.reqRoomChat then
    let roomChatRequest ← RoomChatRequest.deserialize? buf
    let _ ← if ses.currentRoomNumber ≠ -1 ∧ ses.currentUserID ≠ [] then cstr? roomChatRequest.message else some []
    return .roomChat roomChatRequest.message
  else return .unknown header.id

end SocketAcl
