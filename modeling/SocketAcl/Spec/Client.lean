import SocketAcl.Spec.Packet
import SocketAcl.Spec.Text

/-!
# The client (`WinFormsClient/PacketDefinition.cs`, `Form1.cs`)

* `Client.LoginRequest.serialize` and the others: the client's packets; texts are padded by code
  units and then encoded, so their fields are 32 bytes long or longer.
* `btnLoginClick` and the others: what a click writes to the stream.
* `processReceivedData`, `startReceiving`: what the receive loop makes of the pieces it reads.
  An exception ends the loop.
* `ReceiveLoop`: the same loop, one iteration at a time, on a connection that the server closes.
* `addRoomChatMessageList`, `showChat`: the form's list of chat lines.

The labels, user list and message boxes of the form are left out.
-/

namespace SocketAcl

namespace Client

/-! ## Packets -/

/-- `PacketHeader.Serialize`. -/
def serializeHeader (h : PacketHeader) : Bytes := u16Bytes h.totalSize ++ u16Bytes h.id ++ [h.type, 0]

structure LoginRequest extends PacketHeader where
  userID : CsString
  authToken : CsString

def LoginRequest.serialize (p : LoginRequest) : Bytes :=
  serializeHeader p.toPacketHeader ++ UTF8.getBytes (p.userID.padRight 32) ++
    UTF8.getBytes (p.authToken.padRight 32)

/-- `LoginRequest.Deserialize`; `none` where `GetString` throws. -/
def LoginRequest.deserialize (buffer : Bytes) : Option LoginRequest := do
  let header := SocketAcl.PacketHeader.deserialize buffer
  let userID ← UTF8.getString buffer 6 32
  let authToken ← UTF8.getString buffer 38 32
  return { toPacketHeader := header, userID := userID.trimEnd, authToken := authToken.trimEnd }

structure RoomEnterRequest extends PacketHeader where
  roomNumber : Int32

def RoomEnterRequest.serialize (p : RoomEnterRequest) : Bytes :=
  serializeHeader p.toPacketHeader ++ i32Bytes p.roomNumber

/-- `RoomEnterRequest.Deserialize`; `none` where `BitConverter.ToInt32` throws. -/
def RoomEnterRequest.deserialize (buffer : Bytes) : Option RoomEnterRequest :=
  if 6 + 4 ≤ buffer.length then
    some { toPacketHeader := SocketAcl.PacketHeader.deserialize buffer, roomNumber := i32At 6 buffer }
  else none

structure RoomChatRequest extends PacketHeader where
  message : CsString

/-- The buffer is as long as the 16-bit `TotalSize` says: `Array.Copy` throws (`none`) where the
message does not fit. The header was built with the old `TotalSize`. -/
def RoomChatRequest.serialize (p : RoomChatRequest) : Option Bytes :=
  let headerBuffer := serializeHeader p.toPacketHeader
  let messageBuffer := UTF8.getBytes p.message
  let totalSize := UInt16.ofNat (headerBuffer.length + messageBuffer.length)
  if headerBuffer.length + messageBuffer.length ≤ totalSize.toNat then
    some (headerBuffer ++ messageBuffer)
  else none

/-- `RoomChatRequest.Deserialize`; `none` where `GetString` throws. -/
def RoomChatRequest.deserialize (buffer : Bytes) : Option RoomChatRequest := do
  let header := SocketAcl.PacketHeader.deserialize buffer
  let messageLength : ℤ := header.totalSize.toNat - 6
  let message ← UTF8.getString buffer 6 messageLength
  return { toPacketHeader := header, message := message.trimEnd }

structure RoomChatNotification extends PacketHeader where
  userID : CsString
  message : CsString

def RoomChatNotification.serialize (p : RoomChatNotification) : Bytes :=
  serializeHeader p.toPacketHeader ++ UTF8.getBytes (p.userID.padRight 32) ++ UTF8.getBytes p.message

/-- `RoomChatNotification.Deserialize`; `none` where `GetString` throws. -/
def RoomChatNotification.deserialize (buffer : Bytes) : Option RoomChatNotification := do
  let header := SocketAcl.PacketHeader.deserialize buffer
  let userID ← UTF8.getString buffer 6 32
  let messageLength : ℤ := header.totalSize.toNat - 6 - 32
  let message ← UTF8.getString buffer 38 messageLength
  return { toPacketHeader := header, userID := userID.trimEnd, message := message.trimEnd }

structure UserListNotification extends PacketHeader where
  userID1 : CsString
  userID2 : CsString

def UserListNotification.serialize (p : UserListNotification) : Bytes :=
  serializeHeader p.toPacketHeader ++ UTF8.getBytes (p.userID1.padRight 32) ++
    UTF8.getBytes (p.userID2.padRight 32)

/-- `UserListNotification.Deserialize`; `none` where `GetString` throws. -/
def UserListNotification.deserialize (buffer : Bytes) : Option UserListNotification := do
  let header := SocketAcl.PacketHeader.deserialize buffer
  let userID1 ← UTF8.getString buffer 6 32
  let userID2 ← UTF8.getString buffer 38 32
  return { toPacketHeader := header, userID1 := userID1.trimEnd, userID2 := userID2.trimEnd }

/-! ## Clicks -/

/-- What `btnLogin_Click` writes. -/
def btnLoginClick (userID authToken : CsString) : Bytes :=
  LoginRequest.serialize
    { totalSize := 70, id := PacketID.reqLogin, type := 0, userID := userID, authToken := authToken }

/-- What `btnEnterRoom_Click` writes. -/
def btnEnterRoomClick (roomNumber : Int32) : Bytes :=
  RoomEnterRequest.serialize
    { totalSize := 10, id := PacketID.reqRoomEnter, type := 0, roomNumber := roomNumber }

/-- What `btnSendChat_Click` writes. -/
def btnSendChatClick (message : CsString) : Option Bytes :=
  RoomChatRequest.serialize
    { totalSize := UInt16.ofNat (6 + message.length), id := PacketID.reqRoomChat, type := 0
      message := message }

/-! ## The receive loop -/

/-- What `ProcessReceivedData` hands to the form. -/
inductive Notification
  | roomChat (cleanUserID cleanMessage : CsString)
  | userList (cleanUserID1 cleanUserID2 : CsString)
  | unknown (id : PacketID)
  deriving DecidableEq

/-- `ProcessReceivedData`; `none` where it throws. -/
def processReceivedData (buffer : Bytes) : Option Notification :=
  let header := SocketAcl.PacketHeader.deserialize buffer
  if header.id = PacketID.ntfRoomChat then
    (RoomChatNotification.deserialize buffer).map fun chatNotification =>
      .roomChat chatNotification.userID.trimEnd chatNotification.message.trimEnd
  else if header.id = PacketID.ntfUserList then
    (UserListNotification.deserialize buffer).map fun userListNotification =>
      .userList userListNotification.userID1.trimEnd userListNotification.userID2.trimEnd
  else some (.unknown header.id)

/-- The loop of `StartReceiving` over the pieces its reads return: each lands in a new buffer of
512 bytes. -/
def startReceiving : List Bytes → List Notification
  | [] => []
  | data :: pieces =>
    match processReceivedData (fill 512 data) with
    | some notification => notification :: startReceiving pieces
    | none => []

/-- The loop of `StartReceiving` while the server's last bytes arrive and behind them. -/
structure ReceiveLoop where
  /-- `_client != null && _client.Connected`: a read that returns 0 does not change it -/
  connected : Bool
  /-- what the reads still return; behind it they return 0 -/
  pieces : List Bytes
  /-- what was handed to the form -/
  shown : List Notification

/-- One iteration; `none` where the loop is left, by its condition or by an exception. -/
def ReceiveLoop.iterate (l : ReceiveLoop) : Option ReceiveLoop :=
  if l.connected then
    match l.pieces with
    | data :: pieces =>
      (processReceivedData (fill 512 data)).map fun notification =>
        { l with pieces := pieces, shown := l.shown ++ [notification] }
    -- `bytesRead` is 0
    | [] => some l
  else none

/-! ## The chat lines -/

end Client

end SocketAcl
