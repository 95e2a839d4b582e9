import SocketAcl.Spec.Bytes

/-!
# The server's packets (`ChatServerAcl/PacketDefinition`)

Each packet has a 6-byte header (5 bytes of fields and one of padding) with its fields back
to back behind it. `serialize` writes into a buffer, `deserialize` reads the memory that
starts at the buffer: nothing in the source checks the buffer's length.
-/

namespace SocketAcl

/-- `enum class PacketID : uint16_t`: any 16-bit value. Of its seven names five are used. -/
abbrev PacketID := UInt16

namespace PacketID

def reqLogin : PacketID := 1002
def reqRoomEnter : PacketID := 1021
def ntfUserList : PacketID := 2024
def reqRoomChat : PacketID := 1026
def ntfRoomChat : PacketID := 1027

end PacketID

/-- `struct PacketHeader`. -/
structure PacketHeader where
  totalSize : UInt16
  id : PacketID
  type : UInt8
  deriving DecidableEq

/-- `sizeof(PacketHeader)`. -/
def headerSize : ℕ := 6

/-- `PacketHeader::Serialize`: byte 5, the padding, is not written. -/
def PacketHeader.serialize (h : PacketHeader) (buffer : Bytes) : Bytes :=
  memcpy 4 [h.type] (memcpy 2 (u16Bytes h.id) (memcpy 0 (u16Bytes h.totalSize) buffer))

/-- `PacketHeader::Deserialize`. -/
def PacketHeader.deserialize (buffer : Bytes) : PacketHeader where
  totalSize := u16At 0 buffer
  id := u16At 2 buffer
  type := buffer.getD 4 0

/-- A header in a zeroed buffer. -/
theorem PacketHeader.serialize_zeros (h : PacketHeader) (k : ℕ) :
    h.serialize (zeros (6 + k)) = u16Bytes h.totalSize ++ u16Bytes h.id ++ [h.type, 0] ++ zeros k := by
  have hzeros : zeros (6 + k) = [0, 0, 0, 0, 0, 0] ++ zeros k := by
    unfold zeros
    rw [List.replicate_add]
    rfl
  rw [hzeros]
  rfl

/-- The packet ID stands at bytes 2 and 3. -/
theorem PacketHeader.id_toNat (m : Bytes) :
    (PacketHeader.deserialize m).id.toNat = (m.getD 2 0).toNat + 256 * (m.getD 3 0).toNat := by
  have h2 : (m.getD 2 0).toNat < 256 := UInt8.toNat_lt _
  have h3 : (m.getD 3 0).toNat < 256 := UInt8.toNat_lt _
  simp only [PacketHeader.deserialize, u16At, Nat.reduceAdd]
  rw [UInt16.toNat_ofNat']
  exact Nat.mod_eq_of_lt (by omega)

/-- The ID that is read tells both bytes. -/
theorem PacketHeader.id_eq_iff {m m' : Bytes} :
    (PacketHeader.deserialize m).id = (PacketHeader.deserialize m').id ↔
      m.getD 2 0 = m'.getD 2 0 ∧ m.getD 3 0 = m'.getD 3 0 := by
  have h2 : (m.getD 2 0).toNat < 256 := UInt8.toNat_lt _
  have h2' : (m'.getD 2 0).toNat < 256 := UInt8.toNat_lt _
  rw [← UInt16.toNat_inj, ← UInt8.toNat_inj, ← UInt8.toNat_inj, id_toNat, id_toNat]
  omega

structure LoginRequest extends PacketHeader where
  userID : Chars 32
  authToken : Chars 32
  deriving DecidableEq

def LoginRequest.serialize (p : LoginRequest) (buffer : Bytes) : Bytes :=
  memcpy (headerSize + 32) p.authToken.toList
    (memcpy headerSize p.userID.toList (p.toPacketHeader.serialize buffer))

def LoginRequest.deserialize (buffer : Bytes) : LoginRequest where
  toPacketHeader := .deserialize buffer
  userID := window headerSize 32 buffer
  authToken := window (headerSize + 32) 32 buffer

structure RoomEnterRequest extends PacketHeader where
  roomNumber : Int32
  deriving DecidableEq

def RoomEnterRequest.serialize (p : RoomEnterRequest) (buffer : Bytes) : Bytes :=
  memcpy headerSize (i32Bytes p.roomNumber) (p.toPacketHeader.serialize buffer)

def RoomEnterRequest.deserialize (buffer : Bytes) : RoomEnterRequest where
  toPacketHeader := .deserialize buffer
  roomNumber := i32At headerSize buffer

structure UserListNotification extends PacketHeader where
  userID1 : Chars 32
  userID2 : Chars 32
  deriving DecidableEq

def UserListNotification.serialize (p : UserListNotification) (buffer : Bytes) : Bytes :=
  memcpy (headerSize + 32) p.userID2.toList
    (memcpy headerSize p.userID1.toList (p.toPacketHeader.serialize buffer))

def UserListNotification.deserialize (buffer : Bytes) : UserListNotification where
  toPacketHeader := .deserialize buffer
  userID1 := window headerSize 32 buffer
  userID2 := window (headerSize + 32) 32 buffer

/-- `sizeof(UserListNotification)`. -/
def UserListNotification.size : ℕ := 70

structure RoomChatRequest extends PacketHeader where
  message : Chars 256
  deriving DecidableEq

def RoomChatRequest.serialize (p : RoomChatRequest) (buffer : Bytes) : Bytes :=
  memcpy headerSize p.message.toList (p.toPacketHeader.serialize buffer)

/-- `RoomChatRequest::Deserialize` copies 256 bytes from offset 6: more than is left of the
256-byte buffer the handler reads into. -/
def RoomChatRequest.deserialize (buffer : Bytes) : RoomChatRequest where
  toPacketHeader := .deserialize buffer
  message := window headerSize 256 buffer

structure RoomChatNotification extends PacketHeader where
  userID : Chars 32
  message : Chars 256
  deriving DecidableEq

def RoomChatNotification.serialize (p : RoomChatNotification) (buffer : Bytes) : Bytes :=
  memcpy (headerSize + 32) p.message.toList
    (memcpy headerSize p.userID.toList (p.toPacketHeader.serialize buffer))

def RoomChatNotification.deserialize (buffer : Bytes) : RoomChatNotification where
  toPacketHeader := .deserialize buffer
  userID := window headerSize 32 buffer
  message := window (headerSize + 32) 256 buffer

/-- `sizeof(RoomChatNotification)`. -/
def RoomChatNotification.size : ℕ := 294

end SocketAcl
