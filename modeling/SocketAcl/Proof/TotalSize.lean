import SocketAcl.Proof.ClientFraming
import SocketAcl.Proof.ServerFraming

/-!
# `TotalSize` on the wire

The first two bytes of every packet are to give its length. The server writes fixed sizes. The
client takes a login to be 70 bytes long, and sizes a chat request by its code units: it corrects
`TotalSize` to the encoded length only after the header was serialized.

* `total_size`: a packet's `TotalSize` is its length exactly where its texts are ASCII and, in a
  login, at most 32 characters long.
-/

namespace SocketAcl

open Client

/-- A packet that one of the two programs sends. -/
inductive Packet
  | click (c : Click)
  | written (w : Written)

/-- The bytes that are written; `none` where building them throws. -/
def Packet.bytes : Packet → Option Bytes
  | click c => c.bytes
  | written w => some w.packet

/-- A text of at most 32 characters, all of them ASCII. -/
def Narrow (s : CsString) : Prop := UTF8.isAscii s = true ∧ s.length ≤ 32

/-- The texts whose bytes are as many as the code that sets `TotalSize` takes them to be. -/
def Packet.Counted : Packet → Prop
  | click (.login userID authToken) => Narrow userID ∧ Narrow authToken
  | click (.roomEnter _) => True
  | click (.roomChat message) => UTF8.isAscii message = true
  | written _ => True

/-- The `TotalSize` behind a client's header is the header's. -/
theorem u16At_serializeHeader (h : PacketHeader) (l : Bytes) : u16At 0 (serializeHeader h ++ l) = h.totalSize :=
  congrArg PacketHeader.totalSize (deserialize_serializeHeader h l)

/-- A padded text is 32 bytes long exactly where it is narrow. -/
theorem narrow_iff (s : CsString) : (UTF8.getBytes (s.padRight 32)).length = 32 ↔ Narrow s := by
  have hle := UTF8.length_le_getBytes s
  unfold Narrow
  rw [length_padded, ← UTF8.length_getBytes]
  omega

/-- **`TotalSize` is truthful** exactly where the texts have as many bytes as the code takes them to have. -/
theorem total_size (p : Packet) {b : Bytes} (hb : p.bytes = some b) :
    (u16At 0 b).toNat = b.length ↔ p.Counted := by
  cases p with
  | click c =>
    cases c with
    | login userID authToken =>
      obtain rfl := Option.some.inj hb
      have h1 := le_length_padded 32 userID
      have h2 := le_length_padded 32 authToken
      change _ ↔ Narrow userID ∧ Narrow authToken
      rw [← narrow_iff, ← narrow_iff]
      have hbytes : btnLoginClick userID authToken = serializeHeader ⟨70, PacketID.reqLogin, 0⟩ ++
          (UTF8.getBytes (userID.padRight 32) ++ UTF8.getBytes (authToken.padRight 32)) := List.append_assoc _ _ _
      rw [hbytes, u16At_serializeHeader, List.length_append, List.length_append, serializeHeader_length]
      change 70 = _ ↔ _
      omega
    | roomEnter roomNumber =>
      obtain rfl := Option.some.inj hb
      refine iff_of_true ?_ trivial
      unfold btnEnterRoomClick Client.RoomEnterRequest.serialize
      rw [u16At_serializeHeader, List.length_append, serializeHeader_length]
      rfl
    | roomChat message =>
      simp only [Packet.bytes, Click.bytes, btnSendChatClick, Client.RoomChatRequest.serialize] at hb
      split at hb
      · rename_i hroom
        obtain rfl := Option.some.inj hb
        have hle := UTF8.length_le_getBytes message
        rw [serializeHeader_length] at hroom
        -- the buffer is as long as the bytes, the size in the header counts units
        have hlt : (UInt16.ofNat (6 + (UTF8.getBytes message).length)).toNat < 65536 := UInt16.toNat_lt _
        have hsize : (UInt16.ofNat (6 + message.length)).toNat = 6 + message.length := by
          rw [UInt16.toNat_ofNat']
          exact Nat.mod_eq_of_lt (by omega)
        change _ ↔ UTF8.isAscii message = true
        rw [← UTF8.length_getBytes, u16At_serializeHeader, List.length_append, serializeHeader_length, hsize]
        omega
      · cases hb
  | written w =>
    obtain rfl := Option.some.inj hb
    exact iff_of_true w.totalSize_eq trivial

/-- The size of an ASCII chat request is truthful. -/
theorem total_size_ascii :
    (u16At 0 [8, 0, 2, 4, 0, 0, 0x68, 0x69]).toNat = [8, 0, 2, 4, 0, 0, 0x68, 0x69].length :=
  (total_size (.click (.roomChat [0x68, 0x69])) (by decide)).2 (by decide : UTF8.isAscii [0x68, 0x69] = true)

/-- **A size in code units.** The chat request "é" is 8 bytes long and says 7. -/
theorem size_in_units : ∃ b, btnSendChatClick [0xE9] = some b ∧ b.length = 8 ∧ (u16At 0 b).toNat = 7 :=
  ⟨[7, 0, 2, 4, 0, 0, 0xC3, 0xA9], by decide, rfl, by decide⟩

end SocketAcl
