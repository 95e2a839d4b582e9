import SocketAcl.Proof.ClientCodec
import SocketAcl.Spec.Server

/-!
# Client requests on the server

What the server decodes from a login or room request of the client that is delivered whole.

* `requests_decode`: both are decoded as they were sent exactly where the user ID is ASCII or the
  token empty. The user ID always comes through; behind one that is not ASCII the token is pushed back
  (`padded_drop`) and its C string is empty.
-/

namespace SocketAcl

open Client

/-- A text that fits its 32-byte field as a C string. -/
structure FitsField (s : CsString) : Prop where
  no_nul : 0 ∉ s
  short : (UTF8.getBytes s).length ≤ 31

/-- The handler's buffer, and the stack behind it, when a packet was delivered whole. -/
def delivered (stack : Stack) (packet : Bytes) : Bytes := fill 256 packet ++ stack.behindBuf

/-- The login request is decoded as it was sent: the header, and the C strings `UserID.data()` and
`AuthToken.data()` that the handler uses. -/
structure LoginDecoded (stack : Stack) (p : Client.LoginRequest) : Prop where
  header : (LoginRequest.deserialize (delivered stack p.serialize)).toPacketHeader = p.toPacketHeader
  userID : let request := LoginRequest.deserialize (delivered stack p.serialize)
    cstr (request.userID.toList ++ request.authToken.toList ++ stack.behindLogin) = UTF8.getBytes p.userID
  authToken : let request := LoginRequest.deserialize (delivered stack p.serialize)
    cstr (request.authToken.toList ++ stack.behindLogin) = UTF8.getBytes p.authToken

/-- The room request is decoded as it was sent. -/
structure RoomEnterDecoded (stack : Stack) (p : Client.RoomEnterRequest) : Prop where
  header : (RoomEnterRequest.deserialize (delivered stack p.serialize)).toPacketHeader = p.toPacketHeader
  roomNumber : (RoomEnterRequest.deserialize (delivered stack p.serialize)).roomNumber = p.roomNumber

/-- The memory that starts with a packet. -/
theorem delivered_eq {packet l : Bytes} {h : PacketHeader} (stack : Stack) (hp : packet = serializeHeader h ++ l) :
    delivered stack packet = serializeHeader h ++ (l ++ (zeros (256 - packet.length) ++ stack.behindBuf)) := by
  subst hp
  unfold delivered fill
  rw [List.append_assoc, List.append_assoc]

/-- A window on a memory that covers it. -/
theorem window_toList_of_le {off n : ℕ} {m : Bytes} (h : off + n ≤ m.length) :
    (window off n m).toList = (m.drop off).take n := by
  refine List.ext_getElem ?_ ?_
  · rw [List.Vector.toList_length, List.length_take, List.length_drop]
    omega
  · intro i h1 h2
    have hi : i < n := by rwa [List.Vector.toList_length] at h1
    have hget := toList_getD (window off n m) ⟨i, hi⟩
    rw [window_get, List.getD_eq_getElem _ _ h1, List.getD_eq_getElem _ _ (by show off + i < _; omega)] at hget
    rw [hget, List.getElem_take, List.getElem_drop]

/-- The C string of a zero-filled field. -/
theorem cstr_fill {n : ℕ} {t : Bytes} (h0 : 0 ∉ t) (hlen : t.length < n) (rest : Bytes) :
    cstr (fill n t ++ rest) = t := by
  have := cstr_drop_fill rest h0 hlen (Nat.zero_lt_of_lt hlen)
  rwa [List.drop_zero, List.drop_zero] at this

section

variable {stack : Stack} {p : Client.LoginRequest}

theorem login_length (hu : FitsField p.userID) (ht : FitsField p.authToken) : p.serialize.length ≤ 256 := by
  have h1 := hu.short
  have h2 := ht.short
  unfold Client.LoginRequest.serialize
  rw [List.length_append, List.length_append, serializeHeader_length, length_padded, length_padded]
  omega

/-- The memory that starts with a login request. -/
theorem delivered_login (stack : Stack) (p : Client.LoginRequest) : delivered stack p.serialize =
    serializeHeader p.toPacketHeader ++ (UTF8.getBytes (p.userID.padRight 32) ++
      (UTF8.getBytes (p.authToken.padRight 32) ++ (zeros (256 - p.serialize.length) ++ stack.behindBuf))) := by
  have hbytes : p.serialize = serializeHeader p.toPacketHeader ++
      (UTF8.getBytes (p.userID.padRight 32) ++ UTF8.getBytes (p.authToken.padRight 32)) := List.append_assoc _ _ _
  rw [delivered_eq stack hbytes, List.append_assoc]

/-- **The login request on the server.** -/
theorem login_decoded (hu : FitsField p.userID) (ht : FitsField p.authToken) :
    LoginDecoded stack p ↔ UTF8.isAscii p.userID = true ∨ p.authToken = [] := by
  have hushort := hu.short
  have htshort := ht.short
  have hle := UTF8.length_le_getBytes p.userID
  have hlength : 256 ≤ (delivered stack p.serialize).length := by
    unfold delivered
    rw [List.length_append, fill_length (login_length hu ht)]
    omega
  have hheader : (LoginRequest.deserialize (delivered stack p.serialize)).toPacketHeader = p.toPacketHeader := by
    show PacketHeader.deserialize (delivered stack p.serialize) = _
    rw [delivered_login, deserialize_serializeHeader]
  have hdrop : (delivered stack p.serialize).drop 6 = UTF8.getBytes (p.userID.padRight 32) ++
      (UTF8.getBytes (p.authToken.padRight 32) ++ (zeros (256 - p.serialize.length) ++ stack.behindBuf)) := by
    rw [delivered_login]
    exact List.drop_left' (serializeHeader_length _)
  have huserID : (LoginRequest.deserialize (delivered stack p.serialize)).userID.toList =
      fill 32 (UTF8.getBytes p.userID) := by
    show (window 6 32 (delivered stack p.serialize)).toList = _
    rw [window_toList_of_le (by omega), hdrop, padded_take (by omega)]
  -- what the user ID has beyond its code units stands in front of the token
  have htoken : (LoginRequest.deserialize (delivered stack p.serialize)).authToken.toList =
      (zeros ((UTF8.getBytes p.userID).length - p.userID.length) ++ (UTF8.getBytes (p.authToken.padRight 32) ++
        (zeros (256 - p.serialize.length) ++ stack.behindBuf))).take 32 := by
    show (window (6 + 32) 32 (delivered stack p.serialize)).toList = _
    rw [window_toList_of_le (by omega), ← List.drop_drop, hdrop, padded_drop (by omega)]
  have hfirst : cstr ((LoginRequest.deserialize (delivered stack p.serialize)).userID.toList ++
      (LoginRequest.deserialize (delivered stack p.serialize)).authToken.toList ++ stack.behindLogin) =
      UTF8.getBytes p.userID := by
    rw [huserID, List.append_assoc, cstr_fill (UTF8.getBytes_no_nul hu.no_nul) (by omega)]
  have hsecond : cstr ((LoginRequest.deserialize (delivered stack p.serialize)).authToken.toList ++
      stack.behindLogin) = UTF8.getBytes p.authToken ↔ UTF8.isAscii p.userID = true ∨ p.authToken = [] := by
    rw [htoken, ← UTF8.length_getBytes]
    rcases Nat.eq_zero_or_pos ((UTF8.getBytes p.userID).length - p.userID.length) with hd | hd
    -- a user ID with as many bytes as units: the token stands where it is read
    · refine iff_of_true ?_ (.inl (by omega))
      rw [hd, show zeros 0 = [] from rfl, List.nil_append, padded_take (by omega),
        cstr_fill (UTF8.getBytes_no_nul ht.no_nul) (by omega)]
    -- elsewhere a NUL stands there
    · obtain ⟨d, hd⟩ : ∃ d, (UTF8.getBytes p.userID).length - p.userID.length = d + 1 :=
        ⟨(UTF8.getBytes p.userID).length - p.userID.length - 1, by omega⟩
      have hempty : ∀ l, cstr ((zeros (d + 1) ++ l).take 32 ++ stack.behindLogin) = [] := fun l => rfl
      have htle := UTF8.length_le_getBytes p.authToken
      rw [hd, hempty]
      constructor
      · intro h
        rw [← h] at htle
        exact .inr (List.eq_nil_of_length_eq_zero (Nat.le_zero.1 htle))
      · rintro (h | h)
        · omega
        · rw [h]
          rfl
  exact ⟨fun h => hsecond.1 h.authToken, fun h => ⟨hheader, hfirst, hsecond.2 h⟩⟩

end

/-- **The room request on the server** is always decoded as it was sent. -/
theorem roomEnter_decoded (stack : Stack) (p : Client.RoomEnterRequest) : RoomEnterDecoded stack p := by
  have hbytes : p.serialize = serializeHeader p.toPacketHeader ++ i32Bytes p.roomNumber := rfl
  have hparts := delivered_eq stack hbytes
  constructor
  · show PacketHeader.deserialize (delivered stack p.serialize) = _
    rw [hparts, deserialize_serializeHeader]
  · show i32At 6 (delivered stack p.serialize) = _
    rw [hparts]
    exact i32At_eq rfl rfl rfl rfl

/-- **Client requests decode on the server** exactly where the user ID is ASCII or the token empty. -/
theorem requests_decode (stack : Stack) (p : Client.LoginRequest) (q : Client.RoomEnterRequest)
    (hu : FitsField p.userID) (ht : FitsField p.authToken) :
    LoginDecoded stack p ∧ RoomEnterDecoded stack q ↔ UTF8.isAscii p.userID = true ∨ p.authToken = [] := by
  rw [login_decoded hu ht]
  exact and_iff_left (roomEnter_decoded stack q)

/-- The login of a user ID with the token "pw", and the request for room 1. -/
def loginOf (userID : CsString) : Client.LoginRequest := ⟨⟨70, PacketID.reqLogin, 0⟩, userID, [0x70, 0x77]⟩
def enterOne : Client.RoomEnterRequest := ⟨⟨10, PacketID.reqRoomEnter, 0⟩, 1⟩

/-- "al" logs in, and its request is decoded as it was sent. -/
theorem requests_decode_ascii : LoginDecoded .clear (loginOf [0x61, 0x6C]) ∧ RoomEnterDecoded .clear enterOne :=
  (requests_decode .clear (loginOf [0x61, 0x6C]) enterOne ⟨by decide, by decide⟩ ⟨by decide, by decide⟩).2
    (.inl (by decide))

/-- **A token pushed back.** "é" logs in, and the server decodes an empty token. -/
theorem token_lost : FitsField (loginOf [0xE9]).userID ∧ FitsField (loginOf [0xE9]).authToken ∧
    ¬ (LoginDecoded .clear (loginOf [0xE9]) ∧ RoomEnterDecoded .clear enterOne) := by
  refine ⟨⟨by decide, by decide⟩, ⟨by decide, by decide⟩, fun h => ?_⟩
  have htexts : UTF8.isAscii [0xE9] = true ∨ ([0x70, 0x77] : CsString) = [] :=
    (login_decoded ⟨by decide, by decide⟩ ⟨by decide, by decide⟩).1 h.1
  exact absurd htexts (by decide)

end SocketAcl
