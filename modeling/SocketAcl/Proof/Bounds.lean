import SocketAcl.Spec.Checked
import SocketAcl.Proof.Script

/-!
# Which receives stay inside their buffers

* `receive_sound`, `receive_strings`: a checked pass decodes what `dispatch` does, and takes the C strings
  that the handler does, whatever lies behind the arrays.
* `receive_in_bounds`: room enter requests stay inside; logins do if their C strings end in their
  arrays; chat requests never do, as 256 bytes behind the header are more than `buf` holds.
-/

namespace SocketAcl

variable {m data : Bytes} {off n : ℕ} {ses : Session} {reply : RedisReply} {req : Request} {stack : Stack}

/-! ## The primitives -/

theorem span_of_le (h : off + n ≤ m.length) : span? off n m = some (window off n m) := if_pos h

theorem span_of_lt (h : m.length < off + n) : span? off n m = none := if_neg (by omega)

/-- A C string that ends in its array does not depend on what lies behind. -/
theorem cstr_append_of_mem {m behind : Bytes} (h : 0 ∈ m) : cstr (m ++ behind) = cstr m := by
  obtain ⟨a, l, rfl, ha⟩ := List.eq_append_cons_of_mem h
  rw [List.append_assoc, List.cons_append, cstr_append_nul ha, cstr_append_nul ha]

/-! ## The packets -/

theorem header_of_le (h : 5 ≤ m.length) : PacketHeader.deserialize? m = some (PacketHeader.deserialize m) := by
  unfold PacketHeader.deserialize?
  rw [span_of_le (by omega), span_of_le (by omega), span_of_le (by omega)]
  simp only [Option.bind_eq_bind, Option.bind_some, pure, u16At, window_getD (by omega : 0 < 2),
    window_getD (by omega : 0 + 1 < 2), window_getD (by omega : 0 < 1)]
  rfl

theorem login_of_le (h : 70 ≤ m.length) : LoginRequest.deserialize? m = some (LoginRequest.deserialize m) := by
  unfold LoginRequest.deserialize?
  rw [header_of_le (by omega), span_of_le (by unfold headerSize; omega), span_of_le (by unfold headerSize; omega)]
  rfl

theorem roomEnter_of_le (h : 10 ≤ m.length) :
    RoomEnterRequest.deserialize? m = some (RoomEnterRequest.deserialize m) := by
  unfold RoomEnterRequest.deserialize?
  rw [header_of_le (by omega), span_of_le (by unfold headerSize; omega)]
  simp only [Option.bind_eq_bind, Option.bind_some, pure, i32At, window_getD (by omega : 0 < 4),
    window_getD (by omega : 0 + 1 < 4), window_getD (by omega : 0 + 2 < 4), window_getD (by omega : 0 + 3 < 4)]
  rfl

/-- A chat request is decoded from more than 256 bytes. -/
theorem roomChat_of_lt (h : m.length < 262) : RoomChatRequest.deserialize? m = none := by
  unfold RoomChatRequest.deserialize?
  rw [span_of_lt (by unfold headerSize; omega)]
  cases PacketHeader.deserialize? m <;> rfl

/-! ## The pass -/

/-- What stands in `buf` is what was read, whatever lies behind. -/
theorem header_fill (h : data.length ≤ 256) (behind : Bytes) :
    PacketHeader.deserialize (fill 256 data ++ behind) = PacketHeader.deserialize data := by
  unfold PacketHeader.deserialize u16At
  rw [fill_append_getD h (by omega), fill_append_getD h (by omega), fill_append_getD h (by omega),
    fill_append_getD h (by omega), fill_append_getD h (by omega)]

theorem window_fill (h : data.length ≤ 256) (behind : Bytes) (hn : off + n ≤ 256) :
    window off n (fill 256 data ++ behind) = window off n data :=
  window_eq_iff.2 fun i hi => fill_append_getD h (by omega)

theorem i32At_fill (h : data.length ≤ 256) (behind : Bytes) (ho : off + 4 ≤ 256) :
    i32At off (fill 256 data ++ behind) = i32At off data := by
  unfold i32At
  rw [fill_append_getD h (by omega), fill_append_getD h (by omega), fill_append_getD h (by omega),
    fill_append_getD h (by omega)]

/-- The C strings of a login end in their arrays; the token's is read only for a user Redis knows. -/
def LoginEnds (reply : RedisReply) (data : Bytes) : Prop :=
  (∃ i < 32, data.getD (6 + i) 0 = 0) ∧ (reply.get = none ∨ ∃ i < 32, data.getD (38 + i) 0 = 0)

/-- The requests that are received inside their buffers. -/
def Inside (reply : RedisReply) (data : Bytes) : Prop :=
  (PacketHeader.deserialize data).id = PacketID.reqRoomEnter ∨
    (PacketHeader.deserialize data).id = PacketID.reqLogin ∧ LoginEnds reply data

/-- A login is received where its C strings end. -/
theorem receive_login (h : data.length ≤ 256) (hid : (PacketHeader.deserialize data).id = PacketID.reqLogin) :
    receive? ses reply data = if 0 ∈ (window 6 32 data).toList ∧
        (reply.get = none ∨ 0 ∈ (window 38 32 data).toList) then
      some (.login (window 6 32 data) (window 38 32 data)) else none := by
  have hlen := fill_length h
  have hheader := header_fill h []
  have hwindow : ∀ off, off + 32 ≤ 256 → window off 32 (fill 256 data) = window off 32 data := by
    intro off ho
    simpa using window_fill h [] ho
  rw [List.append_nil] at hheader
  unfold receive?
  simp only [header_of_le (show 5 ≤ (fill 256 data).length by omega), Option.bind_eq_bind, Option.bind_some, hheader,
    hid, if_true, login_of_le (show 70 ≤ (fill 256 data).length by omega), LoginRequest.deserialize, headerSize,
    hwindow _ (show 6 + 32 ≤ 256 by omega), hwindow _ (show 6 + 32 + 32 ≤ 256 by omega), Nat.reduceAdd]
  unfold cstr?
  by_cases huser : 0 ∈ (window 6 32 data).toList
  · by_cases htoken : 0 ∈ (window 38 32 data).toList
    · simp [huser, htoken]
    · cases hreply : reply.get with
      | none => simp [huser]
      | some password => simp [huser, htoken]
  · simp [huser]

/-- A room enter request is always received. -/
theorem receive_roomEnter (h : data.length ≤ 256)
    (hid : (PacketHeader.deserialize data).id = PacketID.reqRoomEnter) :
    receive? ses reply data = some (.roomEnter (i32At 6 data)) := by
  have hlen := fill_length h
  have hheader := header_fill h []
  have hroom := i32At_fill h [] (show 6 + 4 ≤ 256 by omega)
  rw [List.append_nil] at hheader hroom
  have hne : PacketID.reqRoomEnter ≠ PacketID.reqLogin := by decide
  unfold receive?
  simp only [header_of_le (show 5 ≤ (fill 256 data).length by omega), Option.bind_eq_bind, Option.bind_some, hheader,
    hid, hne, if_true, if_false, roomEnter_of_le (show 10 ≤ (fill 256 data).length by omega),
    RoomEnterRequest.deserialize, headerSize, hroom]
  rfl

/-- A chat request never is. -/
theorem receive_roomChat (h : data.length ≤ 256)
    (hid : (PacketHeader.deserialize data).id = PacketID.reqRoomChat) : receive? ses reply data = none := by
  have hlen := fill_length h
  have hheader := header_fill h []
  rw [List.append_nil] at hheader
  have hne : PacketID.reqRoomChat ≠ PacketID.reqLogin := by decide
  have hne' : PacketID.reqRoomChat ≠ PacketID.reqRoomEnter := by decide
  unfold receive?
  simp only [header_of_le (show 5 ≤ (fill 256 data).length by omega), Option.bind_eq_bind, Option.bind_some, hheader,
    hid, hne, hne', if_true, if_false, roomChat_of_lt (show (fill 256 data).length < 262 by omega),
    Option.bind_none]

/-- An unknown packet is not decoded any further. -/
theorem receive_unknown (h : data.length ≤ 256) (hlogin : (PacketHeader.deserialize data).id ≠ PacketID.reqLogin)
    (henter : (PacketHeader.deserialize data).id ≠ PacketID.reqRoomEnter)
    (hchat : (PacketHeader.deserialize data).id ≠ PacketID.reqRoomChat) :
    receive? ses reply data = some (.unknown (PacketHeader.deserialize data).id) := by
  have hlen := fill_length h
  have hheader := header_fill h []
  rw [List.append_nil] at hheader
  unfold receive?
  simp only [header_of_le (show 5 ≤ (fill 256 data).length by omega), Option.bind_eq_bind, Option.bind_some, hheader,
    hlogin, henter, hchat, if_false]
  rfl

/-- **The checked pass is the handler's**: what it lets through is dispatched so, whatever lies behind the
arrays. -/
theorem receive_sound (h : data.length ≤ 256) (hreq : receive? ses reply data = some req) (stack : Stack) :
    dispatch stack data = req := by
  unfold dispatch
  simp only [header_fill h]
  by_cases hlogin : (PacketHeader.deserialize data).id = PacketID.reqLogin
  · rw [receive_login h hlogin] at hreq
    split at hreq
    · rw [if_pos hlogin]
      simp only [LoginRequest.deserialize, headerSize, window_fill h stack.behindBuf (show 6 + 32 ≤ 256 by omega),
        window_fill h stack.behindBuf (show 6 + 32 + 32 ≤ 256 by omega)]
      exact Option.some.inj hreq
    · cases hreq
  by_cases henter : (PacketHeader.deserialize data).id = PacketID.reqRoomEnter
  · rw [receive_roomEnter h henter] at hreq
    rw [if_neg hlogin, if_pos henter]
    simp only [RoomEnterRequest.deserialize, headerSize, i32At_fill h stack.behindBuf (show 6 + 4 ≤ 256 by omega)]
    exact Option.some.inj hreq
  by_cases hchat : (PacketHeader.deserialize data).id = PacketID.reqRoomChat
  · rw [receive_roomChat h hchat] at hreq
    cases hreq
  · rw [receive_unknown h hlogin henter hchat] at hreq
    rw [if_neg hlogin, if_neg henter, if_neg hchat]
    exact Option.some.inj hreq

/-- So are the C strings of a login: the user ID's, and the token's if it is compared. -/
theorem receive_strings {userID authToken : Chars 32} (h : data.length ≤ 256)
    (hreq : receive? ses reply data = some (.login userID authToken)) (stack : Stack) :
    cstr (userID.toList ++ authToken.toList ++ stack.behindLogin) = cstr userID.toList ∧
      (reply.get = none ∨ cstr (authToken.toList ++ stack.behindLogin) = cstr authToken.toList) := by
  have hid : (PacketHeader.deserialize data).id = PacketID.reqLogin := by
    by_contra hlogin
    have hdispatch := receive_sound h hreq .clear
    unfold dispatch at hdispatch
    simp only [header_fill h, if_neg hlogin] at hdispatch
    split at hdispatch
    · cases hdispatch
    · split at hdispatch <;> cases hdispatch
  rw [receive_login h hid] at hreq
  split at hreq
  · rename_i hends
    obtain ⟨rfl, rfl⟩ := Request.login.inj (Option.some.inj hreq)
    refine ⟨?_, hends.2.imp_right cstr_append_of_mem⟩
    rw [List.append_assoc]
    exact cstr_append_of_mem hends.1
  · cases hreq

/-- **Which receives stay inside their buffers**, of the three kinds the handler knows. -/
theorem receive_in_bounds (ses : Session) (reply : RedisReply) (data : Bytes) (h256 : data.length ≤ 256)
    (hid : (PacketHeader.deserialize data).id ∈
      [PacketID.reqLogin, PacketID.reqRoomEnter, PacketID.reqRoomChat]) :
    (receive? ses reply data).isSome ↔ Inside reply data := by
  have hne : PacketID.reqLogin ≠ PacketID.reqRoomEnter := by decide
  have hne' : PacketID.reqRoomChat ≠ PacketID.reqRoomEnter ∧ PacketID.reqRoomChat ≠ PacketID.reqLogin := by decide
  unfold Inside LoginEnds
  simp only [List.mem_cons, List.not_mem_nil, or_false] at hid
  rcases hid with hid | hid | hid
  · rw [receive_login h256 hid, hid, or_iff_right hne, and_iff_right rfl, ← mem_window, ← mem_window]
    split
    · rename_i h
      exact iff_of_true rfl h
    · rename_i h
      exact iff_of_false Bool.false_ne_true h
  · rw [receive_roomEnter h256 hid]
    exact iff_of_true rfl (.inl hid)
  · rw [receive_roomChat h256 hid, hid]
    exact iff_of_false Bool.false_ne_true (by simp [hne'])

/-- The login of "alice" is received inside its buffers. -/
theorem receive_in_bounds_login :
    (receive? .init (.bulk (ascii "pw")) (Script.loginPacket (ascii "alice") (ascii "pw"))).isSome :=
  (receive_in_bounds _ _ _ (by decide +kernel) (by decide +kernel)).2
    (.inr ⟨by decide +kernel, ⟨5, by decide, by decide +kernel⟩, .inr ⟨2, by decide, by decide +kernel⟩⟩)

/-- **A read behind `buf`**: the chat request "hi", as every other, is decoded from six bytes behind it. -/
theorem chat_out_of_bounds :
    (Script.chatPacket (ascii "hi")).length = 8 ∧
      (PacketHeader.deserialize (Script.chatPacket (ascii "hi"))).id = PacketID.reqRoomChat ∧
      receive? ⟨ascii "alice", 1⟩ .nil (Script.chatPacket (ascii "hi")) = none := by
  have hlen : (Script.chatPacket (ascii "hi")).length = 8 := by decide +kernel
  have hid : (PacketHeader.deserialize (Script.chatPacket (ascii "hi"))).id = PacketID.reqRoomChat := by decide +kernel
  exact ⟨hlen, hid, receive_roomChat (by omega) hid⟩

end SocketAcl
