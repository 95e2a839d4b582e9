import SocketAcl.Lib.Framing
import SocketAcl.Proof.ClientCodec
import SocketAcl.Spec.Rooms

/-!
# Framing on the client

The receive loop decodes one notification for each read, at offset 0, and ignores how many
bytes it got. `client_framing`: it handles the notifications the server wrote exactly when
each read returns one packet.

**Staged argument.** A notification carries two texts in zero-filled fields. A piece is taken for
a known notification only if the two bytes of the ID stand in it; inside a packet they stand
inside a text (`id_in_text`), and the high byte is ASCII. So the piece cannot show that text
whole: of the text less is decoded than the packet says, whatever is put in the place of
ill-formed bytes (`UTF8.decode_drop_ascii_lt`, `UTF8.decode_take_ascii_lt`).
-/

namespace SocketAcl

open Client

/-- A notification the server wrote. -/
inductive Written
  | userList (type : UInt8) (userID1 userID2 : Bytes)
  | roomChat (message senderID : Bytes)

namespace Written

/-- The packet. -/
def packet : Written → Bytes
  | userList type userID1 userID2 => userListBuffer type userID1 userID2
  | roomChat message senderID => chatBuffer message senderID

/-- The text of the first field, cut to its first 31 bytes. -/
def first : Written → Bytes
  | userList _ userID1 _ => (cstr userID1).take 31
  | roomChat _ senderID => (cstr senderID).take 31

/-- The text of the second field, cut to its first 31 or 255 bytes. -/
def second : Written → Bytes
  | userList _ _ userID2 => (cstr userID2).take 31
  | roomChat message _ => (cstr message).take 255

/-- The notification as the client is to handle it. -/
def notification (w : Written) : Notification :=
  match w with
  | userList _ _ _ => .userList (UTF8.decode none w.first) (UTF8.decode none w.second)
  | roomChat _ _ => .roomChat (UTF8.decode none w.first) (UTF8.decode none w.second)

end Written

/-- Read in pieces of these lengths, the stream is handled as the notifications that were written. -/
def Received (ws : List Written) (ns : List ℕ) : Prop :=
  startReceiving (ns.splitLengths (ws.map Written.packet).flatten) = ws.map Written.notification

/-! ## What a notification packet looks like -/

namespace Written

/-- The six bytes of the header. -/
def header : Written → Bytes
  | userList type _ _ => [70, 0, 0xE8, 7, type, 0]
  | roomChat _ _ => [0x26, 1, 3, 4, 0, 0]

/-- The width of the second field. -/
def width : Written → ℕ
  | userList _ _ _ => 32
  | roomChat _ _ => 256

variable (w : Written)

/-- A header and two fields, copied into a zeroed buffer one behind the other. -/
theorem fields_eq (h : PacketHeader) {n : ℕ} (t₁ : Chars 32) (t₂ : Chars n) :
    memcpy (headerSize + 32) t₂.toList (memcpy headerSize t₁.toList (h.serialize (zeros (6 + (32 + (n + 0)))))) =
      u16Bytes h.totalSize ++ u16Bytes h.id ++ [h.type, 0] ++ (t₁.toList ++ t₂.toList) := by
  have h₁ : t₁.toList.length = 32 := t₁.toList_length
  have h₂ : t₂.toList.length = n := t₂.toList_length
  have hh : (u16Bytes h.totalSize ++ u16Bytes h.id ++ [h.type, 0]).length = headerSize := rfl
  rw [PacketHeader.serialize_zeros, memcpy_zeros hh h₁, memcpy_zeros (by rw [List.length_append, hh, h₁]) h₂,
    List.append_assoc, List.append_assoc]
  exact congrArg _ (congrArg _ (List.append_nil _))

theorem packet_eq : w.packet = w.header ++ (fill 32 w.first ++ fill w.width w.second) := by
  cases w with
  | userList type userID1 userID2 =>
    have hsize : UserListNotification.size = 6 + (32 + (32 + 0)) := rfl
    have hheader : u16Bytes 70 ++ u16Bytes PacketID.ntfUserList = [70, 0, 0xE8, 7] := by decide
    simp only [packet, userListBuffer, SocketAcl.UserListNotification.serialize, hsize]
    rw [fields_eq, hheader, strncpy_toList, strncpy_toList]
    rfl
  | roomChat message senderID =>
    have hsize : RoomChatNotification.size = 6 + (32 + (256 + 0)) := rfl
    have hheader : u16Bytes 294 ++ u16Bytes PacketID.ntfRoomChat = [0x26, 1, 3, 4] := by decide
    simp only [packet, chatBuffer, SocketAcl.RoomChatNotification.serialize, hsize]
    rw [fields_eq, hheader, strncpy_toList, strncpy_toList]
    rfl

theorem header_length : w.header.length = 6 := by cases w <;> rfl

theorem first_no_nul : 0 ∉ w.first := by
  cases w <;> exact fun h => cstr_no_nul _ (List.mem_of_mem_take h)

theorem second_no_nul : 0 ∉ w.second := by
  cases w <;> exact fun h => cstr_no_nul _ (List.mem_of_mem_take h)

theorem first_length : w.first.length < 32 := by
  have hcut : ∀ l : Bytes, (l.take 31).length < 32 := by
    intro l
    rw [List.length_take]
    omega
  cases w <;> exact hcut _

theorem second_length : w.second.length < w.width := by
  cases w with
  | userList type userID1 userID2 =>
    show ((cstr userID2).take 31).length < 32
    rw [List.length_take]
    omega
  | roomChat message senderID =>
    show ((cstr message).take 255).length < 256
    rw [List.length_take]
    omega

theorem width_le : w.width ≤ 256 := by
  cases w with
  | userList => exact (by decide : 32 ≤ 256)
  | roomChat => exact le_rfl

theorem packet_length : w.packet.length = 38 + w.width := by
  have h1 := w.first_length
  have h2 := w.second_length
  rw [packet_eq, List.length_append, List.length_append, header_length, fill_length (by omega),
    fill_length (by omega)]
  omega

theorem header_getD {i : ℕ} (hi : i < 6) : w.packet.getD i 0 = w.header.getD i 0 := by
  rw [packet_eq, List.getD_append _ _ _ _ (by rw [header_length]; exact hi)]

/-- Its `TotalSize` is its length. -/
theorem totalSize_eq : (u16At 0 w.packet).toNat = w.packet.length := by
  unfold u16At
  rw [w.packet_length, header_getD w (by decide : 0 < 6), header_getD w (by decide : 0 + 1 < 6)]
  cases w <;> rfl

/-- Behind the header stand the two fields. -/
theorem packet_drop (j : ℕ) : w.packet.drop (6 + j) = (fill 32 w.first ++ fill w.width w.second).drop j := by
  have hlen := w.header_length
  rw [packet_eq, List.drop_append, List.drop_of_length_le (by omega), List.nil_append, hlen,
    Nat.add_sub_cancel_left]

/-- The C string in the first field. -/
theorem cstr_first {j : ℕ} (hj : j < 32) : cstr (w.packet.drop (6 + j)) = w.first.drop j := by
  rw [packet_drop, cstr_drop_fill _ w.first_no_nul w.first_length hj]

/-- The C string in the second field, and nothing behind it. -/
theorem cstr_second (j : ℕ) : cstr (w.packet.drop (38 + j)) = w.second.drop j := by
  have h1 := w.first_length
  have hfill : (fill 32 w.first).length = 32 := fill_length (by omega)
  rw [show 38 + j = 6 + (32 + j) by omega, packet_drop, List.drop_append, List.drop_of_length_le (by omega),
    List.nil_append, hfill, Nat.add_sub_cancel_left]
  by_cases hj : j < w.width
  · have := cstr_drop_fill [] w.second_no_nul w.second_length hj
    rwa [List.append_nil] at this
  · have h2 := w.second_length
    rw [List.drop_of_length_le (by rw [fill_length] <;> omega), List.drop_of_length_le (by omega)]
    rfl

end Written

/-! ## What the client makes of a buffer -/

/-- The text of a field as the form gets it. -/
def fieldText (buffer : Bytes) (index count : ℕ) : CsString :=
  CsString.trimEnd (CsString.trimEnd (UTF8.decode none ((buffer.drop index).take count)))

/-- What is decoded in front of the first NUL of a field. -/
theorem decode_of_fieldText {x t : Bytes} {index count : ℕ} (h0 : 0 ∉ t)
    (h : fieldText (fill 512 x) index count = UTF8.decode none t) :
    UTF8.decode none ((cstr (x.drop index)).take count) = UTF8.decode none t := by
  have hdrop : cstr ((fill 512 x).drop index) = cstr (x.drop index) := by
    unfold fill zeros
    rw [List.drop_append, List.drop_replicate]
    exact cstr_append_zeros _ _
  have ht : t.takeWhile (· ≠ 0) = t := cstr_of_no_nul h0
  have hfront := congrArg (List.takeWhile (· ≠ 0)) h
  unfold fieldText at hfront
  rw [CsString.takeWhile_trimEnd, CsString.takeWhile_trimEnd, UTF8.takeWhile_decode, UTF8.takeWhile_decode,
    ht] at hfront
  rw [← hdrop, ← cstr_take]
  exact hfront

/-- A zero-filled field reads as its text. -/
theorem readText_fill {t : Bytes} {n : ℕ} (a rest : Bytes) (h0 : 0 ∉ t) (hlen : t.length ≤ n) :
    readText (((a ++ (fill n t ++ rest)).drop a.length).take n) = UTF8.decode none t := by
  rw [List.drop_left, List.take_left' (fill_length hlen), fill, readText_text h0]

theorem getString_eq_some {buffer : Bytes} {index : ℕ} {count : ℤ} {s : CsString}
    (h : UTF8.getString buffer index count = some s) :
    s = UTF8.decode none ((buffer.drop index).take count.toNat) := by
  unfold UTF8.getString at h
  split at h
  · exact (Option.some.inj h).symm
  · cases h

/-- The chat notification of a buffer. -/
theorem roomChat_of_process {buffer : Bytes} {cleanUserID cleanMessage : CsString}
    (h : processReceivedData buffer = some (.roomChat cleanUserID cleanMessage)) :
    (PacketHeader.deserialize buffer).id = PacketID.ntfRoomChat ∧ fieldText buffer 6 32 = cleanUserID ∧
      ∃ count, fieldText buffer 38 count = cleanMessage := by
  unfold processReceivedData at h
  simp only at h
  split at h
  · rename_i hid
    obtain ⟨n, hn, heq⟩ := Option.map_eq_some_iff.1 h
    simp only [Client.RoomChatNotification.deserialize, Option.bind_eq_bind, Option.bind_eq_some_iff] at hn
    obtain ⟨userID, huser, message, hmessage, hn⟩ := hn
    obtain rfl := Option.some.inj hn
    rw [getString_eq_some huser, getString_eq_some hmessage] at heq
    injection heq with h1 h2
    exact ⟨hid, h1, _, h2⟩
  · split at h
    · obtain ⟨n, -, heq⟩ := Option.map_eq_some_iff.1 h
      cases heq
    · cases h

/-- The user list of a buffer. -/
theorem userList_of_process {buffer : Bytes} {cleanUserID1 cleanUserID2 : CsString}
    (h : processReceivedData buffer = some (.userList cleanUserID1 cleanUserID2)) :
    (PacketHeader.deserialize buffer).id = PacketID.ntfUserList ∧ fieldText buffer 6 32 = cleanUserID1 ∧
      ∃ count, fieldText buffer 38 count = cleanUserID2 := by
  unfold processReceivedData at h
  simp only at h
  split at h
  · obtain ⟨n, -, heq⟩ := Option.map_eq_some_iff.1 h
    cases heq
  · split at h
    · rename_i hid
      obtain ⟨n, hn, heq⟩ := Option.map_eq_some_iff.1 h
      simp only [Client.UserListNotification.deserialize, Option.bind_eq_bind, Option.bind_eq_some_iff] at hn
      obtain ⟨userID1, h1, userID2, h2, hn⟩ := hn
      obtain rfl := Option.some.inj hn
      rw [getString_eq_some h1, getString_eq_some h2] at heq
      injection heq with h1 h2
      exact ⟨hid, h1, _, h2⟩
    · cases h

/-- A piece shows an ID that the client knows. -/
def Mark (x : Bytes) : Prop := x.getD 2 0 = 0xE8 ∧ x.getD 3 0 = 7 ∨ x.getD 2 0 = 3 ∧ x.getD 3 0 = 4

/-- The ID the client reads from a piece. -/
theorem id_fill {x : Bytes} {id : PacketID} (h : (PacketHeader.deserialize (fill 512 x)).id = id) :
    id.toNat = (x.getD 2 0).toNat + 256 * (x.getD 3 0).toNat := by
  rw [← h, PacketHeader.id_toNat, fill_getD, fill_getD]

theorem mark_of_userList {x : Bytes}
    (h : (PacketHeader.deserialize (fill 512 x)).id = PacketID.ntfUserList) :
    x.getD 2 0 = 0xE8 ∧ x.getD 3 0 = 7 := by
  have hid := id_fill h
  have h2 : (x.getD 2 0).toNat < 256 := UInt8.toNat_lt _
  have hval : PacketID.ntfUserList.toNat = 2024 := rfl
  constructor
  · exact UInt8.toNat_inj.1 (show _ = 232 by omega)
  · exact UInt8.toNat_inj.1 (show _ = 7 by omega)

theorem mark_of_roomChat {x : Bytes}
    (h : (PacketHeader.deserialize (fill 512 x)).id = PacketID.ntfRoomChat) : x.getD 2 0 = 3 ∧ x.getD 3 0 = 4 := by
  have hid := id_fill h
  have h2 : (x.getD 2 0).toNat < 256 := UInt8.toNat_lt _
  have hval : PacketID.ntfRoomChat.toNat = 1027 := rfl
  constructor
  · exact UInt8.toNat_inj.1 (show _ = 3 by omega)
  · exact UInt8.toNat_inj.1 (show _ = 4 by omega)

/-- Only a known notification is decoded, well or badly. -/
theorem mark_of_process {x : Bytes} (h : ∀ id, processReceivedData (fill 512 x) ≠ some (.unknown id)) :
    Mark x := by
  by_cases h1 : (PacketHeader.deserialize (fill 512 x)).id = PacketID.ntfRoomChat
  · exact .inr (mark_of_roomChat h1)
  by_cases h2 : (PacketHeader.deserialize (fill 512 x)).id = PacketID.ntfUserList
  · exact .inl (mark_of_userList h2)
  · refine absurd ?_ (h (PacketHeader.deserialize (fill 512 x)).id)
    simp only [processReceivedData, if_neg h1, if_neg h2]

/-- A known ID has two different bytes, and its high byte is ASCII. -/
theorem Mark.bytes {x : Bytes} (h : Mark x) : x.getD 2 0 ≠ 0 ∧ x.getD 3 0 ≠ 0 ∧ x.getD 3 0 ≠ x.getD 2 0 ∧
    (x.getD 3 0).toNat < 0x80 ∧ (x.getD 3 0 = 7 ∨ x.getD 3 0 = 4) := by
  rcases h with ⟨h2, h3⟩ | ⟨h2, h3⟩
  · rw [h2, h3]
    decide
  · rw [h2, h3]
    decide

/-- The piece is handled as the packet that was written. -/
def HandledAs (x p : Bytes) : Prop :=
  ∃ w : Written, w.packet = p ∧ processReceivedData (fill 512 x) = some w.notification

/-- **What a piece shows.** A piece that is handled as a notification shows its ID and both its texts,
as far as they can be decoded. -/
theorem shows_of_handled {x : Bytes} {w : Written} (h : processReceivedData (fill 512 x) = some w.notification) :
    x.getD 2 0 = w.packet.getD 2 0 ∧ x.getD 3 0 = w.packet.getD 3 0 ∧
      (∃ k, UTF8.decode none ((cstr (x.drop 6)).take k) = UTF8.decode none w.first) ∧
      ∃ k, UTF8.decode none ((cstr (x.drop 38)).take k) = UTF8.decode none w.second := by
  rw [w.header_getD (by decide), w.header_getD (by decide)]
  cases w with
  | userList type userID1 userID2 =>
    obtain ⟨hid, h1, count, h2⟩ := userList_of_process h
    obtain ⟨hlow, hhigh⟩ := mark_of_userList hid
    exact ⟨hlow, hhigh, ⟨_, decode_of_fieldText (Written.first_no_nul _) h1⟩,
      _, decode_of_fieldText (Written.second_no_nul _) h2⟩
  | roomChat message senderID =>
    obtain ⟨hid, h1, count, h2⟩ := roomChat_of_process h
    obtain ⟨hlow, hhigh⟩ := mark_of_roomChat hid
    exact ⟨hlow, hhigh, ⟨_, decode_of_fieldText (Written.first_no_nul _) h1⟩,
      _, decode_of_fieldText (Written.second_no_nul _) h2⟩

/-! ## The ID inside a packet -/

namespace Written

variable (w : Written)

/-- The bytes of an ID that stand behind the header stand in one of the texts. -/
theorem id_in_text {o : ℕ} {b c : UInt8} (ho : 4 ≤ o) (hb : b ≠ 0) (hc : c ≠ 0)
    (hlow : w.packet.getD (o + 2) 0 = b) (hhigh : w.packet.getD (o + 3) 0 = c) :
    (∃ a l, w.first = a ++ c :: l ∧ a.length = o - 3) ∨
      36 ≤ o ∧ ∃ a l, w.second = a ++ c :: l ∧ a.length = o - 35 := by
  have h1 := w.first_length
  have hfirst : (fill 32 w.first).length = 32 := fill_length (by omega)
  have hbehind : ∀ i, w.packet.getD (6 + i) 0 = (fill 32 w.first ++ fill w.width w.second).getD i 0 := by
    intro i
    have := congrArg (fun l : Bytes => l.getD 0 0) (w.packet_drop i)
    simpa only [getD_drop, Nat.add_zero] using this
  rw [show o + 2 = 6 + (o - 4) by omega, hbehind] at hlow
  rw [show o + 3 = 6 + (o - 3) by omega, hbehind] at hhigh
  by_cases hin : o - 3 < 32
  · rw [List.getD_append _ _ _ _ (by omega), fill_getD] at hhigh
    exact .inl (exists_of_getD hhigh hc)
  · rw [List.getD_append_right _ _ _ _ (by omega), hfirst, fill_getD, show o - 3 - 32 = o - 35 by omega] at hhigh
    refine .inr ⟨?_, exists_of_getD hhigh hc⟩
    by_contra hlt
    -- the low byte would be the NUL that ends the first field
    rw [List.getD_append _ _ _ _ (by omega), fill_getD, List.getD_eq_default _ _ (by omega)] at hlow
    exact hb hlow.symm

/-- The two bytes of the ID, and what stands in front of them and behind them. -/
theorem id_bytes : Mark w.packet ∧ (∀ i < 3, w.packet.getD i 0 ≠ 7 ∧ w.packet.getD i 0 ≠ 4) ∧
    w.packet.getD 5 0 = 0 := by
  have hmark : Mark w.header := by
    cases w with
    | userList => exact .inl ⟨rfl, rfl⟩
    | roomChat => exact .inr ⟨rfl, rfl⟩
  refine ⟨?_, ?_, ?_⟩
  · unfold Mark at hmark ⊢
    rwa [w.header_getD (by decide), w.header_getD (by decide)]
  · intro i hi
    rw [w.header_getD (by omega)]
    cases w with
    | userList =>
      match i, hi with
      | 0, _ => exact (by decide : (70 : UInt8) ≠ 7 ∧ (70 : UInt8) ≠ 4)
      | 1, _ => exact (by decide : (0 : UInt8) ≠ 7 ∧ (0 : UInt8) ≠ 4)
      | 2, _ => exact (by decide : (0xE8 : UInt8) ≠ 7 ∧ (0xE8 : UInt8) ≠ 4)
    | roomChat =>
      match i, hi with
      | 0, _ => exact (by decide : (0x26 : UInt8) ≠ 7 ∧ (0x26 : UInt8) ≠ 4)
      | 1, _ => exact (by decide : (1 : UInt8) ≠ 7 ∧ (1 : UInt8) ≠ 4)
      | 2, _ => exact (by decide : (3 : UInt8) ≠ 7 ∧ (3 : UInt8) ≠ 4)
  · rw [w.header_getD (by decide)]
    cases w <;> rfl

end Written

/-! ## Pieces from inside a packet, and pieces that end too early -/

/-- A piece from inside a packet is not handled as that packet. -/
theorem not_handled_inside (w : Written) {o n : ℕ} (ho : 0 < o) :
    processReceivedData (fill 512 ((w.packet.drop o).take n)) ≠ some w.notification := by
  intro h
  obtain ⟨hlow, hhigh, ⟨k₁, hfirst⟩, k₂, hsecond⟩ := shows_of_handled h
  obtain ⟨hmark, -, hpad⟩ := w.id_bytes
  obtain ⟨hb, hc, hne, hascii, -⟩ := hmark.bytes
  have elow := (getD_piece (by rw [hlow]; exact hb)).trans hlow
  have ehigh := (getD_piece (by rw [hhigh]; exact hc)).trans hhigh
  have h4 : 4 ≤ o := by
    by_contra hlt
    obtain rfl | rfl | rfl : o = 1 ∨ o = 2 ∨ o = 3 := by omega
    · exact hne elow
    · exact hc (ehigh.symm.trans hpad)
    · exact hb (elow.symm.trans hpad)
  rw [cstr_piece, List.take_take] at hfirst hsecond
  rw [Nat.add_comm o 38, w.cstr_second] at hsecond
  -- far inside the packet the second text is cut off in front
  have hempty : 13 ≤ o → w.second = [] := by
    intro h13
    by_contra hne
    have := UTF8.decode_drop_lt h13 hne (min k₂ (n - 38))
    rw [hsecond] at this
    exact lt_irrefl _ this
  rcases w.id_in_text h4 hb hc elow ehigh with ⟨a, l, ha, hlen⟩ | ⟨h36, a, l, ha, -⟩
  · by_cases h32 : o < 32
    · -- the first text is cut off in front
      have hne : a ≠ [] := List.ne_nil_of_length_pos (by omega)
      have hlt := UTF8.decode_drop_ascii_lt hascii hne l (min k₁ (n - 6))
      rw [hlen, show o - 3 + 3 = o by omega, ← ha, ← w.cstr_first h32, Nat.add_comm 6 o, hfirst] at hlt
      exact lt_irrefl _ hlt
    · -- the piece shows the second text in the place of the first
      rw [show o + 6 = 38 + (o - 32) by omega, w.cstr_second, hempty (by omega), List.drop_nil,
        List.take_nil] at hfirst
      have hpos := UTF8.decode_pos (l := w.first) (by rw [ha]; simp)
      rw [← hfirst] at hpos
      exact lt_irrefl _ hpos
  · rw [hempty (by omega)] at ha
    simp at ha

/-- Behind a piece that is handled as a packet and ends inside it, no known ID is shown. -/
theorem not_mark_behind (w : Written) {packets : List Bytes} (hps : ∀ q ∈ packets, ∃ w : Written, w.packet = q)
    {n : ℕ} (hn : n < w.packet.length) (h : processReceivedData (fill 512 (w.packet.take n)) = some w.notification)
    (m : ℕ) : ¬ Mark ((w.packet.drop n ++ packets.flatten).take m) := by
  intro hmark
  obtain ⟨hb, hc, -, hascii, hval⟩ := hmark.bytes
  have hpiece : ∀ i, ((w.packet.drop n ++ packets.flatten).take m).getD i 0 ≠ 0 →
      (w.packet.drop n ++ packets.flatten).getD i 0 = ((w.packet.drop n ++ packets.flatten).take m).getD i 0 := by
    intro i hi
    have := getD_piece (m := w.packet.drop n ++ packets.flatten) (o := 0) (n := m) hi
    rwa [Nat.zero_add] at this
  have elow := hpiece 2 hb
  have ehigh := hpiece 3 hc
  have hrest : (w.packet.drop n).length = w.packet.length - n := List.length_drop
  obtain ⟨-, hhigh, ⟨k₁, hfirst⟩, k₂, hsecond⟩ := shows_of_handled h
  have h4 : 4 ≤ n := by
    by_contra hlt
    rw [List.getD_eq_default _ _ (by rw [List.length_take]; omega)] at hhigh
    exact w.id_bytes.1.bytes.2.1 hhigh.symm
  by_cases hin : n + 4 ≤ w.packet.length
  · -- the ID would be part of a text that the piece shows whole
    rw [List.getD_append _ _ _ _ (by omega), getD_drop] at elow ehigh
    rw [List.drop_take, cstr_take, List.take_take] at hfirst hsecond
    rcases w.id_in_text h4 hb hc elow ehigh with ⟨a, l, ha, hlen⟩ | ⟨h36, a, l, ha, hlen⟩
    · have hlt := UTF8.decode_take_ascii_lt hascii a l (k := min k₁ (n - 6)) (by omega)
      have hshow := w.cstr_first (j := 0) (by decide)
      rw [List.drop_zero, Nat.add_zero] at hshow
      rw [← ha, ← hshow, hfirst, hshow] at hlt
      exact lt_irrefl _ hlt
    · have hlt := UTF8.decode_take_ascii_lt hascii a l (k := min k₂ (n - 38)) (by omega)
      have hshow := w.cstr_second 0
      rw [List.drop_zero, Nat.add_zero] at hshow
      rw [← ha, ← hshow, hsecond, hshow] at hlt
      exact lt_irrefl _ hlt
  · -- the high byte would stand in front of the next packet's own
    rw [List.getD_append_right _ _ _ _ (by omega), hrest] at ehigh
    cases packets with
    | nil => exact hc ehigh.symm
    | cons q packets =>
      obtain ⟨w', rfl⟩ := hps q List.mem_cons_self
      obtain ⟨-, hfront, -⟩ := w'.id_bytes
      have hlong := w'.packet_length
      rw [List.flatten_cons, List.getD_append _ _ _ _ (by omega)] at ehigh
      have := hfront (3 - (w.packet.length - n)) (by omega)
      rw [ehigh] at this
      exact hval.elim this.1 this.2

/-- **The client is a sharp reader** of notification packets. -/
theorem sharp_client : Sharp 512 HandledAs (fun x => processReceivedData (fill 512 x) = none)
    fun p => ∃ w : Written, w.packet = p where
  inside := by
    rintro p - o n ho ⟨w, rfl, h⟩
    exact not_handled_inside w ho h
  short := by
    rintro p packets n ns - hps hn ⟨w, rfl, h⟩ hns hread
    have hmark := not_mark_behind w hps hn h
    cases hread with
    | done =>
      have := hns.nil
      rw [List.length_append, List.length_drop] at this
      omega
    | @stop _ m _ hstop =>
      refine hmark m (mark_of_process fun id hid => ?_)
      rw [hstop] at hid
      cases hid
    | @read _ _ m _ _ hfirst _ =>
      obtain ⟨w', -, h'⟩ := hfirst
      refine hmark m (mark_of_process fun id hid => ?_)
      rw [h'] at hid
      cases w' <;> cases hid

/-! ## Framing -/

/-- The texts of a packet's fields. -/
theorem readText_packet (w : Written) :
    readText (((fill 512 w.packet).drop 6).take 32) = UTF8.decode none w.first ∧
      readText (((fill 512 w.packet).drop 38).take w.width) = UTF8.decode none w.second := by
  have h1 := w.first_length
  have h2 := w.second_length
  have hbuffer : fill 512 w.packet = w.header ++ (fill 32 w.first ++
      (fill w.width w.second ++ zeros (512 - w.packet.length))) := by
    rw [fill, w.packet_eq, List.append_assoc, List.append_assoc]
  constructor
  · have := readText_fill w.header (fill w.width w.second ++ zeros (512 - w.packet.length))
      w.first_no_nul (n := 32) (by omega)
    rwa [← hbuffer, w.header_length] at this
  · have := readText_fill (w.header ++ fill 32 w.first) (zeros (512 - w.packet.length))
      w.second_no_nul (n := w.width) (by omega)
    rwa [List.append_assoc, ← hbuffer, List.length_append, w.header_length, fill_length (by omega)] at this

/-- The client's buffer after it read a packet. -/
theorem fill_packet_length (w : Written) : (fill 512 w.packet).length = 512 := by
  have := w.width_le
  exact fill_length (by rw [w.packet_length]; omega)

theorem fill_packet_getD (w : Written) {i : ℕ} (hi : i < 6) :
    (fill 512 w.packet).getD i 0 = w.header.getD i 0 := by
  rw [fill_getD, w.header_getD hi]

/-- A user list as the client decodes it. -/
theorem deserialize_userList (type : UInt8) (userID1 userID2 : Bytes) :
    let w := Written.userList type userID1 userID2
    Client.UserListNotification.deserialize (fill 512 w.packet) = some
      { toPacketHeader := PacketHeader.deserialize (fill 512 w.packet), userID1 := UTF8.decode none w.first
        userID2 := UTF8.decode none w.second } := by
  intro w
  have hlen := fill_packet_length w
  obtain ⟨hfirst, hsecond⟩ := readText_packet w
  have hwidth : w.width = 32 := rfl
  have hshow1 : UTF8.getString (fill 512 w.packet) 6 32 = _ := getString_of_le 32 (by omega)
  have hshow2 : UTF8.getString (fill 512 w.packet) 38 32 = _ := getString_of_le 32 (by omega)
  unfold readText at hfirst hsecond
  rw [hwidth] at hsecond
  simp only [Client.UserListNotification.deserialize, hshow1, hshow2, Option.bind_eq_bind, Option.bind_some,
    Option.pure_def, hfirst, hsecond]

/-- A chat notification as the client decodes it: `TotalSize` is 294, so the message is 256 bytes long. -/
theorem deserialize_roomChat (message senderID : Bytes) :
    let w := Written.roomChat message senderID
    Client.RoomChatNotification.deserialize (fill 512 w.packet) = some
      { toPacketHeader := PacketHeader.deserialize (fill 512 w.packet), userID := UTF8.decode none w.first
        message := UTF8.decode none w.second } := by
  intro w
  have hlen := fill_packet_length w
  obtain ⟨hfirst, hsecond⟩ := readText_packet w
  have hwidth : w.width = 256 := rfl
  have hsize : (PacketHeader.deserialize (fill 512 w.packet)).totalSize = 294 := by
    unfold PacketHeader.deserialize u16At
    rw [fill_packet_getD w (by decide), fill_packet_getD w (by decide)]
    rfl
  have hcount : ((294 : UInt16).toNat : ℤ) - 6 - 32 = 256 := rfl
  have hshow1 : UTF8.getString (fill 512 w.packet) 6 32 = _ := getString_of_le 32 (by omega)
  have hshow2 : UTF8.getString (fill 512 w.packet) 38 256 = _ := getString_of_le 256 (by omega)
  unfold readText at hfirst hsecond
  rw [hwidth] at hsecond
  simp only [Client.RoomChatNotification.deserialize, hsize, hcount, hshow1, hshow2, Option.bind_eq_bind,
    Option.bind_some, Option.pure_def, hfirst, hsecond]

/-- **A packet read alone** is handled as the notification that was written. -/
theorem processReceivedData_packet (w : Written) :
    processReceivedData (fill 512 w.packet) = some w.notification := by
  have hid := PacketHeader.id_toNat (fill 512 w.packet)
  rw [fill_packet_getD w (by decide), fill_packet_getD w (by decide)] at hid
  have htrim1 : CsString.trimEnd (UTF8.decode none w.first) = UTF8.decode none w.first :=
    CsString.trimEnd_of_no_nul (UTF8.decode_no_nul w.first_no_nul none)
  have htrim2 : CsString.trimEnd (UTF8.decode none w.second) = UTF8.decode none w.second :=
    CsString.trimEnd_of_no_nul (UTF8.decode_no_nul w.second_no_nul none)
  cases w with
  | userList type userID1 userID2 =>
    have hntf : (PacketHeader.deserialize (fill 512 (Written.userList type userID1 userID2).packet)).id =
        PacketID.ntfUserList := UInt16.toNat_inj.1 <| hid.trans
      (by decide : (0xE8 : UInt8).toNat + 256 * (7 : UInt8).toNat = PacketID.ntfUserList.toNat)
    simp only [processReceivedData, hntf, deserialize_userList, Option.map_some, htrim1, htrim2]
    rw [if_neg (by decide), if_true]
    rfl
  | roomChat message senderID =>
    have hntf : (PacketHeader.deserialize (fill 512 (Written.roomChat message senderID).packet)).id =
        PacketID.ntfRoomChat := UInt16.toNat_inj.1 <| hid.trans
      (by decide : (3 : UInt8).toNat + 256 * (4 : UInt8).toNat = PacketID.ntfRoomChat.toNat)
    simp only [processReceivedData, hntf, deserialize_roomChat, Option.map_some, htrim1, htrim2]
    rw [if_true]
    rfl

/-- What is handled as the notifications is read as their packets. -/
theorem readAs_of_received {ws : List Written} {l : Bytes} {ns : List ℕ}
    (h : startReceiving (ns.splitLengths l) = ws.map Written.notification) :
    ReadAs HandledAs (fun x => processReceivedData (fill 512 x) = none) l ns (ws.map Written.packet) := by
  induction ws generalizing l ns with
  | nil =>
    cases ns with
    | nil => exact .done
    | cons n ns =>
      rw [List.splitLengths_cons, startReceiving] at h
      split at h
      · cases h
      · exact .stop ‹_›
  | cons w ws ih =>
    cases ns with
    | nil => cases h
    | cons n ns =>
      rw [List.splitLengths_cons, startReceiving] at h
      split at h
      · rename_i notification hn
        obtain ⟨rfl, hrest⟩ := List.cons.inj h
        exact .read ⟨w, rfl, hn⟩ (ih hrest)
      · cases h

theorem startReceiving_packets (ws : List Written) :
    startReceiving (ws.map Written.packet) = ws.map Written.notification := by
  induction ws with
  | nil => rfl
  | cons w ws ih => rw [List.map_cons, List.map_cons, startReceiving, processReceivedData_packet, ih]

/-- **Framing on the client.** The notifications the server writes are handled as they were written
exactly when every read returns one packet. -/
theorem client_framing (ws : List Written) (ns : List ℕ)
    (hns : Cuts 512 (ws.map Written.packet).flatten.length ns) :
    Received ws ns ↔ ns = ws.map fun w => w.packet.length := by
  constructor
  · intro h
    have hP : ∀ p ∈ ws.map Written.packet, ∃ w : Written, w.packet = p := by
      intro p hp
      obtain ⟨w, -, rfl⟩ := List.mem_map.1 hp
      exact ⟨w, rfl⟩
    have hlengths := sharp_client.lengths hP hns (readAs_of_received h)
    rw [hlengths, List.map_map]
    rfl
  · rintro rfl
    have hcut : (ws.map fun w => w.packet.length) = (ws.map Written.packet).map List.length := by
      rw [List.map_map]
      rfl
    unfold Received
    rw [hcut, splitLengths_packets, startReceiving_packets]

/-- A read hands over one notification at most. -/
theorem length_startReceiving_le (pieces : List Bytes) : (startReceiving pieces).length ≤ pieces.length := by
  induction pieces with
  | nil => exact le_rfl
  | cons data pieces ih =>
    unfold startReceiving
    split
    · exact Nat.succ_le_succ ih
    · exact Nat.zero_le _

/-- What `EnterRoom` broadcasts when "al" enters: the user list and the announcement. -/
def alEntered : List Written :=
  [.userList 0 (ascii "al") [], .roomChat (ascii "al has entered the room.") (ascii "System")]

/-- Read one packet at a time, the two notifications are handled as they were written. -/
theorem client_framing_apart : Received alEntered [70, 294] :=
  (client_framing alEntered [70, 294] ⟨by decide, by decide, by decide +kernel⟩).2 (by decide +kernel)

/-- **A lost notification.** Both packets arrive in one read: the announcement is not handled. -/
theorem notification_lost : Cuts 512 (alEntered.map Written.packet).flatten.length [364] ∧
    ¬ Received alEntered [364] := by
  refine ⟨⟨by decide, by decide, by decide +kernel⟩, fun h => ?_⟩
  have hle := length_startReceiving_le ([364].splitLengths (alEntered.map Written.packet).flatten)
  unfold Received at h
  rw [h, List.length_map, List.length_splitLengths] at hle
  exact absurd hle (by decide)

end SocketAcl
