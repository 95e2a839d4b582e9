import SocketAcl.Lib.Framing
import SocketAcl.Proof.ChatText
import SocketAcl.Spec.Checked

/-!
# Framing on the server

The handler decodes one request for each read, at offset 0, and never looks at `TotalSize`.
`server_framing`: it decodes what the client's clicks said exactly when each read returns one packet
and the texts of each come out of it.

**Staged argument.** `packet_fields` is about a packet read whole. For the lengths of the reads:

* A piece is dispatched as a packet only if the two bytes of its ID stand in it. These are rare inside
  a login: its texts are UTF-8, where no `0xEA` is followed by a 3 (`Plain`).
* A piece from inside a chat packet is not that packet: the message would be its own suffix,
  and so would be empty (`zero_of_shift`).
* A packet that was cut too early still says what it said only if NULs alone are left of it
  (`DispatchedAs.rest`), and behind NULs no ID is read (`not_readAs`).
-/

namespace SocketAcl

open Client

/-- A click on the client's form that sends a request. -/
inductive Click
  | login (userID authToken : CsString)
  | roomEnter (roomNumber : Int32)
  | roomChat (message : CsString)

/-- The bytes written to the stream; `none` where `Serialize` throws. -/
def Click.bytes : Click → Option Bytes
  | .login userID authToken => some (btnLoginClick userID authToken)
  | .roomEnter roomNumber => some (btnEnterRoomClick roomNumber)
  | .roomChat message => btnSendChatClick message

/-- A request packet that was sent, of at most 256 bytes. -/
structure Sent where
  click : Click
  packet : Bytes
  built : click.bytes = some packet
  short : packet.length ≤ 256

/-- The requests dispatched when the reads return these pieces; `behind i` is what lies behind
the handler's locals at read `i`. -/
def dispatched (behind : ℕ → Stack) (pieces : List Bytes) : List Request :=
  pieces.mapIdx fun i data => dispatch (behind i) data

/-- What a request says: the packet ID and the fields, the arrays as texts. -/
inductive Fields
  | login (userID authToken : Option Bytes)
  | roomEnter (roomNumber : Int32)
  | roomChat (message : Option Bytes)
  | unknown (id : PacketID)

/-- The fields the server decoded. -/
def Request.fields : Request → Fields
  | .login userID authToken => .login (cstr? userID) (cstr? authToken)
  | .roomEnter roomNumber => .roomEnter roomNumber
  | .roomChat message => .roomChat (cstr? message)
  | .unknown id => .unknown id

/-- The fields the client sent. -/
def Click.fields : Click → Fields
  | .login userID authToken => .login (some (UTF8.getBytes userID)) (some (UTF8.getBytes authToken))
  | .roomEnter roomNumber => .roomEnter roomNumber
  | .roomChat message => .roomChat (some (UTF8.getBytes message))

/-- Read in pieces of these lengths, the stream is dispatched as the requests that were sent. -/
def Framed (behind : ℕ → Stack) (ps : List Sent) (ns : List ℕ) : Prop :=
  (dispatched behind (ns.splitLengths (ps.map Sent.packet).flatten)).map Request.fields =
    ps.map fun p => p.click.fields

/-- The texts of a request come out of its packet. Behind a user ID that is not ASCII the token is
pushed back; a chat text of 250 bytes ends where the stack behind `buf` begins. -/
def Click.Fits (stack : Stack) : Click → Prop
  | .login userID authToken =>
    FitsField userID ∧ FitsField authToken ∧ (UTF8.isAscii userID = true ∨ authToken = [])
  | .roomEnter _ => True
  | .roomChat message => 0 ∉ message ∧ ((UTF8.getBytes message).length ≤ 249 ∨
      (UTF8.getBytes message).length = 250 ∧ stack.behindBuf.getD 0 0 = 0)

/-! ## What a request packet looks like -/

/-- The packets of the three requests; `lo` and `hi` are the chat packet's `TotalSize`. -/
inductive RequestForm : Bytes → Prop
  | login (text : Bytes) : RequestForm ([70, 0, 0xEA, 3, 0, 0] ++ text)
  | roomEnter (roomNumber : Int32) : RequestForm ([10, 0, 0xFD, 3, 0, 0] ++ i32Bytes roomNumber)
  | roomChat {lo hi : UInt8} {text : Bytes} : lo ≠ 3 → lo ≠ 4 → hi.toNat ≤ 1 →
      RequestForm ([lo, hi, 2, 4, 0, 0] ++ text)

/-- The packet of a login. -/
theorem btnLoginClick_eq (userID authToken : CsString) : btnLoginClick userID authToken =
    [70, 0, 0xEA, 3, 0, 0] ++ (UTF8.getBytes (userID.padRight 32) ++ UTF8.getBytes (authToken.padRight 32)) := by
  have hheader : serializeHeader ⟨70, PacketID.reqLogin, 0⟩ = [70, 0, 0xEA, 3, 0, 0] := by decide
  unfold btnLoginClick Client.LoginRequest.serialize
  rw [List.append_assoc, hheader]

/-- The two bytes of a `TotalSize` from 6 to 256. -/
theorem totalSize_bytes {n : ℕ} (h6 : 6 ≤ n) (h256 : n ≤ 256) : UInt8.ofNat (n % 256) ≠ 3 ∧
    UInt8.ofNat (n % 256) ≠ 4 ∧ (UInt8.ofNat (n / 256)).toNat ≤ 1 := by
  have hlo : (UInt8.ofNat (n % 256)).toNat = n % 256 := by
    rw [UInt8.toNat_ofNat']
    omega
  refine ⟨?_, ?_, ?_⟩
  · intro h
    have : n % 256 = 3 := hlo ▸ congrArg UInt8.toNat h
    omega
  · intro h
    have : n % 256 = 4 := hlo ▸ congrArg UInt8.toNat h
    omega
  · rw [UInt8.toNat_ofNat']
    omega

theorem form_sent (p : Sent) : RequestForm p.packet := by
  obtain ⟨click, packet, built, short⟩ := p
  cases click with
  | login userID authToken =>
    obtain rfl := Option.some.inj built
    show RequestForm (btnLoginClick userID authToken)
    rw [btnLoginClick_eq]
    exact .login _
  | roomEnter roomNumber =>
    obtain rfl := Option.some.inj built
    have hheader : serializeHeader ⟨10, PacketID.reqRoomEnter, 0⟩ = [10, 0, 0xFD, 3, 0, 0] := by decide
    simp only [btnEnterRoomClick, Client.RoomEnterRequest.serialize, hheader]
    exact .roomEnter roomNumber
  | roomChat message =>
    simp only [Click.bytes, btnSendChatClick, Client.RoomChatRequest.serialize] at built
    split at built
    · obtain rfl := Option.some.inj built
      -- `TotalSize` counts the code units, and each of them takes a byte at least
      have hunits := UTF8.length_le_getBytes message
      have hlen : 6 + (UTF8.getBytes message).length ≤ 256 := by
        rw [List.length_append] at short
        exact short
      have hsize : (UInt16.ofNat (6 + message.length)).toNat = 6 + message.length := by
        rw [UInt16.toNat_ofNat']
        exact Nat.mod_eq_of_lt (by omega)
      obtain ⟨h3, h4, h1⟩ := totalSize_bytes (n := 6 + message.length) (by omega) (by omega)
      rw [← hsize] at h3 h4 h1
      have hid : u16Bytes PacketID.reqRoomChat = [2, 4] := by decide
      simp only [serializeHeader, hid]
      exact .roomChat h3 h4 h1
    · cases built

theorem RequestForm.length {p : Bytes} (h : RequestForm p) : 6 ≤ p.length := by
  cases h with
  | login => simp
  | roomEnter => simp
  | roomChat => simp

/-- The type and the padding of the header are 0. -/
theorem RequestForm.padding {p : Bytes} (h : RequestForm p) : p.getD 4 0 = 0 ∧ p.getD 5 0 = 0 := by
  cases h with
  | login => exact ⟨rfl, rfl⟩
  | roomEnter => exact ⟨rfl, rfl⟩
  | roomChat => exact ⟨rfl, rfl⟩

/-- The high byte of the ID is 3 or 4, and the three bytes in front of it are neither. -/
theorem RequestForm.mark {p : Bytes} (h : RequestForm p) :
    (p.getD 3 0 = 3 ∨ p.getD 3 0 = 4) ∧ ∀ i < 3, p.getD i 0 ≠ 3 ∧ p.getD i 0 ≠ 4 := by
  cases h with
  | login =>
    refine ⟨.inl rfl, fun i hi => ?_⟩
    match i, hi with
    | 0, _ => exact (by decide : (70 : UInt8) ≠ 3 ∧ (70 : UInt8) ≠ 4)
    | 1, _ => exact (by decide : (0 : UInt8) ≠ 3 ∧ (0 : UInt8) ≠ 4)
    | 2, _ => exact (by decide : (0xEA : UInt8) ≠ 3 ∧ (0xEA : UInt8) ≠ 4)
  | roomEnter =>
    refine ⟨.inl rfl, fun i hi => ?_⟩
    match i, hi with
    | 0, _ => exact (by decide : (10 : UInt8) ≠ 3 ∧ (10 : UInt8) ≠ 4)
    | 1, _ => exact (by decide : (0 : UInt8) ≠ 3 ∧ (0 : UInt8) ≠ 4)
    | 2, _ => exact (by decide : (0xFD : UInt8) ≠ 3 ∧ (0xFD : UInt8) ≠ 4)
  | @roomChat lo hi _ h3 h4 h1 =>
    have hhi : hi ≠ 3 ∧ hi ≠ 4 := by
      constructor
      · rintro rfl
        exact absurd h1 (by decide)
      · rintro rfl
        exact absurd h1 (by decide)
    refine ⟨.inr rfl, fun i hi => ?_⟩
    match i, hi with
    | 0, _ => exact ⟨h3, h4⟩
    | 1, _ => exact hhi
    | 2, _ => exact (by decide : (2 : UInt8) ≠ 3 ∧ (2 : UInt8) ≠ 4)

/-- No low byte of a login's ID stands in front of a 3. -/
def Plain (l : Bytes) : Prop := ∀ i, l.getD (i + 1) 0 = 3 → l.getD i 0 ≠ 0xEA

theorem plain_cons {b : UInt8} {l : Bytes} (hl : Plain l) (hb : l.getD 0 0 = 3 → b ≠ 0xEA) : Plain (b :: l) := by
  intro i hi
  cases i with
  | zero => exact hb hi
  | succ i => exact hl i hi

/-- UTF-8 is plain: what follows a lead byte is a continuation byte. -/
theorem plain_of_chained {l : Bytes} (h : UTF8.Chained l) : Plain l := by
  intro i hi hb
  have hnext := h i
  rw [hi, hb] at hnext
  exact absurd (hnext (by decide)) (by decide)

/-- A login packet is plain behind its ID. -/
theorem plain_login (userID authToken : CsString) : Plain ((btnLoginClick userID authToken).drop 3) := by
  have htexts := (UTF8.chained_getBytes (userID.padRight 32)).append (UTF8.chained_getBytes (authToken.padRight 32))
  rw [btnLoginClick_eq]
  refine plain_cons (plain_cons (plain_cons (plain_of_chained htexts) ?_) ?_) ?_
  · exact fun _ => by decide
  · exact fun _ => by decide
  · exact fun _ => by decide

/-! ## The fields of a packet -/

section

variable {n off : ℕ} {array : Chars n} {m a b : Bytes}

theorem cstr?_eq_some : cstr? array = some b ↔ 0 ∉ b ∧ ∃ l, array.toList = b ++ 0 :: l := by
  unfold cstr?
  constructor
  · intro h
    split at h
    · rename_i hmem
      obtain ⟨a, l, hl, ha⟩ := List.eq_append_cons_of_mem hmem
      rw [hl, cstr_append_nul ha] at h
      obtain rfl := Option.some.inj h
      exact ⟨ha, l, hl⟩
    · cases h
  · rintro ⟨hb, l, hl⟩
    rw [if_pos (by rw [hl]; exact List.mem_append_right _ List.mem_cons_self), hl, cstr_append_nul hb]

/-- The text in a window, byte by byte. -/
theorem cstr?_window : cstr? (window off n m) = some b ↔ 0 ∉ b ∧ b.length < n ∧
    (∀ i < b.length, m.getD (off + i) 0 = b.getD i 0) ∧ m.getD (off + b.length) 0 = 0 := by
  rw [cstr?_eq_some]
  have hlen : (window off n m).toList.length = n := List.Vector.toList_length _
  constructor
  · rintro ⟨hb, l, hl⟩
    have hlt : b.length < n := by
      rw [← hlen, hl, List.length_append, List.length_cons]
      omega
    refine ⟨hb, hlt, ?_, ?_⟩
    · intro i hi
      rw [← window_getD (show i < n by omega), hl, List.getD_append _ _ _ _ hi]
    · rw [← window_getD hlt, hl, List.getD_append_right _ _ _ _ le_rfl, Nat.sub_self]
      rfl
  · rintro ⟨hb, hlt, hbytes, hend⟩
    refine ⟨hb, (window off n m).toList.drop (b.length + 1), ?_⟩
    have hget : ∀ i (hi : i < (window off n m).toList.length),
        (window off n m).toList[i] = m.getD (off + i) 0 := by
      intro i hi
      rw [← window_getD (show i < n by omega), List.getD_eq_getElem _ _ hi]
    rw [← hend, ← hget b.length (by omega), ← List.drop_eq_getElem_cons]
    have htake : (window off n m).toList.take b.length = b := by
      refine List.ext_getElem (by rw [List.length_take]; omega) ?_
      intro i _ hi
      rw [List.getElem_take, hget, hbytes i hi, List.getD_eq_getElem _ _ hi]
    nth_rewrite 1 [← List.take_append_drop b.length (window off n m).toList]
    rw [htake]

end

/-- The packet ID of a request. -/
def Fields.id : Fields → PacketID
  | .login _ _ => PacketID.reqLogin
  | .roomEnter _ => PacketID.reqRoomEnter
  | .roomChat _ => PacketID.reqRoomChat
  | .unknown id => id

section

variable {stack : Stack} {x p : Bytes}

theorem fields_id (stack : Stack) (x : Bytes) :
    (dispatch stack x).fields.id = (PacketHeader.deserialize (delivered stack x)).id := by
  unfold dispatch
  simp only
  split
  · exact Eq.symm ‹_›
  · split
    · exact Eq.symm ‹_›
    · split
      · exact Eq.symm ‹_›
      · rfl

/-- The fields of a login request. -/
theorem fields_login {userID authToken : Option Bytes} : (dispatch stack x).fields = .login userID authToken ↔
    (PacketHeader.deserialize (delivered stack x)).id = PacketID.reqLogin ∧
      cstr? (window 6 32 (delivered stack x)) = userID ∧ cstr? (window 38 32 (delivered stack x)) = authToken := by
  have hdispatch : (PacketHeader.deserialize (delivered stack x)).id = PacketID.reqLogin →
      dispatch stack x = .login (window 6 32 (delivered stack x)) (window 38 32 (delivered stack x)) := by
    intro hid
    exact if_pos hid
  constructor
  · intro h
    have hid := (fields_id stack x).symm.trans (congrArg Fields.id h)
    rw [hdispatch hid] at h
    exact ⟨hid, Fields.login.inj h⟩
  · rintro ⟨hid, rfl, rfl⟩
    rw [hdispatch hid]
    rfl

/-- The fields of a room request. -/
theorem fields_roomEnter {roomNumber : Int32} : (dispatch stack x).fields = .roomEnter roomNumber ↔
    (PacketHeader.deserialize (delivered stack x)).id = PacketID.reqRoomEnter ∧
      i32At 6 (delivered stack x) = roomNumber := by
  have hdispatch : (PacketHeader.deserialize (delivered stack x)).id = PacketID.reqRoomEnter →
      dispatch stack x = .roomEnter (i32At 6 (delivered stack x)) := by
    intro hid
    rw [delivered] at hid
    simp only [dispatch, hid]
    rw [if_neg (by decide), if_true]
    rfl
  constructor
  · intro h
    have hid := (fields_id stack x).symm.trans (congrArg Fields.id h)
    rw [hdispatch hid] at h
    exact ⟨hid, Fields.roomEnter.inj h⟩
  · rintro ⟨hid, rfl⟩
    rw [hdispatch hid]
    rfl

/-- The fields of a chat request. -/
theorem fields_roomChat {message : Option Bytes} : (dispatch stack x).fields = .roomChat message ↔
    (PacketHeader.deserialize (delivered stack x)).id = PacketID.reqRoomChat ∧
      cstr? (window 6 256 (delivered stack x)) = message := by
  have hdispatch : (PacketHeader.deserialize (delivered stack x)).id = PacketID.reqRoomChat →
      dispatch stack x = .roomChat (window 6 256 (delivered stack x)) := by
    intro hid
    rw [delivered] at hid
    simp only [dispatch, hid]
    rw [if_neg (by decide), if_neg (by decide), if_true, SocketAcl.RoomChatRequest.deserialize, headerSize,
      delivered]
  constructor
  · intro h
    have hid := (fields_id stack x).symm.trans (congrArg Fields.id h)
    rw [hdispatch hid] at h
    exact ⟨hid, Fields.roomChat.inj h⟩
  · rintro ⟨hid, rfl⟩
    rw [hdispatch hid]
    rfl

/-! ## Packets read whole -/

/-- A packet starts with its ID, as the server reads it. -/
theorem Click.id (click : Click) (h : click.bytes = some p) (stack : Stack) :
    (PacketHeader.deserialize (delivered stack p)).id = click.fields.id := by
  have hheader : ∀ (header : PacketHeader) (l : Bytes), p = serializeHeader header ++ l →
      (PacketHeader.deserialize (delivered stack p)).id = header.id := by
    intro header l hp
    rw [delivered_eq stack hp, deserialize_serializeHeader]
  cases click with
  | login userID authToken =>
    obtain rfl := Option.some.inj h
    exact hheader ⟨70, PacketID.reqLogin, 0⟩ _ (List.append_assoc _ _ _)
  | roomEnter roomNumber =>
    obtain rfl := Option.some.inj h
    exact hheader ⟨10, PacketID.reqRoomEnter, 0⟩ _ rfl
  | roomChat message =>
    simp only [Click.bytes, btnSendChatClick, Client.RoomChatRequest.serialize] at h
    split at h
    · obtain rfl := Option.some.inj h
      exact hheader ⟨UInt16.ofNat (6 + message.length), PacketID.reqRoomChat, 0⟩ _ rfl
    · cases h

/-- The user ID in its field. -/
theorem login_userID {userID : CsString} (hu : (UTF8.getBytes userID).length ≤ 32) (authToken : CsString) {i : ℕ}
    (hi : i < 32) : (btnLoginClick userID authToken).getD (6 + i) 0 = (UTF8.getBytes userID).getD i 0 := by
  have hfield : ((btnLoginClick userID authToken).drop 6).take 32 = fill 32 (UTF8.getBytes userID) := by
    unfold btnLoginClick Client.LoginRequest.serialize
    rw [List.append_assoc, List.drop_left' (serializeHeader_length _), padded_take hu]
  rw [← getD_drop, ← fill_getD 32 (UTF8.getBytes userID), ← hfield, List.getD_eq_getElem?_getD,
    List.getD_eq_getElem?_getD, List.getElem?_take_of_lt hi]

/-- The token in its field: what the user ID has beyond its code units stands in front of it. -/
theorem login_authToken {userID : CsString} (hu : (UTF8.getBytes userID).length ≤ 32) (authToken : CsString)
    (i : ℕ) : (btnLoginClick userID authToken).getD (38 + i) 0 =
      (zeros ((UTF8.getBytes userID).length - userID.length) ++ UTF8.getBytes authToken).getD i 0 := by
  have hfield : (btnLoginClick userID authToken).drop 38 =
      zeros ((UTF8.getBytes userID).length - userID.length) ++ UTF8.getBytes authToken ++
        zeros (32 - authToken.length) := by
    unfold btnLoginClick Client.LoginRequest.serialize
    rw [List.append_assoc, show 38 = 6 + 32 by rfl, ← List.drop_drop, List.drop_left' (serializeHeader_length _),
      padded_drop hu, getBytes_padRight, List.append_assoc]
  rw [← getD_drop, hfield, append_zeros_getD]

/-- A token that shows at the front of its field is not pushed back. -/
theorem login_inPlace {userID authToken : CsString} (hu : (UTF8.getBytes userID).length ≤ 32)
    (h : 0 < (UTF8.getBytes authToken).length → (btnLoginClick userID authToken).getD 38 0 ≠ 0) :
    UTF8.isAscii userID = true ∨ authToken = [] := by
  by_contra hnot
  rw [not_or, ← UTF8.length_getBytes] at hnot
  have hle := UTF8.length_le_getBytes userID
  have htle := UTF8.length_le_getBytes authToken
  have htoken : 0 < authToken.length := List.length_pos_iff.2 hnot.2
  obtain ⟨d, hd⟩ : ∃ d, (UTF8.getBytes userID).length - userID.length = d + 1 :=
    ⟨(UTF8.getBytes userID).length - userID.length - 1, by omega⟩
  refine h (by omega) ((login_authToken hu authToken 0).trans ?_)
  rw [hd]
  rfl

theorem bytes_getD_ne_zero {b : Bytes} (h : 0 ∉ b) {i : ℕ} (hi : i < b.length) : b.getD i 0 ≠ 0 := by
  rw [List.getD_eq_getElem _ _ hi]
  intro h0
  exact h (h0 ▸ List.getElem_mem hi)

theorem delivered_getD (stack : Stack) (hx : x.length ≤ 256) {i : ℕ} (hi : i < 256) :
    (delivered stack x).getD i 0 = x.getD i 0 := fill_append_getD hx hi

/-- A login read whole is decoded as it was sent exactly where its texts fit. -/
theorem login_fields (stack : Stack) {userID authToken : CsString}
    (hp : (btnLoginClick userID authToken).length ≤ 256) :
    (dispatch stack (btnLoginClick userID authToken)).fields = (Click.login userID authToken).fields ↔
      (Click.login userID authToken).Fits stack := by
  have hid := Click.id (.login userID authToken) rfl stack
  have hmem : ∀ i, i < 256 → (delivered stack (btnLoginClick userID authToken)).getD i 0 =
      (btnLoginClick userID authToken).getD i 0 := fun i hi => delivered_getD stack hp hi
  rw [Click.fields, fields_login, cstr?_window, cstr?_window]
  constructor
  · rintro ⟨-, ⟨hu0, hu, -, -⟩, ht0, ht, htoken, -⟩
    refine ⟨⟨fun h => hu0 (UTF8.mem_getBytes h), by omega⟩, ⟨fun h => ht0 (UTF8.mem_getBytes h), by omega⟩,
      login_inPlace (by omega) fun hpos => ?_⟩
    rw [← hmem _ (by omega)]
    exact (htoken 0 hpos).symm ▸ bytes_getD_ne_zero ht0 hpos
  · rintro ⟨hu, ht, hplace⟩
    have hushort := hu.short
    have htshort := ht.short
    refine ⟨hid, ⟨UTF8.getBytes_no_nul hu.no_nul, by omega, ?_, ?_⟩, UTF8.getBytes_no_nul ht.no_nul, by omega, ?_⟩
    · intro i hi
      rw [hmem _ (by omega), login_userID (by omega) _ (by omega)]
    · rw [hmem _ (by omega), login_userID (by omega) _ (by omega)]
      exact List.getD_eq_default _ _ le_rfl
    have hfield : ∀ i ≤ (UTF8.getBytes authToken).length,
        (delivered stack (btnLoginClick userID authToken)).getD (38 + i) 0 = (UTF8.getBytes authToken).getD i 0 := by
      intro i hi
      rw [hmem _ (by omega), login_authToken (by omega)]
      rcases hplace with hascii | rfl
      · rw [← UTF8.length_getBytes] at hascii
        rw [hascii, Nat.sub_self]
        rfl
      · rw [show UTF8.getBytes [] = [] from rfl, List.append_nil]
        exact append_zeros_getD [] _ i
    refine ⟨fun i hi => hfield i (by omega), (hfield _ le_rfl).trans ?_⟩
    exact List.getD_eq_default _ _ le_rfl

/-- A room request read whole is decoded as it was sent. -/
theorem roomEnter_fields (stack : Stack) (roomNumber : Int32) :
    (dispatch stack (btnEnterRoomClick roomNumber)).fields = (Click.roomEnter roomNumber).fields :=
  fields_roomEnter.2 ⟨Click.id (.roomEnter roomNumber) rfl stack,
    (roomEnter_decoded stack ⟨⟨10, PacketID.reqRoomEnter, 0⟩, roomNumber⟩).roomNumber⟩

/-- The text in a chat packet. -/
theorem roomChat_text {message : CsString} (hp : btnSendChatClick message = some p) :
    p.length = 6 + (UTF8.getBytes message).length ∧ ∀ i, p.getD (6 + i) 0 = (UTF8.getBytes message).getD i 0 := by
  simp only [btnSendChatClick, Client.RoomChatRequest.serialize] at hp
  split at hp
  · obtain rfl := Option.some.inj hp
    refine ⟨by rw [List.length_append, serializeHeader_length], ?_⟩
    intro i
    rw [← getD_drop, List.drop_left' (serializeHeader_length _)]
  · cases hp

/-- A chat read whole is decoded as it was sent exactly where its text fits. -/
theorem roomChat_fields (stack : Stack) {message : CsString} (hp : btnSendChatClick message = some p)
    (hlen : p.length ≤ 256) : (dispatch stack p).fields = (Click.roomChat message).fields ↔
      (Click.roomChat message).Fits stack := by
  have hid := Click.id (.roomChat message) hp stack
  obtain ⟨hlength, htext⟩ := roomChat_text hp
  have hbytes : ∀ i < (UTF8.getBytes message).length,
      (delivered stack p).getD (6 + i) 0 = (UTF8.getBytes message).getD i 0 := by
    intro i hi
    rw [delivered_getD stack hlen (by omega), htext]
  -- behind the text there are NULs, or the stack
  have hend : (delivered stack p).getD (6 + (UTF8.getBytes message).length) 0 = 0 ↔
      (UTF8.getBytes message).length ≤ 249 ∨
        (UTF8.getBytes message).length = 250 ∧ stack.behindBuf.getD 0 0 = 0 := by
    rcases Nat.lt_or_ge (UTF8.getBytes message).length 250 with hlt | hge
    · refine iff_of_true ?_ (.inl (by omega))
      rw [delivered_getD stack hlen (by omega)]
      exact List.getD_eq_default _ _ (by omega)
    · have hfill := fill_length hlen
      have hlast : (delivered stack p).getD (6 + (UTF8.getBytes message).length) 0 = stack.behindBuf.getD 0 0 := by
        unfold delivered
        rw [List.getD_append_right _ _ _ _ (by omega)]
        congr 1
        omega
      rw [hlast]
      constructor
      · exact fun h => .inr ⟨by omega, h⟩
      · rintro (h | h)
        · omega
        · exact h.2
  rw [Click.fields, fields_roomChat, cstr?_window, hend]
  constructor
  · rintro ⟨-, h0, -, -, h⟩
    exact ⟨fun hmem => h0 (UTF8.mem_getBytes hmem), h⟩
  · rintro ⟨h0, h⟩
    exact ⟨hid, UTF8.getBytes_no_nul h0, by omega, hbytes, h⟩

/-- **A packet read whole** is decoded as it was sent exactly where its texts fit. -/
theorem packet_fields (stack : Stack) (p : Sent) :
    (dispatch stack p.packet).fields = p.click.fields ↔ p.click.Fits stack := by
  obtain ⟨click, packet, built, short⟩ := p
  cases click with
  | login userID authToken =>
    obtain rfl := Option.some.inj built
    exact login_fields stack short
  | roomEnter roomNumber =>
    obtain rfl := Option.some.inj built
    exact iff_of_true (roomEnter_fields stack roomNumber) trivial
  | roomChat message => exact roomChat_fields stack built short

/-! ## What is dispatched as a packet -/

/-- The piece is dispatched as the click whose packet this is. -/
structure DispatchedAs (x p : Bytes) : Prop where
  short : x.length ≤ 256
  same : ∃ stack click, Click.bytes click = some p ∧ (dispatch stack x).fields = click.fields

/-- Piece and packet have the same ID. -/
theorem DispatchedAs.id (h : DispatchedAs x p) (hp : p.length ≤ 256) :
    x.getD 2 0 = p.getD 2 0 ∧ x.getD 3 0 = p.getD 3 0 := by
  obtain ⟨stack, click, hclick, hsame⟩ := h.same
  have hid := congrArg Fields.id hsame
  rwa [fields_id, ← Click.id _ hclick stack, PacketHeader.id_eq_iff, delivered_getD stack h.short (by decide),
    delivered_getD stack h.short (by decide), delivered_getD stack hp (by decide),
    delivered_getD stack hp (by decide)] at hid

/-- The packet is a login, or the piece shows what the packet shows behind its header. -/
theorem DispatchedAs.login_or_shows (h : DispatchedAs x p) (hp : p.length ≤ 256) :
    (∃ stack userID authToken, p = btnLoginClick userID authToken ∧
      (dispatch stack x).fields = (Click.login userID authToken).fields) ∨
    ∀ i, 6 ≤ i → p.getD i 0 ≠ 0 → x.getD i 0 = p.getD i 0 := by
  obtain ⟨stack, click, hclick, hsame⟩ := h.same
  have hlong : ∀ i, p.getD i 0 ≠ 0 → i < p.length := by
    intro i hne
    by_contra hge
    exact hne (List.getD_eq_default _ _ (by omega))
  cases click with
  | login userID authToken => exact .inl ⟨stack, userID, authToken, (Option.some.inj hclick).symm, hsame⟩
  | roomEnter roomNumber =>
    refine .inr fun i hi hne => ?_
    have hlt := hlong i hne
    obtain rfl := Option.some.inj hclick
    have hlength : (btnEnterRoomClick roomNumber).length = 10 := rfl
    have hnumber : i32At 6 (btnEnterRoomClick roomNumber) = roomNumber := i32At_eq rfl rfl rfl rfl
    obtain ⟨j, rfl⟩ := Nat.exists_eq_add_of_le hi
    rw [← delivered_getD stack h.short (by omega)]
    exact i32At_inj ((fields_roomEnter.1 hsame).2.trans hnumber.symm) j (by omega)
  | roomChat message =>
    refine .inr fun i hi hne => ?_
    have hlt := hlong i hne
    obtain ⟨hlength, htext⟩ := roomChat_text hclick
    obtain ⟨-, -, hbytes, -⟩ := cstr?_window.1 (fields_roomChat.1 hsame).2
    obtain ⟨j, rfl⟩ := Nat.exists_eq_add_of_le hi
    rw [← delivered_getD stack h.short (by omega), hbytes j (by omega), htext]

/-! ## Pieces from inside a packet -/

/-- A memory that shows something `o` bytes behind everything it shows behind its header shows
nothing there. -/
theorem zero_of_shift {l : Bytes} {o : ℕ} (ho : 0 < o)
    (h : ∀ i, 6 ≤ i → l.getD i 0 ≠ 0 → l.getD (o + i) 0 ≠ 0) (i : ℕ) (hi : 6 ≤ i) : l.getD i 0 = 0 := by
  by_contra hne
  have hlt : i < l.length := by
    by_contra hge
    exact hne (List.getD_eq_default _ _ (by omega))
  exact h i hi hne (zero_of_shift ho h (o + i) (by omega))
termination_by l.length - i

/-- A piece from inside a packet does not have the packet's ID and body. -/
theorem not_body_inside {o n : ℕ} (ho : 0 < o) (h3 : p.getD 3 0 ≠ 0) (h4 : p.getD 4 0 = 0) (h5 : p.getD 5 0 = 0)
    (hid : ((p.drop o).take n).getD 3 0 = p.getD 3 0)
    (hbody : ∀ i, 6 ≤ i → p.getD i 0 ≠ 0 → ((p.drop o).take n).getD i 0 = p.getD i 0) : False := by
  have hmark : p.getD (o + 3) 0 ≠ 0 := by
    rw [getD_piece (n := n) (by rw [hid]; exact h3), hid]
    exact h3
  -- the ID of the piece stands behind the header
  have h6 : 6 ≤ o + 3 := by
    by_contra hlt
    obtain rfl | rfl : o = 1 ∨ o = 2 := by omega
    · exact hmark h4
    · exact hmark h5
  refine hmark (zero_of_shift ho (fun i hi hne => ?_) (o + 3) h6)
  have hb := hbody i hi hne
  rw [getD_piece (n := n) (by rw [hb]; exact hne), hb]
  exact hne

/-- A piece from inside a packet is not dispatched as that packet. -/
theorem not_dispatched_inside (hform : RequestForm p) (hp : p.length ≤ 256) {o n : ℕ} (ho : 0 < o) :
    ¬ DispatchedAs ((p.drop o).take n) p := by
  intro h
  obtain ⟨h2, h3⟩ := h.id hp
  have hmark : p.getD 3 0 ≠ 0 := by
    rcases hform.mark.1 with hm | hm <;> rw [hm] <;> decide
  rcases h.login_or_shows hp with ⟨-, userID, authToken, rfl, -⟩ | hbody
  · -- the ID of a login does not stand behind its own
    have hid : (btnLoginClick userID authToken).getD 2 0 = 0xEA ∧ (btnLoginClick userID authToken).getD 3 0 = 3 := by
      rw [btnLoginClick_eq]
      exact ⟨rfl, rfl⟩
    have hlow := (getD_piece (by rw [h2, hid.1]; decide)).trans (h2.trans hid.1)
    have hhigh := (getD_piece (by rw [h3]; exact hmark)).trans (h3.trans hid.2)
    have hplain := plain_login userID authToken (o - 1)
    rw [getD_drop, getD_drop, show 3 + (o - 1 + 1) = o + 3 by omega, show 3 + (o - 1) = o + 2 by omega] at hplain
    exact hplain hhigh hlow
  · exact not_body_inside ho hmark hform.padding.1 hform.padding.2 h3 hbody

/-! ## Pieces that end too early -/

/-- What is left of a login that is dispatched from its first bytes is NULs. -/
theorem login_rest {userID authToken : CsString} {n : ℕ} {stack : Stack}
    (hx : ((btnLoginClick userID authToken).take n).length ≤ 256)
    (h : (dispatch stack ((btnLoginClick userID authToken).take n)).fields = (Click.login userID authToken).fields)
    {i : ℕ} (hi : 6 ≤ i) (hn : n ≤ i) : (btnLoginClick userID authToken).getD i 0 = 0 := by
  rw [Click.fields, fields_login, cstr?_window, cstr?_window] at h
  obtain ⟨-, ⟨hu0, hu, huser, -⟩, ht0, ht, htoken, -⟩ := h
  set p := btnLoginClick userID authToken with hp
  -- what a text needs of the packet stands in the piece
  have hshown : ∀ j, j < 256 → (delivered stack (p.take n)).getD j 0 ≠ 0 →
      j < n ∧ p.getD j 0 = (delivered stack (p.take n)).getD j 0 := by
    intro j hj hne
    rw [delivered_getD stack hx hj] at hne ⊢
    have := getD_piece (m := p) (o := 0) (n := n) hne
    rw [Nat.zero_add, List.drop_zero] at this
    refine ⟨?_, this⟩
    by_contra hge
    rw [List.getD_eq_default _ _ (by rw [List.length_take]; omega)] at hne
    exact hne rfl
  rcases Nat.lt_or_ge i 38 with hlt | hge
  · obtain ⟨j, rfl⟩ := Nat.exists_eq_add_of_le hi
    rw [login_userID (by omega) _ (by omega)]
    by_contra hne
    have hj : j < (UTF8.getBytes userID).length := by
      by_contra hge
      exact hne (List.getD_eq_default _ _ (by omega))
    have := (hshown (6 + j) (by omega) (by rw [huser j hj]; exact hne)).1
    omega
  · obtain ⟨j, rfl⟩ := Nat.exists_eq_add_of_le hge
    have hfield := login_authToken (show (UTF8.getBytes userID).length ≤ 32 by omega) authToken j
    rw [← hp] at hfield
    rw [hfield]
    have hplace : UTF8.isAscii userID = true ∨ authToken = [] := by
      refine login_inPlace (by omega) fun hpos => ?_
      have hfront : (delivered stack (p.take n)).getD 38 0 ≠ 0 :=
        (htoken 0 hpos).symm ▸ bytes_getD_ne_zero ht0 hpos
      rw [← hp, (hshown 38 (by omega) hfront).2]
      exact hfront
    rcases hplace with hascii | rfl
    · rw [← UTF8.length_getBytes] at hascii
      rw [hascii, Nat.sub_self, show zeros 0 = [] from rfl, List.nil_append]
      by_contra hne
      have hj : j < (UTF8.getBytes authToken).length := by
        by_contra hge
        exact hne (List.getD_eq_default _ _ (by omega))
      have := (hshown (38 + j) (by omega) (by rw [htoken j hj]; exact hne)).1
      omega
    · rw [show UTF8.getBytes [] = [] from rfl, List.append_nil]
      exact append_zeros_getD [] _ j

/-- What is left of a packet that is dispatched from its first bytes is NULs. -/
theorem DispatchedAs.rest {n : ℕ} (h : DispatchedAs (p.take n) p) (hform : RequestForm p) (hp : p.length ≤ 256)
    {i : ℕ} (hn : n ≤ i) : p.getD i 0 = 0 := by
  obtain ⟨h2, h3⟩ := h.id hp
  have hmissing : ∀ j, n ≤ j → (p.take n).getD j 0 = 0 := by
    intro j hj
    exact List.getD_eq_default _ _ (by rw [List.length_take]; omega)
  -- the piece has the ID at least
  have h4 : 4 ≤ n := by
    by_contra hlt
    rw [hmissing 3 (by omega)] at h3
    rcases hform.mark.1 with hm | hm <;> rw [hm] at h3 <;> exact absurd h3 (by decide)
  rcases Nat.lt_or_ge i 6 with hlt | hge
  · obtain ⟨hfour, hfive⟩ := hform.padding
    obtain rfl | rfl : i = 4 ∨ i = 5 := by omega
    · exact hfour
    · exact hfive
  rcases h.login_or_shows hp with ⟨stack, userID, authToken, rfl, hsame⟩ | hbody
  · exact login_rest h.short hsame hge hn
  · by_contra hne
    have := hbody i hge hne
    rw [hmissing i hn] at this
    exact hne this.symm

end

/-- **No way out.** Behind NULs no packets can be read to the end of the stream. -/
theorem not_readAs {packets : List Bytes} (hP : ∀ q ∈ packets, RequestForm q ∧ q.length ≤ 256) {t : Bytes}
    (ht : 0 < t.length) (hzero : ∀ i, t.getD i 0 = 0) {ns : List ℕ}
    (hns : Cuts 256 (t ++ packets.flatten).length ns) :
    ¬ ReadAs DispatchedAs (fun _ => False) (t ++ packets.flatten) ns packets := by
  intro h
  cases h with
  | done =>
    have := hns.nil
    rw [List.length_append] at this
    omega
  | stop h => exact h
  | @read _ q m ns packets hfirst hrest =>
    obtain ⟨hform, hq⟩ := hP q List.mem_cons_self
    have hlen := hform.length
    obtain ⟨hmark, hfront⟩ := hform.mark
    obtain ⟨-, h3⟩ := hfirst.id hq
    have hne : q.getD 3 0 ≠ 0 := by
      rcases hmark with hm | hm <;> rw [hm] <;> decide
    -- the high byte of the ID stands among the NULs, or in front of the packet's own
    have hhigh := getD_piece (m := t ++ (q :: packets).flatten) (o := 0) (n := m) (i := 3)
      (by rw [List.drop_zero, h3]; exact hne)
    rw [List.drop_zero, h3, Nat.zero_add] at hhigh
    by_cases ht4 : t.length < 4
    · rw [List.getD_append_right _ _ _ _ (by omega), List.flatten_cons,
        List.getD_append _ _ _ _ (by omega)] at hhigh
      have := hfront (3 - t.length) (by omega)
      rw [hhigh] at this
      exact hmark.elim this.1 this.2
    · rw [List.getD_append _ _ _ _ (by omega), hzero] at hhigh
      exact hne hhigh.symm

/-- **The server is a sharp reader** of request packets. -/
theorem sharp_server : Sharp 256 DispatchedAs (fun _ => False) fun p => RequestForm p ∧ p.length ≤ 256 where
  inside := fun _ hp _ _ ho => not_dispatched_inside hp.1 hp.2 ho
  short := by
    intro p packets n ns hp hps hn hfirst hns
    refine not_readAs hps ?_ ?_ hns
    · rw [List.length_drop]
      omega
    · intro i
      rw [getD_drop]
      exact hfirst.rest hp.1 hp.2 (Nat.le_add_right n i)

/-! ## Framing -/

theorem dispatched_cons (behind : ℕ → Stack) (x : Bytes) (pieces : List Bytes) :
    dispatched behind (x :: pieces) = dispatch (behind 0) x :: dispatched (fun i => behind (i + 1)) pieces := by
  unfold dispatched
  rw [List.mapIdx_cons]

/-- What is dispatched as the clicks is read as their packets. -/
theorem readAs_of_dispatched {behind : ℕ → Stack} {ps : List Sent} {l : Bytes} {ns : List ℕ}
    (hns : ∀ n ∈ ns, n ≤ 256)
    (h : (dispatched behind (ns.splitLengths l)).map Request.fields = ps.map fun p => p.click.fields) :
    ReadAs DispatchedAs (fun _ => False) l ns (ps.map Sent.packet) := by
  induction ps generalizing behind l ns with
  | nil =>
    have hlen := congrArg List.length h
    simp only [dispatched, List.length_map, List.length_mapIdx, List.length_splitLengths,
      List.length_nil] at hlen
    rw [List.length_eq_zero_iff.1 hlen]
    exact .done
  | cons p ps ih =>
    cases ns with
    | nil =>
      have hlen := congrArg List.length h
      simp [dispatched] at hlen
    | cons n ns =>
      rw [List.splitLengths_cons, dispatched_cons, List.map_cons, List.map_cons] at h
      obtain ⟨hfirst, hrest⟩ := List.cons.inj h
      refine .read ⟨?_, behind 0, p.click, p.built, hfirst⟩
        (ih (fun m hm => hns m (List.mem_cons_of_mem _ hm)) hrest)
      have := hns n List.mem_cons_self
      rw [List.length_take]
      omega

/-- Packet by packet, the clicks are dispatched exactly where their texts fit. -/
theorem dispatched_packets (behind : ℕ → Stack) (ps : List Sent) :
    (dispatched behind (ps.map Sent.packet)).map Request.fields = (ps.map fun p => p.click.fields) ↔
      ∀ (i : ℕ) (p : Sent), ps[i]? = some p → p.click.Fits (behind i) := by
  induction ps generalizing behind with
  | nil => exact iff_of_true rfl fun i p hp => by rw [List.getElem?_nil] at hp; cases hp
  | cons p ps ih =>
    rw [List.map_cons, List.map_cons, dispatched_cons, List.map_cons, List.cons.injEq, packet_fields, ih]
    constructor
    · rintro ⟨hp, hps⟩ i q hq
      cases i with
      | zero =>
        obtain rfl := Option.some.inj hq
        exact hp
      | succ i => exact hps i q hq
    · intro h
      exact ⟨h 0 p rfl, fun i q hq => h (i + 1) q hq⟩

/-- **Framing on the server.** The requests dispatched are the requests that were sent exactly when every
read returns one packet and the texts of each come out of it. -/
theorem server_framing (behind : ℕ → Stack) (ps : List Sent) (ns : List ℕ)
    (hns : Cuts 256 (ps.map Sent.packet).flatten.length ns) :
    Framed behind ps ns ↔ ns = (ps.map fun p => p.packet.length) ∧
      ∀ (i : ℕ) (p : Sent), ps[i]? = some p → p.click.Fits (behind i) := by
  have hwhole : ns = (ps.map fun p => p.packet.length) →
      (Framed behind ps ns ↔ ∀ (i : ℕ) (p : Sent), ps[i]? = some p → p.click.Fits (behind i)) := by
    rintro rfl
    have hcut : (ps.map fun p => p.packet.length) = (ps.map Sent.packet).map List.length := by
      rw [List.map_map]
      rfl
    unfold Framed
    rw [hcut, splitLengths_packets, dispatched_packets]
  constructor
  · intro h
    have hP : ∀ p ∈ ps.map Sent.packet, RequestForm p ∧ p.length ≤ 256 := by
      intro p hp
      obtain ⟨s, -, rfl⟩ := List.mem_map.1 hp
      exact ⟨form_sent s, s.short⟩
    have hlengths := sharp_server.lengths hP hns (readAs_of_dispatched hns.le h)
    rw [List.map_map] at hlengths
    exact ⟨hlengths, (hwhole hlengths).1 h⟩
  · rintro ⟨hlengths, hfits⟩
    exact (hwhole hlengths).2 hfits

/-- A client that enters room 1 and says "hi". -/
def enterAndChat : List Sent :=
  [⟨.roomEnter 1, [10, 0, 0xFD, 3, 0, 0, 1, 0, 0, 0], by decide, by decide⟩,
    ⟨.roomChat [0x68, 0x69], [8, 0, 2, 4, 0, 0, 0x68, 0x69], by decide, by decide⟩]

/-- The same behind a login as "al" with the token "pw". -/
def loginEnterChat : List Sent :=
  ⟨.login [0x61, 0x6C] [0x70, 0x77], btnLoginClick [0x61, 0x6C] [0x70, 0x77], rfl, by decide⟩ :: enterAndChat

/-- Read one packet at a time, the three requests are dispatched as they were sent. -/
theorem server_framing_apart : Framed (fun _ => Stack.clear) loginEnterChat [70, 10, 8] := by
  refine (server_framing (fun _ => Stack.clear) loginEnterChat [70, 10, 8]
    ⟨by decide, by decide, by decide⟩).2 ⟨by decide, ?_⟩
  intro i p hp
  have hmem := List.mem_of_getElem? hp
  rcases List.mem_cons.1 hmem with rfl | hmem
  · exact ⟨⟨by decide, by decide⟩, ⟨by decide, by decide⟩, .inl (by decide)⟩
  rcases List.mem_cons.1 hmem with rfl | hmem
  · exact trivial
  · obtain rfl := List.mem_singleton.1 hmem
    exact ⟨by decide, .inl (by decide)⟩

/-- **A lost request.** Both packets arrive in one read: the chat request is not dispatched. -/
theorem request_lost : Cuts 256 (enterAndChat.map Sent.packet).flatten.length [18] ∧
    ¬ Framed (fun _ => Stack.clear) enterAndChat [18] := by
  refine ⟨⟨by decide, by decide, by decide⟩, fun h => ?_⟩
  have hlen := congrArg List.length h
  simp only [dispatched, List.length_map, List.length_mapIdx, List.length_splitLengths] at hlen
  exact absurd hlen (by decide)

end SocketAcl
