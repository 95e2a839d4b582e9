import SocketAcl.Lib.Utf8Text
import SocketAcl.Spec.Client

/-!
# The client's packet codec

The client pads a text to 32 code units and then encodes it, and reads it back as 32 bytes. A text
of more bytes than code units pushes what follows it back by the difference (`padded_drop`).

* `packet_round_trip`: a packet is read back as it was built exactly where no surrogate stands
  alone and, with two texts, the first is ASCII or the second empty.
-/

namespace SocketAcl

open Client

/-! ## Headers -/

theorem serializeHeader_length (h : PacketHeader) : (serializeHeader h).length = 6 := rfl

/-- **A header is read back.** -/
theorem deserialize_serializeHeader (h : PacketHeader) (l : Bytes) :
    PacketHeader.deserialize (serializeHeader h ++ l) = h := by
  have htotal : u16At 0 (serializeHeader h ++ l) = h.totalSize := u16At_eq rfl rfl
  have hid : u16At 2 (serializeHeader h ++ l) = h.id := u16At_eq rfl rfl
  unfold PacketHeader.deserialize
  rw [htotal, hid]
  rfl

/-! ## Padded texts -/

/-- A padded text is its bytes and a NUL for each code unit that is missing. -/
theorem getBytes_padRight (n : ℕ) (s : CsString) :
    UTF8.getBytes (s.padRight n) = UTF8.getBytes s ++ zeros (n - s.length) := UTF8.getBytes_nuls s _

theorem length_padded (n : ℕ) (s : CsString) :
    (UTF8.getBytes (s.padRight n)).length = (UTF8.getBytes s).length + (n - s.length) := by
  rw [getBytes_padRight, List.length_append]
  exact congrArg _ List.length_replicate

theorem le_length_padded (n : ℕ) (s : CsString) : n ≤ (UTF8.getBytes (s.padRight n)).length := by
  have hle := UTF8.length_le_getBytes s
  rw [length_padded]
  omega

/-- The first 32 bytes are the text's, zero-filled. -/
theorem padded_take {a : CsString} (ha : (UTF8.getBytes a).length ≤ 32) (l : Bytes) :
    (UTF8.getBytes (a.padRight 32) ++ l).take 32 = fill 32 (UTF8.getBytes a) := by
  have hle := UTF8.length_le_getBytes a
  rw [getBytes_padRight, List.append_assoc, List.take_append, List.take_of_length_le ha, List.take_append]
  unfold fill zeros
  rw [List.take_replicate, Nat.min_eq_left (by omega), List.length_replicate,
    show 32 - (UTF8.getBytes a).length - (32 - a.length) = 0 by omega, List.take_zero, List.append_nil]

/-- Behind them there is a NUL for each byte the text has beyond its code units. -/
theorem padded_drop {a : CsString} (ha : (UTF8.getBytes a).length ≤ 32) (l : Bytes) :
    (UTF8.getBytes (a.padRight 32) ++ l).drop 32 = zeros ((UTF8.getBytes a).length - a.length) ++ l := by
  have hle := UTF8.length_le_getBytes a
  have hlen := length_padded 32 a
  rw [List.drop_append_of_le_length (by omega), getBytes_padRight, List.drop_append, List.drop_of_length_le ha,
    List.nil_append]
  unfold zeros
  rw [List.drop_replicate]
  congr 2
  omega

/-! ## Texts read back -/

/-- `Encoding.UTF8.GetString(…).TrimEnd('\0')`. -/
def readText (l : Bytes) : CsString := CsString.trimEnd (UTF8.decode none l)

theorem readText_text {t : Bytes} (h0 : 0 ∉ t) (k : ℕ) : readText (t ++ zeros k) = UTF8.decode none t := by
  unfold readText zeros
  rw [UTF8.decode_nuls, CsString.trimEnd_nuls, CsString.trimEnd_of_no_nul (UTF8.decode_no_nul h0 none)]

/-- Behind a NUL only the empty text is read. -/
theorem readText_nul {t : CsString} (h0 : 0 ∉ t) (k : ℕ) (l : Bytes) (h : readText (zeros (k + 1) ++ l) = t) :
    t = [] := by
  have hfront : t <+: UTF8.decode none (zeros (k + 1) ++ l) := h ▸ List.rdropWhile_prefix _ _
  unfold zeros at hfront
  rw [UTF8.decode_nuls_append, List.replicate_succ, List.cons_append] at hfront
  cases t with
  | nil => rfl
  | cons u t =>
    obtain ⟨rfl, -⟩ := List.cons_prefix_cons.1 hfront
    exact absurd List.mem_cons_self h0

/-- **A text behind `d` NULs** is read back exactly where no surrogate stands alone and there is no
such NUL, or no text. -/
theorem readText_shifted {b : CsString} (h0 : 0 ∉ b) {d n : ℕ} (k : ℕ) (hn : (UTF8.getBytes b).length ≤ n)
    (hpos : d = 0 ∨ 0 < n) : readText ((zeros d ++ (UTF8.getBytes b ++ zeros k)).take n) = b ↔
      UTF8.wellFormed b = true ∧ (d = 0 ∨ b = []) := by
  have hzeros : ∀ i j, (zeros i).take j = zeros (min j i) := fun i j => List.take_replicate
  rcases Nat.eq_zero_or_pos d with rfl | hd
  · have htake : (zeros 0 ++ (UTF8.getBytes b ++ zeros k)).take n =
        UTF8.getBytes b ++ zeros (min (n - (UTF8.getBytes b).length) k) := by
      rw [show zeros 0 = [] from rfl, List.nil_append, List.take_append, List.take_of_length_le hn, hzeros]
    rw [htake, readText_text (UTF8.getBytes_no_nul h0), UTF8.decode_getBytes]
    simp
  · rcases eq_or_ne b [] with rfl | hb
    · have htake : (zeros d ++ (UTF8.getBytes [] ++ zeros k)).take n = [] ++ zeros (min n (d + k)) := by
        rw [UTF8.getBytes, List.nil_append, List.nil_append, ← hzeros]
        unfold zeros
        rw [List.replicate_append_replicate]
      refine iff_of_true ?_ ⟨rfl, .inr rfl⟩
      rw [htake, readText_text List.not_mem_nil]
      rfl
    · refine iff_of_false (fun h => hb ?_) (fun h => h.2.elim (by omega) hb)
      -- a NUL in front of the text stays in it: only those at the end are trimmed
      obtain ⟨d, rfl⟩ : ∃ d', d = d' + 1 := ⟨d - 1, by omega⟩
      obtain ⟨n, rfl⟩ : ∃ n', n = n' + 1 := ⟨n - 1, by omega⟩
      exact readText_nul h0 0 ((zeros d ++ (UTF8.getBytes b ++ zeros k)).take n) h

/-! ## Packets -/

/-- A packet of the client's format. -/
inductive CsPacket
  | login (p : Client.LoginRequest)
  | roomEnter (p : Client.RoomEnterRequest)
  | roomChat (p : Client.RoomChatRequest)
  | roomChatNotification (p : Client.RoomChatNotification)
  | userListNotification (p : Client.UserListNotification)

namespace CsPacket

/-- `p.Serialize()`; `none` where it throws. -/
def serialize : CsPacket → Option Bytes
  | login p => some p.serialize
  | roomEnter p => some p.serialize
  | roomChat p => p.serialize
  | roomChatNotification p => some p.serialize
  | userListNotification p => some p.serialize

/-- `Deserialize` of the packet's class. -/
def deserialize (buffer : Bytes) : CsPacket → Option CsPacket
  | login _ => (Client.LoginRequest.deserialize buffer).map login
  | roomEnter _ => (Client.RoomEnterRequest.deserialize buffer).map roomEnter
  | roomChat _ => (Client.RoomChatRequest.deserialize buffer).map roomChat
  | roomChatNotification _ => (Client.RoomChatNotification.deserialize buffer).map roomChatNotification
  | userListNotification _ => (Client.UserListNotification.deserialize buffer).map userListNotification

def totalSize : CsPacket → UInt16
  | login p => p.totalSize
  | roomEnter p => p.totalSize
  | roomChat p => p.totalSize
  | roomChatNotification p => p.totalSize
  | userListNotification p => p.totalSize

/-- The texts of a packet, each with the bytes its field holds. -/
def texts : CsPacket → List (CsString × ℕ)
  | login p => [(p.userID, 32), (p.authToken, 32)]
  | roomEnter _ => []
  | roomChat p => [(p.message, 256)]
  | roomChatNotification p => [(p.userID, 32), (p.message, 256)]
  | userListNotification p => [(p.userID1, 32), (p.userID2, 32)]

/-- The texts hold no NUL and fit their fields. -/
def Fits (p : CsPacket) : Prop := ∀ t ∈ p.texts, 0 ∉ t.1 ∧ (UTF8.getBytes t.1).length ≤ t.2

/-- `TotalSize` was set to the length of the serialized packet. -/
def Sized (p : CsPacket) : Prop := ∀ b, p.serialize = some b → p.totalSize.toNat = b.length

/-- The serialized packet is read back as it was. -/
def ReadBack (p : CsPacket) : Prop := ∃ b, p.serialize = some b ∧ deserialize b p = some p

/-- No surrogate stands alone, and of two texts the first is ASCII or the second empty. -/
def InPlace (p : CsPacket) : Prop := (∀ t ∈ p.texts, UTF8.wellFormed t.1 = true) ∧
  match p.texts with
  | [a, b] => UTF8.isAscii a.1 = true ∨ b.1 = []
  | _ => True

end CsPacket

theorem getString_of_le {buffer : Bytes} {index : ℕ} (count : ℕ) (h : index + count ≤ buffer.length) :
    UTF8.getString buffer index count = some (UTF8.decode none ((buffer.drop index).take count)) := by
  unfold UTF8.getString
  rw [if_pos ⟨by omega, by omega⟩]
  rfl

/-- Two texts behind a header, as they are read back. -/
theorem two_texts {a b : CsString} (h : PacketHeader) (ha : 0 ∉ a) (hb : 0 ∉ b)
    (ha32 : (UTF8.getBytes a).length ≤ 32) {n : ℕ} (k : ℕ) (hn : (UTF8.getBytes b).length ≤ n)
    (hpos : (UTF8.getBytes a).length - a.length = 0 ∨ 0 < n) {buffer : Bytes}
    (hbuffer : buffer = serializeHeader h ++ UTF8.getBytes (a.padRight 32) ++ (UTF8.getBytes b ++ zeros k)) :
    readText ((buffer.drop 6).take 32) = a ∧ readText ((buffer.drop 38).take n) = b ↔
      (UTF8.wellFormed a = true ∧ UTF8.wellFormed b = true) ∧ (UTF8.isAscii a = true ∨ b = []) := by
  have hle := UTF8.length_le_getBytes a
  have hdrop : buffer.drop 6 = UTF8.getBytes (a.padRight 32) ++ (UTF8.getBytes b ++ zeros k) := by
    rw [hbuffer, List.append_assoc]
    exact List.drop_left' (serializeHeader_length h)
  have hfirst : readText ((buffer.drop 6).take 32) = a ↔ UTF8.wellFormed a = true := by
    rw [hdrop, padded_take ha32, fill, readText_text (UTF8.getBytes_no_nul ha), UTF8.decode_getBytes]
  have hsecond := readText_shifted hb k hn hpos
  have hshift : (UTF8.getBytes a).length - a.length = 0 ↔ UTF8.isAscii a = true := by
    rw [← UTF8.length_getBytes]
    omega
  rw [hfirst, show 38 = 6 + 32 from rfl, ← List.drop_drop, hdrop, padded_drop ha32, hsecond, hshift]
  exact and_assoc.symm

/-- A packet with two padded texts is read back exactly where `InPlace` says. -/
theorem two_padded {a b : CsString} (h : PacketHeader) (ha : 0 ∉ a) (hb : 0 ∉ b)
    (ha32 : (UTF8.getBytes a).length ≤ 32) (hb32 : (UTF8.getBytes b).length ≤ 32) {buffer : Bytes}
    (hbuffer : buffer = serializeHeader h ++ UTF8.getBytes (a.padRight 32) ++ UTF8.getBytes (b.padRight 32)) :
    PacketHeader.deserialize buffer = h ∧
    UTF8.getString buffer 6 32 = some (UTF8.decode none ((buffer.drop 6).take 32)) ∧
    UTF8.getString buffer 38 32 = some (UTF8.decode none ((buffer.drop 38).take 32)) ∧
    (readText ((buffer.drop 6).take 32) = a ∧ readText ((buffer.drop 38).take 32) = b ↔
      (UTF8.wellFormed a = true ∧ UTF8.wellFormed b = true) ∧ (UTF8.isAscii a = true ∨ b = [])) := by
  have hlen : 70 ≤ buffer.length := by
    have h1 := le_length_padded 32 a
    have h2 := le_length_padded 32 b
    rw [hbuffer, List.length_append, List.length_append, serializeHeader_length]
    omega
  refine ⟨?_, getString_of_le 32 (by omega), getString_of_le 32 (by omega), ?_⟩
  · rw [hbuffer, List.append_assoc, deserialize_serializeHeader]
  · rw [getBytes_padRight 32 b] at hbuffer
    exact two_texts h ha hb ha32 _ hb32 (.inr (by decide)) hbuffer

/-- A chat request holds its text behind the header. -/
theorem roomChat_serialize {p : Client.RoomChatRequest} (h256 : (UTF8.getBytes p.message).length ≤ 256) :
    p.serialize = some (serializeHeader p.toPacketHeader ++ UTF8.getBytes p.message) := by
  have hsize : (UInt16.ofNat
      ((serializeHeader p.toPacketHeader).length + (UTF8.getBytes p.message).length)).toNat =
        (serializeHeader p.toPacketHeader).length + (UTF8.getBytes p.message).length := by
    rw [serializeHeader_length, UInt16.toNat_ofNat']
    exact Nat.mod_eq_of_lt (by omega)
  unfold Client.RoomChatRequest.serialize
  simp only [hsize, le_refl, if_true]

/-- The texts of a packet that fits. -/
theorem CsPacket.Fits.two {p : CsPacket} {a b : CsString} {m n : ℕ} (hfits : p.Fits)
    (hp : p.texts = [(a, m), (b, n)]) :
    (0 ∉ a ∧ (UTF8.getBytes a).length ≤ m) ∧ 0 ∉ b ∧ (UTF8.getBytes b).length ≤ n :=
  ⟨hfits (a, m) (hp ▸ List.mem_cons_self), hfits (b, n) (hp ▸ List.mem_cons_of_mem _ List.mem_cons_self)⟩

theorem CsPacket.inPlace_two {p : CsPacket} {a b : CsString} {m n : ℕ} (hp : p.texts = [(a, m), (b, n)]) :
    p.InPlace ↔ (UTF8.wellFormed a = true ∧ UTF8.wellFormed b = true) ∧ (UTF8.isAscii a = true ∨ b = []) := by
  simp [CsPacket.InPlace, hp]

/-- A room request is read back. -/
theorem roomEnter_readBack (p : Client.RoomEnterRequest) :
    (CsPacket.roomEnter p).ReadBack ↔ (CsPacket.roomEnter p).InPlace := by
  obtain ⟨h, r⟩ := p
  have hread : Client.RoomEnterRequest.deserialize (serializeHeader h ++ i32Bytes r) = some ⟨h, r⟩ := by
    have hr : i32At 6 (serializeHeader h ++ i32Bytes r) = r := i32At_eq rfl rfl rfl rfl
    unfold Client.RoomEnterRequest.deserialize
    rw [deserialize_serializeHeader, hr]
    exact if_pos le_rfl
  refine iff_of_true ⟨_, rfl, ?_⟩ ⟨fun t ht => (by cases ht), trivial⟩
  show (Client.RoomEnterRequest.deserialize (serializeHeader h ++ i32Bytes r)).map CsPacket.roomEnter = _
  rw [hread]
  rfl

/-- A chat request is read up to the end of the packet. -/
theorem roomChat_readBack (p : Client.RoomChatRequest) (hfits : (CsPacket.roomChat p).Fits)
    (hsized : (CsPacket.roomChat p).Sized) : (CsPacket.roomChat p).ReadBack ↔ (CsPacket.roomChat p).InPlace := by
  obtain ⟨h, m⟩ := p
  obtain ⟨hm, h256⟩ := hfits (m, 256) List.mem_cons_self
  have hserialize := roomChat_serialize (p := ⟨h, m⟩) h256
  have hlength := hsized _ hserialize
  rw [List.length_append, serializeHeader_length] at hlength
  change h.totalSize.toNat = 6 + (UTF8.getBytes m).length at hlength
  set buffer := serializeHeader h ++ UTF8.getBytes m with hbuffer
  have hdrop : buffer.drop 6 = UTF8.getBytes m := List.drop_left' (serializeHeader_length h)
  have hlen : buffer.length = 6 + (UTF8.getBytes m).length := List.length_append
  have hcount : (h.totalSize.toNat : ℤ) - 6 = ((UTF8.getBytes m).length : ℕ) := by omega
  have hfits : 6 + (UTF8.getBytes m).length ≤ buffer.length := by omega
  have hshow := getString_of_le (UTF8.getBytes m).length hfits
  have hread : readText ((buffer.drop 6).take (UTF8.getBytes m).length) = m ↔ UTF8.wellFormed m = true := by
    have htext := readText_text (UTF8.getBytes_no_nul hm) 0
    rw [show zeros 0 = [] from rfl, List.append_nil] at htext
    rw [hdrop, List.take_length, htext, UTF8.decode_getBytes]
  have hplace : (CsPacket.roomChat ⟨h, m⟩).InPlace ↔ UTF8.wellFormed m = true := by
    simp [CsPacket.InPlace, CsPacket.texts]
  rw [hplace, ← hread]
  have hheader : PacketHeader.deserialize buffer = h := deserialize_serializeHeader h _
  simp [CsPacket.ReadBack, CsPacket.serialize, CsPacket.deserialize, hserialize,
    Client.RoomChatRequest.deserialize, hheader, hcount, hshow, readText]

/-- The message of a chat notification is read up to the end of the packet. -/
theorem roomChatNotification_readBack (p : Client.RoomChatNotification)
    (hfits : (CsPacket.roomChatNotification p).Fits) (hsized : (CsPacket.roomChatNotification p).Sized) :
    (CsPacket.roomChatNotification p).ReadBack ↔ (CsPacket.roomChatNotification p).InPlace := by
  obtain ⟨h, a, b⟩ := p
  have htwo : (CsPacket.roomChatNotification ⟨h, a, b⟩).texts = [(a, 32), (b, 256)] := rfl
  obtain ⟨⟨ha, ha32⟩, hb, hb256⟩ := hfits.two htwo
  have hlength := hsized _ rfl
  change h.totalSize.toNat = _ at hlength
  set buffer := serializeHeader h ++ UTF8.getBytes (a.padRight 32) ++ UTF8.getBytes b with hbuffer
  have hpadded := length_padded 32 a
  have hle := UTF8.length_le_getBytes a
  have hlen : buffer.length = 6 + (UTF8.getBytes (a.padRight 32)).length + (UTF8.getBytes b).length := by
    rw [hbuffer, List.length_append, List.length_append, serializeHeader_length]
  have hcount : (h.totalSize.toNat : ℤ) - 6 - 32 = ((buffer.length - 38 : ℕ) : ℤ) := by
    rw [hlength]
    change (buffer.length : ℤ) - 6 - 32 = _
    omega
  have hheader : PacketHeader.deserialize buffer = h := by
    rw [hbuffer, List.append_assoc, deserialize_serializeHeader]
  have h1 : UTF8.getString buffer 6 32 = some (UTF8.decode none ((buffer.drop 6).take 32)) :=
    getString_of_le 32 (by omega)
  have h2 := getString_of_le (buffer.length - 38) (by omega : 38 + (buffer.length - 38) ≤ buffer.length)
  have hparts : buffer =
      serializeHeader h ++ UTF8.getBytes (a.padRight 32) ++ (UTF8.getBytes b ++ zeros 0) := by
    rw [hbuffer, show zeros 0 = [] from rfl, List.append_nil]
  have htexts := two_texts h ha hb ha32 0 (n := buffer.length - 38) (by omega) (by omega) hparts
  rw [CsPacket.inPlace_two htwo, ← htexts]
  simp [CsPacket.ReadBack, CsPacket.serialize, CsPacket.deserialize, Client.RoomChatNotification.deserialize,
    Client.RoomChatNotification.serialize, ← hbuffer, hheader, hcount, h1, h2, readText, -List.append_assoc]

/-- **The codec round trip of the client.** A packet is read back as it was built exactly where no
surrogate stands alone and, of two texts, the first is ASCII or the second empty. -/
theorem packet_round_trip (p : CsPacket) (hfits : p.Fits) (hsized : p.Sized) : p.ReadBack ↔ p.InPlace := by
  cases p with
  | login p =>
    obtain ⟨h, a, b⟩ := p
    have htwo : (CsPacket.login ⟨h, a, b⟩).texts = [(a, 32), (b, 32)] := rfl
    obtain ⟨⟨ha, ha32⟩, hb, hb32⟩ := hfits.two htwo
    obtain ⟨hheader, h1, h2, htexts⟩ := two_padded h ha hb ha32 hb32 rfl
    rw [CsPacket.inPlace_two htwo, ← htexts]
    simp [CsPacket.ReadBack, CsPacket.serialize, CsPacket.deserialize, Client.LoginRequest.deserialize,
      Client.LoginRequest.serialize, hheader, h1, h2, readText, -List.append_assoc]
  | roomEnter p => exact roomEnter_readBack p
  | roomChat p => exact roomChat_readBack p hfits hsized
  | roomChatNotification p => exact roomChatNotification_readBack p hfits hsized
  | userListNotification p =>
    obtain ⟨h, a, b⟩ := p
    have htwo : (CsPacket.userListNotification ⟨h, a, b⟩).texts = [(a, 32), (b, 32)] := rfl
    obtain ⟨⟨ha, ha32⟩, hb, hb32⟩ := hfits.two htwo
    obtain ⟨hheader, h1, h2, htexts⟩ := two_padded h ha hb ha32 hb32 rfl
    rw [CsPacket.inPlace_two htwo, ← htexts]
    simp [CsPacket.ReadBack, CsPacket.serialize, CsPacket.deserialize, Client.UserListNotification.deserialize,
      Client.UserListNotification.serialize, hheader, h1, h2, readText, -List.append_assoc]

/-- The login request of "al" with the token "pw", and that of "é". -/
def alLogin : CsPacket := .login ⟨⟨70, PacketID.reqLogin, 0⟩, [0x61, 0x6C], [0x70, 0x77]⟩
def wideLogin : CsPacket := .login ⟨⟨71, PacketID.reqLogin, 0⟩, [0xE9], [0x70, 0x77]⟩

theorem alLogin_fits : alLogin.Fits := by
  unfold CsPacket.Fits
  decide

theorem wideLogin_fits : wideLogin.Fits := by
  unfold CsPacket.Fits
  decide

theorem alLogin_sized : alLogin.Sized := by
  rintro b hb
  obtain rfl := Option.some.inj hb
  decide

theorem wideLogin_sized : wideLogin.Sized := by
  rintro b hb
  obtain rfl := Option.some.inj hb
  decide

/-- An ASCII login is read back. -/
theorem packet_round_trip_ascii : alLogin.ReadBack :=
  (packet_round_trip alLogin alLogin_fits alLogin_sized).2 ⟨by decide, .inl (by decide)⟩

/-- **A shifted token.** Behind a user ID that is not ASCII the token is not read back. -/
theorem token_shifted : wideLogin.Fits ∧ wideLogin.Sized ∧ ¬ wideLogin.ReadBack := by
  refine ⟨wideLogin_fits, wideLogin_sized, fun h => ?_⟩
  obtain ⟨b, hb, hread⟩ := h
  obtain rfl := Option.some.inj hb
  -- the token is read one byte in front of where it stands
  have htexts := congrArg (Option.map CsPacket.texts) hread
  exact absurd htexts (by decide +kernel)

end SocketAcl
