import SocketAcl.Lib.Field
import SocketAcl.Spec.Packet

/-!
# The server's packet codec

Each packet is put together from fields that are copied to disjoint places: `Serialize` is the
`put` and `Deserialize` the `get` of one `Field`, and `codec_round_trip` reads the laws off it.
The places of a packet are its wire image without the padding byte 5.
-/

namespace SocketAcl

/-- **The codec laws** of a packet whose wire image is `size` bytes long, over every buffer that holds it. -/
structure RoundTrip {α : Type} (serialize : α → Bytes → Bytes) (deserialize : Bytes → α) (size : ℕ) : Prop where
  /-- what was serialized is deserialized -/
  decode : ∀ p b, size ≤ b.length → deserialize (serialize p b) = p
  length : ∀ p b, size ≤ b.length → (serialize p b).length = b.length
  /-- no byte behind the wire image is changed, nor the padding byte -/
  frame : ∀ p b, size ≤ b.length → ∀ i, i = 5 ∨ size ≤ i → (serialize p b)[i]? = b[i]?
  /-- what was deserialized is serialized as it was -/
  encode : ∀ b, size ≤ b.length → serialize (deserialize b) b = b

/-! ## Fields of one value -/

theorem getD_of_getElem? {m l : Bytes} {i j : ℕ} (h : m[i]? = l[j]?) : m.getD i 0 = l.getD j 0 := by
  rw [List.getD_eq_getElem?_getD, List.getD_eq_getElem?_getD, h]

theorem getElem?_of_getD {m : Bytes} {i : ℕ} (h : i < m.length) : m[i]? = some (m.getD i 0) := by
  rw [List.getD_eq_getElem _ _ h, List.getElem?_eq_getElem h]

/-- A 16-bit word at offset `off`. -/
def Field.word (off : ℕ) : Field UInt8 UInt16 :=
  .copy off 2 u16Bytes (u16At off) (fun _ => rfl)
    (fun x m h => u16At_eq (getD_of_getElem? (h 0 (by decide))) (getD_of_getElem? (h 1 (by decide))))
    (fun m h i hi => by
      rw [u16Bytes_u16At, getElem?_of_getD (m := m) (by omega)]
      match i, hi with
      | 0, _ => rfl
      | 1, _ => rfl)

/-- An `int` at offset `off`. -/
def Field.int (off : ℕ) : Field UInt8 Int32 :=
  .copy off 4 i32Bytes (i32At off) (fun _ => rfl)
    (fun x m h => i32At_eq (getD_of_getElem? (h 0 (by decide))) (getD_of_getElem? (h 1 (by decide)))
      (getD_of_getElem? (h 2 (by decide))) (getD_of_getElem? (h 3 (by decide))))
    (fun m h i hi => by
      rw [i32Bytes_i32At, getElem?_of_getD (m := m) (by omega)]
      match i, hi with
      | 0, _ => rfl
      | 1, _ => rfl
      | 2, _ => rfl
      | 3, _ => rfl)

/-- A byte at offset `off`. -/
def Field.byte (off : ℕ) : Field UInt8 UInt8 :=
  .copy off 1 (fun x => [x]) (fun m => m.getD off 0) (fun _ => rfl)
    (fun x m h => getD_of_getElem? (h 0 (by decide)))
    (fun m h i hi => by
      obtain rfl : i = 0 := by omega
      exact (getElem?_of_getD (by omega)).symm)

/-- A fixed array at offset `off`. -/
def Field.chars (off n : ℕ) : Field UInt8 (Chars n) :=
  .copy off n List.Vector.toList (window off n) List.Vector.toList_length
    (fun v m h => by
      refine List.Vector.ext ?_
      intro i
      rw [window_get, getD_of_getElem? (h i i.isLt), toList_getD])
    (fun m h i hi => by
      have hlen := (window off n m).toList_length
      rw [getElem?_of_getD (by omega), getElem?_of_getD (m := m) (by omega), Option.some.injEq]
      have hget := toList_getD (window off n m) ⟨i, hi⟩
      rwa [window_get] at hget)

@[simp] theorem Field.get_chars (off n : ℕ) (m : Bytes) : (Field.chars off n).get m = window off n m := rfl

/-! ## Fields of packets -/

/-- A field in front of an offset and a field from there on. -/
theorem disjoint_of_lt {P Q : Set ℕ} (n : ℕ) (hP : ∀ i ∈ P, i < n) (hQ : ∀ i ∈ Q, n ≤ i) : Disjoint P Q :=
  Set.disjoint_left.2 fun i hp hq => absurd (hP i hp) (Nat.not_lt.2 (hQ i hq))

/-- `PacketHeader`: three values back to back. -/
def Field.header : Field UInt8 PacketHeader :=
  (((Field.word 0).and (Field.word 2) (disjoint_of_lt 2 (fun _ h => h.2) fun _ h => h.1)).and (Field.byte 4)
    (disjoint_of_lt 4 (fun _ h => h.elim (fun h => h.2.trans (by decide)) fun h => h.2) fun _ h => h.1)).iso
    { toFun := fun x => ⟨x.1.1, x.1.2, x.2⟩
      invFun := fun h => ((h.totalSize, h.id), h.type)
      left_inv := fun _ => rfl
      right_inv := fun _ => rfl }

/-- The header's fields end in front of the padding byte. -/
theorem places_header {i : ℕ} (h : i ∈ Field.header.places) : i < 5 := by
  rcases h with (h | h) | h
  · exact h.2.trans (by decide)
  · exact h.2.trans (by decide)
  · exact h.2

/-- A header and the fields behind it. -/
def Field.packet {α : Type} (F : Field UInt8 α) (hF : ∀ i ∈ F.places, headerSize ≤ i) :
    Field UInt8 (PacketHeader × α) :=
  Field.header.and F (disjoint_of_lt headerSize (fun _ h => (places_header h).trans (by decide)) hF)

@[simp] theorem Field.get_packet {α : Type} (F : Field UInt8 α) (hF : ∀ i ∈ F.places, headerSize ≤ i)
    (m : Bytes) :
    (Field.packet F hF).get m = (PacketHeader.deserialize m, F.get m) := rfl

/-- Two texts back to back behind the header, the first of them 32 bytes long. -/
def Field.texts (n : ℕ) : Field UInt8 (Chars 32 × Chars n) :=
  (Field.chars headerSize 32).and (Field.chars (headerSize + 32) n)
    (disjoint_of_lt (headerSize + 32) (fun _ h => h.2) fun _ h => h.1)

@[simp] theorem Field.get_texts (n : ℕ) (m : Bytes) :
    (Field.texts n).get m = (window headerSize 32 m, window (headerSize + 32) n m) := rfl

@[simp] theorem Field.get_iso {α γ : Type} (F : Field UInt8 α) (e : α ≃ γ) (m : Bytes) :
    (F.iso e).get m = e (F.get m) := rfl

/-- **A packet whose functions are those of a field** obeys the codec laws, with a wire image that
covers the field up to the padding byte. -/
theorem Field.roundTrip {α : Type} (F : Field UInt8 α) {size : ℕ} (hsize : F.size ≤ size)
    (hplaces : ∀ i ∈ F.places, i ≠ 5 ∧ i < size) {serialize : α → Bytes → Bytes} {deserialize : Bytes → α}
    (hput : ∀ p b, serialize p b = F.put p b) (hget : ∀ b, deserialize b = F.get b) :
    RoundTrip serialize deserialize size where
  decode := fun p b h => by rw [hput, hget, F.get_put p b (hsize.trans h)]
  length := fun p b h => by rw [hput, F.length_put p b (hsize.trans h)]
  frame := fun p b h i hi => by
    -- nothing else is written, and the padding byte is no place of the field
    rw [hput]
    refine F.frame p b (hsize.trans h) i ?_
    intro hmem
    obtain ⟨h5, hlt⟩ := hplaces i hmem
    omega
  encode := fun b h => by rw [hput, hget, F.put_get b (hsize.trans h)]

theorem texts_ge {n : ℕ} : ∀ i ∈ (Field.texts n).places, headerSize ≤ i := by
  rintro i (h | h)
  · exact h.1
  · exact (Nat.le_add_right headerSize 32).trans h.1

/-- The places of a packet with two texts. -/
theorem places_texts {n i : ℕ} (h : i ∈ (Field.packet (Field.texts n) texts_ge).places) :
    i ≠ 5 ∧ i < 38 + n := by
  have h6 : headerSize = 6 := rfl
  rcases h with h | h | h
  · have := places_header h
    omega
  · have hlo := h.1
    have hhi := h.2
    omega
  · have hlo := h.1
    have hhi := h.2
    omega

/-- The places of a packet with one field behind the header. -/
theorem places_packet {α : Type} {F : Field UInt8 α} {n i : ℕ} (hplaces : ∀ i ∈ F.places, headerSize ≤ i)
    (hn : ∀ i ∈ F.places, i < 6 + n) (h : i ∈ (Field.packet F hplaces).places) : i ≠ 5 ∧ i < 6 + n := by
  have h6 : headerSize = 6 := rfl
  rcases h with h | h
  · have := places_header h
    omega
  · have hlo := hplaces i h
    have hhi := hn i h
    omega

/-! ## The packets -/

theorem PacketHeader.roundTrip : RoundTrip PacketHeader.serialize PacketHeader.deserialize headerSize := by
  refine Field.header.roundTrip (by decide) (fun i hi => ?_) (fun _ _ => rfl) fun _ => rfl
  have h6 : headerSize = 6 := rfl
  have := places_header hi
  omega

/-- A `LoginRequest` is its header and two texts. -/
def LoginRequest.parts : PacketHeader × Chars 32 × Chars 32 ≃ LoginRequest where
  toFun := fun x => { toPacketHeader := x.1, userID := x.2.1, authToken := x.2.2 }
  invFun := fun p => (p.toPacketHeader, p.userID, p.authToken)
  left_inv := fun _ => rfl
  right_inv := fun _ => rfl

theorem LoginRequest.roundTrip : RoundTrip LoginRequest.serialize LoginRequest.deserialize 70 := by
  refine ((Field.packet (Field.texts 32) texts_ge).iso parts).roundTrip ?_ ?_ (fun _ _ => rfl) fun _ => rfl
  · decide
  · exact fun i h => places_texts (n := 32) h

/-- A `RoomEnterRequest` is its header and one value. -/
def RoomEnterRequest.parts : PacketHeader × Int32 ≃ RoomEnterRequest where
  toFun := fun x => { toPacketHeader := x.1, roomNumber := x.2 }
  invFun := fun p => (p.toPacketHeader, p.roomNumber)
  left_inv := fun _ => rfl
  right_inv := fun _ => rfl

theorem RoomEnterRequest.roundTrip : RoundTrip RoomEnterRequest.serialize RoomEnterRequest.deserialize 10 := by
  have hplaces : ∀ i ∈ (Field.int headerSize).places, headerSize ≤ i := fun i h => h.1
  refine ((Field.packet (Field.int headerSize) hplaces).iso parts).roundTrip ?_ ?_ (fun _ _ => rfl) fun _ => rfl
  · show max (max (max 2 4) 5) (headerSize + 4) ≤ 10
    decide
  · exact fun i h => places_packet (n := 4) hplaces (fun i h => h.2) h

/-- A `UserListNotification` is its header and two texts. -/
def UserListNotification.parts : PacketHeader × Chars 32 × Chars 32 ≃ UserListNotification where
  toFun := fun x => { toPacketHeader := x.1, userID1 := x.2.1, userID2 := x.2.2 }
  invFun := fun p => (p.toPacketHeader, p.userID1, p.userID2)
  left_inv := fun _ => rfl
  right_inv := fun _ => rfl

theorem UserListNotification.roundTrip :
    RoundTrip UserListNotification.serialize UserListNotification.deserialize UserListNotification.size := by
  refine ((Field.packet (Field.texts 32) texts_ge).iso parts).roundTrip ?_ ?_ (fun _ _ => rfl) fun _ => rfl
  · decide
  · exact fun i h => places_texts (n := 32) h

/-- A `RoomChatRequest` is its header and one value. -/
def RoomChatRequest.parts : PacketHeader × Chars 256 ≃ RoomChatRequest where
  toFun := fun x => { toPacketHeader := x.1, message := x.2 }
  invFun := fun p => (p.toPacketHeader, p.message)
  left_inv := fun _ => rfl
  right_inv := fun _ => rfl

theorem RoomChatRequest.parts_apply (h : PacketHeader) (v : Chars 256) :
    RoomChatRequest.parts (h, v) = { toPacketHeader := h, message := v } := rfl

theorem RoomChatRequest.roundTrip : RoundTrip RoomChatRequest.serialize RoomChatRequest.deserialize 262 := by
  have hplaces : ∀ i ∈ (Field.chars headerSize 256).places, headerSize ≤ i := fun i h => h.1
  refine ((Field.packet (Field.chars headerSize 256) hplaces).iso parts).roundTrip ?_ ?_ (fun _ _ => rfl)
    fun m => ?_
  · show max (max (max 2 4) 5) (headerSize + 256) ≤ 262
    decide
  · exact fun i h => places_packet (n := 256) hplaces (fun i h => h.2) h
  · rw [Field.get_iso, Field.get_packet, Field.get_chars, parts_apply, deserialize]

/-- A `RoomChatNotification` is its header and two texts. -/
def RoomChatNotification.parts : PacketHeader × Chars 32 × Chars 256 ≃ RoomChatNotification where
  toFun := fun x => { toPacketHeader := x.1, userID := x.2.1, message := x.2.2 }
  invFun := fun p => (p.toPacketHeader, p.userID, p.message)
  left_inv := fun _ => rfl
  right_inv := fun _ => rfl

theorem RoomChatNotification.parts_apply (h : PacketHeader) (v : Chars 32) (w : Chars 256) :
    RoomChatNotification.parts (h, v, w) = { toPacketHeader := h, userID := v, message := w } := rfl

theorem RoomChatNotification.roundTrip :
    RoundTrip RoomChatNotification.serialize RoomChatNotification.deserialize RoomChatNotification.size := by
  refine ((Field.packet (Field.texts 256) texts_ge).iso parts).roundTrip ?_ ?_ (fun _ _ => rfl) ?_
  · decide
  · exact fun i h => places_texts (n := 256) h
  · intro m
    rw [Field.get_iso, Field.get_packet, Field.get_texts, parts_apply, deserialize]

/-- **The codec round trip**, over the whole format. -/
theorem codec_round_trip :
    RoundTrip PacketHeader.serialize PacketHeader.deserialize headerSize ∧
    RoundTrip LoginRequest.serialize LoginRequest.deserialize 70 ∧
    RoundTrip RoomEnterRequest.serialize RoomEnterRequest.deserialize 10 ∧
    RoundTrip UserListNotification.serialize UserListNotification.deserialize UserListNotification.size ∧
    RoundTrip RoomChatRequest.serialize RoomChatRequest.deserialize 262 ∧
    RoundTrip RoomChatNotification.serialize RoomChatNotification.deserialize RoomChatNotification.size :=
  ⟨PacketHeader.roundTrip, LoginRequest.roundTrip, RoomEnterRequest.roundTrip, UserListNotification.roundTrip,
    RoomChatRequest.roundTrip, RoomChatNotification.roundTrip⟩

end SocketAcl
