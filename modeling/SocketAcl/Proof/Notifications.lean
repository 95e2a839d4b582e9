import SocketAcl.Lib.Utf8Text
import SocketAcl.Proof.ClientFraming

/-!
# The texts of notifications on the client

`strncpy` cuts an ID to 31 bytes and a message to 255, wherever that falls.

* `notification_texts`: the client gets each text as it was, or a prefix of whole characters where it
  is too long, exactly where no cut falls into a character (other than a U+FFFD, which is
  replaced by itself).
-/

namespace SocketAcl

open Client

/-- A notification whose IDs and message are texts. -/
inductive Notice
  | userList (type : UInt8) (userID1 userID2 : CsString)
  | roomChat (message senderID : CsString)

namespace Notice

/-- The notification as the server is given it. -/
def written : Notice → Written
  | userList type userID1 userID2 => .userList type (UTF8.getBytes userID1) (UTF8.getBytes userID2)
  | roomChat message senderID => .roomChat (UTF8.getBytes message) (UTF8.getBytes senderID)

/-- Its two texts, each with the bytes its array holds beside the NUL. -/
def texts : Notice → (CsString × ℕ) × (CsString × ℕ)
  | userList _ userID1 userID2 => ((userID1, 31), (userID2, 31))
  | roomChat message senderID => ((senderID, 31), (message, 255))

/-- The two strings `Deserialize` obtains from the packet in the client's buffer; `none` where it throws. -/
def obtained (n : Notice) : Option (CsString × CsString) :=
  let buffer := fill 512 n.written.packet
  match n with
  | userList _ _ _ => (Client.UserListNotification.deserialize buffer).map fun p => (p.userID1, p.userID2)
  | roomChat _ _ => (Client.RoomChatNotification.deserialize buffer).map fun p => (p.userID, p.message)

end Notice

/-- Valid Unicode text without NUL. -/
def IsText (t : CsString) : Prop := UTF8.wellFormed t = true ∧ 0 ∉ t

/-- `t'` is the text `t` where it has at most `n` bytes, and a prefix of whole characters elsewhere. -/
def Unmangled (n : ℕ) (t t' : CsString) : Prop :=
  if (UTF8.getBytes t).length ≤ n then t' = t
  else ∃ cs, cs <+: UTF8.scalars t ∧ t' = cs.flatMap UTF8.units

/-- Either way it is a prefix of the text. -/
theorem Unmangled.isPrefix {n : ℕ} {t t' : CsString} (h : Unmangled n t t') (ht : IsText t) : t' <+: t := by
  unfold Unmangled at h
  split at h
  · rw [h]
  · obtain ⟨cs, ⟨rest, hrest⟩, rfl⟩ := h
    have hwhole : (UTF8.scalars t).flatMap UTF8.units = t := (UTF8.flatMap_units_iff t).2 ht.1
    rw [← hrest, List.flatMap_append] at hwhole
    exact ⟨_, hwhole⟩

/-- A cut behind `n` bytes falls into no character, unless into one that is U+FFFD. -/
def CleanCut (n : ℕ) (t : CsString) : Prop := ∀ c ∈ UTF8.straddled n (UTF8.scalars t), c = UTF8.replacement

/-- **A cut text** is unmangled exactly where the cut is clean. -/
theorem unmangled_iff {t : CsString} (ht : IsText t) (n : ℕ) :
    Unmangled n t (UTF8.decode none ((cstr (UTF8.getBytes t)).take n)) ↔ CleanCut n t := by
  rw [cstr_of_no_nul (UTF8.getBytes_no_nul ht.2)]
  unfold Unmangled CleanCut
  split
  · rename_i hle
    -- a short text is not cut
    have hnone : UTF8.straddled n (UTF8.scalars t) = none :=
      UTF8.straddled_of_le (by rwa [← UTF8.getBytes_eq])
    refine iff_of_true ?_ (by rw [hnone]; exact fun c hc => by cases hc)
    rw [List.take_of_length_le hle, (UTF8.decode_getBytes t).2 ht.1]
  · exact UTF8.prefix_iff t n

/-- The client obtains the texts as the server cut them. -/
theorem obtained_eq (n : Notice) : n.obtained =
    some (UTF8.decode none n.written.first, UTF8.decode none n.written.second) := by
  cases n with
  | userList type userID1 userID2 =>
    have hread := deserialize_userList type (UTF8.getBytes userID1) (UTF8.getBytes userID2)
    unfold Notice.obtained Notice.written
    dsimp only at hread ⊢
    rw [hread, Option.map_some]
  | roomChat message senderID =>
    have hread := deserialize_roomChat (UTF8.getBytes message) (UTF8.getBytes senderID)
    unfold Notice.obtained Notice.written
    dsimp only at hread ⊢
    rw [hread, Option.map_some]

/-- The client obtains both texts unmangled. -/
def Notice.Decoded (n : Notice) : Prop := ∃ t₁ t₂, n.obtained = some (t₁, t₂) ∧
  Unmangled n.texts.1.2 n.texts.1.1 t₁ ∧ Unmangled n.texts.2.2 n.texts.2.1 t₂

/-- **The texts of a notification** come through unmangled exactly where both cuts are clean. -/
theorem notification_texts (n : Notice) (h₁ : IsText n.texts.1.1) (h₂ : IsText n.texts.2.1) :
    n.Decoded ↔ CleanCut n.texts.1.2 n.texts.1.1 ∧ CleanCut n.texts.2.2 n.texts.2.1 := by
  have hobtained : n.Decoded ↔ Unmangled n.texts.1.2 n.texts.1.1 (UTF8.decode none n.written.first) ∧
      Unmangled n.texts.2.2 n.texts.2.1 (UTF8.decode none n.written.second) := by
    unfold Notice.Decoded
    rw [obtained_eq]
    constructor
    · rintro ⟨t₁, t₂, heq, h⟩
      obtain ⟨rfl, rfl⟩ := Prod.mk.inj (Option.some.inj heq)
      exact h
    · exact fun h => ⟨_, _, rfl, h⟩
  have hcut₁ := unmangled_iff h₁ n.texts.1.2
  have hcut₂ := unmangled_iff h₂ n.texts.2.2
  rw [hobtained, ← hcut₁, ← hcut₂]
  cases n <;> rfl

/-- What "al" says in the room comes through. -/
theorem notification_texts_short : (Notice.roomChat [0x68, 0x69] [0x61, 0x6C]).Decoded := by
  have hmessage : IsText [0x68, 0x69] := ⟨by decide, by decide⟩
  have hsender : IsText [0x61, 0x6C] := ⟨by decide, by decide⟩
  have hcut₁ : CleanCut 31 [0x61, 0x6C] := by unfold CleanCut; decide
  have hcut₂ : CleanCut 255 [0x68, 0x69] := by unfold CleanCut; decide
  exact (notification_texts (.roomChat [0x68, 0x69] [0x61, 0x6C]) hsender hmessage).2 ⟨hcut₁, hcut₂⟩

/-- Sixteen times "é": the client shows fifteen and one U+FFFD. -/
theorem id_mangled :
    (Notice.userList 1 (List.replicate 16 0xE9) []).obtained = some (List.replicate 15 0xE9 ++ [0xFFFD], []) ∧
      IsText (List.replicate 16 0xE9) ∧ ¬ (Notice.userList 1 (List.replicate 16 0xE9) []).Decoded := by
  have htext : IsText (List.replicate 16 0xE9) := ⟨by decide, by decide⟩
  have hobtained : (Notice.userList 1 (List.replicate 16 0xE9) []).obtained =
      some (List.replicate 15 0xE9 ++ [0xFFFD], []) := by
    rw [obtained_eq]
    decide +kernel
  refine ⟨hobtained, htext, fun hdecoded => ?_⟩
  obtain ⟨t₁, t₂, heq, hunmangled, -⟩ := hdecoded
  obtain ⟨rfl, rfl⟩ := Prod.mk.inj (Option.some.inj (hobtained.symm.trans heq))
  -- a prefix of the text holds nothing but "é"
  have hfront := hunmangled.isPrefix htext
  exact absurd hfront (by decide)

end SocketAcl
