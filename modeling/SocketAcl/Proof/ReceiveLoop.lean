import SocketAcl.Lib.Loop
import SocketAcl.Proof.ClientFraming

/-!
# What ends the client's receive loop

* `Decodes`: the chat packets whose `TotalSize` fits the 512-byte buffer, and all other packets.
* `handling_total`: `ProcessReceivedData` returns on these buffers and throws on the others.
* `loop_ends`: behind the server's last byte every read returns 0, and only an exception, or a
  client that was not connected, ends the loop.
-/

namespace SocketAcl

open Client StateTransition

/-- A chat packet's `TotalSize` leaves a message that lies in the buffer. -/
def Decodes (buffer : Bytes) : Prop :=
  (PacketHeader.deserialize buffer).id = PacketID.ntfRoomChat →
    38 ≤ (PacketHeader.deserialize buffer).totalSize.toNat ∧
      (PacketHeader.deserialize buffer).totalSize.toNat ≤ 512

instance (buffer : Bytes) : Decidable (Decodes buffer) := inferInstanceAs (Decidable (_ → _ ∧ _))

variable {buffer : Bytes} {pieces : List Bytes} {shown : List Notification}

theorem getString_isSome {index : ℕ} {count : ℤ} :
    (UTF8.getString buffer index count).isSome ↔ 0 ≤ count ∧ index + count ≤ buffer.length := by
  unfold UTF8.getString
  split
  · rename_i h
    exact iff_of_true rfl h
  · rename_i h
    exact iff_of_false Bool.false_ne_true h

/-- Only the message of a chat packet can lie outside the buffer. -/
theorem roomChat_isSome (h : buffer.length = 512) : (Client.RoomChatNotification.deserialize buffer).isSome ↔
    38 ≤ (PacketHeader.deserialize buffer).totalSize.toNat ∧
      (PacketHeader.deserialize buffer).totalSize.toNat ≤ 512 := by
  have huser : UTF8.getString buffer 6 32 = some _ := getString_of_le 32 (by omega)
  have hdecode : (Client.RoomChatNotification.deserialize buffer).isSome ↔
      (UTF8.getString buffer 38 ((PacketHeader.deserialize buffer).totalSize.toNat - 6 - 32)).isSome := by
    unfold Client.RoomChatNotification.deserialize
    simp only [huser, Option.bind_eq_bind, Option.bind_some]
    cases UTF8.getString buffer 38 ((PacketHeader.deserialize buffer).totalSize.toNat - 6 - 32) <;> exact Iff.rfl
  rw [hdecode, getString_isSome, h]
  omega

/-- A user list lies in every buffer of 512 bytes. -/
theorem userList_isSome (h : buffer.length = 512) : (Client.UserListNotification.deserialize buffer).isSome := by
  have huser1 : UTF8.getString buffer 6 32 = some _ := getString_of_le 32 (by omega)
  have huser2 : UTF8.getString buffer 38 32 = some _ := getString_of_le 32 (by omega)
  unfold Client.UserListNotification.deserialize
  rw [huser1, huser2]
  rfl

theorem process_isSome (h : buffer.length = 512) : (processReceivedData buffer).isSome ↔ Decodes buffer := by
  unfold processReceivedData Decodes
  simp only
  split
  · rename_i hid
    rw [Option.isSome_map, roomChat_isSome h]
    exact ⟨fun hfit _ => hfit, fun hfit => hfit hid⟩
  · rename_i hid
    refine iff_of_true ?_ fun hchat => absurd hchat hid
    split
    · rw [Option.isSome_map, userList_isSome h]
    · rfl

/-! ## Over the pieces of a stream -/

/-- **The iterations over the pieces**: the loop has handed `startReceiving` of them to the form when it has
read them all, or when it is at a piece whose handling throws. -/
theorem reaches_startReceiving (pieces : List Bytes) (shown : List Notification) :
    (∀ data ∈ pieces, (processReceivedData (fill 512 data)).isSome) ∧
        Reaches ReceiveLoop.iterate ⟨true, pieces, shown⟩ ⟨true, [], shown ++ startReceiving pieces⟩ ∨
      ∃ data ∈ pieces, ∃ rest, processReceivedData (fill 512 data) = none ∧
        Reaches ReceiveLoop.iterate ⟨true, pieces, shown⟩ ⟨true, data :: rest, shown ++ startReceiving pieces⟩ := by
  induction pieces generalizing shown with
  | nil =>
    refine .inl ⟨fun data h => (by cases h), ?_⟩
    rw [startReceiving, List.append_nil]
    exact Relation.ReflTransGen.refl
  | cons data pieces ih =>
    cases hp : processReceivedData (fill 512 data) with
    | none =>
      refine .inr ⟨data, List.mem_cons_self, pieces, hp, ?_⟩
      rw [startReceiving, hp, List.append_nil]
      exact Relation.ReflTransGen.refl
    | some notification =>
      have hstep : (⟨true, pieces, shown ++ [notification]⟩ : ReceiveLoop) ∈
          ReceiveLoop.iterate ⟨true, data :: pieces, shown⟩ := by
        simp [ReceiveLoop.iterate, hp]
      rw [startReceiving, hp]
      simp only
      rw [List.append_cons]
      rcases ih (shown ++ [notification]) with ⟨hall, hreach⟩ | ⟨bad, hbad, rest, hnone, hreach⟩
      · refine .inl ⟨fun x hx => ?_, hreach.head hstep⟩
        rcases List.mem_cons.1 hx with rfl | hx
        · rw [hp]
          rfl
        · exact hall x hx
      · exact .inr ⟨bad, List.mem_cons_of_mem _ hbad, rest, hnone, hreach.head hstep⟩

/-- **The loop ends** exactly where a piece cannot be handled. -/
theorem receiving_dom : (eval ReceiveLoop.iterate ⟨true, pieces, shown⟩).Dom ↔
    ∃ data ∈ pieces, processReceivedData (fill 512 data) = none := by
  rcases reaches_startReceiving pieces shown with ⟨hall, hreach⟩ | ⟨data, hdata, rest, hnone, hreach⟩
  · refine iff_of_false ?_ ?_
    · rw [eval_dom_of_reaches hreach]
      -- behind the last piece an iteration changes nothing
      exact not_eval_dom (I := fun l => l.connected = true ∧ l.pieces = [])
        (fun l hl => ⟨l, by simp [ReceiveLoop.iterate, hl.1, hl.2], hl⟩) ⟨rfl, rfl⟩
    · rintro ⟨data, hdata, hnone⟩
      have := hall data hdata
      rw [hnone] at this
      cases this
  · refine iff_of_true ?_ ⟨data, hdata, hnone⟩
    rw [eval_dom_of_reaches hreach]
    exact eval_dom_of_none (by simp [ReceiveLoop.iterate, hnone])

/-- All pieces are handled where none of them throws. -/
theorem length_startReceiving_eq_iff : (startReceiving pieces).length = pieces.length ↔
    ∀ data ∈ pieces, (processReceivedData (fill 512 data)).isSome := by
  induction pieces with
  | nil => exact iff_of_true rfl fun data h => (by cases h)
  | cons data pieces ih =>
    rw [List.forall_mem_cons, startReceiving]
    cases hp : processReceivedData (fill 512 data) with
    | none => exact iff_of_false (Nat.succ_ne_zero _).symm fun h => Bool.false_ne_true h.1
    | some notification =>
      simp only [List.length_cons, Nat.add_right_cancel_iff, ih, Option.isSome_some, true_and]

/-- A piece of a stream is handled exactly if its packet decodes. -/
theorem process_piece {stream data : Bytes} {ns : List ℕ} (h : Cuts 512 stream.length ns)
    (hdata : data ∈ ns.splitLengths stream) :
    (processReceivedData (fill 512 data)).isSome ↔ Decodes (fill 512 data) :=
  process_isSome (fill_length (List.length_mem_splitLengths stream ns 512 h.le data hdata))

/-! ## What ends the loop -/

/-- **`ProcessReceivedData` throws** exactly on the chat packets whose message would lie outside the buffer,
and the loop handles all pieces of a stream exactly if none of them is one. -/
theorem handling_total (h512 : buffer.length = 512) {stream : Bytes} {ns : List ℕ} (h : Cuts 512 stream.length ns) :
    ((processReceivedData buffer).isSome ↔ Decodes buffer) ∧
      ((startReceiving (ns.splitLengths stream)).length = (ns.splitLengths stream).length ↔
        ∀ data ∈ ns.splitLengths stream, Decodes (fill 512 data)) := by
  refine ⟨process_isSome h512, ?_⟩
  rw [length_startReceiving_eq_iff]
  exact forall₂_congr fun data hdata => process_piece h hdata

/-- A buffer of zeros is handled, and so are the two packets broadcast to "al", one for each read. -/
theorem handling_total_apart : (processReceivedData (zeros 512)).isSome = true ∧
    (startReceiving ([70, 294].splitLengths (alEntered.map Written.packet).flatten)).length = 2 := by
  have hcuts : Cuts 512 (alEntered.map Written.packet).flatten.length [70, 294] :=
    ⟨by decide, by decide, by decide +kernel⟩
  have h512 : (zeros 512).length = 512 := List.length_replicate
  obtain ⟨hzeros, hloop⟩ := handling_total h512 hcuts
  have hall := hloop.2 (by decide +kernel)
  rw [List.length_splitLengths] at hall
  exact ⟨hzeros.2 (by decide +kernel), hall⟩

/-- Four bytes of a header with no size are enough, whatever follows them. -/
theorem header_throws : processReceivedData (fill 512 [0, 0, 3, 4]) = none := by decide +kernel

/-- **The loop ends** exactly where the client is not connected or a piece throws: not at the end of the stream. -/
theorem loop_ends {connected : Bool} {stream : Bytes} {ns : List ℕ} (h : Cuts 512 stream.length ns) :
    (eval ReceiveLoop.iterate ⟨connected, ns.splitLengths stream, []⟩).Dom ↔
      connected = false ∨ ∃ data ∈ ns.splitLengths stream, ¬ Decodes (fill 512 data) := by
  cases connected with
  | false => exact iff_of_true (eval_dom_of_none rfl) (.inl rfl)
  | true =>
    rw [receiving_dom, or_iff_right Bool.noConfusion]
    refine exists_congr fun data => and_congr_right fun hdata => ?_
    rw [← process_piece h hdata, Option.not_isSome_iff_eq_none]

/-- It does end on a chat packet without a size. -/
theorem loop_ends_throwing : (eval ReceiveLoop.iterate ⟨true, [4].splitLengths [0, 0, 3, 4], []⟩).Dom :=
  (loop_ends ⟨by decide, by decide, rfl⟩).2 (.inr ⟨[0, 0, 3, 4], by decide, by decide +kernel⟩)

/-- **A loop that spins.** The server writes what it broadcasts to "al" and closes: both packets are handled,
and the loop goes on for ever. -/
theorem loop_spins : Cuts 512 (alEntered.map Written.packet).flatten.length [70, 294] ∧
    ¬ (eval ReceiveLoop.iterate ⟨true, [70, 294].splitLengths (alEntered.map Written.packet).flatten, []⟩).Dom := by
  refine ⟨⟨by decide, by decide, by decide +kernel⟩, fun h => ?_⟩
  obtain ⟨data, hdata, hnone⟩ := receiving_dom.1 h
  have hall : ∀ data ∈ [70, 294].splitLengths (alEntered.map Written.packet).flatten,
      (processReceivedData (fill 512 data)).isSome = true := by decide +kernel
  have hsome := hall data hdata
  rw [hnone] at hsome
  cases hsome

end SocketAcl
