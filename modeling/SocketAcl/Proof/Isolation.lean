import SocketAcl.Proof.Seats

/-!
# Isolation between connections

* `Undisturbed`: the critical section about to run takes no seat of another live connection.
* `sits`: whether a connection has a seat, judged by its own entries and leaves alone.
* `isolation`: in an undisturbed run the seats of every live connection are the ones its own
  steps gave it; and a step keeps the other live connections' seats exactly when it is
  undisturbed.
-/

namespace SocketAcl

/-- The step from `s` to `t` keeps every seat of a live connection other than `f`. -/
def KeepsOthers (s t : Server) (f : ConnId) : Prop :=
  ∀ r u c, c ≠ f → s.pc c ≠ .done → s.rooms.cell r u = some c → t.rooms.cell r u = some c

/-- If the fiber that moves is about to run an `EnterRoom` that is accepted, or a `LeaveRoom`,
no other live connection has the seat `(r, u)` that it names. -/
def Undisturbed (s : Server) : Label → Prop
  | .act f _ => ∀ r u, s.takes f = some (r, u) →
      ∀ c, s.rooms.cell r u = some c → c = f ∨ s.pc c = .done
  | .accept => True

/-- What an event says about the seat of `c` at `(r, u)`, which was taken if `b`. -/
def Event.sits (c : ConnId) (r : Int32) (u : Bytes) (b : Bool) : Event → Bool
  | .enter f r' u' true => if f = c ∧ r' = r ∧ u' = u then true else b
  | .leave f r' u' => if f = c ∧ r' = r ∧ u' = u then false else b
  | _ => b

/-- Does `c` have the seat `(r, u)`, by its own accepted entries and leaves? -/
def sits (log : List Event) (c : ConnId) (r : Int32) (u : Bytes) : Bool :=
  log.foldl (Event.sits c r u) false

variable {s t : Server} {f g c : ConnId} {a : Act} {e : Effect} {r r' : Int32} {u u' : Bytes}
  {C : Server → Label → Prop}

theorem sits_append (log events : List Event) :
    sits (log ++ events) c r u = events.foldl (Event.sits c r u) (sits log c r u) := by
  unfold sits
  rw [List.foldl_append]

/-- **What a step tells about a seat**, by its events. -/
theorem Moves.sits (hm : Moves s f a e) (b : Bool) :
    e.events.foldl (Event.sits c r u) b =
      if c = f ∧ s.takes f = some (r, u) then decide (e.rooms.cell r u = some f) else b := by
  have hquiet : ∀ hc : s.takes f = none, ¬ (c = f ∧ s.takes f = some (r, u)) := by
    rintro hc ⟨-, h⟩
    rw [hc] at h
    cases h
  cases hm with
  | @enterRoom r' u' next tail order type hc ha =>
    have ht : s.takes f = some (r', u') := by
      simp only [Server.takes, hc, if_pos (enterRoom_accepted_iff.1 ha)]
    simp only [List.foldl_cons, List.foldl_nil, Event.sits, ht, Option.some.injEq, Prod.mk.injEq,
      cell_enterRoom ha]
    rcases eq_or_ne c f with rfl | hcf
    · rcases eq_or_ne r' r with rfl | hr
      · rcases eq_or_ne u' u with rfl | hu
        · simp
        · simp [hu]
      · simp [hr]
    · simp [hcf, hcf.symm]
  | @leaveRoom r' u' next tail order type hc =>
    have ht : s.takes f = some (r', u') := by simp only [Server.takes, hc]
    simp only [List.foldl_cons, List.foldl_nil, Event.sits, ht, Option.some.injEq, Prod.mk.injEq,
      cell_leaveRoom]
    rcases eq_or_ne c f with rfl | hcf
    · rcases eq_or_ne r' r with rfl | hr
      · rcases eq_or_ne u' u with rfl | hu
        · simp
        · simp [hu]
      · simp [hr]
    · simp [hcf, hcf.symm]
  | @lock call next tail hc ho =>
    rw [if_neg (hquiet (by simp only [Server.takes, hc]))]
    cases call <;> rfl
  -- a full room is not written
  | refused hc ha =>
    have hs : ¬ (s.rooms.row _).size < 2 := fun h => by
      rw [enterRoom_accepted_iff.2 h] at ha
      cases ha
    rw [if_neg (hquiet (by simp only [Server.takes, hc, if_neg hs]))]
    rfl
  | suspend hr hb =>
    have hn : s.takes f = none := by
      unfold Server.takes
      split
      · rename_i hc
        rw [hc] at hb
        cases hb
      · rename_i hc
        rw [hc] at hb
        cases hb
      · rfl
    rw [if_neg (hquiet hn)]
    rfl
  | _ =>
    rw [if_neg (hquiet (by simp_all [Server.takes]))]
    rfl

/-- **A step keeps the others' seats exactly when it is undisturbed.** -/
theorem Moves.keepsOthers_iff (hm : Moves s f a e) :
    KeepsOthers s (s.apply f e) f ↔ Undisturbed s (.act f a) := by
  constructor
  -- the taken seat cannot stay another live connection's
  · intro h r u ht c hc
    by_contra hn
    obtain ⟨hcf, hd⟩ := not_or.1 hn
    have hkept := h r u c hcf hd hc
    rw [apply_rooms] at hkept
    rcases hm.seat_taken ht with h' | h'
    · rw [h'] at hkept
      cases hkept
    · rw [h'] at hkept
      exact hcf (Option.some.inj hkept).symm
  · intro h r u c hcf hd hc
    rcases hm.seat_kept hc with h' | ht
    · exact h'
    · rcases h r u ht c hc with h' | h'
      · exact absurd h' hcf
      · exact absurd h' hd

/-- Each live connection has the seats its own steps gave it. -/
structure OwnSeats (s : Server) : Prop where
  seats : ∀ c, s.pc c ≠ .done → ∀ r u, s.rooms.cell r u = some c ↔ sits s.log c r u = true
  fresh : ∀ c : ℕ, s.next ≤ c → ∀ r u, sits s.log c r u = false

theorem ownSeats_of_reach (h : chatServer.Reach Undisturbed s) : OwnSeats s := by
  refine chat_inv (J := Fresh) (fun _ => fresh_of_reach) ?_ ?_ ?_ h
  · exact ⟨fun c hd => absurd rfl hd, fun _ _ _ _ => rfl⟩
  · intro s hF hi _
    refine ⟨fun c hd r u => ?_, fun c hc => hi.fresh c (Nat.le_of_succ_le hc)⟩
    rcases eq_or_ne c s.next with rfl | hcn
    · have hnone : s.rooms.cell r u ≠ some s.next := fun hc => Nat.lt_irrefl _ (hF.cells r u _ hc)
      have hs := hi.fresh s.next le_rfl r u
      change s.rooms.cell r u = some s.next ↔ sits s.log s.next r u = true
      rw [hs]
      simpa using hnone
    · rw [accepted_pc_ne hcn] at hd
      exact hi.seats c hd r u
  · intro s f a e hF hi _ hC hm
    have hf : f < s.next := hm.lt_next hF
    refine ⟨?_, ?_⟩
    · intro c hd r u
      rw [apply_rooms, apply_log, sits_append, hm.sits]
      rcases eq_or_ne c f with rfl | hcf
      -- the mover: its seats change by what it takes
      · have hold := hi.seats c hm.alive r u
        rcases eq_or_ne (s.takes c) (some (r, u)) with ht | ht
        · simp [ht]
        · rw [if_neg (fun h => ht h.2), ← hold]
          constructor
          · intro h
            rcases hm.seat_origin h with h | ⟨-, h, -⟩
            · exact h
            · exact absurd h ht
          · intro h
            rcases hm.seat_kept h with h | h
            · exact h
            · exact absurd h ht
      · rw [apply_pc_ne hcf] at hd
        rw [if_neg (fun h => hcf h.1), ← hi.seats c hd r u]
        constructor
        · intro h
          rcases hm.seat_origin h with h | ⟨h, -⟩
          · exact h
          · exact absurd h hcf
        · exact hm.keepsOthers_iff.2 hC r u c hcf hd
    · intro c hc r u
      rw [apply_next] at hc
      have hcf : c ≠ f := fun h => by subst h; exact Nat.lt_irrefl _ (Nat.lt_of_lt_of_le hf hc)
      rw [apply_log, sits_append, hm.sits, if_neg (fun h => hcf h.1)]
      exact hi.fresh c hc r u

/-- **Isolation.** In a run whose steps take no seat of another live connection, every live
connection has exactly the seats its own entries and leaves gave it; and the next step keeps
the others' seats exactly when it takes none of them either. -/
theorem isolation (h : chatServer.Reach Undisturbed s) :
    (∀ c, s.pc c ≠ .done → ∀ r u, s.rooms.cell r u = some c ↔ sits s.log c r u = true) ∧
      ∀ f a t, s.step (.act f a) = some t → (KeepsOthers s t f ↔ Undisturbed s (.act f a)) := by
  refine ⟨(ownSeats_of_reach h).seats, fun f a t ht => ?_⟩
  rcases step_cases ht with ⟨hl, -⟩ | ⟨f', a', e, hl, -, hm, rfl⟩
  · cases hl
  · cases hl
    exact hm.keepsOthers_iff

/-- A test for `Undisturbed`. -/
def undisturbed (s : Server) : Label → Bool
  | .act f _ => match s.takes f with
    | some (r, u) => (s.rooms.cell r u).all fun c => decide (c = f ∨ s.pc c = .done)
    | none => true
  | .accept => true

theorem undisturbed_of_test {l : Label} (h : undisturbed s l = true) : Undisturbed s l := by
  cases l with
  | accept => trivial
  | act f a =>
    intro r u ht c hc
    simp only [undisturbed, ht, hc, Option.all_some] at h
    exact of_decide_eq_true h

/-- "bob" has left room 1, and "alice" and "carol" sit there: so say their own entries and leaves. -/
theorem isolation_entered : ∃ s, chatServer.Reach Undisturbed s ∧ sits s.log 0 1 (ascii "alice") = true ∧
    sits s.log 2 1 (ascii "carol") = true ∧ sits s.log 1 1 (ascii "bob") = false := by
  obtain ⟨s, hs, hP⟩ := System.exists_reach (S := chatServer) (C := Undisturbed) (T := undisturbed)
    (P := fun s => decide (s.pc 0 ≠ .done ∧ s.pc 2 ≠ .done ∧ s.rooms.cell 1 (ascii "alice") = some 0 ∧
      s.rooms.cell 1 (ascii "carol") = some 2 ∧ sits s.log 1 1 (ascii "bob") = false)) Script.carolComes
    (fun _ _ _ h _ => undisturbed_of_test h) (by decide +kernel)
  obtain ⟨hd, hd', halice, hcarol, hbob⟩ := of_decide_eq_true hP
  exact ⟨s, hs, ((isolation hs).1 0 hd 1 _).1 halice, ((isolation hs).1 2 hd' 1 _).1 hcarol, hbob⟩

/-- The step of fiber `f` loses the seat `(r, u)` of the live connection `c`. -/
def losesSeat (f : ConnId) (r : Int32) (u : Bytes) (c : ConnId) (a : Act) (s : Server) : Bool :=
  decide (c ≠ f ∧ s.pc c ≠ .done ∧ s.rooms.cell r u = some c) &&
    (s.step (.act f a)).any fun t => decide (t.rooms.cell r u ≠ some c)

theorem not_keepsOthers (h : losesSeat f r u c a s = true) :
    ∃ t, s.step (.act f a) = some t ∧ ¬ KeepsOthers s t f := by
  simp only [losesSeat, Bool.and_eq_true, decide_eq_true_eq, Option.any_eq_true] at h
  obtain ⟨⟨hcf, hd, hc⟩, t, ht, hn⟩ := h
  exact ⟨t, ht, fun hk => hn (hk r u c hcf hd hc)⟩

/-- **Two connections under one ID.** The second client logs in as `"alice"` too: its
`ReqRoomEnter` overwrites the first one's seat; and where it asked for room 1 before it logged
in, its disconnect removes that seat. -/
theorem seat_lost :
    (∃ s t, chatServer.Reachable s ∧ s.step (.act 1 (.run [] 0)) = some t ∧
      (∃ r u next tail, s.pc 1 = .body (.enterRoom r u) next tail) ∧ ¬ KeepsOthers s t 1) ∧
    ∃ s t, chatServer.Reachable s ∧ s.step (.act 1 (.run [] 0)) = some t ∧
      (∃ r u next, s.pc 1 = .body (.leaveRoom r u) next .exit) ∧ ¬ KeepsOthers s t 1 := by
  constructor
  · obtain ⟨s, hs, hP⟩ := System.exists_reachable (S := chatServer) (P := fun s =>
        decide (s.pc 1 = .body (.enterRoom 1 (ascii "alice")) [] .loop) &&
          losesSeat 1 1 (ascii "alice") 0 (.run [] 0) s)
      (Script.aliceEnters ++ [Script.suspend 0, .accept] ++ Script.loginAlice 1 ++
        [Script.recv 1 (Script.enterPacket 1), Script.go 1]) (by decide +kernel)
    simp only [Bool.and_eq_true, decide_eq_true_eq] at hP
    obtain ⟨t, ht, hn⟩ := not_keepsOthers hP.2
    exact ⟨s, t, hs, ht, ⟨_, _, _, _, hP.1⟩, hn⟩
  · obtain ⟨s, hs, hP⟩ := System.exists_reachable (S := chatServer) (P := fun s =>
        decide (s.pc 1 = .body (.leaveRoom 1 (ascii "alice")) [] .exit) &&
          losesSeat 1 1 (ascii "alice") 0 (.run [] 0) s)
      (Script.aliceEnters ++ [Script.suspend 0, .accept, Script.recv 1 (Script.enterPacket 1)] ++
        Script.loginAlice 1 ++ [.act 1 .eof, Script.go 1]) (by decide +kernel)
    simp only [Bool.and_eq_true, decide_eq_true_eq] at hP
    obtain ⟨t, ht, hn⟩ := not_keepsOthers hP.2
    exact ⟨s, t, hs, ht, ⟨_, _, _, hP.1⟩, hn⟩

end SocketAcl
