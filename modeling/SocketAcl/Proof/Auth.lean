import SocketAcl.Proof.Seats

/-!
# Authentication

`redis_string::get` succeeds with an empty buffer when the key is missing, so an empty token
passes for a user that does not exist. `authenticated`: that is the only way to a seat
without the stored password.
-/

namespace SocketAcl

/-- Replies come from the store, or the command fails. -/
def FromStore (store : Bytes → Option RedisValue) (s : Server) : Label → Prop
  | .act f (.reply reply) => ∀ userID authToken, s.pc f = .get userID authToken →
      reply = answer store userID ∨ reply = .failed
  | _ => True

/-- No login that Redis answers with "no such key" presents an empty token. -/
def NoEmptyToken (s : Server) : Label → Prop
  | .act f (.reply .nil) => ∀ userID authToken, s.pc f = .get userID authToken → authToken ≠ []
  | _ => True

/-- On connection `c` a login as `u` was handled whose token is the string stored under `u`. -/
def Proven (store : Bytes → Option RedisValue) (log : List Event) (c : ConnId) (u : Bytes) : Prop :=
  ∃ authToken reply, Event.login c u authToken reply ∈ log ∧ store u = some (.string authToken)

/-- Every seat is under a user ID that its connection has proven. -/
def Authenticated (store : Bytes → Option RedisValue) (s : Server) : Prop :=
  ∀ r u c, s.rooms.cell r u = some c → Proven store s.log c u

/-- The user ID of a login that has passed, up to its store into the session. -/
def Control.granted : Control → Option Bytes
  | .write _ k => k.user
  | .send _ _ _ k => k.user
  | _ => none

/-- What is proven at every point: the session's user ID, the one about to be stored in it, and
the one of every seat. -/
structure Proofs (store : Bytes → Option RedisValue) (s : Server) : Prop where
  session : ∀ f, (s.ses f).currentUserID ≠ [] → Proven store s.log f (s.ses f).currentUserID
  granted : ∀ f u, (s.pc f).granted = some u → Proven store s.log f u
  seats : Authenticated store s

variable {store : Bytes → Option RedisValue} {s t : Server} {f g c : ConnId} {a : Act} {e : Effect}
  {r : Int32} {u : Bytes} {C : Server → Label → Prop}

theorem Proven.mono {log : List Event} (events : List Event) (h : Proven store log c u) :
    Proven store (log ++ events) c u := by
  obtain ⟨authToken, reply, hl, hs⟩ := h
  exact ⟨authToken, reply, List.mem_append_left _ hl, hs⟩

/-- **The gate**: a comparison that succeeds on the store's own answer proves the user ID, but
for an empty token and a missing key. -/
theorem gate {reply : RedisReply} {authToken : Bytes} (hr : reply.get = some authToken)
    (hs : reply = answer store u ∨ reply = .failed) (ht : reply = .nil → authToken ≠ []) :
    store u = some (.string authToken) := by
  rcases hs with rfl | rfl
  · unfold answer at hr ht
    split at hr
    · rename_i value hv
      rw [hv, ← Option.some.inj hr]
    · cases hr
    · rename_i hv
      rw [hv] at ht
      exact absurd (Option.some.inj hr).symm (ht rfl)
  · cases hr

/-- A login passes by a comparison, which the log tells. -/
theorem Moves.granted (hm : Moves s f a e) (h : e.fiber.control.granted = some u) :
    (s.pc f).granted = some u ∨ ∃ authToken reply, a = .reply reply ∧ s.pc f = .get u authToken ∧
      reply.get = some authToken ∧ Event.login f u authToken reply ∈ e.events := by
  cases hm with
  | @recv stack data hc h0 h256 =>
    rcases handle_control stack (s.ses f) (dispatch stack data) with ⟨u, t, hq⟩ | hq | ⟨call, hq, -⟩ <;>
      rw [hq] at h <;> cases h
  | eof hc =>
    simp only [Server.goto, Session.finish] at h
    split at h <;> cases h
  -- the one step that grants an ID, by a comparison that held
  | loginOk hc hr =>
    cases h
    exact .inr ⟨_, _, rfl, hc, hr, List.mem_singleton.2 rfl⟩
  | @unlock cur next tail hc =>
    cases next with
    | nil => cases tail <;> cases h
    | cons call next => cases h
  | suspend hr hb => exact .inl h
  | write hc | sendPart hc _ _ _ | sendAll hc _ _ | sendFail hc =>
    left
    rw [hc]
    exact h
  | _ => cases h

/-- The user ID of a session changes only by the store at the end of a login that passed. -/
theorem Moves.user (hm : Moves s f a e) :
    e.fiber.session.currentUserID = (s.ses f).currentUserID ∨
      (s.pc f).granted = some e.fiber.session.currentUserID := by
  rcases hm.session_cases with he | ⟨stack, data, -, -, he⟩ | ⟨u, -, hc, he⟩
  · rw [he]
    exact .inl rfl
  · left
    rcases handle_session stack (s.ses f) (dispatch stack data) with hq | ⟨n, -, hq⟩ <;> rw [he, hq]
  · right
    rw [he, hc]
    rfl

theorem proofs_of_reach (h : chatServer.Reach (fun s l => FromStore store s l ∧ NoEmptyToken s l) s) :
    Proofs store s := by
  refine chat_inv (J := fun s => ∀ f, FiberOK f (s.fibers f)) (fun s hs => fiberOK_of_reach hs) ?_ ?_ ?_ h
  · refine ⟨fun f hf => absurd rfl hf, ?_, ?_⟩
    · intro f u hf
      cases hf
    · intro r u c hc
      simp [Server.init] at hc
  · intro s _ hi _
    refine ⟨fun g => ?_, fun g u => ?_, hi.seats⟩ <;> rcases eq_or_ne g s.next with rfl | hg
    · rw [Server.ses, accepted_fibers_self]
      exact fun hu => absurd rfl hu
    · rw [Server.ses, accepted_fibers_ne hg]
      exact hi.session g
    · rw [accepted_pc_self]
      intro hu
      cases hu
    · rw [accepted_pc_ne hg]
      exact hi.granted g u
  · intro s f a e hF hi _ hC hm
    refine ⟨?_, ?_, ?_⟩
    · intro g
      rw [apply_log]
      rcases eq_or_ne g f with rfl | hg
      · rw [Server.ses, apply_fibers_self]
        intro hu
        -- the session keeps its ID, or stores the one it was granted
        rcases hm.user with h | h
        · rw [h] at hu ⊢
          exact (hi.session g hu).mono _
        · exact (hi.granted g _ h).mono _
      · rw [Server.ses, apply_fibers_ne hg]
        exact fun hu => (hi.session g hu).mono _
    · intro g u
      rw [apply_log]
      rcases eq_or_ne g f with rfl | hg
      · rw [apply_pc_self]
        intro hu
        rcases hm.granted hu with h | ⟨authToken, reply, rfl, hpc, hr, hl⟩
        · exact (hi.granted g u h).mono _
        -- the reply came from the store, and an empty token is not answered for a missing key
        · have hs : store u = some (.string authToken) := by
            refine gate hr (hC.1 u authToken hpc) ?_
            rintro rfl
            exact hC.2 u authToken hpc
          exact ⟨authToken, reply, List.mem_append_right _ hl, hs⟩
      · rw [apply_pc_ne hg]
        exact fun hu => (hi.granted g u hu).mono _
    · intro r u c hc
      rw [apply_log]
      -- a new seat is under the session's own ID
      rcases hm.seat_origin hc with h | ⟨rfl, -, next, tail, hpc⟩
      · exact (hi.seats r u c h).mono _
      · have hs := (hF c).entering r u (by rw [show (s.fibers c).control = _ from hpc]; rfl)
        have hp := hi.session c
        rw [show s.ses c = ⟨u, r⟩ from hs.1] at hp
        exact (hp hs.2.1).mono _

/-- **Authentication soundness**, for every store, in every run in which no missing key is
answered for an empty token. -/
theorem authenticated (h : chatServer.Reach (fun s l => FromStore store s l ∧ NoEmptyToken s l) s) :
    Authenticated store s := (proofs_of_reach h).seats

/-- A store with one user. -/
def aliceStore (key : Bytes) : Option RedisValue :=
  if key = ascii "alice" then some (.string (ascii "pw")) else none

theorem noEmptyToken_first {l : Label} (h : Script.first s l = true) :
    FromStore aliceStore s l ∧ NoEmptyToken s l := by
  constructor
  · unfold FromStore
    split
    · intro userID authToken hpc
      obtain ⟨hg, rfl⟩ := Script.first_reply h
      rw [hg] at hpc
      cases hpc
      exact .inl rfl
    · trivial
  · unfold NoEmptyToken
    split
    · exact absurd (Script.first_reply h).2 (by decide)
    · trivial

/-- A client logs in with the stored password and enters room 1: its seat is proven. -/
theorem authenticated_entered : ∃ s,
    chatServer.Reach (fun s l => FromStore aliceStore s l ∧ NoEmptyToken s l) s ∧
      s.rooms.cell 1 (ascii "alice") = some 0 ∧ Proven aliceStore s.log 0 (ascii "alice") := by
  obtain ⟨s, hs, hc, -⟩ := alice_enters fun _ _ _ h _ => noEmptyToken_first h
  exact ⟨s, hs, hc, authenticated hs 1 _ 0 hc⟩

/-- Every reply is the one of an empty store. -/
def nilReplies (_ : Server) : Label → Bool
  | .act _ (.reply reply) => decide (reply = .nil)
  | _ => true

theorem fromStore_empty {l : Label} (h : nilReplies s l = true) : FromStore (fun _ => none) s l := by
  unfold FromStore
  split
  · exact fun _ _ _ => .inl (of_decide_eq_true h)
  · trivial

/-- **A seat without a password**: on an empty store a client logs in as `"alice"` with an empty
token and enters room 1. -/
theorem unproven_seat : ∃ s, chatServer.Reach (FromStore fun _ => none) s ∧
    s.rooms.cell 1 (ascii "alice") = some 0 ∧ ¬ Authenticated (fun _ => none) s := by
  obtain ⟨s, hs, hP⟩ := System.exists_reach (S := chatServer) (T := nilReplies)
    (P := fun s => decide (s.rooms.cell 1 (ascii "alice") = some 0))
    (.accept :: Script.login 0 (ascii "alice") [] .nil "Login Success!" ++
      Script.enter 0 1 [(ascii "alice", 0)]) (fun _ _ _ h _ => fromStore_empty h) (by decide +kernel)
  have hc := of_decide_eq_true hP
  refine ⟨s, hs, hc, fun h => ?_⟩
  obtain ⟨_, _, _, hstore⟩ := h 1 _ 0 hc
  cases hstore

end SocketAcl
