import SocketAcl.Proof.Progress

/-!
# The discipline of `room_mutex_`

* `LockDiscipline`: no fiber locks twice; over every run a fiber's acquisitions and releases
  balance, so whoever waits in `conn->read` or `cmd.get` holds nothing; the holder runs or is
  inside a `conn->write`, and its own steps bring it to the `unlock`.
* `lock_discipline`: it holds in every run.
-/

namespace SocketAcl

variable {s t : Server} {f g : ConnId} {a : Act} {e : Effect} {C : Server → Label → Prop}

/-! ## Acquisitions and releases -/

namespace Server

/-- Does fiber `f` return from a `lock` in this step? -/
def acquires (f : ConnId) (s : Server) : Label → Bool
  | .act g .go => decide (g = f) && match s.pc g with
    | .lock _ _ _ => true
    | _ => false
  | _ => false

/-- Does fiber `f` make an `unlock` in this step? -/
def releases (f : ConnId) (s : Server) : Label → Bool
  | .act g .go => decide (g = f) && match s.pc g with
    | .unlock _ _ _ => true
    | _ => false
  | _ => false

/-- The number of locks fiber `f` holds. -/
def held (s : Server) (f : ConnId) : ℕ := if s.owner = some f then 1 else 0

end Server

theorem Locks.held_eq (hL : Locks s) (f : ConnId) : s.held f = (s.pc f).holds.toNat := by
  unfold Server.held
  cases hh : (s.pc f).holds with
  | true => rw [if_pos ((hL.holds f).1 hh)]; rfl
  | false =>
    have hne : s.owner ≠ some f := fun ho => by
      rw [(hL.holds f).2 ho] at hh
      cases hh
    rw [if_neg hne]
    rfl

theorem holds_ret (next : List Call) (tail : Tail) : (Control.ret next tail).holds = false := by
  cases next with
  | nil => cases tail <;> rfl
  | cons call next => rfl

/-- A fiber comes to hold the mutex by an acquisition, and loses it by a release. -/
theorem Moves.lock_balance (hm : Moves s f a e) :
    (s.pc f).holds.toNat + (s.acquires f (.act f a)).toNat =
      e.fiber.control.holds.toNat + (s.releases f (.act f a)).toNat := by
  cases hm with
  | @recv stack data hc h0 h256 =>
    rcases handle_control stack (s.ses f) (dispatch stack data) with ⟨u, t, h⟩ | h | ⟨call, h, -⟩ <;>
      simp [Server.acquires, Server.releases, hc, h, Control.holds]
  | eof hc =>
    unfold Session.finish
    split <;> simp [Server.acquires, Server.releases, hc, Control.holds, Server.goto]
  | @unlock cur next tail hc =>
    simp only [Server.goto]
    rw [holds_ret next tail]
    simp [Server.acquires, Server.releases, hc, Control.holds]
  | suspend hr hb => rfl
  | _ =>
    rename_i hc
    simp_all [Server.acquires, Server.releases, Control.holds, After.holds, Server.goto]

/-- Only a free mutex is acquired. -/
theorem Moves.acquires (hm : Moves s g a e) (h : s.acquires f (.act g a) = true) :
    s.owner = none ∧ e.owner = some f := by
  cases hm with
  | lock hc ho =>
    simp only [Server.acquires, hc, Bool.and_true, decide_eq_true_eq] at h
    exact ⟨ho, congrArg some h⟩
  | _ => simp_all [Server.acquires]

/-- Only the holder releases the mutex. -/
theorem Moves.releases (hL : Locks s) (hm : Moves s g a e) (h : s.releases f (.act g a) = true) :
    s.owner = some f ∧ e.owner = none := by
  cases hm with
  | unlock hc =>
    simp only [Server.releases, hc, Bool.and_true, decide_eq_true_eq] at h
    subst h
    exact ⟨(hL.holds g).1 (by rw [hc]; rfl), rfl⟩
  | _ => simp_all [Server.releases]

theorem held_balance (h : chatServer.Reachable s) (f : ConnId) {l : Label} (hs : s.step l = some t) :
    s.held f + (s.acquires f l).toNat = t.held f + (s.releases f l).toNat := by
  have hL := locks_of_reach h
  have hL' : Locks t := locks_of_reach (.step h trivial hs)
  rw [hL.held_eq, hL'.held_eq]
  rcases step_cases hs with ⟨rfl, -, rfl⟩ | ⟨g, a, e, rfl, -, hm, rfl⟩
  · rcases eq_or_ne f s.next with rfl | hne
    · have hfresh := (fresh_of_reach h).fibers s.next le_rfl
      simp [Server.pc, hfresh, Control.holds, Server.acquires, Server.releases]
    · simp [accepted_pc_ne hne, Server.acquires, Server.releases]
  · rcases eq_or_ne f g with rfl | hne
    · have hbalance := hm.lock_balance
      rwa [apply_pc_self]
    · have hother : s.acquires f (.act g a) = false ∧ s.releases f (.act g a) = false := by
        cases a <;> simp [Server.acquires, Server.releases, hne.symm]
      rw [hother.1, hother.2, apply_pc_ne hne]

/-! ## The discipline -/

/-- **The discipline of `room_mutex_`.** -/
structure LockDiscipline (s : Server) : Prop where
  /-- (a) a fiber that is about to lock does not hold the mutex -/
  relock : ∀ f call next tail, s.pc f = .lock call next tail → s.owner ≠ some f
  /-- the mutex is held between a `lock` and the `unlock` of the same method, and only there -/
  inside : ∀ f, s.owner = some f ↔ ∃ call, (s.pc f).within = some call
  /-- (b) only a free mutex is acquired, and only its holder releases it -/
  turns : ∀ f l t, s.step l = some t →
    (s.acquires f l = true → s.owner = none ∧ t.owner = some f) ∧
    (s.releases f l = true → s.owner = some f ∧ t.owner = none)
  /-- (b) on every way from here, a fiber's acquisitions and releases balance -/
  balance : ∀ f es t, chatServer.run s es = some t →
    s.held f + chatServer.count (Server.acquires f) s es = t.held f + chatServer.count (Server.releases f) s es
  /-- (b) whoever reads, waits for Redis or has finished does not hold the mutex -/
  waiting : ∀ f, s.owner = some f →
    s.pc f ≠ .read ∧ (∀ u t, s.pc f ≠ .get u t) ∧ s.pc f ≠ .delete ∧ s.pc f ≠ .done
  /-- (c) the holder runs, or is inside a `conn->write` -/
  holder : ∀ f, s.owner = some f → s.running = some f ∨ ∃ dest rest todo k, s.pc f = .send dest rest todo k
  /-- (c) steps of the running fiber and of the holder alone free the mutex -/
  free : ∃ t, chatServer.Path Server.Inside s t ∧ t.owner = none

/-- **No run breaks the discipline.** -/
theorem lock_discipline (h : chatServer.Reachable s) : LockDiscipline s := by
  have hL := locks_of_reach h
  have hinside : ∀ f, s.owner = some f ↔ ∃ call, (s.pc f).within = some call := by
    intro f
    rw [← hL.holds f, ← Control.isSome_within, Option.isSome_iff_exists]
  have hout : ∀ f, (s.pc f).holds = false → s.owner ≠ some f := by
    intro f hf ho
    rw [(hL.holds f).2 ho] at hf
    cases hf
  refine ⟨fun f call next tail hc => hout f (by rw [hc]; rfl), hinside, fun f l t hs => ?_, fun f es t hrun => ?_,
    fun f ho => ?_, fun f ho => ?_, exists_free h⟩
  · rcases step_cases hs with ⟨rfl, -, rfl⟩ | ⟨g, a, e, rfl, -, hm, rfl⟩
    · exact ⟨Bool.noConfusion, Bool.noConfusion⟩
    · exact ⟨hm.acquires, hm.releases hL⟩
  · exact System.run_balance (m := fun s => s.held f) (fun s l t h hs => held_balance h f hs) h hrun
  · have hh := (hL.holds f).2 ho
    refine ⟨fun hc => ?_, fun u t hc => ?_, fun hc => ?_, fun hc => ?_⟩ <;> rw [hc] at hh <;> cases hh
  · by_cases hr : s.running = some f
    · exact .inl hr
    · right
      -- a holder that is switched out is at a point where fibers wait
      have hwaits : (s.pc f).waits = true := by
        by_contra hw
        exact hr (hL.runs f (by simpa using hw))
      have hh := (hL.holds f).2 ho
      cases hc : s.pc f with
      | send dest rest todo k => exact ⟨_, _, _, _, rfl⟩
      | body call next tail | unlock cur next tail | write todo k =>
        rw [hc] at hwaits
        cases hwaits
      | _ =>
        rw [hc] at hh
        cases hh

/-- It is kept where the first client sits in room 1. -/
theorem lock_discipline_entered : ∃ s, chatServer.Reachable s ∧ s.rooms.cell 1 (ascii "alice") = some 0 ∧
    LockDiscipline s := by
  obtain ⟨s, hs, hcell, -⟩ := alice_enters (C := fun _ _ => True) fun _ _ _ _ _ => trivial
  exact ⟨s, hs, hcell, lock_discipline hs⟩

end SocketAcl
