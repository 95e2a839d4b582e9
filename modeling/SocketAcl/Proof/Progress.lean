import Mathlib.Algebra.Order.BigOperators.Group.Finset
import Mathlib.Data.Finset.Option
import SocketAcl.Proof.Stale
import SocketAcl.Proof.Units

/-!
# Fibers get on

Nothing has to come in for a fiber that is past a read to get to its next one, and no write has to fail.

* `Calm`: steps that bring no input; a write fails only if a connection is broken already.
* `Server.toil`: a bound on the steps of some fibers, the running one and the holder of the mutex;
  `exists_calm`: a calm step makes it smaller, as long as one of them has something to do.
* `exists_free`: so the mutex gets free.
* `exists_return`: a handler that has not left its loop gets back to its read.
-/

namespace SocketAcl

/-! ## How much a fiber has to do -/

/-- A bound on the steps of a call, from its `lock` on, with the calls it makes after its own. -/
def Call.toil : Call → ℕ
  | .enterRoom _ _ => 22
  | .leaveRoom _ _ => 22
  | .sendUserListToAll _ => 11
  | .broadcast _ _ _ => 8

/-- The same for the calls still to be made. -/
def callsToil (next : List Call) : ℕ := (next.map Call.toil).sum

def After.toil : After → ℕ
  | .login _ => 2
  | .unlock _ next _ => 3 + callsToil next

/-- A bound on the steps of a fiber up to and with its next read, if every write takes one. -/
def Control.toil : Control → ℕ
  | .read => 1
  | .get _ _ => 5
  | .lock call next _ => call.toil + callsToil next + 1
  | .body call next _ => call.toil + callsToil next
  | .write todo k => 2 * todo.length + k.toil
  | .send _ _ todo k => 2 * todo.length + 1 + k.toil
  | .unlock _ next _ => 2 + callsToil next
  | .delete => 1
  | .done => 0

theorem callsToil_cons (call : Call) (next : List Call) : callsToil (call :: next) = call.toil + callsToil next := rfl

theorem toil_ret (next : List Call) (tail : Tail) : (Control.ret next tail).toil = callsToil next + 1 := by
  cases next with
  | nil => cases tail <;> rfl
  | cons call next => rfl

namespace Server

/-- Nothing comes in, and only where a connection is broken may a write fail. -/
def Calm (s : Server) : Label → Prop
  | .accept => False
  | .act _ (.recv _ _) => False
  | .act _ .eof => False
  | .act _ .fail => ∃ c, s.broken c = true
  | .act _ _ => True

/-- These fibers, the running one and the holder. -/
def movers (s : Server) (F : Finset ConnId) : Finset ConnId := F ∪ (s.owner.toFinset ∪ s.running.toFinset)

/-- How much they have to do. -/
def toil (s : Server) (F : Finset ConnId) : ℕ :=
  2 * ∑ g ∈ s.movers F, (s.pc g).toil + s.running.isSome.toNat

end Server

variable {s t : Server} {f g : ConnId} {a : Act} {e : Effect} {C : Server → Label → Prop} {F : Finset ConnId}

/-! ## One step -/

/-- A step that gets fiber `g` on, which keeps running. -/
structure GetsOn (s : Server) (g : ConnId) (e : Effect) : Prop where
  toil : e.fiber.control.toil < (s.pc g).toil
  owner : e.owner = s.owner ∨ e.owner = some g ∨ e.owner = none
  running : e.running = some g ∨ e.running = none

/-- A critical section can run, whatever the map is. -/
theorem exists_critical {call : Call} {next : List Call} {tail : Tail} (hc : s.pc g = .body call next tail)
    (hsize : ∀ r, (s.rooms.row r).size ≤ 2) : ∃ order type e, Moves s g (.run order type) e ∧ GetsOn s g e := by
  have hbody : (s.pc g).toil = call.toil + callsToil next := by rw [hc]; rfl
  cases call with
  | enterRoom r u =>
    cases ha : (enterRoom s.rooms r u g).1 with
    | true =>
      refine ⟨[], 0, _, .enterRoom hc ha, ?_, .inl rfl, .inl rfl⟩
      rw [hbody]
      simp only [Server.goto, Control.toil, afterEnter, broadcastMessage, List.cons_append, List.nil_append,
        callsToil_cons, Call.toil]
      omega
    | false =>
      refine ⟨[], 0, _, .refused hc ha, ?_, .inl rfl, .inl rfl⟩
      rw [hbody]
      simp only [Server.goto, Control.toil, After.toil, Call.toil, List.length_singleton]
      omega
  | leaveRoom r u =>
    refine ⟨[], 0, _, .leaveRoom hc, ?_, .inl rfl, .inl rfl⟩
    rw [hbody]
    simp only [Server.goto, Control.toil, afterLeave, broadcastMessage, List.cons_append, List.nil_append,
      callsToil_cons, Call.toil]
    omega
  | sendUserListToAll r =>
    obtain ⟨order, horder⟩ := Row.exists_enumerates (s.rooms.row r)
    by_cases hr : r ∈ s.rooms
    · refine ⟨order, 0, _, .list hc hr horder, ?_, .inl rfl, .inl rfl⟩
      rw [hbody]
      simp only [Server.goto, Control.toil, callsToil_cons, Call.toil]
      omega
    · refine ⟨order, 0, _, .listMissing hc hr, ?_, .inl rfl, .inl rfl⟩
      rw [hbody]
      simp only [Server.goto, Control.toil, Call.toil]
      omega
  | broadcast site r buffer =>
    obtain ⟨order, horder⟩ := Row.exists_enumerates (s.rooms.row r)
    by_cases hr : r ∈ s.rooms
    · -- a room has two members at most
      have hlen : order.length ≤ 2 := horder.length.trans_le (hsize r)
      refine ⟨order, 0, _, .broadcast hc hr horder, ?_, .inl rfl, .inl rfl⟩
      rw [hbody]
      simp only [Server.goto, Control.toil, After.toil, Call.toil, List.length_map]
      omega
    · refine ⟨order, 0, _, .broadcastMissing hc hr, ?_, .inl rfl, .inl rfl⟩
      rw [hbody]
      simp only [Server.goto, Control.toil, Call.toil]
      omega

/-- **A fiber can get on** unless it reads, has ended or waits for the mutex: the socket takes the rest of a
write, or the write fails, and Redis answers something. -/
theorem exists_getsOn (hU : Units (s.pc g)) (hsize : ∀ r, (s.rooms.row r).size ≤ 2) (hread : s.pc g ≠ .read)
    (hdone : s.pc g ≠ .done) (hlock : ∀ call next tail, s.pc g = .lock call next tail → s.owner = none) :
    ∃ a e, Moves s g a e ∧ s.Calm (.act g a) ∧ GetsOn s g e := by
  cases hc : s.pc g with
  | read => exact absurd hc hread
  | done => exact absurd hc hdone
  | get u t =>
    refine ⟨.reply .failed, _, .loginFailed hc (by rintro ⟨⟩), trivial, ?_, .inl rfl, .inl rfl⟩
    rw [hc]
    exact (by decide : 4 < 5)
  | lock call next tail =>
    have ho := hlock call next tail hc
    refine ⟨.go, _, .lock hc ho, trivial, ?_, .inr (.inl rfl), .inl rfl⟩
    rw [hc]
    exact Nat.lt_succ_self _
  | body call next tail =>
    obtain ⟨order, type, e, hm, hon⟩ := exists_critical hc hsize
    exact ⟨_, e, hm, trivial, hon⟩
  | write todo k =>
    cases todo with
    | cons w todo =>
      refine ⟨.go, _, .write hc, trivial, ?_, .inl rfl, .inl rfl⟩
      rw [hc]
      simp only [Server.goto, Control.toil, List.length_cons]
      omega
    | nil =>
      cases k with
      | login user =>
        refine ⟨.go, _, .setUser hc, trivial, ?_, .inl rfl, .inl rfl⟩
        rw [hc]
        exact (by decide : 1 < 2)
      | unlock cur next tail =>
        refine ⟨.go, _, .written hc, trivial, ?_, .inl rfl, .inl rfl⟩
        rw [hc]
        simp only [Server.goto, Control.toil, After.toil]
        omega
  | send dest rest todo k =>
    have hrest := (hU.rest dest rest todo k hc).2
    have htoil : (Control.write todo k).toil < (s.pc g).toil := by
      rw [hc]
      simp only [Control.toil]
      omega
    cases hb : s.broken dest with
    | false => exact ⟨_, _, .sendAll hc (List.length_pos_iff.2 hrest) hb, trivial, htoil, .inl rfl, .inl rfl⟩
    | true => exact ⟨_, _, .sendFail hc, ⟨dest, hb⟩, htoil, .inl rfl, .inl rfl⟩
  | unlock cur next tail =>
    refine ⟨.go, _, .unlock hc, trivial, ?_, .inr (.inr rfl), .inl rfl⟩
    have hret := toil_ret next tail
    rw [hc]
    show (Control.ret next tail).toil < 2 + callsToil next
    omega
  | delete =>
    refine ⟨.go, _, .delete hc, trivial, ?_, .inl rfl, .inr rfl⟩
    rw [hc]
    exact Nat.one_pos

theorem mem_movers : g ∈ s.movers F ↔ g ∈ F ∨ s.owner = some g ∨ s.running = some g := by
  unfold Server.movers
  rw [Finset.mem_union, Finset.mem_union, Option.mem_toFinset, Option.mem_toFinset, Option.mem_def, Option.mem_def]

/-- It makes the toil smaller. -/
theorem GetsOn.toil_lt (hon : GetsOn s g e) (hg : g ∈ s.movers F) : (s.apply g e).toil F < s.toil F := by
  have hsub : (s.apply g e).movers F ⊆ s.movers F := by
    intro c hc
    rcases mem_movers.1 hc with h | h | h
    · exact mem_movers.2 (.inl h)
    · rcases hon.owner with ho | ho | ho <;> rw [apply_owner, ho] at h
      · exact mem_movers.2 (.inr (.inl h))
      · obtain rfl := Option.some.inj h
        exact hg
      · cases h
    · rcases hon.running with hr | hr <;> rw [apply_running, hr] at h
      · obtain rfl := Option.some.inj h
        exact hg
      · cases h
  have hle : ∑ c ∈ (s.apply g e).movers F, ((s.apply g e).pc c).toil ≤
      ∑ c ∈ s.movers F, ((s.apply g e).pc c).toil := Finset.sum_le_sum_of_subset hsub
  have hlt : ∑ c ∈ s.movers F, ((s.apply g e).pc c).toil < ∑ c ∈ s.movers F, (s.pc c).toil := by
    refine Finset.sum_lt_sum ?_ ⟨g, hg, ?_⟩
    · intro c _
      rcases eq_or_ne c g with rfl | hne
      · rw [apply_pc_self]
        exact Nat.le_of_lt hon.toil
      · rw [apply_pc_ne hne]
    · rw [apply_pc_self]
      exact hon.toil
  have hbit : (s.apply g e).running.isSome.toNat ≤ 1 := Bool.toNat_le _
  unfold Server.toil
  omega

/-- So does a switch. -/
theorem Moves.suspend_toil (hm : Moves s g .suspend e) : (s.apply g e).toil F < s.toil F := by
  obtain ⟨hr, hcontrol, howner, hrunning⟩ : s.running = some g ∧ e.fiber.control = s.pc g ∧ e.owner = s.owner ∧
      e.running = none := by
    cases hm with
    | suspend hr hb => exact ⟨hr, rfl, rfl, rfl⟩
  have hpc : ∀ c, (s.apply g e).pc c = s.pc c := by
    intro c
    rcases eq_or_ne c g with rfl | hne
    · rw [apply_pc_self, hcontrol]
    · rw [apply_pc_ne hne]
  have hsub : (s.apply g e).movers F ⊆ s.movers F := by
    intro c hc
    rw [mem_movers, apply_owner, howner, apply_running, hrunning] at hc
    rcases hc with h | h | h
    · exact mem_movers.2 (.inl h)
    · exact mem_movers.2 (.inr (.inl h))
    · cases h
  have hle := Finset.sum_le_sum_of_subset (f := fun c => (s.pc c).toil) hsub
  unfold Server.toil
  rw [apply_running, hrunning, hr]
  simp only [hpc, Option.isSome_some, Option.isSome_none, Bool.toNat_true, Bool.toNat_false]
  omega

/-! ## Runs -/

/-- The scheduler runs no fiber that has ended. -/
theorem running_of_reach (h : chatServer.Reach C s) : ∀ g, s.running = some g → s.pc g ≠ .done := by
  refine chat_inv (J := Locks) (I := fun s => ∀ g, s.running = some g → s.pc g ≠ .done)
    (fun _ => locks_of_reach) (fun g hg => by cases hg) ?_ ?_ h
  · intro s _ _ hr g hg
    rw [show s.accepted.running = s.running from rfl, hr] at hg
    cases hg
  · intro s f a e hL _ _ _ hm g hg hdone
    rw [apply_running] at hg
    have hgf : g = f := by
      rcases (hm.lands hL).running with h | ⟨h, -⟩ <;> rw [h] at hg
      · exact (Option.some.inj hg).symm
      · cases hg
    subst hgf
    rw [apply_pc_self] at hdone
    -- it ends by its `delete`, which the scheduler does not come back to
    have hdelete := hm.done hdone
    cases hm with
    | delete hc | suspend hr hb => cases hg
    | _ => simp_all

/-- **A calm step** makes the toil smaller: of the running fiber, of the holder, or of one of `F` that has
something to do. -/
theorem exists_calm (h : chatServer.Reach C s)
    (hF : s.running = none → s.owner = none → ∃ f ∈ F, s.pc f ≠ .read ∧ s.pc f ≠ .done) :
    ∃ g a e, g ∈ s.movers F ∧ s.Turn g ∧ Moves s g a e ∧ s.Calm (.act g a) ∧
      (s.apply g e).toil F < s.toil F := by
  have hL := locks_of_reach h
  have hgetsOn : ∀ g, g ∈ s.movers F → s.Turn g → s.pc g ≠ .read → s.pc g ≠ .done →
      (∀ call next tail, s.pc g = .lock call next tail → s.owner = none) →
      ∃ g a e, g ∈ s.movers F ∧ s.Turn g ∧ Moves s g a e ∧ s.Calm (.act g a) ∧
        (s.apply g e).toil F < s.toil F := by
    intro g hg hturn hread hdone hlock
    obtain ⟨a, e, hm, hcalm, hon⟩ := exists_getsOn (units_of_reach h g) (size_of_reach h) hread hdone hlock
    exact ⟨g, a, e, hg, hturn, hm, hcalm, hon.toil_lt hg⟩
  cases hr : s.running with
  | some g =>
    have hg : g ∈ s.movers F := mem_movers.2 (.inr (.inr hr))
    by_cases hb : (s.pc g).blocks s.owner = true
    · -- it waits: the scheduler picks another
      have hm : Moves s g .suspend _ := .suspend hr hb
      exact ⟨g, .suspend, _, hg, .inr hr, hm, trivial, hm.suspend_toil⟩
    · refine hgetsOn g hg (.inr hr) ?_ (running_of_reach h g hr) ?_
      · intro hc
        rw [hc] at hb
        exact hb rfl
      · intro call next tail hc
        rw [hc] at hb
        simpa [Control.blocks] using hb
  | none =>
    cases ho : s.owner with
    | some f =>
      have hh := (hL.holds f).2 ho
      refine hgetsOn f (mem_movers.2 (.inr (.inl ho))) (.inl hr) ?_ ?_ ?_
      · intro hc
        rw [hc] at hh
        cases hh
      · intro hc
        rw [hc] at hh
        cases hh
      · intro call next tail hc
        rw [hc] at hh
        cases hh
    | none =>
      obtain ⟨f, hf, hread, hdone⟩ := hF hr ho
      exact hgetsOn f (mem_movers.2 (.inl hf)) (.inl hr) hread hdone fun _ _ _ _ => ho

/-- Steps of the running fiber and of the holder. -/
def Server.Inside (s : Server) (l : Label) : Prop :=
  ∃ g a, l = .act g a ∧ (s.running = some g ∨ s.owner = some g)

/-- **The mutex gets free** by steps of the running fiber and of the holder. -/
theorem exists_free (h : chatServer.Reachable s) : ∃ t, chatServer.Path Server.Inside s t ∧ t.owner = none := by
  refine System.exists_path (I := chatServer.Reachable) (fun s => s.toil ∅) ?_ h
  intro s h
  cases ho : s.owner with
  | none => exact .inl rfl
  | some f =>
    obtain ⟨g, a, e, hg, hturn, hm, -, hlt⟩ := exists_calm (F := ∅) h fun _ hnone => by
      rw [ho] at hnone
      cases hnone
    have hinside : s.Inside (.act g a) := by
      refine ⟨g, a, rfl, ?_⟩
      rcases mem_movers.1 hg with hmem | howner | hrunning
      · exact absurd hmem (Finset.notMem_empty g)
      · exact .inr howner
      · exact .inl hrunning
    have hs : chatServer.step s (.act g a) = some (s.apply g e) := hm.step hturn
    exact .inr ⟨_, _, hinside, hs, .inr ⟨.step h trivial hs, hlt⟩⟩

/-- The handler has left its loop. -/
def Control.Gone (x : Control) : Prop := x.tail = .exit ∨ x = .done

/-- It leaves it by a read that fails. -/
theorem Moves.not_gone (hm : Moves s f a e) (ha : a ≠ .eof) (hloop : ¬ (s.pc f).Gone) : ¬ e.fiber.control.Gone := by
  rintro (hexit | hend)
  · rcases hm.tail_exit hexit with h | h
    · exact ha h
    · exact hloop (.inl h)
  · exact hloop (.inl (by rw [hm.done hend]; rfl))

/-- **A handler comes back** to its read by calm steps, if it has not left its loop. -/
theorem exists_return (h : chatServer.Reachable s) (hloop : ¬ (s.pc f).Gone) :
    ∃ t, chatServer.Path Server.Calm s t ∧ t.pc f = .read := by
  refine System.exists_path (I := fun s => chatServer.Reachable s ∧ ¬ (s.pc f).Gone) (fun s => s.toil {f}) ?_
    ⟨h, hloop⟩
  rintro s ⟨h, hloop⟩
  by_cases hread : s.pc f = .read
  · exact .inl hread
  right
  obtain ⟨g, a, e, -, hturn, hm, hcalm, hlt⟩ := exists_calm (F := {f}) h fun _ _ =>
    ⟨f, Finset.mem_singleton_self f, hread, fun hd => hloop (.inr hd)⟩
  have hs : chatServer.step s (.act g a) = some (s.apply g e) := hm.step hturn
  refine ⟨_, _, hcalm, hs, .inr ⟨⟨.step h trivial hs, ?_⟩, hlt⟩⟩
  rcases eq_or_ne f g with rfl | hne
  · rw [apply_pc_self]
    refine hm.not_gone ?_ hloop
    rintro rfl
    exact hcalm
  · rwa [apply_pc_ne hne]

end SocketAcl
