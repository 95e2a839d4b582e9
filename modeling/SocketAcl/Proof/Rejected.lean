import SocketAcl.Proof.Script
import SocketAcl.Proof.TwoRuns
import SocketAcl.Proof.UserList

/-!
# A rejected entry

The handler stores `currentRoomNumber` before `EnterRoom` has answered. `rejection_harmless`: a
request that is refused changes nothing exactly if it asked for the room the session already named.

"Changes nothing" compares two runs: whatever goes on behind the refusal goes on in a run without
the request too (`Harmless`). In that run nobody waits for the mutex while the rejection is
written: a fiber that is switched out in front of a `lock` has not read its request yet there
(`Tracks.late`), and reads it when it gets the mutex.
-/

namespace SocketAcl

/-! ## A refused request -/

/-- The rejection text, as it is written. -/
def rejection (f : ConnId) (r : Int32) (u : Bytes) : Event :=
  .write f (some (.enterRoom r u)) f (ascii "Room is full!")

/-- **A refused request**: `es` leads from `s`, where fiber `f` reads the `ReqRoomEnter r`, through `v`, where its
critical section is next, to `t`, right behind the refusal. -/
inductive Refusal (s : Server) (f : ConnId) (r : Int32) : List Label → Server → Server → Prop
  | mk {stack : Stack} {data : Bytes} {mid : List Label} {next : List Call} {tail : Tail}
      {order : List (Bytes × ConnId)} {type : UInt8} {v t : Server} (hreq : dispatch stack data = .roomEnter r)
      (hmid : ∀ l ∈ mid, ∀ order type, l ≠ .act f (.run order type))
      (hrun : chatServer.run s (.act f (.recv stack data) :: mid) = some v)
      (hc : v.pc f = .body (.enterRoom r (s.ses f).currentUserID) next tail)
      (hfull : (enterRoom v.rooms r (s.ses f).currentUserID f).1 = false)
      (hlast : chatServer.step v (.act f (.run order type)) = some t) :
      Refusal s f r (.act f (.recv stack data) :: mid ++ [.act f (.run order type)]) v t

/-- **Nothing changes**: neither `rooms_` nor the session, and whatever goes on behind the refusal goes on without
the request, with the same rooms and the same writes but for the rejection. -/
structure Harmless (s : Server) (f : ConnId) (r : Int32) (es : List Label) (v t : Server) : Prop where
  rooms : t.rooms = v.rooms
  session : t.ses f = s.ses f
  rest : ∀ more w, chatServer.run t more = some w → ∃ es' w', chatServer.run s es' = some w' ∧
    Without f (es ++ more) w es' ∧ w'.next = w.next ∧ w'.rooms = w.rooms ∧
      Apart (rejection f r (s.ses f).currentUserID) (observed w.log) (observed w'.log)

/-! ## Following the run without the request -/

/-- How far the request has come: it is not answered, it is refused, or the rejection is written. -/
inductive Stage
  | waiting
  | refused
  | told

/-- The program points of the request, from its `lock` to its `unlock`. -/
inductive Asking (f : ConnId) (r : Int32) (u : Bytes) : Stage → Control → Prop
  | lock : Asking f r u .waiting (.lock (.enterRoom r u) [] .loop)
  | body : Asking f r u .waiting (.body (.enterRoom r u) [] .loop)
  | refused : Asking f r u .refused (.write [(f, ascii "Room is full!")] (.unlock (.enterRoom r u) [] .loop))
  | send (rest : Bytes) : Asking f r u .told (.send f rest [] (.unlock (.enterRoom r u) [] .loop))
  | written : Asking f r u .told (.write [] (.unlock (.enterRoom r u) [] .loop))
  | unlock : Asking f r u .told (.unlock (.enterRoom r u) [] .loop)

/-- What the request took of the choices of fiber `g`. -/
def Own (f : ConnId) (st : Stage) (g : ConnId) (own : List Act) : Prop :=
  if g = f then st = .told ∧ Pass own else own = []

/-- **A fiber in the two runs**, with its choices so far: the request is being handled, or the fiber is the same in
both, or it waits for the mutex and has not read its request in the second. -/
inductive Tracks (f : ConnId) (r : Int32) (u : Bytes) (st : Stage) (g : ConnId) (x x' : Fiber) (acts acts' : List Act) :
    Prop
  | asking (hg : g = f) (hc : Asking f r u st x.control) (hses : x.session = x'.session) (hread : x'.control = .read)
      (hpass : Pass acts) (hacts' : acts' = [])
  | same {own : List Act} (hown : Own f st g own) (heq : x' = x) (hacts : acts = own ++ acts')
  | late {own : List Act} {input : Act} {call : Call} {tail : Tail} (hown : Own f st g own)
      (hread : x'.control = .read) (hnext : x'.session.next input = some x)
      (hlock : x.control = .lock call [] tail) (hacts : acts = own ++ acts' ++ [input])

/-- The logs of the two runs. -/
def Stage.logs (rejected : Event) : Stage → List Event → List Event → Prop
  | .told, l, l' => ∃ front back, l = front ++ rejected :: back ∧ l' = front ++ back
  | _, l, l' => l = l'

/-- **The second run follows the first.** -/
structure Follows (f : ConnId) (r : Int32) (u : Bytes) (st : Stage) (s : Server) (es : List Label) (s' : Server)
    (es' : List Label) : Prop where
  reach : chatServer.Reachable s
  reach' : chatServer.Reachable s'
  rooms : s'.rooms = s.rooms
  next : s'.next = s.next
  broken : ∀ c, s'.broken c = true → s.broken c = true
  running : s'.running = s.running ∨ s'.running = none ∧ ∃ g, s.running = some g ∧ s'.pc g = .read
  /-- a fiber that waits for the mutex in both runs has been switched out -/
  idle : ∀ g call next tail, s.running = some g → s'.pc g = .lock call next tail → call.inner = true
  fibers : ∀ g, Tracks f r u st g (s.fibers g) (s'.fibers g) (choices g es) (choices g es')
  log : st.logs (rejection f r u) (observed s.log) (observed s'.log)

variable {s s' t : Server} {f g : ConnId} {a : Act} {e : Effect} {r : Int32} {u : Bytes} {x x' : Fiber}
  {es es' more : List Label} {own acts acts' : List Act} {log log' : List Event}
  {st st' : Stage} {t' : Server}

theorem Own.stage (h : Own f st g own) (hg : g ≠ f) : Own f st' g own := by
  unfold Own at h ⊢
  rw [if_neg hg] at h ⊢
  exact h

theorem Own.pass (h : Own f st g own) : if g = f then Pass own else own = [] := by
  unfold Own at h
  split_ifs at h ⊢
  · exact h.2
  · exact h

/-- Fiber `f` is elsewhere only when the request is done. -/
theorem Own.told (h : Own f st f own) : st = .told := by
  unfold Own at h
  rw [if_pos rfl] at h
  exact h.1

/-- The other fibers do not see how far the request is. -/
theorem Tracks.stage (h : Tracks f r u st g x x' acts acts') (hg : g ≠ f) : Tracks f r u st' g x x' acts acts' := by
  cases h with
  | asking hf => exact absurd hf hg
  | same hown heq hacts => exact .same (hown.stage hg) heq hacts
  | late hown hread hnext hlock hacts => exact .late (hown.stage hg) hread hnext hlock hacts

theorem Stage.logs_append {rejected : Event} (h : st.logs rejected log log') (events : List Event) :
    st.logs rejected (log ++ events) (log' ++ events) := by
  cases st with
  | told =>
    obtain ⟨front, back, rfl, rfl⟩ := h
    exact ⟨front, back ++ events, by simp, by simp⟩
  | waiting | refused => exact congrArg (· ++ events) h

/-- The mutex is free in the second run wherever it is in the first. -/
theorem Follows.free (h : Follows f r u st s es s' es') (ho : s.owner = none) : s'.owner = none := by
  by_contra hne
  obtain ⟨g, hg⟩ := Option.ne_none_iff_exists'.1 hne
  have hholds : (s'.pc g).holds = true := ((locks_of_reach h.reach').holds g).2 hg
  cases h.fibers g with
  | asking _ _ _ hread _ _ | late _ hread _ _ _ =>
    rw [Server.pc, hread] at hholds
    cases hholds
  | same _ heq _ =>
    rw [Server.pc, heq] at hholds
    rw [((locks_of_reach h.reach).holds g).1 hholds] at ho
    cases ho

theorem Follows.turn (h : Follows f r u st s es s' es') (ht : s.Turn g) : s'.Turn g := by
  rcases h.running with hr | ⟨hr, -⟩
  · rw [Server.Turn, hr]
    exact ht
  · exact .inl hr

/-- The labels `more` lead the second run from `s'` to `t'`, where fiber `g` has done what `e` says. -/
structure Answer (s' : Server) (g : ConnId) (e : Effect) (more : List Label) (t' : Server) : Prop where
  run : chatServer.run s' more = some t'
  labels : ∀ g', g' ≠ g → choices g' more = []
  rooms : t'.rooms = e.rooms
  next : t'.next = s'.next
  broken : ∀ c, t'.broken c = true → e.broken c = true
  running : t'.running = e.running ∨ t'.running = none ∧ e.running = some g ∧ t'.pc g = .read
  idle : ∀ call next tail, e.running = some g → t'.pc g = .lock call next tail → call.inner = true
  others : ∀ g', g' ≠ g → t'.fibers g' = s'.fibers g'

/-- **An answered step.** -/
theorem Follows.answer (h : Follows f r u st s es s' es') (ht : s.Turn g) (hm : Moves s g a e)
    (hans : Answer s' g e more t') (hst : g = f ∨ st' = st)
    (htracks : Tracks f r u st' g e.fiber (t'.fibers g) (choices g es ++ choices g [.act g a])
      (choices g es' ++ choices g more))
    (hlog : st'.logs (rejection f r u) (observed s.log ++ observed e.events) (observed t'.log)) :
    Follows f r u st' (s.apply g e) (es ++ [.act g a]) t' (es' ++ more) where
  reach := .step (e := .act g a) h.reach trivial (hm.step ht)
  reach' := h.reach'.run hans.run
  rooms := hans.rooms
  next := hans.next.trans h.next
  broken := hans.broken
  running := by
    rcases hans.running with hr | ⟨hr, hg, hread⟩
    · exact .inl hr
    · exact .inr ⟨hr, g, hg, hread⟩
  idle := by
    intro g' call next tail hr hc
    rcases (hm.lands (locks_of_reach h.reach)).running with hg | ⟨hnone, -⟩
    · rw [apply_running, hg] at hr
      obtain rfl := Option.some.inj hr
      exact hans.idle call next tail hg hc
    · rw [apply_running, hnone] at hr
      cases hr
  fibers := by
    intro g'
    rw [choices_append, choices_append]
    by_cases hg : g' = g
    · subst hg
      rw [apply_fibers_self]
      exact htracks
    · rw [apply_fibers_ne hg, hans.others g' hg, choices_ne hg, hans.labels g' hg, List.append_nil, List.append_nil]
      rcases hst with rfl | rfl
      · exact (h.fibers g').stage hg
      · exact h.fibers g'
  log := by
    rw [apply_log, observed_append]
    exact hlog

/-- The second run stays where it is: the fiber reads there. -/
theorem Follows.stay (h : Follows f r u st s es s' es') (ht : s.Turn g) (hread : s'.pc g = .read)
    (hrooms : e.rooms = s.rooms) (hrunning : e.running = some g)
    (hbroken : ∀ c, s.broken c = true → e.broken c = true) : Answer s' g e [] s' where
  run := rfl
  labels := fun _ _ => rfl
  rooms := h.rooms.trans hrooms.symm
  next := rfl
  broken := fun c hc => hbroken c (h.broken c hc)
  running := by
    rcases h.turn ht with hr | hr
    · exact .inr ⟨hr, hrunning, hread⟩
    · exact .inl (hr.trans hrunning.symm)
  idle := by
    intro call next tail _ hc
    rw [hread] at hc
    cases hc
  others := fun _ _ => rfl

/-- **A fiber that is the same in both runs** makes the same move in the second, unless it comes to wait for the
mutex. -/
theorem Follows.same (h : Follows f r u st s es s' es') (ht : s.Turn g) (hm : Moves s g a e) (hsus : a ≠ .suspend)
    (hown : Own f st g own) (heq : s'.fibers g = s.fibers g) (hacts : choices g es = own ++ choices g es') :
    ∃ t' more, chatServer.run s' more = some t' ∧
      Follows f r u st (s.apply g e) (es ++ [.act g a]) t' (es' ++ more) := by
  by_cases hq : ∃ call next tail, e.fiber.control = .lock call next tail ∧ call.inner = false
  -- the request is read when the fiber gets the mutex
  · obtain ⟨call, next, tail, hlock, hcall⟩ := hq
    obtain ⟨rfl, hread, hnext, hrooms, hrunning, hbroken, hevents⟩ :=
      hm.queued (locks_of_reach h.reach) hsus hlock hcall
    have hread' : s'.pc g = .read := by rw [Server.pc, heq]; exact hread
    have hans := h.stay ht hread' hrooms hrunning fun c hc => by rw [hbroken]; exact hc
    refine ⟨s', [], rfl, h.answer ht hm hans (.inr rfl) ?_ ?_⟩
    · refine .late hown hread' (by rw [heq]; exact hnext) hlock ?_
      rw [hacts, choices_self hsus]
      simp [choices]
    · rw [hevents, List.append_nil]
      exact h.log
  · obtain ⟨e', hm', halike⟩ := hm.alike hsus heq h.rooms h.free h.broken
    have hstep := hm'.step (h.turn ht)
    have hans : Answer s' g e [.act g a] (s'.apply g e') := by
      refine ⟨System.run_single hstep, fun g' hg => choices_ne hg a, halike.rooms, rfl, halike.broken,
        .inl halike.running, fun call next tail _ hc => ?_, fun g' hg => apply_fibers_ne hg⟩
      rw [apply_pc_self, halike.fiber] at hc
      by_contra hcall
      exact hq ⟨call, next, tail, hc, by simpa using hcall⟩
    refine ⟨_, _, hans.run, h.answer ht hm hans (.inr rfl) ?_ ?_⟩
    · refine .same hown (by rw [apply_fibers_self, halike.fiber]) ?_
      rw [hacts, List.append_assoc]
    · rw [apply_log, observed_append, halike.events]
      exact Stage.logs_append h.log _

/-- **A fiber that has waited for the mutex** gets it: in the second run it reads its request first. -/
theorem Follows.late (h : Follows f r u st s es s' es') (ht : s.Turn g) (hm : Moves s g a e) (hsus : a ≠ .suspend)
    {input : Act} {call : Call} {tail : Tail} (hown : Own f st g own) (hread : (s'.fibers g).control = .read)
    (hnext : (s'.fibers g).session.next input = some (s.fibers g)) (hlock : (s.fibers g).control = .lock call [] tail)
    (hacts : choices g es = own ++ choices g es' ++ [input]) :
    ∃ t' more, chatServer.run s' more = some t' ∧
      Follows f r u st (s.apply g e) (es ++ [.act g a]) t' (es' ++ more) := by
  have hinput : input ≠ .suspend := by
    rintro rfl
    cases hnext
  obtain ⟨e₁, hm₁, hfiber, hrooms, howner, hrunning, hbroken, hevents⟩ := moves_of_next hread hnext
  have hstep₁ := hm₁.step (h.turn ht)
  have hfibers : (s'.apply g e₁).fibers g = s.fibers g := by rw [apply_fibers_self, hfiber]
  obtain ⟨e₂, hm₂, halike⟩ := hm.alike hsus hfibers (hrooms.trans h.rooms)
    (fun ho => howner.trans (h.free ho)) fun c hc => h.broken c (by rw [← hbroken]; exact hc)
  have hlabels : [Label.act g input, .act g a] = [.act g input] ++ [.act g a] := rfl
  have hans : Answer s' g e [.act g input, .act g a] ((s'.apply g e₁).apply g e₂) := by
    refine ⟨System.run_trans (System.run_single hstep₁) (System.run_single (hm₂.step (.inr hrunning))),
      fun g' hg => ?_, halike.rooms, rfl, halike.broken, .inl halike.running, fun call' next tail' _ hc => ?_,
      fun g' hg => by rw [apply_fibers_ne hg, apply_fibers_ne hg]⟩
    · rw [hlabels, choices_append, choices_ne hg, choices_ne hg]
      rfl
    -- behind the `lock` it is in no queue
    · rw [apply_pc_self, halike.fiber] at hc
      by_contra hcall
      have hreads := (hm.queued (locks_of_reach h.reach) hsus hc (by simpa using hcall)).2.1
      rw [Server.pc, hlock] at hreads
      cases hreads
  refine ⟨_, _, hans.run, h.answer ht hm hans (.inr rfl) ?_ ?_⟩
  · refine .same hown (by rw [apply_fibers_self, halike.fiber]) ?_
    rw [hlabels, choices_append, choices_self hinput, choices_self hsus, hacts]
    simp
  · simp only [apply_log, observed_append, hevents, List.append_nil, halike.events]
    exact Stage.logs_append h.log _

/-- Where a fiber is switched out in the first run, it can be in the second. -/
theorem Follows.blocks (h : Follows f r u st s es s' es') (hr : s.running = some g)
    (hb : (s.pc g).blocks s.owner = true) : (s'.pc g).blocks s'.owner = true := by
  cases h.fibers g with
  | asking _ _ _ hread _ _ | late _ hread _ _ _ =>
    rw [Server.pc, hread]
    rfl
  | same _ heq _ =>
    have hpc : s'.pc g = s.pc g := by rw [Server.pc, heq]
    rw [hpc]
    cases hc : s.pc g with
    | lock call next tail =>
      -- it runs, so it is in front of a method called by another, and the mutex is free
      have hinner := h.idle g call next tail hr (hpc.trans hc)
      have hfree := (locks_of_reach h.reach).free g call next tail hc hinner
      rw [hc, hfree] at hb
      cases hb
    | read | get u t | send dest rest todo k => rfl
    | _ =>
      rw [hc] at hb
      cases hb

/-- **A fiber is switched out**: in the second run too, if it runs there. -/
theorem Follows.suspend (h : Follows f r u st s es s' es') (hr : s.running = some g)
    (hb : (s.pc g).blocks s.owner = true) :
    ∃ t' more, chatServer.run s' more = some t' ∧
      Follows f r u st (s.apply g { s.goto g (s.pc g) with running := none }) (es ++ [.act g .suspend]) t'
        (es' ++ more) := by
  have hm : Moves s g .suspend _ := .suspend hr hb
  have hsilent : ∀ g', choices g' [.act g .suspend] = [] := fun _ => rfl
  rcases h.turn (.inr hr) with hnone | hr'
  · have hans : Answer s' g { s.goto g (s.pc g) with running := none } [] s' :=
      ⟨rfl, fun _ _ => rfl, h.rooms, rfl, h.broken, .inl hnone, fun _ _ _ hg => by (cases hg), fun _ _ => rfl⟩
    refine ⟨s', [], rfl, h.answer (.inr hr) hm hans (.inr rfl) ?_ ?_⟩
    · rw [hsilent, List.append_nil]
      exact (List.append_nil (choices g es')).symm ▸ h.fibers g
    · exact (List.append_nil (observed s.log)).symm ▸ h.log
  · have hm' : Moves s' g .suspend _ := .suspend hr' (h.blocks hr hb)
    have hans : Answer s' g { s.goto g (s.pc g) with running := none } [.act g .suspend]
        (s'.apply g { s'.goto g (s'.pc g) with running := none }) :=
      ⟨System.run_single (hm'.step (.inr hr')), fun g' _ => hsilent g', h.rooms, rfl, h.broken, .inl rfl,
        fun _ _ _ hg => by (cases hg), fun g' hg => apply_fibers_ne hg⟩
    refine ⟨_, _, hans.run, h.answer (.inr hr) hm hans (.inr rfl) ?_ ?_⟩
    · rw [hsilent, List.append_nil, List.append_nil, apply_fibers_self]
      exact h.fibers g
    · simp only [apply_log, observed_append]
      exact Stage.logs_append h.log _

/-- **A step of the request**: on to its next point, or behind its end. -/
theorem Moves.asking (hm : Moves s f a e) (hsus : a ≠ .suspend) (hc : Asking f r u st (s.pc f))
    (hwait : st = .waiting → ∀ order type, a ≠ .run order type) :
    e.fiber.session = s.ses f ∧ e.rooms = s.rooms ∧ e.running = some f ∧ a.input = false ∧
      (∀ c, s.broken c = true → e.broken c = true) ∧
      ∃ st', (st' = .waiting ↔ st = .waiting) ∧
        (Asking f r u st' e.fiber.control ∨ st' = .told ∧ e.fiber.control = .read) ∧
        ∀ log log', st.logs (rejection f r u) log log' →
          st'.logs (rejection f r u) (log ++ observed e.events) log' := by
  have hquiet : ∀ log log' : List Event, Stage.logs (rejection f r u) .told log log' →
      Stage.logs (rejection f r u) .told (log ++ []) log' := fun log log' h => by rwa [List.append_nil]
  generalize hpc : s.pc f = c at hc
  cases hc with
  | lock =>
    cases hm with
    | lock hc ho =>
      rw [hpc] at hc
      cases hc
      refine ⟨rfl, rfl, rfl, rfl, fun _ hb => hb, .waiting, Iff.rfl, .inl .body, ?_⟩
      intro log log' h
      exact (List.append_nil log).trans h
    | suspend => exact absurd rfl hsus
    | _ => simp_all
  | body =>
    obtain ⟨order, type, rfl⟩ := hm.run_of_body hpc
    exact absurd rfl (hwait rfl order type)
  | refused =>
    cases hm with
    | write hc =>
      rw [hpc] at hc
      cases hc
      refine ⟨rfl, rfl, rfl, rfl, fun _ hb => hb, .told, by simp, .inl (.send _), ?_⟩
      intro log log' h
      exact ⟨log, [], rfl, by rw [← (h : log = log'), List.append_nil]⟩
    | suspend => exact absurd rfl hsus
    | _ => simp_all
  | send rest =>
    cases hm with
    | sendPart hc h0 hn hb =>
      rw [hpc] at hc
      cases hc
      exact ⟨rfl, rfl, rfl, rfl, fun _ hb => hb, .told, Iff.rfl, .inl (.send _), hquiet⟩
    | sendAll hc h0 hb =>
      rw [hpc] at hc
      cases hc
      exact ⟨rfl, rfl, rfl, rfl, fun _ hb => hb, .told, Iff.rfl, .inl .written, hquiet⟩
    | sendFail hc =>
      rw [hpc] at hc
      cases hc
      refine ⟨rfl, rfl, rfl, rfl, fun c hb => ?_, .told, Iff.rfl, .inl .written, hquiet⟩
      simp only [Function.update_apply]
      split
      · rfl
      · exact hb
    | suspend => exact absurd rfl hsus
    | _ => simp_all
  | written =>
    cases hm with
    | written hc =>
      rw [hpc] at hc
      cases hc
      exact ⟨rfl, rfl, rfl, rfl, fun _ hb => hb, .told, Iff.rfl, .inl .unlock, hquiet⟩
    | suspend => exact absurd rfl hsus
    | _ => simp_all
  | unlock =>
    cases hm with
    | unlock hc =>
      rw [hpc] at hc
      cases hc
      exact ⟨rfl, rfl, rfl, rfl, fun _ hb => hb, .told, Iff.rfl, .inr ⟨rfl, rfl⟩, hquiet⟩
    | suspend => exact absurd rfl hsus
    | _ => simp_all

/-- **While the request is handled**, nothing happens in the second run. -/
theorem Follows.asking (h : Follows f r u st s es s' es') (ht : s.Turn f) (hm : Moves s f a e) (hsus : a ≠ .suspend)
    (hc : Asking f r u st (s.pc f)) (hwait : st = .waiting → ∀ order type, a ≠ .run order type)
    (hses : s.ses f = s'.ses f) (hread : s'.pc f = .read) (hpass : Pass (choices f es)) (hacts : choices f es' = []) :
    ∃ st' t' more, (st' = .waiting ↔ st = .waiting) ∧ chatServer.run s' more = some t' ∧
      Follows f r u st' (s.apply f e) (es ++ [.act f a]) t' (es' ++ more) := by
  obtain ⟨hses', hrooms, hrunning, hinput, hbroken, st', hst, hpoint, hlogs⟩ := hm.asking hsus hc hwait
  have hans := h.stay ht hread hrooms hrunning hbroken
  have hpass' : Pass (choices f es ++ choices f [.act f a]) := by
    rw [choices_self hsus]
    exact hpass.append hinput
  refine ⟨st', s', [], hst, rfl, h.answer ht hm hans (.inl rfl) ?_ (hlogs _ _ h.log)⟩
  rcases hpoint with hpoint | ⟨rfl, hend⟩
  · exact .asking rfl hpoint (hses'.trans hses) hread hpass' (by rw [hacts]; rfl)
  -- the request is done
  · refine .same (if_pos rfl |>.mpr ⟨rfl, hpass'⟩) ?_ (by rw [hacts]; exact (List.append_nil _).symm)
    calc s'.fibers f = ⟨s'.ses f, s'.pc f⟩ := rfl
      _ = ⟨e.fiber.session, e.fiber.control⟩ := by rw [hread, hend, hses', hses]
      _ = e.fiber := rfl

/-- A client comes, in both runs. -/
theorem Follows.accepted (h : Follows f r u st s es s' es') (hr : s.running = none) :
    chatServer.run s' [.accept] = some s'.accepted ∧
      Follows f r u st s.accepted (es ++ [.accept]) s'.accepted (es' ++ [.accept]) := by
  have hr' : s'.running = none := by
    rcases h.running with hr' | ⟨hr', -⟩
    · exact hr'.trans hr
    · exact hr'
  have hstep : chatServer.step s .accept = some s.accepted := if_pos hr
  have hstep' : chatServer.step s' .accept = some s'.accepted := if_pos hr'
  have hsilent : ∀ g, choices g [.accept] = [] := fun _ => rfl
  refine ⟨System.run_single hstep', .step h.reach trivial hstep, .step h.reach' trivial hstep', h.rooms,
    congrArg (· + 1) h.next, h.broken, .inl (hr'.trans hr.symm), ?_, fun g => ?_, h.log⟩
  · intro g call next tail hg
    rw [show s.accepted.running = s.running from rfl, hr] at hg
    cases hg
  · rw [choices_append, choices_append, hsilent, List.append_nil, List.append_nil]
    by_cases hg : g = s.next
    · subst hg
      have hnew : s'.accepted.fibers s.next = s.accepted.fibers s.next := by
        rw [accepted_fibers_self, ← h.next, accepted_fibers_self]
      have hdone := (fresh_of_reach h.reach).pc_next
      cases h.fibers s.next with
      | asking _ hc _ _ _ _ =>
        rw [show (s.fibers s.next).control = _ from hdone] at hc
        cases hc
      | same hown _ hacts => exact .same hown hnew hacts
      | late _ _ _ hlock _ =>
        rw [show (s.fibers s.next).control = _ from hdone] at hlock
        cases hlock
    · rw [accepted_fibers_ne hg, accepted_fibers_ne (by rwa [h.next])]
      exact h.fibers g

/-- **Each step is followed.** -/
theorem Follows.step {l : Label} (h : Follows f r u st s es s' es')
    (hwait : st = .waiting → ∀ order type, l ≠ .act f (.run order type)) (hs : s.step l = some t) :
    ∃ st' t' more, (st' = .waiting ↔ st = .waiting) ∧ chatServer.run s' more = some t' ∧
      Follows f r u st' t (es ++ [l]) t' (es' ++ more) := by
  rcases step_cases hs with ⟨rfl, hr, rfl⟩ | ⟨g, a, e, rfl, ht, hm, rfl⟩
  · obtain ⟨hrun, hF⟩ := h.accepted hr
    exact ⟨st, _, _, Iff.rfl, hrun, hF⟩
  · by_cases hsus : a = .suspend
    · subst hsus
      cases hm with
      | suspend hr hb =>
        obtain ⟨t', more, hrun, hF⟩ := h.suspend hr hb
        exact ⟨st, t', more, Iff.rfl, hrun, hF⟩
    · cases h.fibers g with
      | asking hg hc hses hread hpass hacts' =>
        subst hg
        exact h.asking ht hm hsus hc (fun hst order type ha => hwait hst order type (congrArg (Label.act g) ha)) hses
          hread hpass hacts'
      | same hown heq hacts =>
        obtain ⟨t', more, hrun, hF⟩ := h.same ht hm hsus hown heq hacts
        exact ⟨st, t', more, Iff.rfl, hrun, hF⟩
      | late hown hread hnext hlock hacts =>
        obtain ⟨t', more, hrun, hF⟩ := h.late ht hm hsus hown hread hnext hlock hacts
        exact ⟨st, t', more, Iff.rfl, hrun, hF⟩

/-- The run up to the refusal is followed. -/
theorem Follows.run_waiting (h : Follows f r u .waiting s es s' es') {mid : List Label}
    (hmid : ∀ l ∈ mid, ∀ order type, l ≠ .act f (.run order type)) (hrun : chatServer.run s mid = some t) :
    ∃ t' more, chatServer.run s' more = some t' ∧ Follows f r u .waiting t (es ++ mid) t' (es' ++ more) := by
  refine System.run_follows (S := chatServer) (R := Follows f r u .waiting)
    (P := fun l => ∀ order type, l ≠ .act f (.run order type)) ?_ h hmid hrun
  intro s es s' es' l t h hl hs
  obtain ⟨st', t', more, hst, hrun', hF⟩ := h.step (fun _ => hl) hs
  obtain rfl := hst.2 rfl
  exact ⟨t', more, hrun', hF⟩

/-- The run behind the refusal is followed. -/
theorem Follows.run_answered (h : Follows f r u st s es s' es') (hst : st ≠ .waiting)
    (hrun : chatServer.run s more = some t) :
    ∃ t' es'' st', chatServer.run s' es'' = some t' ∧ Follows f r u st' t (es ++ more) t' (es' ++ es'') := by
  have hfollow : ∀ s es s' es' l t, (∃ st, st ≠ .waiting ∧ Follows f r u st s es s' es') → True →
      chatServer.step s l = some t → ∃ t' more, chatServer.run s' more = some t' ∧
        ∃ st, st ≠ .waiting ∧ Follows f r u st t (es ++ [l]) t' (es' ++ more) := by
    rintro s es s' es' l t ⟨st, hst, h⟩ - hs
    obtain ⟨st', t', more, hiff, hrun', hF⟩ := h.step (fun hw => absurd hw hst) hs
    exact ⟨t', more, hrun', st', fun hw => hst (hiff.1 hw), hF⟩
  obtain ⟨t', es'', hrun', st', -, hF⟩ := System.run_follows (P := fun _ => True) hfollow ⟨st, hst, h⟩
    (fun _ _ => trivial) hrun
  exact ⟨t', es'', st', hrun', hF⟩

/-- What the two runs are when the second follows the first. -/
theorem Follows.without (h : Follows f r u st s es s' es') : Without f es s es' := by
  intro g
  cases h.fibers g with
  | asking hg _ _ _ hpass hacts' =>
    exact ⟨choices g es, [], by simp [hacts'], by rw [if_pos hg]; exact hpass, .inl rfl⟩
  | @same own hown _ hacts => exact ⟨own, [], by simp [hacts], hown.pass, .inl rfl⟩
  | @late own input call tail hown _ hnext hlock hacts =>
    exact ⟨own, [input], hacts, hown.pass, .inr ⟨input, call, tail, rfl, Session.next_input hnext, hlock⟩⟩

theorem apart_of_logs {x : Event} (h : st.logs x log log') : Apart x log log' := by
  cases st with
  | told => exact .inr h
  | waiting | refused => exact .inl h

/-! ## The request -/

/-- The request is read, and from here on the second run follows. -/
theorem follows_request (h : chatServer.Reachable s) {stack : Stack} {data : Bytes}
    (hreq : dispatch stack data = .roomEnter r) (hses : s.ses f = ⟨u, r⟩) (hu : u ≠ [])
    (hs : chatServer.step s (.act f (.recv stack data)) = some t) :
    Follows f r u .waiting t [.act f (.recv stack data)] s [] := by
  have hreach : chatServer.Reachable t := .step h trivial hs
  rcases step_cases (show s.step (.act f (.recv stack data)) = some t from hs) with
    ⟨hl, -⟩ | ⟨g, a, e, hl, ht, hm, rfl⟩
  · cases hl
  · cases hl
    cases hm with
    | recv hc h0 h256 =>
      have hhandle : (s.ses f).handle stack (.roomEnter r) = (⟨u, r⟩, .lock (.enterRoom r u) [] .loop) := by
        rw [hses]
        exact if_pos hu
      have hread : s.pc f = .read := hc
      refine ⟨hreach, h, rfl, rfl, fun _ hb => hb, ?_, ?_, fun g => ?_, ?_⟩
      · rcases ht with hr | hr
        · exact .inr ⟨hr, f, rfl, hread⟩
        · exact .inl hr
      · intro g call next tail hg hcall
        obtain rfl := Option.some.inj hg
        rw [hread] at hcall
        cases hcall
      · by_cases hg : g = f
        · subst hg
          rw [apply_fibers_self, hreq, hhandle]
          exact .asking rfl .lock hses.symm hread ⟨_, [], choices_self Act.noConfusion, rfl, by simp⟩ rfl
        · rw [apply_fibers_ne hg]
          exact .same (if_neg hg |>.mpr rfl) rfl (choices_ne hg (.recv stack data))
      · rw [apply_log, observed_append]
        exact List.append_nil _

/-- It is refused: nothing happens in the second run. -/
theorem Follows.refuse (h : Follows f r u .waiting s es s' es') (order : List (Bytes × ConnId)) (type : UInt8)
    (ht : s.Turn f) (hc : s.pc f = .body (.enterRoom r u) [] .loop) (hfull : (enterRoom s.rooms r u f).1 = false) :
    ∃ t', s.step (.act f (.run order type)) = some t' ∧
      Follows f r u .refused t' (es ++ [.act f (.run order type)]) s' es' := by
  have hm : Moves s f (.run order type) _ := .refused hc hfull
  refine ⟨_, hm.step ht, ?_⟩
  cases h.fibers f with
  | asking hg _ hses hread hpass hacts' =>
    have hans := h.stay (e := { s.goto f (.write [(f, ascii "Room is full!")] (.unlock (.enterRoom r u) [] .loop)) with
      events := [.enter f r u false] }) ht hread rfl rfl fun _ hb => hb
    have hpass' : Pass (choices f es ++ choices f [.act f (.run order type)]) := by
      rw [choices_self Act.noConfusion]
      exact hpass.append rfl
    have hlog : Stage.logs (rejection f r u) .refused (observed s.log ++ []) (observed s'.log) :=
      (List.append_nil _).trans h.log
    have hF := h.answer ht hm hans (.inl rfl) (.asking rfl .refused hses hread hpass' (by rw [hacts']; rfl)) hlog
    rwa [List.append_nil] at hF
  | same hown _ _ | late hown _ _ _ _ => cases hown.told

/-- In front of its critical section an `EnterRoom` is the handler's own call, with its session. -/
theorem entering_body (h : chatServer.Reachable s) {next : List Call} {tail : Tail}
    (hc : s.pc f = .body (.enterRoom r u) next tail) : next = [] ∧ tail = .loop ∧ s.ses f = ⟨u, r⟩ ∧ u ≠ [] := by
  have hO := outer_of_reach h f
  rw [hc] at hO
  have hcontrol : (s.fibers f).control = .body (.enterRoom r u) next tail := hc
  obtain ⟨hses, hu, htail⟩ := (fiberOK_of_reach h f).entering r u (by rw [hcontrol]; rfl)
  rw [hcontrol] at htail
  exact ⟨hO rfl, htail, hses, hu⟩

/-- A refusal changes neither `rooms_` nor the session. -/
theorem refused_step {next : List Call} {tail : Tail} (hc : s.pc f = .body (.enterRoom r u) next tail)
    (hfull : (enterRoom s.rooms r u f).1 = false) {order : List (Bytes × ConnId)} {type : UInt8}
    (hs : chatServer.step s (.act f (.run order type)) = some t) :
    s.Turn f ∧ t.rooms = s.rooms ∧ t.ses f = s.ses f := by
  rcases step_cases (show s.step (.act f (.run order type)) = some t from hs) with
    ⟨hl, -⟩ | ⟨g, a, e, hl, ht, hm, rfl⟩
  · cases hl
  · cases hl
    refine ⟨ht, (hm.rooms_enterRoom hc).trans (enterRoom_refused hfull), ?_⟩
    rw [Server.ses, apply_fibers_self]
    rcases hm.session_cases with hses | ⟨_, _, ha, -⟩ | ⟨_, ha, -⟩
    · exact hses
    · cases ha
    · cases ha

/-- Behind the refusal the session names the room that was asked for. -/
theorem Refusal.session (h : chatServer.Reachable s) {v : Server} (hR : Refusal s f r es v t) :
    t.ses f = ⟨(s.ses f).currentUserID, r⟩ := by
  cases hR with
  | mk _ _ hrun hc hfull hlast => exact (refused_step hc hfull hlast).2.2.trans (entering_body (h.run hrun) hc).2.2.1

/-- **A rejected entry changes nothing exactly if** it asked for the room that the session already named. -/
theorem rejection_harmless (h : chatServer.Reachable s) {v : Server} (hR : Refusal s f r es v t) :
    Harmless s f r es v t ↔ (s.ses f).currentRoomNumber = r := by
  constructor
  · intro hH
    rw [← hH.session, hR.session h]
  · intro hroom
    cases hR with
    | @mk stack data mid next tail order type v t hreq hmid hrun hc hfull hlast =>
      obtain ⟨rfl, rfl, hses, hu⟩ := entering_body (h.run hrun) hc
      obtain ⟨ht, hrooms, hkept⟩ := refused_step hc hfull hlast
      have hses' : s.ses f = ⟨(s.ses f).currentUserID, r⟩ := by rw [← hroom]
      obtain ⟨s₁, hs₁, hrest⟩ := Option.bind_eq_some_iff.1 hrun
      obtain ⟨v', before, hbefore, hF⟩ := (follows_request h hreq hses' hu hs₁).run_waiting hmid hrest
      obtain ⟨t₁, ht₁, hF'⟩ := hF.refuse order type ht hc hfull
      obtain rfl : t₁ = t := Option.some.inj (ht₁.symm.trans hlast)
      refine ⟨hrooms, hkept.trans (hses.trans hses'.symm), fun more w hw => ?_⟩
      obtain ⟨w', behind, st', hbehind, hF''⟩ := hF'.run_answered Stage.noConfusion hw
      exact ⟨before ++ behind, w', System.run_trans hbefore hbehind, by simpa using hF''.without, hF''.next,
        hF''.rooms, apart_of_logs hF''.log⟩

/-- Alice and bob fill room 1, and carol logs in. -/
def fullRoom : List Label :=
  Script.aliceEnters ++ [Script.suspend 0, .accept] ++
    Script.login 1 (ascii "bob") (ascii "pw") (.bulk (ascii "pw")) "Login Success!" ++
    Script.enter 1 1 [(ascii "alice", 0), (ascii "bob", 1)] ++ [Script.suspend 1, .accept] ++
    Script.login 2 (ascii "carol") (ascii "pw") (.bulk (ascii "pw")) "Login Success!"

/-- Carol's request is about to be refused. -/
def refusesCarol (v : Server) : Bool :=
  decide (v.pc 2 = .body (.enterRoom 1 (ascii "carol")) [] .loop) && !(enterRoom v.rooms 1 (ascii "carol") 2).1 &&
    (v.step (Script.run 2 [])).isSome

theorem refusal_carol {v : Server} (hses : (s.ses 2).currentUserID = ascii "carol")
    (hrun : chatServer.run s [Script.recv 2 (Script.enterPacket 1), Script.go 2] = some v)
    (hv : refusesCarol v = true) : ∃ es t, chatServer.step v (Script.run 2 []) = some t ∧ Refusal s 2 1 es v t := by
  simp only [refusesCarol, Bool.and_eq_true, decide_eq_true_eq, Bool.not_eq_true'] at hv
  obtain ⟨⟨hc, hfull⟩, hlast⟩ := hv
  obtain ⟨t, ht⟩ := Option.isSome_iff_exists.1 hlast
  have hrun' : chatServer.run s (.act 2 (.recv .clear (Script.enterPacket 1)) :: [Script.go 2]) = some v := hrun
  refine ⟨_, t, ht, .mk ?_ ?_ hrun' (by rw [hses]; exact hc) (by rw [hses]; exact hfull) ht⟩
  · decide +kernel
  · intro l hl order type
    rw [List.mem_singleton.1 hl]
    simp [Script.go]

/-- Carol asks for the full room twice: the second refusal changes nothing. -/
theorem rejection_harmless_again : ∃ s es v t, chatServer.Reachable s ∧ Refusal s 2 1 es v t ∧
    Harmless s 2 1 es v t := by
  obtain ⟨s, v, hs, hrun, hP⟩ := System.exists_run (S := chatServer)
    (P := fun s v => decide (s.ses 2 = ⟨ascii "carol", 1⟩) && refusesCarol v) (fullRoom ++ Script.refused 2 1)
    [Script.recv 2 (Script.enterPacket 1), Script.go 2] (by decide +kernel)
  simp only [Bool.and_eq_true, decide_eq_true_eq] at hP
  obtain ⟨es, t, -, hR⟩ := refusal_carol (by rw [hP.1]) hrun hP.2
  exact ⟨s, es, v, t, hs, hR, (rejection_harmless hs hR).2 (by rw [hP.1])⟩

/-- Behind the refusal: the rejection is written, and carol chats. -/
def carolChats : List Label :=
  [Script.go 2, .act 2 (.send 13), Script.go 2, Script.go 2, Script.recv 2 (Script.chatPacket (ascii "hi")), Script.go 2,
    Script.run 2 [(ascii "alice", 0), (ascii "bob", 1)], Script.go 2]

/-- Carol's chat is written to alice, in room 1. -/
def chatsToAlice (w : Server) : Bool := decide <| w.log.getLast? =
  some (.write 2 (some (broadcastMessage .chat 1 (ascii "hi") (ascii "carol"))) 0
    (chatBuffer (ascii "hi") (ascii "carol")))

/-- **Half applied.** Carol is in room 2 and is refused in room 1: her next chat is written to alice, in room 1. -/
theorem half_applied : ∃ s es v t w, chatServer.Reachable s ∧ Refusal s 2 1 es v t ∧
    s.ses 2 = ⟨ascii "carol", 2⟩ ∧ ¬ Harmless s 2 1 es v t ∧
      chatServer.run t carolChats = some w ∧ chatsToAlice w = true := by
  obtain ⟨s, v, hs, hrun, hP⟩ := System.exists_run (S := chatServer)
    (P := fun s v => decide (s.ses 2 = ⟨ascii "carol", 2⟩) && refusesCarol v &&
      ((chatServer.run v (Script.run 2 [] :: carolChats)).any chatsToAlice))
    (fullRoom ++ Script.enter 2 2 [(ascii "carol", 2)])
    [Script.recv 2 (Script.enterPacket 1), Script.go 2] (by decide +kernel)
  simp only [Bool.and_eq_true, decide_eq_true_eq] at hP
  obtain ⟨⟨hses, hv⟩, hchat⟩ := hP
  obtain ⟨es, t, ht, hR⟩ := refusal_carol (by rw [hses]) hrun hv
  obtain ⟨w, hw, hchat⟩ := (Option.any_eq_true _ _).1 hchat
  simp only [System.run, ht, Option.bind_some] at hw
  refine ⟨s, es, v, t, w, hs, hR, hses, fun hH => ?_, hw, hchat⟩
  -- the session of `s` names room 2
  have hroom : (t.ses 2).currentRoomNumber = 2 := by rw [hH.session, hses]
  rw [hR.session hs] at hroom
  exact absurd (show (1 : Int32) = 2 from hroom) (by decide)

end SocketAcl
