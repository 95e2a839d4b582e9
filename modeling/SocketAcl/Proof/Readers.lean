import SocketAcl.Spec.Form
import SocketAcl.Spec.Rooms

/-!
# One reader for each stream

`Careful` is what a run has to keep to: a loop is started, and a login is clicked, only while no
loop is alive; a login comes before the first room request on its connection, and its read
returns the answer whole. `one_reader`: in such runs no two reads of the current stream are
pending, what is read is what was sent, in order, and each reader reads what it waits for.
-/

namespace SocketAcl

namespace Form

/-- No loop is alive. -/
def State.Quiet (s : State) : Prop := ∀ l ∈ s.loops, l = .ended

/-- **What a careful user and a kind network do.** -/
def Careful (s : State) : Label → Prop
  | .login _ => s.Quiet ∧ ∀ k, s.stream = some k → (s.conns k).entered = false
  | .loginRead n => ∀ k, s.ui = .reading k → n = (s.conns k).unread.length
  | .enterRoom _ => s.Quiet
  | _ => True

/-- **One reader.** -/
structure OneReader (s : State) : Prop where
  pending : ∀ k, s.stream = some k → s.pending k ≤ 1
  /-- what the reads returned is what was sent, in order -/
  inOrder : ∀ k, (s.conns k).taken.flatMap Prod.snd <+: (s.conns k).sent
  /-- no login takes a notification, no loop the answer to a login -/
  own : ∀ k, ∀ r ∈ (s.conns k).taken, ∀ b ∈ r.2, b.1 = r.1.kind

/-! ## Connections -/

/-- The invariant of a connection; `reading`: a login waits for its answer on it. -/
structure ConnOK (reading : Prop) (c : Conn) : Prop where
  inOrder : c.taken.flatMap Prod.snd ++ c.unread <+: c.sent
  whole : c.closed = false → c.taken.flatMap Prod.snd ++ c.unread = c.sent
  own : ∀ r ∈ c.taken, ∀ b ∈ r.2, b.1 = r.1.kind
  before : c.entered = false → ∀ b ∈ c.unread, b.1 = .login
  idle : ¬reading → (∀ b ∈ c.unread, b.1 = .room) ∧ (c.unanswered = 0 ∨ c.closed = true)
  waits : reading → c.entered = false ∧ (c.unanswered = 0 ∨ c.closed = true ∨ c.unanswered = 1 ∧ c.unread = [])

variable {c c' : Conn} {p : Prop} {i n : ℕ} {throws : Bool} {data : List UInt8} {kind : Kind}

theorem connOK_init : ConnOK False .init := by
  constructor <;> simp [Conn.init]

/-- A read takes what is unread from the front. -/
theorem flatMap_take (c : Conn) (reader : Reader) (n : ℕ) :
    (c.take reader n).taken.flatMap Prod.snd ++ (c.take reader n).unread = c.taken.flatMap Prod.snd ++ c.unread := by
  simp only [Conn.take, List.flatMap_append, List.flatMap_singleton, List.append_assoc, List.take_append_drop]

theorem own_take {reader : Reader} (h : ConnOK p c) (hkind : ∀ b ∈ c.unread, b.1 = reader.kind) :
    ∀ r ∈ (c.take reader n).taken, ∀ b ∈ r.2, b.1 = r.1.kind := by
  intro r hr b hb
  rcases List.mem_append.1 hr with hr | hr
  · exact h.own r hr b hb
  · obtain rfl := List.mem_singleton.1 hr
    exact hkind b (List.mem_of_mem_take hb)

theorem ConnOK.take_login (h : ConnOK True c) (hn : n = c.unread.length) (h0 : 0 < n) :
    ConnOK False (c.take .login n) := by
  obtain ⟨hentered, hwait⟩ := h.waits trivial
  have hempty : (c.take .login n).unread = [] := by rw [Conn.take, hn, List.drop_length]
  refine ⟨?_, ?_, own_take h (h.before hentered), ?_, fun _ => ⟨?_, ?_⟩, False.elim⟩
  · rw [flatMap_take]
    exact h.inOrder
  · rw [flatMap_take]
    exact h.whole
  · rw [hempty]
    exact fun _ _ hb => absurd hb List.not_mem_nil
  · rw [hempty]
    exact fun _ hb => absurd hb List.not_mem_nil
  · rcases hwait with h0' | hclosed | ⟨-, hnil⟩
    · exact .inl h0'
    · exact .inr hclosed
    · rw [hn, hnil] at h0
      exact absurd h0 (Nat.lt_irrefl 0)

theorem ConnOK.take_loop (h : ConnOK False c) : ConnOK False (c.take (.loop i) n) := by
  obtain ⟨hroom, hanswered⟩ := h.idle not_false
  refine ⟨?_, ?_, own_take h hroom, fun he b hb => ?_, fun _ => ⟨fun b hb => ?_, hanswered⟩, False.elim⟩
  · rw [flatMap_take]
    exact h.inOrder
  · rw [flatMap_take]
    exact h.whole
  · exact h.before he b (List.mem_of_mem_drop hb)
  · exact hroom b (List.mem_of_mem_drop hb)

/-- Behind a read that ends without bytes nothing is unread and nothing more comes. -/
theorem ConnOK.readEnds (h : ConnOK p c) (he : c.readEnds throws = some c') : ConnOK False c' := by
  unfold Conn.readEnds at he
  split at he
  · obtain rfl := Option.some.inj he
    have hprefix := (List.prefix_append _ _).trans h.inOrder
    exact ⟨by simpa using hprefix, fun hc => absurd hc (by simp), h.own, fun _ _ hb => absurd hb List.not_mem_nil,
      fun _ => ⟨fun _ hb => absurd hb List.not_mem_nil, .inr rfl⟩, False.elim⟩
  · split at he
    · rename_i hclosed
      obtain rfl := Option.some.inj he
      exact ⟨h.inOrder, h.whole, h.own, h.before,
        fun _ => ⟨fun _ hb => absurd (hclosed.2 ▸ hb) List.not_mem_nil, .inr hclosed.1⟩, False.elim⟩
    · cases he

/-- What is sent comes behind all that was sent. -/
theorem send_whole (h : ConnOK p c) (hc : c.closed = false) (kind : Kind) (data : Bytes) :
    (c.send kind data).taken.flatMap Prod.snd ++ (c.send kind data).unread = (c.send kind data).sent := by
  rw [Conn.send, ← h.whole hc, List.append_assoc]

theorem ConnOK.answer (h : ConnOK p c) (hu : 0 < c.unanswered) (hc : c.closed = false) :
    ConnOK p ({ c with unanswered := c.unanswered - 1 }.send .login data) := by
  have hwhole := send_whole h hc .login data
  -- only a login that waits is not answered yet
  have hp : p := by
    by_contra hp
    rcases (h.idle hp).2 with h0 | hclosed
    · omega
    · rw [hc] at hclosed
      cases hclosed
  obtain ⟨hentered, hwait⟩ := h.waits hp
  have hone : c.unanswered = 1 := by
    rcases hwait with h0 | hclosed | ⟨h1, -⟩
    · omega
    · rw [hc] at hclosed
      cases hclosed
    · exact h1
  refine ⟨⟨[], (List.append_nil _).trans hwhole⟩, fun _ => hwhole, h.own, fun he b hb => ?_, fun hnp => absurd hp hnp,
    fun _ => ⟨hentered, .inl ?_⟩⟩
  · rcases List.mem_append.1 hb with hb | hb
    · exact h.before he b hb
    · obtain ⟨_, -, rfl⟩ := List.mem_map.1 hb
      rfl
  · simp only [Conn.send, hone]

theorem ConnOK.notify (h : ConnOK p c) (he : c.entered = true) (hc : c.closed = false) :
    ConnOK p (c.send .room data) := by
  have hwhole := send_whole h hc .room data
  have hp : ¬p := fun hp => by
    have := (h.waits hp).1
    rw [he] at this
    cases this
  obtain ⟨hroom, hanswered⟩ := h.idle hp
  refine ⟨⟨[], (List.append_nil _).trans hwhole⟩, fun _ => hwhole, h.own, fun he' => ?_, fun _ => ⟨fun b hb => ?_, hanswered⟩,
    fun hp' => absurd hp' hp⟩
  · rw [Conn.send, he] at he'
    cases he'
  · rcases List.mem_append.1 hb with hb | hb
    · exact hroom b hb
    · obtain ⟨_, -, rfl⟩ := List.mem_map.1 hb
      rfl

theorem ConnOK.close (h : ConnOK p c) : ConnOK p { c with closed := true } :=
  ⟨h.inOrder, fun hc => absurd hc (by simp), h.own, h.before, fun hp => ⟨(h.idle hp).1, .inr rfl⟩,
    fun hp => ⟨(h.waits hp).1, .inr (.inl rfl)⟩⟩

theorem ConnOK.enter (h : ConnOK False c) : ConnOK False { c with entered := true } :=
  ⟨h.inOrder, h.whole, h.own, fun he => absurd he (by simp), h.idle, False.elim⟩

/-- A login before the first room request finds nothing unread. -/
theorem ConnOK.login (h : ConnOK False c) (he : c.entered = false) :
    ConnOK True { c with unanswered := c.unanswered + 1 } := by
  obtain ⟨hroom, hanswered⟩ := h.idle not_false
  have hnil : c.unread = [] := by
    refine List.eq_nil_iff_forall_not_mem.2 fun b hb => ?_
    have hlogin := h.before he b hb
    rw [hroom b hb] at hlogin
    cases hlogin
  refine ⟨h.inOrder, h.whole, h.own, h.before, fun hn => absurd trivial hn, fun _ => ⟨he, ?_⟩⟩
  rcases hanswered with h0 | hclosed
  · exact .inr (.inr ⟨by simp only [h0], hnil⟩)
  · exact .inr (.inl hclosed)

/-! ## The form -/

/-- The number of loops that are alive. -/
def State.alive (s : State) : ℕ := s.loops.countP (· ≠ .ended)

/-- **The invariant of careful runs.** -/
structure Readers (s : State) : Prop where
  one : s.alive ≤ 1
  login : ∀ k, s.ui = .reading k → s.alive = 0
  conn : ∀ k, ConnOK (s.ui = .reading k) (s.conns k)

variable {s t : State} {l : LoopAt} {k : ℕ}

theorem alive_of_quiet (h : s.Quiet) : s.alive = 0 :=
  List.countP_eq_zero.2 fun l hl => by simp [h l hl]

/-- A loop that moves was alive. -/
theorem alive_move {x : LoopAt} (hx : s.loops[i]? = some x) (hne : x ≠ .ended) :
    (s.move i l).alive ≤ s.alive ∧ s.alive ≠ 0 := by
  obtain ⟨hi, hget⟩ := List.getElem?_eq_some_iff.1 hx
  have hpos : 0 < s.alive := List.countP_pos_iff.2 ⟨x, List.mem_of_getElem? hx, by simpa using hne⟩
  have hset : (s.move i l).alive = s.alive - 1 + if l ≠ .ended then 1 else 0 := by
    unfold State.alive State.move
    simp only [List.countP_set hi, hget, hne, ne_eq, not_false_iff, decide_true, if_true, decide_eq_true_eq]
  constructor
  · rw [hset]
    split <;> omega
  · omega

theorem readers_init : Readers .init := by
  refine ⟨Nat.zero_le 1, fun k h => (nomatch h), fun k => ?_⟩
  have hui : ((State.init.ui = .reading k) : Prop) = False := eq_false (by simp [State.init])
  rw [hui]
  exact connOK_init

/-- Where no login waits. -/
theorem Readers.conn_idle (h : Readers s) (hui : ∀ k, s.ui ≠ .reading k) (k : ℕ) : ConnOK False (s.conns k) := by
  have hconn := h.conn k
  rwa [eq_false (hui k)] at hconn

/-- A step that leaves the connections alone, with no login waiting. -/
theorem Readers.quiet (h : Readers s) (hui : ∀ k, s.ui ≠ .reading k) (hui' : ∀ k, t.ui ≠ .reading k)
    (hconns : t.conns = s.conns) (halive : t.alive ≤ 1) : Readers t := by
  refine ⟨halive, fun k hk => absurd hk (hui' k), fun k => ?_⟩
  rw [hconns, eq_false (hui' k)]
  exact h.conn_idle hui k

/-- A step of one connection. -/
theorem Readers.update (h : Readers s) (hui : t.ui = s.ui) (hconns : t.conns = Function.update s.conns k c)
    (hc : ConnOK (s.ui = .reading k) c) (halive : t.alive ≤ s.alive) : Readers t := by
  have hone := h.one
  refine ⟨by omega, fun k' hk => ?_, fun k' => ?_⟩
  · have := h.login k' (hui ▸ hk)
    omega
  · rw [hconns, hui]
    rcases eq_or_ne k' k with rfl | hk
    · rwa [Function.update_self]
    · rw [Function.update_of_ne hk]
      exact h.conn k'

/-- The end of a login's read. -/
theorem Readers.answered (h : Readers s) (hui : s.ui = .reading k) (hc : ConnOK False c) :
    Readers { s.set k c with ui := .idle } := by
  have hone := h.one
  refine ⟨hone, fun k' hk => (nomatch hk), fun k' => ?_⟩
  rw [eq_false (by simp : ¬UIThread.idle = .reading k')]
  simp only [State.set]
  rcases eq_or_ne k' k with rfl | hk
  · rwa [Function.update_self]
  · have hconn := h.conn k'
    have hother : ¬UIThread.reading k = .reading k' := by simpa using hk.symm
    rw [hui, eq_false hother] at hconn
    rwa [Function.update_of_ne hk]

/-- A step of a loop alone. -/
theorem Readers.move (h : Readers s) {x : LoopAt} (hx : s.loops[i]? = some x) (hne : x ≠ .ended) :
    Readers (s.move i l) := by
  have hone := h.one
  have hmove := alive_move (l := l) hx hne
  exact ⟨by omega, fun k hk => absurd (h.login k hk) hmove.2, h.conn⟩

theorem readers_step {e : Label} (h : Readers s) (hC : Careful s e) (hs : step s e = some t) : Readers t := by
  have hidle : s.ui = .idle → ∀ k, s.ui ≠ .reading k := fun hui k hk => by
    rw [hui] at hk
    cases hk
  -- while a loop is alive no login waits
  have hloop : ∀ {i : ℕ} {x : LoopAt}, s.loops[i]? = some x → x ≠ .ended → ∀ k, s.ui ≠ .reading k := fun hx hne k hk =>
    (alive_move (l := .test) hx hne).2 (h.login k hk)
  cases e with
  | connect ok =>
    simp only [step] at hs
    split at hs
    · rename_i hui
      split at hs
      · obtain rfl := Option.some.inj hs
        exact h.quiet (hidle hui) (fun k => by simp) rfl h.one
      · exact Option.some.inj hs ▸ h
    · cases hs
  | getStream ok =>
    simp only [step] at hs
    split at hs
    · rename_i hui
      obtain rfl := Option.some.inj hs
      exact h.quiet (fun k hk => by rw [hui] at hk; cases hk) (fun k => by simp) rfl h.one
    · cases hs
  | login ok =>
    simp only [step] at hs
    split at hs
    · rename_i hui
      split at hs
      · exact Option.some.inj hs ▸ h
      · rename_i k hk
        split at hs
        · obtain rfl := Option.some.inj hs
          have hzero := alive_of_quiet hC.1
          refine ⟨hzero ▸ Nat.zero_le 1, fun _ _ => hzero, fun k' => ?_⟩
          simp only [State.set]
          rcases eq_or_ne k' k with rfl | hne
          · rw [Function.update_self, eq_true rfl]
            exact (h.conn_idle (hidle hui) k').login (hC.2 k' hk)
          · have hother : ¬UIThread.reading k = .reading k' := by simpa using hne.symm
            rw [Function.update_of_ne hne, eq_false hother]
            exact h.conn_idle (hidle hui) k'
        · exact Option.some.inj hs ▸ h
    · cases hs
  | loginRead n =>
    simp only [step] at hs
    split at hs
    · rename_i k hui
      split at hs
      · rename_i hn
        obtain rfl := Option.some.inj hs
        have hconn := h.conn k
        rw [eq_true hui] at hconn
        exact h.answered hui (hconn.take_login (hC k hui) hn.1)
      · cases hs
    · cases hs
  | loginReadEnds throws =>
    simp only [step] at hs
    split at hs
    · rename_i k hui
      obtain ⟨c, hc, rfl⟩ := Option.map_eq_some_iff.1 hs
      exact h.answered hui ((h.conn k).readEnds hc)
    · cases hs
  | enterRoom ok =>
    simp only [step] at hs
    split at hs
    · rename_i hui
      have hzero := alive_of_quiet hC
      have hone : ({ s with loops := s.loops ++ [LoopAt.test] } : State).alive ≤ 1 := by
        unfold State.alive at hzero ⊢
        rw [List.countP_append, hzero]
        exact Nat.le_refl 1
      have hstart : Readers { s with loops := s.loops ++ [LoopAt.test] } := h.quiet (hidle hui) (hidle hui) rfl hone
      split at hs
      · exact Option.some.inj hs ▸ hstart
      · rename_i k hk
        split at hs
        · obtain rfl := Option.some.inj hs
          have hconn := (h.conn_idle (hidle hui) k).enter
          rw [← eq_false (hidle hui k)] at hconn
          exact hstart.update rfl rfl hconn (Nat.le_refl _)
        · exact Option.some.inj hs ▸ hstart
    · cases hs
  | sendChat =>
    simp only [step] at hs
    split at hs
    · exact Option.some.inj hs ▸ h
    · cases hs
  | test i connected =>
    simp only [step] at hs
    split at hs
    · rename_i hx
      split at hs
      · exact Option.some.inj hs ▸ h.move hx (by simp)
      · exact Option.some.inj hs ▸ h.move hx (by simp)
    · cases hs
  | call i =>
    simp only [step] at hs
    split at hs
    · rename_i hx
      split at hs
      · exact Option.some.inj hs ▸ h.move hx (by simp)
      · exact Option.some.inj hs ▸ h.move hx (by simp)
    · cases hs
  | loopRead i n =>
    simp only [step] at hs
    split at hs
    · rename_i k hx
      split at hs
      · obtain rfl := Option.some.inj hs
        have hui := hloop hx (by simp)
        have hconn := (h.conn_idle hui k).take_loop (i := i) (n := n)
        rw [← eq_false (hui k)] at hconn
        exact h.update (c := (s.conns k).take (.loop i) n) rfl rfl hconn (alive_move hx (by simp)).1
      · cases hs
    · cases hs
  | loopReadEnds i throws =>
    simp only [step] at hs
    split at hs
    · rename_i k hx
      obtain ⟨c, hc, rfl⟩ := Option.map_eq_some_iff.1 hs
      have hconn := (h.conn k).readEnds hc
      rw [← eq_false (hloop hx (by simp) k)] at hconn
      exact h.update (c := c) rfl rfl hconn (alive_move hx (by simp)).1
    · cases hs
  | handle i ok =>
    simp only [step] at hs
    split at hs
    · rename_i hx
      exact Option.some.inj hs ▸ h.move hx.1 (by simp)
    · cases hs
  | answer k data =>
    simp only [step] at hs
    split at hs
    · rename_i hk
      exact Option.some.inj hs ▸ h.update rfl rfl ((h.conn k).answer hk.1 hk.2) (Nat.le_refl _)
    · cases hs
  | notify k data =>
    simp only [step] at hs
    split at hs
    · rename_i hk
      exact Option.some.inj hs ▸ h.update rfl rfl ((h.conn k).notify hk.1 hk.2) (Nat.le_refl _)
    · cases hs
  | close k => exact Option.some.inj hs ▸ h.update rfl rfl (h.conn k).close (Nat.le_refl _)

/-- Behind careful steps there is one reader at most, and it reads in order. -/
theorem Readers.oneReader (h : Readers s) : OneReader s where
  pending := by
    intro k _
    have hcount : s.loops.count (.reading k) ≤ s.alive :=
      List.countP_mono_left fun l _ hl => by simp [show l = .reading k by simpa using hl]
    unfold State.pending
    split
    · rename_i hui
      have := h.login k hui
      omega
    · have := h.one
      omega
  inOrder := fun k => (List.prefix_append _ _).trans (h.conn k).inOrder
  own := fun k => (h.conn k).own

/-- **One reader for each stream**, whatever is clicked and whenever the server sends. -/
theorem one_reader (h : form.Reach Careful s) : OneReader s :=
  (h.inv (I := Readers) readers_init fun _ _ _ hI hC hs => readers_step hI hC hs).oneReader

/-- `Careful` as a test. -/
def careful (s : State) : Label → Bool
  | .login _ => s.loops.all (· = .ended) && s.stream.all fun k => !(s.conns k).entered
  | .loginRead n =>
    match s.ui with
    | .reading k => n = (s.conns k).unread.length
    | _ => true
  | .enterRoom _ => s.loops.all (· = .ended)
  | _ => true

theorem careful_iff {e : Label} (h : careful s e = true) : Careful s e := by
  cases e with
  | login ok =>
    simp only [careful, Bool.and_eq_true, List.all_eq_true, decide_eq_true_eq, Option.all_eq_true] at h
    exact ⟨h.1, fun k hk => by simpa using h.2 k hk⟩
  | loginRead n =>
    intro k hk
    simp only [careful, hk, decide_eq_true_eq] at h
    exact h
  | enterRoom ok =>
    simp only [careful, List.all_eq_true, decide_eq_true_eq] at h
    exact h
  | _ => trivial

/-- Connect, a login and its answer, and a click on Enter Room: its loop is the one reader. -/
theorem one_reader_entered : ∃ s, form.Reach Careful s ∧ s.pending 0 = 1 ∧ OneReader s := by
  obtain ⟨s, hs, hP⟩ := System.exists_reach (S := form) (T := careful) (P := fun s => decide (s.pending 0 = 1))
    [.connect true, .getStream true, .login true, .answer 0 (ascii "Login Success!"), .loginRead 14, .enterRoom true,
      .test 0 true, .call 0]
    (fun _ _ _ h _ => careful_iff h) (by decide +kernel)
  exact ⟨s, hs, of_decide_eq_true hP, one_reader hs⟩

/-- **Two readers**: two clicks on Enter Room start two loops, and both read the stream; then a login waits
as well, and the first loop takes its answer. -/
theorem two_readers : ∃ s, form.Reachable s ∧ s.stream = some 0 ∧ s.pending 0 = 2 ∧
    (s.conns 0).taken = [(.loop 0, (ascii "Login Success!").map (.login, ·))] ∧ ¬OneReader s := by
  obtain ⟨s, hs, hP⟩ := System.exists_reachable (S := form) (P := fun s => decide (s.stream = some 0) &&
      decide (s.pending 0 = 2) && decide ((s.conns 0).taken = [(.loop 0, (ascii "Login Success!").map (.login, ·))]))
    [.connect true, .getStream true, .enterRoom true, .enterRoom true, .test 0 true, .call 0, .test 1 true, .call 1,
      .login true, .answer 0 (ascii "Login Success!"), .loopRead 0 14] (by decide +kernel)
  simp only [Bool.and_eq_true, decide_eq_true_eq] at hP
  refine ⟨s, hs, hP.1.1, hP.1.2, hP.2, fun h => ?_⟩
  have := h.pending 0 hP.1.1
  omega

end Form

end SocketAcl
