import SocketAcl.Proof.FiberQueues

/-!
# The scheduler, by its rules

One rule for each function of the scheduler, over queues: it runs through, every fiber is somewhere
afterwards, and what the fibers share is untouched.

* `Verified`: what is to be proved of the operations of an object, each by itself.
* `Verified.reach`: then in every state the thread comes to, nothing has failed, the rings hold queues, and
  the invariant of the object holds.
-/

namespace SocketAcl

variable {η Obj Op ι : Type} [DecidableEq η] [DecidableEq ι]

/-! ## The scheduler, over queues -/

section Rules

variable {t : Thread Obj Op ι} {q : Queues η ι} {f : ι} {ringOf : Op → Option η} {place : ι → Place Op}
  {status : ι → FiberStatus}

@[simp] theorem wp_detach {Q : Unit → Thread Obj Op ι → Queues η ι → Prop} :
    Code.wp queueExec (detach (.me f)) Q t q ↔ Q () t (q.drop f) := by
  simp only [detach, Code.wp_perform, queueExec]
  constructor
  · rintro ⟨_, _, hq, h⟩
    cases hq
    exact h
  · exact fun h => ⟨(), _, rfl, h⟩

@[simp] theorem wp_detach_head {r : Head η} {Q : Unit → Thread Obj Op ι → Queues η ι → Prop} :
    Code.wp queueExec (detach (.head r)) Q t q ↔ Q () t q := by
  simp only [detach, Code.wp_perform, queueExec]
  constructor
  · rintro ⟨_, _, hq, h⟩
    cases hq
    exact h
  · exact fun h => ⟨(), _, rfl, h⟩

theorem wp_prepend {r : Head η} {Q : Unit → Thread Obj Op ι → Queues η ι → Prop} (hf : ∀ r, f ∉ q r) :
    Code.wp queueExec (prepend r f) Q t q ↔ Q () t (q.put (some r) f) := by
  simp only [prepend, Code.wp_perform, queueExec, if_pos hf]
  constructor
  · rintro ⟨_, _, hq, h⟩
    cases hq
    exact h
  · exact fun h => ⟨(), _, rfl, h⟩

@[simp] theorem wp_popHead {r : Head η} {Q : Option ι → Thread Obj Op ι → Queues η ι → Prop} :
    Code.wp queueExec (popHead r) Q t q ↔ Q (q r).head? t (Function.update q r (q r).tail) := by
  simp [popHead, queueExec]

@[simp] theorem wp_first {r : Head η} {Q : Option ι → Thread Obj Op ι → Queues η ι → Prop} :
    Code.wp queueExec (first r) Q t q ↔ Q (q r).head? t q := by
  simp [first, queueExec]

@[simp] theorem wp_size {r : Head η} {Q : ℤ → Thread Obj Op ι → Queues η ι → Prop} :
    Code.wp queueExec (size r) Q t q ↔ Q (q r).length t q := by
  simp [size, queueExec]

omit [DecidableEq η] [DecidableEq ι] in
theorem wp_fiberRunning {exec : Interp (RingCommand η ι) RingCommand.Answer (Queues η ι)}
    {Q : ι → Thread Obj Op ι → Queues η ι → Prop} (hf : t.running = some f) :
    Code.wp exec fiberRunning Q t q ↔ Q f t q := by
  simp [fiberRunning, hf]

theorem wp_fiberReady {Q : Unit → Thread Obj Op ι → Queues η ι → Prop} (hs : t.status f ≠ .exiting)
    (hf : ∀ r, f ∉ q.drop f r) :
    Code.wp queueExec (fiberReady f) Q t q ↔ Q () (t.setStatus f .ready) ((q.drop f).put (some .ready) f) := by
  simp only [fiberReady, Code.wp_bind, Code.wp_get, Code.wp_ite, if_pos hs, wp_detach, Code.wp_modify, wp_prepend hf]

/-- What the scheduler leaves alone. -/
structure Keeps (t : Thread Obj Op ι) (q : Queues η ι) (t' : Thread Obj Op ι) (q' : Queues η ι) : Prop where
  place : t'.place = t.place
  killed : t'.killed = t.killed
  obj : t'.obj = t.obj
  rings : ∀ r, q' (.ring r) = q (.ring r)

/-- `Sound`, of a thread. -/
abbrev Thread.Sound (ringOf : Op → Option η) (t : Thread Obj Op ι) (q : Queues η ι) : Prop :=
  SocketAcl.Sound ringOf t.running t.status t.place q

omit [DecidableEq η] in
/-- The running fiber is in its own code, where it was or where it comes back to. -/
theorem Sound.goOn (h : t.Sound ringOf q) (hf : t.running = some f) :
    SocketAcl.Sound ringOf t.running t.status (Function.update t.place f .user) q := by
  obtain ⟨-, hstatus, hnot⟩ := h.current f hf
  have hout := h.takeOut (f := f) (by simp : FiberStatus.running ≠ .exiting) fun _ => rfl
  rw [← hstatus, Function.update_eq_self, show q.drop f = q from funext fun r => List.erase_of_not_mem (hnot r)] at hout
  exact hout

/-- The first ready fiber takes over, from none. -/
theorem wp_swap_next {Q : Unit → Thread Obj Op ι → Queues η ι → Prop} {q₀ : Queues η ι} {next : Option ι}
    (h : SocketAcl.Sound ringOf none t.status t.place q₀) (hnext : next = (q₀ .ready).head?) :
    Code.wp queueExec (fiberSwap none next) Q t q ↔ Q () { t with status := runNext t.status next } q := by
  cases next with
  | none => simp [fiberSwap, runNext]
  | some g =>
    have hg : g ∈ q₀ .ready := List.mem_of_mem_head? hnext.symm
    have hs : t.status g ≠ .exiting := h.not_exiting (h.fits .ready g hg)
    simp [fiberSwap, runNext, hs, Thread.setStatus]

/-- The status of the fiber that gives way is written first. -/
theorem wp_swap_source {Q : Unit → Thread Obj Op ι → Queues η ι → Prop} {next : Option ι} (hs : t.status f ≠ .exiting) :
    Code.wp queueExec (fiberSwap (some f) next) Q t q ↔
      Code.wp queueExec (fiberSwap none next) Q (t.setStatus f .suspend) q := by
  simp only [fiberSwap, Code.wp_bind, Code.wp_get, Code.wp_ite, if_neg hs, Code.wp_modify]

/-- **`acl_fiber_switch`**, when the running fiber has been put where it waits. -/
theorem wp_fiberSwitch (h : SocketAcl.Sound ringOf none (Function.update t.status f .suspend) t.place q)
    (hf : t.running = some f) (hs : t.status f ≠ .exiting) :
    Code.wp queueExec fiberSwitch (fun _ t' q' => t'.Sound ringOf q' ∧ Keeps t q t' q') t q := by
  simp only [fiberSwitch, Code.wp_bind, Code.wp_get, wp_popHead, Code.wp_modify, hf]
  refine (wp_swap_source (t := { t with running := (q .ready).head? }) hs).2 ?_
  refine (wp_swap_next (t := { t.setStatus f .suspend with running := (q .ready).head? }) h rfl).2 ?_
  exact ⟨h.pick, rfl, rfl, rfl, fun r => Function.update_of_ne (by simp) ..⟩

/-- **`acl_fiber_yield`.** -/
theorem wp_fiberYield (h : t.Sound ringOf q) (hf : t.running = some f) :
    Code.wp queueExec fiberYield (fun _ t' q' => t'.Sound ringOf q' ∧ Keeps t q t' q') t q := by
  obtain ⟨halive, hstatus, hnot⟩ := h.current f hf
  simp only [fiberYield, Code.wp_bind, wp_size, Code.wp_ite]
  split
  · have hdrop : q.drop f = q := funext fun r => List.erase_of_not_mem (hnot r)
    simp only [wp_fiberRunning hf, Code.wp_modify]
    rw [wp_fiberReady (by simp [Thread.setStatus]) (by rw [hdrop]; exact hnot), hdrop]
    have hleave : SocketAcl.Sound ringOf none (Function.update t.status f .suspend) (Function.update t.place f (t.place f))
        (q.put (some .ready) f) := by
      have h' := h
      unfold Thread.Sound at h'
      rw [hf] at h'
      refine h'.leave (fun r hr => ?_) (by rintro ⟨⟩) ?_
      · obtain rfl := Option.some.inj hr
        exact halive
      · refine iff_of_false (by rintro ⟨⟩) fun hg => ?_
        rw [hg] at halive
        cases halive
    rw [Function.update_eq_self] at hleave
    refine Code.wp_mono (wp_fiberSwitch (f := f) (?_ : SocketAcl.Sound ringOf none _ _ _) hf (by simp [Thread.setStatus])) ?_
    · simpa [Thread.setStatus] using hleave
    · rintro _ t' q' ⟨hsound, hkeeps⟩
      refine ⟨hsound, hkeeps.place, hkeeps.killed, hkeeps.obj, fun r => (hkeeps.rings r).trans ?_⟩
      exact Queues.put_of_ne (by simp)
  · exact (Code.wp_pure _).2 ⟨h, rfl, rfl, rfl, fun _ => rfl⟩

/-- **`fiber_exit`.** -/
theorem wp_fiberExit (h : t.Sound ringOf q) (hf : t.running = some f) :
    Code.wp queueExec fiberExit
      (fun _ t' q' => t'.Sound ringOf q' ∧ Keeps (t.setPlace f .gone) q t' q') t q := by
  obtain ⟨-, -, hnot⟩ := h.current f hf
  have hleave : SocketAcl.Sound ringOf none (Function.update t.status f .exiting) (Function.update t.place f .gone)
      (q.put (some .dead) f) := by
    have h' := h
    unfold Thread.Sound at h'
    rw [hf] at h'
    refine h'.leave (fun r hr => ?_) nofun (iff_of_true rfl rfl)
    obtain rfl := Option.some.inj hr
    rfl
  have hready : q.put (some .dead) f .ready = q .ready := Queues.put_of_ne (by simp)
  have hnot' : ∀ r, f ∉ Function.update q .ready (q .ready).tail r := by
    intro r hr
    by_cases hrr : r = .ready
    · subst hrr
      rw [Function.update_self] at hr
      exact hnot _ (List.mem_of_mem_tail hr)
    · rw [Function.update_of_ne hrr] at hr
      exact hnot r hr
  -- popping the ready and burying the dead commute
  have hswap : Queues.put (Function.update q .ready (q .ready).tail) (some .dead) f =
      Function.update (q.put (some .dead) f) .ready (q .ready).tail := by
    simp only [Queues.put, Option.elim]
    rw [Function.update_of_ne (by simp), Function.update_comm (by simp)]
  simp only [fiberExit, fiberSwitch, Code.wp_bind, wp_fiberRunning hf, Code.wp_modify, Code.wp_get, wp_popHead,
    hf, Thread.setPlace, Thread.setStatus]
  have hpick := hleave.pick
  rw [hready] at hpick
  generalize hnext : (q .ready).head? = next at hpick ⊢
  have hburied : ∀ {Q : Unit → Thread Obj Op ι → Queues η ι → Prop} {t₁ : Thread Obj Op ι},
      t₁.status f = .exiting → Code.wp queueExec (fiberSwap none next) Q t₁
        (Function.update (q.put (some .dead) f) .ready (q .ready).tail) →
      Code.wp queueExec (fiberSwap (some f) next) Q t₁ (Function.update q .ready (q .ready).tail) := by
    intro Q t₁ hs hq
    rw [← hswap] at hq
    simp only [fiberSwap, Code.wp_bind, Code.wp_get, Code.wp_ite, if_pos hs] at hq ⊢
    rw [wp_prepend hnot']
    exact hq
  refine hburied (Function.update_self ..) ((wp_swap_next hleave ?_).2 ?_)
  · rw [hready, hnext]
  · exact ⟨hpick, rfl, rfl, rfl, fun r => (Function.update_of_ne (by simp) ..).trans (Queues.put_of_ne (by simp))⟩

/-- A fiber that is not alive is given a place of its own, outside all queues, and made ready. -/
theorem wp_born (h : t.Sound ringOf q) (hf : (t.place f).alive = false) (hdrop : ∀ r, f ∉ q.drop f r) :
    Code.wp queueExec (fiberReady f)
      (fun _ t' q' => t'.Sound ringOf q' ∧
        Keeps { t.setPlace f .user with killed := Function.update t.killed f false } (q.drop f) t' q')
      { (t.setStatus f .none).setPlace f .user with killed := Function.update t.killed f false } (q.drop f) := by
  have hrun : t.running ≠ some f := by
    intro hrun
    rw [(h.current f hrun).1] at hf
    cases hf
  have hout := h.takeOut (f := f) (by simp : FiberStatus.none ≠ .exiting) (fun hr => absurd hr hrun)
  have hsame : (q.drop f).drop f = q.drop f := funext fun r => List.erase_of_not_mem (hdrop r)
  have hready := hout.moveReady (f := f) (by rw [Function.update_self]; rfl) hrun
  rw [hsame] at hready
  refine (wp_fiberReady ?_ ?_).2 ?_
  · simp [Thread.setStatus, Thread.setPlace]
  · rw [hsame]
    exact hdrop
  · rw [hsame]
    exact ⟨hready, rfl, rfl, rfl, fun r => Queues.put_of_ne (by simp)⟩

/-- **`acl_fiber_create2`**: some fiber that was unborn or dead is in its own code. -/
theorem wp_fiberCreate {new : ι} (h : t.Sound ringOf q) (hnew : t.place new = .unborn) :
    Code.wp queueExec (fiberCreate new) (fun _ t' q' => t'.Sound ringOf q' ∧
      ∃ f, (t.place f = .unborn ∨ t.place f = .gone) ∧
        Keeps { t.setPlace f .user with killed := Function.update t.killed f false } q t' q') t q := by
  simp only [fiberCreate, Code.wp_bind, wp_popHead]
  cases hdead : q .dead with
  | nil =>
    have hsame : Function.update q .dead [] = q := by rw [← hdead, Function.update_eq_self]
    have hnot : ∀ r, new ∉ q r := by
      intro r hr
      have hfits := h.fits r new hr
      rw [hnew] at hfits
      cases r with
      | ready => cases hfits
      | dead => cases hfits
      | ring r =>
        obtain ⟨op, hop, _⟩ := hfits
        cases hop
    have hdrop : q.drop new = q := funext fun r => List.erase_of_not_mem (hnot r)
    have hborn := wp_born h (f := new) (by rw [hnew]; rfl) fun r => by rw [hdrop]; exact hnot r
    rw [hdrop] at hborn
    simp only [List.head?_nil, List.tail_nil, hsame, Code.wp_bind, calloc, Code.wp_perform, queueExec, if_pos hnot,
      Code.wp_pure, Code.wp_modify]
    refine ⟨(), q, rfl, Code.wp_mono hborn ?_⟩
    rintro _ t' q' ⟨hsound, hkeeps⟩
    exact ⟨hsound, new, .inl hnew, hkeeps⟩
  | cons f l =>
    have hf : f ∈ q .dead := by
      rw [hdead]
      exact List.mem_cons_self
    have hgone : t.place f = .gone := h.fits .dead f hf
    have hdrop : q.drop f = Function.update q .dead l := by
      funext r
      by_cases hr : r = .dead
      · subst hr
        rw [Function.update_self, Queues.drop, hdead, List.erase_cons_head]
      · rw [Function.update_of_ne hr]
        exact List.erase_of_not_mem fun hmem => hr (h.apart r .dead f hmem hf)
    have hborn := wp_born h (f := f) (by rw [hgone]; rfl) fun r hr => (h.mem_drop.1 hr).2 rfl
    rw [hdrop] at hborn
    simp only [List.head?_cons, List.tail_cons]
    refine Code.wp_mono hborn ?_
    rintro _ t' q' ⟨hsound, hkeeps⟩
    refine ⟨hsound, f, .inr hgone, hkeeps.place, hkeeps.killed, hkeeps.obj, fun r => (hkeeps.rings r).trans ?_⟩
    exact Function.update_of_ne (by simp) ..

/-- A turn of the schedule loop. -/
theorem wp_fiberSchedule (h : t.Sound ringOf q) (hidle : t.running = none) :
    Code.wp queueExec fiberSchedule (fun _ t' q' => t'.Sound ringOf q' ∧ Keeps t q t' q') t q := by
  have hpick := h
  unfold Thread.Sound at hpick
  rw [hidle] at hpick
  replace hpick := hpick.pick
  simp only [fiberSchedule, Code.wp_bind, wp_popHead]
  cases hready : q .ready with
  | nil =>
    have hsame : Function.update q .ready [] = q := by rw [← hready, Function.update_eq_self]
    simp only [List.head?_nil, List.tail_nil, hsame, Code.wp_pure]
    exact ⟨h, rfl, rfl, rfl, fun _ => rfl⟩
  | cons f l =>
    rw [hready] at hpick
    simp only [List.head?_cons, List.tail_cons, Code.wp_bind, Code.wp_modify, fiberSwap, Code.wp_pure, Code.wp_get,
      Code.wp_ite, Thread.setStatus, Function.update_self] at hpick ⊢
    simp only [ne_eq, reduceCtorEq, not_false_eq_true, if_true, Function.update_idem]
    exact ⟨hpick, rfl, rfl, rfl, fun r => Function.update_of_ne (by simp) ..⟩

/-- **An operation waits**: behind the others in its ring. -/
theorem wp_fiberWait {r : η} {op : Op} (h : t.Sound ringOf q) (hf : t.running = some f) (hr : ringOf op = some r) :
    Code.wp queueExec (fiberWait r op)
      (fun _ t' q' => t'.Sound ringOf q' ∧ Keeps (t.setPlace f (.inside op)) (q.put (some (.ring r)) f) t' q') t q := by
  obtain ⟨halive, hstatus, hnot⟩ := h.current f hf
  have hleave : SocketAcl.Sound ringOf none (Function.update t.status f .suspend)
      (Function.update t.place f (.inside op)) (q.put (some (.ring r)) f) := by
    have h' := h
    unfold Thread.Sound at h'
    rw [hf] at h'
    refine h'.leave (fun r' hr' => ?_) nofun (iff_of_false nofun nofun)
    obtain rfl := Option.some.inj hr'
    exact ⟨op, rfl, hr⟩
  simp only [fiberWait, Code.wp_bind, wp_fiberRunning hf, wp_prepend hnot, Code.wp_modify]
  exact wp_fiberSwitch (t := t.setPlace f (.inside op)) hleave hf (by simp [Thread.setPlace, hstatus])

/-- **The first that waits in a ring is made ready**, whether it has been taken out before or not. -/
theorem wp_wakeFirst {r : η} {g : ι} {l : List ι} {q₁ : Queues η ι} (h : t.Sound ringOf q) (hq : q (.ring r) = g :: l)
    (hq₁ : q₁ = q ∨ q₁ = q.drop g) :
    Code.wp queueExec (fiberReady g)
      (fun _ t' q' => t'.Sound ringOf q' ∧ t' = t.setStatus g .ready ∧ q' (.ring r) = l ∧
        ∀ r', r' ≠ r → q' (.ring r') = q (.ring r')) t q₁ := by
  have hg : g ∈ q (.ring r) := by
    rw [hq]
    exact List.mem_cons_self
  have hrun : t.running ≠ some g := fun hg' => (h.current g hg').2.2 _ hg
  have halive : (t.place g).alive = true := by
    obtain ⟨op, hop, _⟩ := h.fits (.ring r) g hg
    rw [hop]
    rfl
  have hnot : ∀ r, g ∉ q.drop g r := fun r hr => (h.mem_drop.1 hr).2 rfl
  have hdrop : q₁.drop g = q.drop g := by
    rcases hq₁ with rfl | rfl
    · rfl
    · exact funext fun r => List.erase_of_not_mem (hnot r)
  refine (wp_fiberReady (h.not_exiting halive) (by rw [hdrop]; exact hnot)).2 ?_
  rw [hdrop]
  refine ⟨h.moveReady halive hrun, rfl, ?_, fun r' hr => ?_⟩
  · rw [Queues.put_of_ne (by simp), Queues.drop, hq, List.erase_cons_head]
  · rw [Queues.put_of_ne (by simp), Queues.drop]
    refine List.erase_of_not_mem fun hmem => hr ?_
    exact Head.ring.inj (h.apart _ _ g hmem hg)

end Rules

/-! ## Where a fiber stands -/

section Places

variable {place : ι → Place Op} {killed : ι → Bool} {f g : ι} {p : Place Op} {op : Op}

omit [DecidableEq η] in
theorem inside_of_update (hp : p ≠ .inside op) (hg : Function.update place f p g = .inside op) :
    g ≠ f ∧ place g = .inside op := by
  have hgf : g ≠ f := by
    rintro rfl
    rw [Function.update_self] at hg
    exact hp hg
  rw [Function.update_of_ne hgf] at hg
  exact ⟨hgf, hg⟩

omit [DecidableEq η] in
theorem inside_update (hf : place f ≠ .inside op) (hg : place g = .inside op) :
    Function.update place f p g = .inside op := by
  have hgf : g ≠ f := by
    rintro rfl
    exact hf hg
  rw [Function.update_of_ne hgf]
  exact hg

omit [DecidableEq η] in
/-- Who has been killed, is. -/
theorem killed_update (hg : killed g = true) : Function.update killed f true g = true := by
  by_cases hgf : g = f
  · rw [hgf, Function.update_self]
  · rw [Function.update_of_ne hgf]
    exact hg

end Places

/-! ## Objects verified by themselves -/

/-- What the fibers share is in order, seen from where they stand, who has been killed, the object and who
waits for it. -/
abbrev ObjInv (η Obj Op ι : Type) := (ι → Place Op) → (ι → Bool) → Obj → (η → List ι) → Prop

/-- Every fiber is somewhere, and what they share is in order. -/
structure Good (ringOf : Op → Option η) (I : ObjInv η Obj Op ι) (t : Thread Obj Op ι) (q : Queues η ι) : Prop where
  sound : t.Sound ringOf q
  inv : I t.place t.killed t.obj fun r => q (.ring r)

/-- **What is to be proved of an object's operations**, for fibers that do what is `allowed`. -/
structure Verified (code : SyncCode η Obj Op ι) (ringOf : Op → Option η) (I : ObjInv η Obj Op ι)
    (allowed : Thread Obj Op ι → FiberLabel Op ι → Prop) : Prop where
  call : ∀ t q f op, Good ringOf I t q → t.running = some f → t.place f = .user → allowed t (.call op) →
    Code.wp queueExec (code.call op) (fun _ => Good ringOf I) t q
  resume : ∀ t q f op, Good ringOf I t q → t.running = some f → t.place f = .inside op →
    Code.wp queueExec (code.resume op) (fun _ => Good ringOf I) t q
  exit : ∀ t f w, I t.place t.killed t.obj w → t.running = some f → t.place f = .user → allowed t .exit →
    I (Function.update t.place f .gone) t.killed t.obj w
  born : ∀ place killed obj w f, I place killed obj w → (place f = .unborn ∨ place f = .gone) →
    I (Function.update place f .user) (Function.update killed f false) obj w
  kill : ∀ t f w, I t.place t.killed t.obj w → allowed t (.kill f) →
    I t.place (Function.update t.killed f true) t.obj w ∧
      I t.place (Function.update t.killed f true) t.obj fun r => (w r).erase f

section Verified

variable {code : SyncCode η Obj Op ι} {ringOf : Op → Option η} {I : ObjInv η Obj Op ι}
  {allowed : Thread Obj Op ι → FiberLabel Op ι → Prop} {t t' : Thread Obj Op ι} {q q' : Queues η ι} {f : ι} {obj : Obj}

omit [DecidableEq η] [DecidableEq ι] in
theorem Keeps.good (h : Keeps t q t' q') (hsound : t'.Sound ringOf q')
    (hI : I t.place t.killed t.obj fun r => q (.ring r)) : Good ringOf I t' q' := by
  refine ⟨hsound, ?_⟩
  rw [h.place, h.killed, h.obj, show (fun r => q' (.ring r)) = fun r => q (.ring r) from funext h.rings]
  exact hI

omit [DecidableEq ι] in
theorem isUser_iff {p : Place Op} : p.isUser = true ↔ p = .user := by
  cases p <;> simp [Place.isUser]

omit [DecidableEq ι] in
theorem isUnborn_iff {p : Place Op} : p.isUnborn = true ↔ p = .unborn := by
  cases p <;> simp [Place.isUnborn]

omit [DecidableEq ι] in
theorem isInside_iff {p : Place Op} : p.isInside = true ↔ ∃ op, p = .inside op := by
  cases p <;> simp [Place.isInside]

theorem Good.sleep (h : Good ringOf I t q) (hf : t.running = some f) (huser : t.place f = .user) :
    Code.wp queueExec fiberSwitch (fun _ => Good ringOf I) t q := by
  obtain ⟨-, hstatus, -⟩ := h.sound.current f hf
  have hleave : Sound ringOf none (Function.update t.status f .suspend) (Function.update t.place f .user) q := by
    have h' := h.sound
    unfold Thread.Sound at h'
    rw [hf] at h'
    exact h'.leave (o := none) nofun (fun _ => rfl) (iff_of_false nofun nofun)
  rw [← huser, Function.update_eq_self] at hleave
  refine Code.wp_mono (wp_fiberSwitch hleave hf (by rw [hstatus]; simp)) ?_
  rintro _ t' q' ⟨hsound, hkeeps⟩
  exact hkeeps.good hsound h.inv

/-- A fiber is made ready that waits for no object. -/
theorem Good.wake (h : Good ringOf I t q) (hf : t.running ≠ some f) (huser : t.place f = .user) :
    Code.wp queueExec (fiberReady f) (fun _ => Good ringOf I) t q := by
  have halive : (t.place f).alive = true := by rw [huser]; rfl
  refine (wp_fiberReady (h.sound.not_exiting halive) fun r hr => (h.sound.mem_drop.1 hr).2 rfl).2 ?_
  refine ⟨h.sound.moveReady halive hf, ?_⟩
  have hrings : (fun r => ((q.drop f).put (some .ready) f) (.ring r)) = fun r => q (.ring r) := by
    funext r
    rw [Queues.put_of_ne (by simp)]
    refine List.erase_of_not_mem fun hmem => ?_
    obtain ⟨op, hop, _⟩ := h.sound.fits (.ring r) f hmem
    rw [huser] at hop
    cases hop
  rw [hrings]
  exact h.inv

theorem Good.kill (hv : Verified code ringOf I allowed) (h : Good ringOf I t q) (hallowed : allowed t (.kill f))
    (hborn : t.place f ≠ .unborn) :
    Code.wp queueExec (fiberKill f) (fun _ => Good ringOf I) t q := by
  obtain ⟨hflag, hdrop⟩ := hv.kill t f _ h.inv hallowed
  simp only [fiberKill, Code.wp_bind, Code.wp_modify, Code.wp_get, Code.wp_ite]
  split
  · rename_i hs
    have halive : (t.place f).alive = true := by
      cases hp : t.place f with
      | unborn => exact absurd hp hborn
      | gone =>
        rw [(h.sound.exiting f).2 hp] at hs
        cases hs
      | user => rfl
      | inside op => rfl
    have hrun : t.running ≠ some f := by
      intro hf
      rw [(h.sound.current f hf).2.1] at hs
      cases hs
    refine (wp_fiberReady ?_ fun r hr => (h.sound.mem_drop.1 hr).2 rfl).2 ⟨h.sound.moveReady halive hrun, ?_⟩
    · exact h.sound.not_exiting halive
    · have hrings : (fun r => ((q.drop f).put (some .ready) f) (.ring r)) = fun r => (q (.ring r)).erase f :=
        funext fun r => Queues.put_of_ne (by simp)
      rw [hrings]
      exact hdrop
  · exact (Code.wp_pure _).2 ⟨h.sound, hflag⟩

/-- **Whatever happens next** keeps everything in order, and does not fail. -/
theorem Verified.step (hv : Verified code ringOf I allowed) (h : Good ringOf I t q) {e : FiberLabel Op ι}
    (henabled : t.enabled e = true) (hallowed : allowed t e) :
    Code.wp queueExec (code.exec e) (fun _ => Good ringOf I) t q := by
  cases e with
  | create new =>
    simp only [Thread.enabled, Bool.and_eq_true, isUnborn_iff] at henabled
    refine Code.wp_mono (wp_fiberCreate h.sound henabled.2) ?_
    rintro _ t' q' ⟨hsound, f, hf, hkeeps⟩
    exact hkeeps.good hsound (hv.born _ _ _ _ f h.inv hf)
  | yield =>
    simp only [Thread.enabled, Option.any_eq_true, isUser_iff] at henabled
    obtain ⟨f, hf, _⟩ := henabled
    refine Code.wp_mono (wp_fiberYield h.sound hf) ?_
    rintro _ t' q' ⟨hsound, hkeeps⟩
    exact hkeeps.good hsound h.inv
  | sleep =>
    simp only [Thread.enabled, Option.any_eq_true, isUser_iff] at henabled
    obtain ⟨f, hf, huser⟩ := henabled
    exact h.sleep hf huser
  | wake f =>
    simp only [Thread.enabled, Bool.and_eq_true, isUser_iff, bne_iff_ne] at henabled
    exact h.wake henabled.2 henabled.1.2
  | kill f =>
    simp only [Thread.enabled, Bool.and_eq_true, Bool.not_eq_true', ← Bool.not_eq_true, isUnborn_iff] at henabled
    exact h.kill hv hallowed henabled.2
  | exit =>
    simp only [Thread.enabled, Option.any_eq_true, isUser_iff] at henabled
    obtain ⟨f, hf, huser⟩ := henabled
    refine Code.wp_mono (wp_fiberExit h.sound hf) ?_
    rintro _ t' q' ⟨hsound, hkeeps⟩
    exact hkeeps.good hsound (hv.exit t f _ h.inv hf huser hallowed)
  | schedule =>
    refine Code.wp_mono (wp_fiberSchedule h.sound (Option.isNone_iff_eq_none.1 henabled)) ?_
    rintro _ t' q' ⟨hsound, hkeeps⟩
    exact hkeeps.good hsound h.inv
  | call op =>
    simp only [Thread.enabled, Option.any_eq_true, isUser_iff] at henabled
    obtain ⟨f, hf, huser⟩ := henabled
    exact hv.call t q f op h hf huser hallowed
  | resume =>
    simp only [Thread.enabled, Option.any_eq_true, isInside_iff] at henabled
    obtain ⟨f, hf, op, hop⟩ := henabled
    simp only [SyncCode.exec, Code.wp_bind, wp_fiberRunning hf, Code.wp_get, hop]
    exact hv.resume t q f op h hf hop

omit [DecidableEq η] [DecidableEq ι] in
/-- Before anything has happened. -/
theorem good_initial (h0 : I (fun _ => .unborn) (fun _ => false) obj fun _ => []) :
    Good ringOf I (Thread.initial obj) fun _ => [] := by
  refine ⟨⟨fun _ => List.nodup_nil, nofun, nofun, nofun, nofun, nofun, fun _ => iff_of_false nofun nofun⟩, h0⟩

/-- The thread has not failed, its rings hold queues, and everything is in order. -/
def Orderly (ringOf : Op → Option η) (I : ObjInv η Obj Op ι) (s : Option (Thread Obj Op ι × Memory (Node (Head η) ι))) :
    Prop := ∃ t m q, s = some (t, m) ∧ Rings m q ∧ Good ringOf I t q

/-- Every step is one the fibers are allowed to make. -/
def Obeys (allowed : Thread Obj Op ι → FiberLabel Op ι → Prop)
    (s : Option (Thread Obj Op ι × Memory (Node (Head η) ι))) (e : FiberLabel Op ι) : Prop :=
  ∀ t m, s = some (t, m) → allowed t e

/-- A step of the code does what it would do to queues. -/
theorem step_of_wp {code : SyncCode η Obj Op ι} {P : Thread Obj Op ι → Queues η ι → Prop} {t₀ : Thread Obj Op ι}
    {m m₀ : Memory (Node (Head η) ι)} {s' : Option (Thread Obj Op ι × Memory (Node (Head η) ι))} {e : FiberLabel Op ι}
    (hrings : Rings m q)
    (hwp : t.enabled e = true → Code.wp queueExec (code.exec e) (fun _ => P) t q)
    (hs : (code.thread memoryExec t₀ m₀).step (some (t, m)) e = some s') :
    ∃ t' m' q', s' = some (t', m') ∧ Rings m' q' ∧ P t' q' := by
  simp only [SyncCode.thread, Option.bind_some] at hs
  split at hs
  · rename_i henabled
    obtain ⟨a, t', q', hrun, hP⟩ := hwp henabled
    obtain ⟨m', hm', hrings'⟩ := Prog.run_refines memory_refines _ hrings hrun
    rw [hm'] at hs
    obtain rfl := Option.some.inj hs
    exact ⟨t', m', q', rfl, hrings', hP⟩
  · cases hs

/-- **The code, on its rings**: a step the fibers are allowed to make does not fail and keeps everything in order. -/
theorem Verified.code_step (hv : Verified code ringOf I allowed) {t₀ : Thread Obj Op ι}
    {m₀ : Memory (Node (Head η) ι)} {s s' : Option (Thread Obj Op ι × Memory (Node (Head η) ι))} {e : FiberLabel Op ι}
    (h : Orderly ringOf I s) (hobeys : Obeys allowed s e) (hs : (code.thread memoryExec t₀ m₀).step s e = some s') :
    Orderly ringOf I s' := by
  obtain ⟨t, m, q, rfl, hrings, hgood⟩ := h
  exact step_of_wp hrings (fun henabled => hv.step hgood henabled (hobeys t m rfl)) hs

/-- **Whatever state the thread comes to**, everything is in order there. -/
theorem Verified.reach (hv : Verified code ringOf I allowed)
    (h0 : I (fun _ => .unborn) (fun _ => false) obj fun _ => [])
    {s : Option (Thread Obj Op ι × Memory (Node (Head η) ι))}
    (h : (code.thread memoryExec (Thread.initial obj) Memory.initial).Reach (Obeys allowed) s) :
    Orderly ringOf I s :=
  h.inv ⟨_, _, _, rfl, rings_initial, good_initial h0⟩ fun _ _ _ => hv.code_step

/-- **And whatever comes later.** -/
theorem Verified.path (hv : Verified code ringOf I allowed) {t₀ : Thread Obj Op ι} {m₀ : Memory (Node (Head η) ι)}
    {s s' : Option (Thread Obj Op ι × Memory (Node (Head η) ι))} (h : Orderly ringOf I s)
    (hpath : (code.thread memoryExec t₀ m₀).Path (Obeys allowed) s s') : Orderly ringOf I s' := by
  induction hpath with
  | refl => exact h
  | step _ hd hs ih => exact hv.code_step ih hd hs

end Verified

end SocketAcl
