import SocketAcl.Spec.MutexCode

/-!
# The points of `fiber_mutex.c`

What the points of the code have in common is their `Class`; `flow` says what an instruction makes of it, and is
all that the proofs use of the text of the functions.
-/

namespace SocketAcl

namespace MutexCode

variable {ι τ χ ω : Type}

/-! ## The points of the code -/

/-- Where a fiber stands with the array of the waiters. -/
inductive Post
  | away
  /-- it will try the mutex -/
  | coming
  /-- it has entered itself, at `pos` -/
  | trying (pos : ℕ)
  | deleting (pos : ℕ)
  | leaving
  | switching
  | waiting
  deriving DecidableEq

/-- **What the points have in common.** -/
structure Class (ι : Type) where
  /-- it holds `mutex->lock` -/
  lock : Bool
  /-- it holds `mutex->thread_lock` -/
  thread : Bool
  /-- `mutex->fiber` is its own -/
  owns : Bool
  /-- the fiber that it has taken out of the array and will wake -/
  pending : Option ι
  /-- it has found the array empty, and holds `mutex->lock` since -/
  emptied : Bool
  post : Post

def LockPc.cls : LockPc → Class ι
  | .tryEarly _ | .enterLate _ | .enter _ | .delay | .delayed => ⟨false, false, false, none, false, .coming⟩
  | .tryFirst _ | .append _ => ⟨true, false, false, none, false, .coming⟩
  | .trySecond _ pos => ⟨true, false, false, none, false, .trying pos⟩
  | .delete pos => ⟨true, true, false, none, false, .deleting pos⟩
  | .release _ => ⟨true, false, false, none, false, .leaving⟩
  | .switch _ => ⟨false, false, false, none, false, .switching⟩
  | .waiting _ => ⟨false, false, false, none, false, .waiting⟩
  | .threadRelease | .add | .addRelease => ⟨true, false, false, none, false, .away⟩
  | .addEnter | .block => ⟨false, false, false, none, false, .away⟩
  | .owner | .removeEnter | .fiber => ⟨false, true, false, none, false, .away⟩
  | .taken | .remove | .removeRelease => ⟨true, true, false, none, false, .away⟩

def UnlockPc.cls : UnlockPc ι → Class ι
  | .enter => ⟨false, true, true, none, false, .away⟩
  | .pop => ⟨true, true, true, none, false, .away⟩
  | .check popped => ⟨true, true, true, popped, popped.isNone, .away⟩
  | .owner popped | .fiber popped | .releaseThread popped => ⟨true, true, false, popped, popped.isNone, .away⟩
  | .release popped => ⟨true, false, false, popped, false, .away⟩
  | .wake popped => ⟨false, false, false, some popped, false, .away⟩

def Control.cls (inside : χ → Bool) : Control ι χ → Class ι
  | .user c => ⟨false, inside c, inside c, none, false, .away⟩
  | .locking _ _ pc => pc.cls
  | .unlocking _ _ pc => pc.cls

/-- What only a thread without fibers comes to. -/
def LockPc.threadOnly : LockPc → Bool
  | .threadRelease | .addEnter | .add | .addRelease | .block => true
  | _ => false

/-- The calls begin and end where the client says. -/
def Control.Honest (S : Setting ι τ) (C : Client ι χ ω) (f : ι) : Control ι χ → Prop
  | .user _ => True
  | .locking c n pc => C.action c = .lock n ∧ (pc.threadOnly = true → S.hooked f = false)
  | .unlocking c n _ => C.action c = .unlock n

/-- Where a fiber may be that does not run. -/
structure Class.Rests (a : Class ι) : Prop where
  lock : a.lock = false
  post : a.post = .away ∨ a.post = .coming ∨ a.post = .waiting

/-- What holds at every point. -/
structure Class.Wf (a : Class ι) : Prop where
  asleep : a.post = .waiting → a.thread = false ∧ a.pending = none
  guarded : ∀ pos, a.post = .trying pos ∨ a.post = .deleting pos ∨ a.post = .leaving → a.lock = true
  emptied : a.emptied = true → a.lock = true
  owns : a.owns = true → a.thread = true

theorem wf (inside : χ → Bool) (k : Control ι χ) : (k.cls inside).Wf := by
  cases k with
  | user c => exact ⟨nofun, by simp [Control.cls], nofun, fun h => h⟩
  | locking c n pc => cases pc <;> constructor <;> simp [Control.cls, LockPc.cls]
  | unlocking c n pc => cases pc <;> constructor <;> simp [Control.cls, UnlockPc.cls]

theorem rests_of_mayPause (inside : χ → Bool) {k : Control ι χ} (h : k.mayPause = true) :
    (k.cls inside).Rests ∧ (k.cls inside).post = .away := by
  cases k with
  | user c => exact ⟨⟨rfl, .inl rfl⟩, rfl⟩
  | locking c n pc => cases h
  | unlocking c n pc =>
    cases pc with
    | wake g => exact ⟨⟨rfl, .inl rfl⟩, rfl⟩
    | _ => cases h

theorem mayAwake_of_mayPause {k : Control ι χ} (h : k.mayPause = true) : k.mayAwake = true := by
  cases k with
  | user c => rfl
  | locking c n pc => cases h
  | unlocking c n pc =>
    cases pc with
    | wake g => rfl
    | _ => cases h

theorem post_of_mayAwake {inside : χ → Bool} {k : Control ι χ} (h : k.mayAwake = true) :
    (k.cls inside).post ≠ .waiting := by
  cases k with
  | user c => nofun
  | locking c n pc =>
    cases pc with
    | delayed => nofun
    | _ => cases h
  | unlocking c n pc =>
    cases pc with
    | wake g => nofun
    | _ => cases h

variable [DecidableEq τ] {S : Setting ι τ} {C : Client ι χ ω} {f g : ι} {k : Control ι χ}

/-- **What an instruction makes of the class** `a` of the point it stands at. -/
def Flow (S : Setting ι τ) (C : Client ι χ ω) (f : ι) (a : Class ι) : Instr ι χ ω → Prop
  | .lock next => a.lock = false ∧ next.cls C.inside = { a with lock := true }
  | .unlock next => a.lock = true ∧ a.emptied = false ∧
      next.cls C.inside = { a with lock := false, post := if a.post = .leaving then .switching else a.post }
  | .tryThread taken busy => a.thread = false ∧ a.owns = false ∧ a.pending = none ∧ a.emptied = false ∧
      ((∃ pos, a.post = .trying pos ∧ taken.cls C.inside = { a with thread := true, post := .deleting pos } ∧
          busy.cls C.inside = { a with post := .leaving }) ∨
        a.post = .coming ∧ taken.cls C.inside = { a with thread := true, post := .away } ∧
          (busy.cls C.inside = a ∨ busy.cls C.inside = { a with post := .away }))
  | .lockThread next => a.lock = false ∧ a.thread = false ∧ a.owns = false ∧ a.post = .away ∧ next.cls C.inside = { a with thread := true }
  | .unlockThread next => a.thread = true ∧ a.owns = false ∧ a.lock = true ∧ a.post = .away ∧
      (a.pending = none → a.emptied = true) ∧ next.cls C.inside = { a with thread := false, emptied := false }
  | .append next => a.lock = true ∧ a.emptied = false ∧ a.post = .coming ∧ ∀ pos, (next pos).cls C.inside = { a with post := .trying pos }
  | .delete pos next => a.lock = true ∧ a.thread = true ∧ a.emptied = false ∧ a.post = .deleting pos ∧ next.cls C.inside = { a with post := .away }
  | .popFront next => a.lock = true ∧ a.thread = true ∧ a.emptied = false ∧ a.post = .away ∧ a.pending = none ∧
      ∀ fiber, (next fiber).cls C.inside = { a with pending := fiber, emptied := fiber.isNone }
  | .check next => a.owns = true ∧ next.cls C.inside = { a with owns := false }
  | .setOwner _ next | .addThread next | .removeThread next => next.cls C.inside = a
  | .setFiber fiber next => a.thread = true ∧ next.cls C.inside = { a with owns := (next.cls C.inside).owns } ∧
      ((next.cls C.inside).owns = true → fiber = S.me f)
  | .suspend next => a.lock = false ∧ a.thread = false ∧ a.pending = none ∧
      (a.post = .switching ∧ next.cls C.inside = { a with post := .waiting } ∨
        a.post = .coming ∧ next.cls C.inside = a ∧ next.mayAwake = true)
  | .ready g next => a.pending = some g ∧ a.post = .away ∧ a.lock = false ∧ S.tid f = S.tid g ∧
      next.cls C.inside = { a with pending := none }
  | .send g next => a.pending = some g ∧ a.post = .away ∧ a.lock = false ∧
      next.cls C.inside = { a with pending := none }
  | .work next => a = ⟨false, a.thread, a.thread, none, false, .away⟩ ∧
      ∀ data, C.inside (next data).1 = a.thread
  | .jump next => next.cls C.inside = a ∨
      (a.post = .away ∨ a.post = .waiting) ∧ next.cls C.inside = { a with post := .coming }
  | .exit => a.lock = false ∧ a.thread = false ∧ a.pending = none ∧ a.post = .away

omit [DecidableEq τ] in
theorem loop_cls (w : ℕ) : (S.loop w).cls = (⟨false, false, false, none, false, .coming⟩ : Class ι) := by
  unfold Setting.loop
  split <;> rfl

omit [DecidableEq τ] in
theorem flow_lock {c n : χ} (pc : LockPc) (h : C.action c = .lock n) :
    Flow S C f (pc.cls) (lockCode S f c n pc) := by
  obtain ⟨_, hin⟩ := C.lock c n h
  cases pc with
  | waiting w =>
    refine .inr ⟨.inr rfl, ?_⟩
    simp only [Control.cls]
    split
    · rfl
    · exact loop_cls _
  | delayed => exact .inl (loop_cls 0)
  | tryEarly w | tryFirst w | owner =>
    cases hf : S.hooked f <;> simp [lockCode, Flow, LockPc.cls, Control.cls, hf]
  | _ => simp [lockCode, Flow, LockPc.cls, Control.cls, hin, Control.mayAwake]

theorem flow_unlock {c n : χ} (pc : UnlockPc ι) (h : C.action c = .unlock n) :
    Flow S C f (pc.cls) (unlockCode S f c n pc) := by
  obtain ⟨_, hin⟩ := C.unlock c n h
  cases pc with
  | release popped => cases popped <;> simp [unlockCode, Flow, UnlockPc.cls, Control.cls, hin]
  | wake g =>
    simp only [unlockCode]
    split <;> simp_all [Flow, UnlockPc.cls, Control.cls]
  | _ => simp [unlockCode, Flow, UnlockPc.cls, Control.cls]

/-- **All that the proofs know of the text of the functions.** -/
theorem flow (hk : k.Honest S C f) : Flow S C f (k.cls C.inside) (code S C f k) := by
  cases k with
  | user c =>
    simp only [code]
    split
    · rename_i n h
      obtain ⟨hc, _⟩ := C.lock c n h
      refine .inr ⟨.inl rfl, ?_⟩
      simp only [Control.cls, hc]
      exact loop_cls 0
    · rename_i n h
      obtain ⟨hc, _⟩ := C.unlock c n h
      refine .inl ?_
      simp [Control.cls, UnlockPc.cls, hc]
    · rename_i next h
      exact ⟨rfl, C.work c next h⟩
    · rename_i h
      have hc := C.returned c h
      simp [Flow, Control.cls, hc]
  | locking c n pc => exact flow_lock pc hk.1
  | unlocking c n pc => exact flow_unlock pc hk

/-! ## What the code is for -/

/-- Where the client stands: a call takes effect when `thread_lock` changes hands. -/
def Control.client : Control ι χ → χ
  | .user c => c
  | .locking c n pc => if (pc.cls : Class ι).thread then n else c
  | .unlocking c n pc => if pc.cls.thread then c else n

/-- **What an instruction means** to a client that stands at `c`. -/
def Meaning (C : Client ι χ ω) (c : χ) : Instr ι χ ω → Prop
  | .tryThread taken busy => C.action c = .lock taken.client ∧ busy.client = c
  | .lockThread next => C.action c = .lock next.client
  | .unlockThread next => C.action c = .unlock next.client
  | .work next => C.action c = .work next
  | .exit => True
  | .append next => ∀ pos, (next pos).client = c
  | .popFront next => ∀ fiber, (next fiber).client = c
  | .lock next | .unlock next | .delete _ next | .check next | .setOwner _ next | .setFiber _ next
  | .addThread next | .removeThread next | .suspend next | .ready _ next | .send _ next | .jump next => next.client = c

theorem meaning (hk : k.Honest S C f) : Meaning C k.client (code S C f k) := by
  cases k with
  | user c =>
    simp only [code, Control.client]
    split
    · simp only [Meaning, Control.client, loop_cls]
      rfl
    · rfl
    · assumption
    · trivial
  | locking c n pc =>
    have hlock : C.action c = .lock n := hk.1
    cases pc with
    | waiting w =>
      simp only [code, lockCode, Meaning, Control.client]
      split
      · rfl
      · rw [loop_cls]
        rfl
    | delayed =>
      simp only [code, lockCode, Meaning, Control.client, loop_cls]
      rfl
    | tryEarly w | tryFirst w | owner =>
      cases hf : S.hooked f <;> simp [code, lockCode, Meaning, LockPc.cls, Control.client, hf, hlock]
    | _ => simp [code, lockCode, Meaning, LockPc.cls, Control.client, hlock]
  | unlocking c n pc =>
    have hunlock : C.action c = .unlock n := hk
    cases pc with
    | release popped => cases popped <;> simp [code, unlockCode, Meaning, UnlockPc.cls, Control.client]
    | wake g =>
      simp only [code, unlockCode]
      split <;> simp [Meaning, UnlockPc.cls, Control.client]
    | _ => simp [code, unlockCode, Meaning, UnlockPc.cls, Control.client, hunlock]

/-- Every point an instruction leads to. -/
def Instr.All (P : Control ι χ → Prop) : Instr ι χ ω → Prop
  | .lock next | .unlock next | .lockThread next | .unlockThread next | .delete _ next | .check next
  | .setOwner _ next | .setFiber _ next | .addThread next | .removeThread next | .suspend next | .ready _ next
  | .send _ next | .jump next => P next
  | .tryThread taken busy => P taken ∧ P busy
  | .append next => ∀ pos, P (next pos)
  | .popFront next => ∀ fiber, P (next fiber)
  | .work next => ∀ data, P (.user (next data).1)
  | .exit => True

theorem honest (hk : k.Honest S C f) : (code S C f k).All (Control.Honest S C f) := by
  have hloop : ∀ w, (S.loop w).threadOnly = false := by
    intro w
    unfold Setting.loop
    split <;> rfl
  cases k with
  | user c =>
    simp only [code]
    split
    · rename_i n h
      refine ⟨h, fun hloop' => ?_⟩
      rw [hloop] at hloop'
      cases hloop'
    · assumption
    · exact fun _ => trivial
    · trivial
  | locking c n pc =>
    obtain ⟨hlock, hthread⟩ := hk
    cases pc with
    | tryEarly w | tryFirst w =>
      refine ⟨⟨hlock, (by rintro ⟨⟩)⟩, hlock, fun h => ?_⟩
      by_contra hf
      rw [Bool.not_eq_false] at hf
      rw [hf] at h
      cases h
    | append w => exact fun _ => ⟨hlock, (by rintro ⟨⟩)⟩
    | trySecond w pos => exact ⟨⟨hlock, (by rintro ⟨⟩)⟩, hlock, (by rintro ⟨⟩)⟩
    | waiting w =>
      refine ⟨hlock, fun h => ?_⟩
      split at h
      · cases h
      · rw [hloop] at h
        cases h
    | delayed =>
      refine ⟨hlock, fun h => ?_⟩
      rw [hloop] at h
      cases h
    | owner =>
      refine ⟨hlock, fun h => ?_⟩
      split at h <;> cases h
    | fiber => trivial
    | threadRelease | addEnter | add | addRelease | block => exact ⟨hlock, fun _ => hthread rfl⟩
    | _ => exact ⟨hlock, (by rintro ⟨⟩)⟩
  | unlocking c n pc =>
    cases pc with
    | release popped => cases popped <;> first | exact trivial | exact hk
    | pop => exact fun _ => hk
    | wake g =>
      simp only [code, unlockCode]
      split <;> exact trivial
    | _ => exact hk

theorem not_hooked_of_lockThread {next : Control ι χ} (hk : k.Honest S C f) (h : code S C f k = .lockThread next) :
    S.hooked f = false := by
  cases k with
  | user c =>
    simp only [code] at h
    split at h <;> cases h
  | locking c n pc =>
    cases pc with
    | block => exact hk.2 rfl
    | _ => cases h
  | unlocking c n pc =>
    cases pc with
    | release popped => cases popped <;> cases h
    | wake g =>
      simp only [code, unlockCode] at h
      split at h <;> cases h
    | _ => cases h

/-- A fiber ends in its own code. -/
theorem returned_of_exit (h : code S C f k = .exit) : ∃ c, k = .user c ∧ C.action c = .returned := by
  cases k with
  | user c =>
    simp only [code] at h
    split at h
    · cases h
    · cases h
    · cases h
    · rename_i hreturned
      exact ⟨c, rfl, hreturned⟩
  | locking c n pc => cases pc <;> cases h
  | unlocking c n pc =>
    cases pc with
    | release popped => cases popped <;> cases h
    | wake g =>
      simp only [code, unlockCode] at h
      split at h <;> cases h
    | _ => cases h

end MutexCode

end SocketAcl
