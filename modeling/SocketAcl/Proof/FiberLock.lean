import SocketAcl.Proof.Fiber
import SocketAcl.Spec.FiberLock

/-!
# The lock is handed over in order

Who has called `lock` is granted it in that order (`Inv.queue`), the owner is the one fiber between its call's
return and its `unlock`, or one whose call is about to return (`Inv.holder`).

* `verified`: the operations of the lock, each by itself.
* `lock_safe`: what holds in every state of a thread whose fibers unlock only what they hold.
-/

namespace SocketAcl

namespace FiberLock

variable {κ ι : Type} [DecidableEq κ] [DecidableEq ι]

def ringOf : Op κ → Option (LockRing κ)
  | .lock lk => some (.waiting lk)
  | _ => none

/-- **Discipline**: only who holds a lock unlocks it, nobody locks what it holds already, and nobody ends
holding one. Fibers are killed only if `kills`. -/
def Allowed (kills : Bool) (t : Thread (Locks κ ι) (Op κ) ι) : FiberLabel (Op κ) ι → Prop
  | .call (.lock lk) | .call (.trylock lk) => ∀ f, t.running = some f → f ∉ t.obj.inside lk
  | .call (.unlock lk) => ∀ f, t.running = some f → f ∈ t.obj.inside lk
  | .exit => ∀ f, t.running = some f → ∀ lk, f ∉ t.obj.inside lk
  | .kill _ => kills = true
  | _ => True

/-- What an answer says about the lock. -/
def Answer.Fair (a : Answer κ ι) : Prop :=
  match a.op with
  | .lock _ => (a.result = 0 ↔ a.owns = true) ∧ (a.owns = false → a.canceled = true)
  | .trylock _ => a.result = 0 ↔ a.owns = false
  | .unlock _ => True

/-- **The invariant of one lock**, with `w` its waiting fibers. -/
structure One (kills : Bool) (place : ι → Place (Op κ)) (killed : ι → Bool) (lk : κ) (owner : Option ι)
    (asked granted inside w : List ι) : Prop where
  idle : owner = none → w = []
  waits : ∀ f ∈ w, owner ≠ some f
  sole : inside = [] ∨ ∃ f, inside = [f] ∧ owner = some f
  holder : ∀ f, owner = some f → f ∈ inside ∨ place f = .inside (.lock lk)
  outside : ∀ f, place f = .inside (.lock lk) → f ∉ inside
  alive : ∀ f ∈ inside, (place f).alive = true
  pending : ∀ f, place f = .inside (.lock lk) → f ∈ w ∨ owner = some f ∨ killed f = true
  order : (granted ++ w).Sublist asked
  queue : kills = false → granted ++ w = asked

/-- **The invariant.** -/
structure Inv (kills : Bool) (place : ι → Place (Op κ)) (killed : ι → Bool) (obj : Locks κ ι)
    (w : LockRing κ → List ι) : Prop where
  one : ∀ lk, One kills place killed lk (obj.owner lk) (obj.asked lk) (obj.granted lk) (obj.inside lk) (w (.waiting lk))
  locks : ∀ f op, place f = .inside op → ∃ lk, op = .lock lk
  answers : ∀ a ∈ obj.answers, a.Fair

section One

variable {kills : Bool} {place : ι → Place (Op κ)} {killed : ι → Bool} {lk : κ} {owner : Option ι}
  {asked granted inside w : List ι} {f g : ι} {p : Place (Op κ)}

omit [DecidableEq κ] in
/-- A fiber that has nothing to do with the lock goes elsewhere. -/
theorem One.move (h : One kills place killed lk owner asked granted inside w) (hold : place f ≠ .inside (.lock lk))
    (hnew : p ≠ .inside (.lock lk)) (halive : f ∈ inside → p.alive = true) :
    One kills (Function.update place f p) killed lk owner asked granted inside w := by
  refine ⟨h.idle, h.waits, h.sole, fun g hg => ?_, fun g hg => ?_, fun g hg => ?_, fun g hg => ?_, h.order, h.queue⟩
  · rcases h.holder g hg with hin | hp
    · exact .inl hin
    · refine .inr ?_
      have hgf : g ≠ f := fun hgf => hold (hgf ▸ hp)
      rw [Function.update_of_ne hgf]
      exact hp
  · have hgf : g ≠ f := by
      rintro rfl
      rw [Function.update_self] at hg
      exact hnew hg
    rw [Function.update_of_ne hgf] at hg
    exact h.outside g hg
  · by_cases hgf : g = f
    · subst hgf
      rw [Function.update_self]
      exact halive hg
    · rw [Function.update_of_ne hgf]
      exact h.alive g hg
  · have hgf : g ≠ f := by
      rintro rfl
      rw [Function.update_self] at hg
      exact hnew hg
    rw [Function.update_of_ne hgf] at hg
    exact h.pending g hg

omit [DecidableEq κ] in
/-- More fibers are killed. -/
theorem One.kill (h : One kills place killed lk owner asked granted inside w) :
    One kills place (Function.update killed f true) lk owner asked granted inside w := by
  refine { h with pending := fun g hg => ?_ }
  rcases h.pending g hg with hw | ho | hk
  · exact .inl hw
  · exact .inr (.inl ho)
  · refine .inr (.inr ?_)
    by_cases hgf : g = f
    · rw [hgf, Function.update_self]
    · rw [Function.update_of_ne hgf]
      exact hk

omit [DecidableEq κ] in
/-- A fiber that is not in the operation is no longer killed, or not. -/
theorem One.revive (h : One kills place killed lk owner asked granted inside w) (hf : place f ≠ .inside (.lock lk)) :
    One kills place (Function.update killed f false) lk owner asked granted inside w := by
  refine { h with pending := fun g hg => ?_ }
  have hgf : g ≠ f := by
    rintro rfl
    exact hf hg
  rw [Function.update_of_ne hgf]
  exact h.pending g hg

omit [DecidableEq κ] in
/-- A killed fiber does not wait any longer. -/
theorem One.drop (h : One kills place killed lk owner asked granted inside w) (hk : kills = true)
    (hf : killed f = true) : One kills place killed lk owner asked granted inside (w.erase f) := by
  refine { h with idle := fun ho => ?_, waits := fun g hg => ?_, pending := fun g hg => ?_, order := ?_, queue := ?_ }
  · rw [h.idle ho]
    rfl
  · exact h.waits g (List.mem_of_mem_erase hg)
  · rcases h.pending g hg with hw | ho | hg
    · by_cases hgf : g = f
      · exact .inr (.inr (hgf ▸ hf))
      · exact .inl ((List.mem_erase_of_ne hgf).2 hw)
    · exact .inr (.inl ho)
    · exact .inr (.inr hg)
  · exact ((List.Sublist.refl _).append List.erase_sublist).trans h.order
  · rw [hk]
    nofun

omit [DecidableEq κ] [DecidableEq ι] in
/-- **Taken at once.** -/
theorem One.take (h : One kills place killed lk none asked granted inside w) (hf : place f = .user) :
    One kills place killed lk (some f) (asked ++ [f]) (granted ++ [f]) (inside ++ [f]) w := by
  have hw := h.idle rfl
  have hin : inside = [] := by
    rcases h.sole with hin | ⟨g, _, ho⟩
    · exact hin
    · cases ho
  subst hw hin
  refine ⟨nofun, nofun, .inr ⟨f, rfl, rfl⟩, fun g hg => ?_, fun g hg => ?_, fun g hg => ?_, fun g hg => ?_, ?_, fun hk => ?_⟩
  · obtain rfl := Option.some.inj hg
    exact .inl (by simp)
  · intro hmem
    obtain rfl : g = f := by simpa using hmem
    rw [hf] at hg
    cases hg
  · obtain rfl : g = f := by simpa using hg
    rw [hf]
    rfl
  · rcases h.pending g hg with hw | ho | hk
    · cases hw
    · cases ho
    · exact .inr (.inr hk)
  · have horder := h.order
    rw [List.append_nil] at horder ⊢
    exact horder.append (.refl _)
  · have hqueue := h.queue hk
    rw [List.append_nil] at hqueue ⊢
    rw [hqueue]

omit [DecidableEq κ] in
/-- **A fiber waits** for the owner. -/
theorem One.wait (h : One kills place killed lk owner asked granted inside w) (ho : owner ≠ none) (hof : owner ≠ some f)
    (hf : f ∉ inside) :
    One kills (Function.update place f (.inside (.lock lk))) killed lk owner (asked ++ [f]) granted inside (w ++ [f]) := by
  refine ⟨fun hnone => absurd hnone ho, fun g hg => ?_, h.sole, fun g hg => ?_, fun g hg => ?_, fun g hg => ?_,
    fun g hg => ?_, ?_, fun hk => ?_⟩
  · rcases List.mem_append.1 hg with hg | hg
    · exact h.waits g hg
    · rw [List.mem_singleton.1 hg]
      exact hof
  · have hgf : g ≠ f := by
      rintro rfl
      exact hof hg
    rw [Function.update_of_ne hgf]
    exact h.holder g hg
  · by_cases hgf : g = f
    · rw [hgf]
      exact hf
    · rw [Function.update_of_ne hgf] at hg
      exact h.outside g hg
  · have hgf : g ≠ f := by
      rintro rfl
      exact hf hg
    rw [Function.update_of_ne hgf]
    exact h.alive g hg
  · by_cases hgf : g = f
    · exact .inl (List.mem_append_right _ (by simp [hgf]))
    · rw [Function.update_of_ne hgf] at hg
      exact (h.pending g hg).imp_left (List.mem_append_left _)
  · rw [← List.append_assoc]
    exact h.order.append (.refl _)
  · rw [← List.append_assoc, h.queue hk]

omit [DecidableEq κ] in
/-- **A fiber comes back** with the lock. -/
theorem One.enter (h : One kills place killed lk (some f) asked granted inside w) (hf : place f = .inside (.lock lk)) :
    One kills (Function.update place f .user) killed lk (some f) asked granted (inside ++ [f]) w := by
  have hin : inside = [] := by
    rcases h.sole with hin | ⟨g, hin, ho⟩
    · exact hin
    · obtain rfl := Option.some.inj ho
      exact absurd (by rw [hin]; simp) (h.outside f hf)
  subst hin
  refine ⟨h.idle, h.waits, .inr ⟨f, rfl, rfl⟩, fun g hg => ?_, fun g hg hmem => ?_, fun g hg => ?_, fun g hg => ?_,
    h.order, h.queue⟩
  · exact .inl (by simpa using (Option.some.inj hg).symm)
  · obtain rfl : g = f := by simpa using hmem
    rw [Function.update_self] at hg
    cases hg
  · obtain rfl : g = f := by simpa using hg
    rw [Function.update_self]
    rfl
  · have hgf : g ≠ f := by
      rintro rfl
      rw [Function.update_self] at hg
      cases hg
    rw [Function.update_of_ne hgf] at hg
    exact h.pending g hg

omit [DecidableEq κ] in
/-- **A killed fiber comes back** without it. -/
theorem One.giveUp (h : One kills place killed lk owner asked granted inside w) (hf : place f = .inside (.lock lk))
    (ho : owner ≠ some f) :
    One kills (Function.update place f .user) killed lk owner asked granted inside w := by
  have hout := h.outside f hf
  refine ⟨h.idle, h.waits, h.sole, fun g hg => ?_, fun g hg => ?_, fun g hg => ?_, fun g hg => ?_, h.order, h.queue⟩
  · have hgf : g ≠ f := by
      rintro rfl
      exact ho hg
    rw [Function.update_of_ne hgf]
    exact h.holder g hg
  · have hgf : g ≠ f := by
      rintro rfl
      rw [Function.update_self] at hg
      cases hg
    rw [Function.update_of_ne hgf] at hg
    exact h.outside g hg
  · have hgf : g ≠ f := by
      rintro rfl
      exact hout hg
    rw [Function.update_of_ne hgf]
    exact h.alive g hg
  · have hgf : g ≠ f := by
      rintro rfl
      rw [Function.update_self] at hg
      cases hg
    rw [Function.update_of_ne hgf] at hg
    exact h.pending g hg

omit [DecidableEq κ] in
/-- **The lock is handed over** to the first that waits, or is free. -/
theorem One.hand (h : One kills place killed lk (some f) asked granted inside w) (hf : f ∈ inside) (hnd : w.Nodup)
    (hw : ∀ g ∈ w, place g = .inside (.lock lk)) (hfp : place f ≠ .inside (.lock lk)) :
    One kills place killed lk w.head? asked (granted ++ w.head?.toList) (inside.erase f) w.tail := by
  have hin : inside = [f] := by
    rcases h.sole with hin | ⟨g, hin, ho⟩
    · rw [hin] at hf
      cases hf
    · obtain rfl := Option.some.inj ho
      exact hin
  subst hin
  have herase : [f].erase f = [] := by simp
  rw [herase]
  have hlist : w.head?.toList ++ w.tail = w := by cases w <;> rfl
  have hlog : granted ++ w.head?.toList ++ w.tail = granted ++ w := by rw [List.append_assoc, hlist]
  refine ⟨fun hnone => ?_, fun g hg => ?_, .inl rfl, fun g hg => .inr ?_, nofun, nofun, fun g hg => ?_, ?_, fun hk => ?_⟩
  · rw [List.head?_eq_none_iff.1 hnone]
    rfl
  · intro hhead
    obtain ⟨l, rfl⟩ := List.head?_eq_some_iff.1 hhead
    exact (List.nodup_cons.1 hnd).1 hg
  · exact hw g (List.mem_of_mem_head? hg)
  · rcases h.pending g hg with hmem | ho | hk
    · cases w with
      | nil => cases hmem
      | cons g' l =>
        rcases List.mem_cons.1 hmem with rfl | hmem
        · exact .inr (.inl rfl)
        · exact .inl hmem
    · exact absurd (Option.some.inj ho ▸ hg) hfp
    · exact .inr (.inr hk)
  · rw [hlog]
    exact h.order
  · rw [hlog]
    exact h.queue hk

end One

section Calls

variable {kills : Bool} {t : Thread (Locks κ ι) (Op κ) ι} {q : Queues (LockRing κ) ι} {f : ι} {lk : κ} {op : Op κ}
  {place place' : ι → Place (Op κ)} {killed killed' : ι → Bool} {obj obj' : Locks κ ι} {w w' : LockRing κ → List ι}

omit [DecidableEq ι] in
/-- One lock changes, and the others do not. -/
theorem Inv.of_one (lk : κ) (obj : Locks κ ι) (w : LockRing κ → List ι)
    (hone : One kills place' killed' lk (obj'.owner lk) (obj'.asked lk) (obj'.granted lk) (obj'.inside lk)
      (w' (.waiting lk)))
    (hother : ∀ lk', lk' ≠ lk → One kills place' killed' lk' (obj.owner lk') (obj.asked lk') (obj.granted lk')
      (obj.inside lk') (w (.waiting lk')))
    (hsame : ∀ lk', lk' ≠ lk → obj'.owner lk' = obj.owner lk' ∧ obj'.asked lk' = obj.asked lk' ∧
      obj'.granted lk' = obj.granted lk' ∧ obj'.inside lk' = obj.inside lk' ∧ w' (.waiting lk') = w (.waiting lk'))
    (hlocks : ∀ f op, place' f = .inside op → ∃ lk, op = .lock lk) (hanswers : ∀ a ∈ obj'.answers, a.Fair) :
    Inv kills place' killed' obj' w' := by
  refine ⟨fun lk' => ?_, hlocks, hanswers⟩
  by_cases hlk : lk' = lk
  · rw [hlk]
    exact hone
  · obtain ⟨h₁, h₂, h₃, h₄, h₅⟩ := hsame lk' hlk
    rw [h₁, h₂, h₃, h₄, h₅]
    exact hother lk' hlk

omit [DecidableEq κ] [DecidableEq ι] in
/-- One more answer. -/
theorem fair_append {answers : List (Answer κ ι)} {a : Answer κ ι} (h : ∀ a ∈ answers, a.Fair) (ha : a.Fair) :
    ∀ b ∈ answers ++ [a], b.Fair := by
  intro b hb
  rcases List.mem_append.1 hb with hb | hb
  · exact h b hb
  · rw [List.mem_singleton.1 hb]
    exact ha

omit [DecidableEq κ] in
theorem locks_update {p : Place (Op κ)} (h : ∀ f op, place f = .inside op → ∃ lk, op = .lock lk)
    (hp : ∀ op, p = .inside op → ∃ lk, op = .lock lk) (g : ι) (op : Op κ)
    (hg : Function.update place f p g = .inside op) : ∃ lk, op = .lock lk := by
  by_cases hgf : g = f
  · rw [hgf, Function.update_self] at hg
    exact hp op hg
  · rw [Function.update_of_ne hgf] at hg
    exact h g op hg

/-- What a call leaves behind when it returns. -/
def Locks.answered (obj : Locks κ ι) (killed : ι → Bool) (op : Op κ) (lk : κ) (f : ι) (result : ℤ) : Locks κ ι :=
  { obj with
    inside := if obj.owner lk == some f then Function.update obj.inside lk (obj.inside lk ++ [f]) else obj.inside
    answers := obj.answers ++ [⟨f, op, result, obj.owner lk == some f, killed f⟩] }

theorem wp_returns {result : ℤ} {Q : Unit → Thread (Locks κ ι) (Op κ) ι → Queues (LockRing κ) ι → Prop}
    (hf : t.running = some f) :
    Code.wp queueExec (returns op lk result) Q t q ↔
      Q () { t.setPlace f .user with obj := t.obj.answered t.killed op lk f result } q := by
  simp only [returns, Code.wp_bind, wp_fiberRunning hf, Code.wp_modify]
  rfl

/-- **The lock is free**: it is taken at once. -/
theorem good_take (h : Good ringOf (Inv kills) t q) (hf : t.running = some f) (huser : t.place f = .user)
    (hfree : t.obj.owner lk = none) {result : ℤ} (hfair : (Answer.mk f op result true (t.killed f)).Fair) :
    Good ringOf (Inv kills) { t.setPlace f .user with obj :=
      ((t.obj.asks lk f).setOwner lk (some f)).answered t.killed op lk f result } q := by
  have hplace : Function.update t.place f .user = t.place := by rw [← huser, Function.update_eq_self]
  refine ⟨h.sound.goOn hf, ?_⟩
  simp only [Thread.setPlace, hplace]
  have hone := h.inv.one lk
  rw [hfree] at hone
  have hself : ((t.obj.asks lk f).setOwner lk (some f)).owner lk = some f := Function.update_self ..
  refine Inv.of_one lk t.obj (fun r => q (.ring r)) ?_ (fun lk' _ => h.inv.one lk')
    (fun lk' hlk => ?_) h.inv.locks ?_
  · simpa [Locks.answered, hself, Locks.setOwner, Locks.asks] using hone.take huser
  · simp [Locks.answered, Locks.setOwner, Locks.asks, hlk]
  · simp only [Locks.answered, hself, beq_self_eq_true]
    exact fair_append h.inv.answers hfair

/-- **The lock is not free**, and not the fiber's: it waits behind the others. -/
theorem wp_wait (h : Good ringOf (Inv kills) t q) (hf : t.running = some f) (huser : t.place f = .user)
    (hheld : t.obj.owner lk ≠ none) (hself : t.obj.owner lk ≠ some f) (hout : f ∉ t.obj.inside lk) :
    Code.wp queueExec (fiberWait (.waiting lk) (.lock lk)) (fun _ => Good ringOf (Inv kills))
      { t with obj := t.obj.asks lk f } q := by
  refine Code.wp_mono (wp_fiberWait (f := f) (t := { t with obj := t.obj.asks lk f })
    h.sound hf rfl) ?_
  rintro _ t' q' ⟨hsound, hkeeps⟩
  refine hkeeps.good hsound ?_
  refine Inv.of_one lk t.obj (fun r => q (.ring r)) ?_ (fun lk' hlk => ?_) (fun lk' hlk => ?_)
    (locks_update h.inv.locks fun op hop => ?_) h.inv.answers
  · simpa [Queues.put, Locks.asks, Thread.setPlace] using (h.inv.one lk).wait hheld hself hout
  · refine (h.inv.one lk').move ?_ ?_ fun _ => rfl
    · rw [huser]
      rintro ⟨⟩
    · intro heq
      cases heq
      exact hlk rfl
  · simp [Queues.put, Locks.asks, Thread.setPlace, hlk]
  · cases hop
    exact ⟨lk, rfl⟩

theorem call_lock (h : Good ringOf (Inv kills) t q) (hf : t.running = some f) (huser : t.place f = .user)
    (hout : f ∉ t.obj.inside lk) :
    Code.wp queueExec (lockLock lk) (fun _ => Good ringOf (Inv kills)) t q := by
  simp only [lockLock, lock, Code.wp_bind, wp_fiberRunning hf, Code.wp_modify]
  rw [wp_fiberRunning (by exact hf)]
  simp only [Code.wp_get, Code.wp_ite, Code.wp_bind, Code.wp_modify, Code.wp_pure, Code.wp_fail]
  split
  · rename_i hfree
    refine (wp_returns (t := { t with obj := (t.obj.asks lk f).setOwner lk (some f) }) hf).2 ?_
    exact good_take h hf huser hfree (by simp [Answer.Fair])
  · rename_i hheld
    split
    · rename_i hself
      -- the owner is inside, or on its way there
      rcases (h.inv.one lk).holder f hself with hin | hp
      · exact hout hin
      · rw [huser] at hp
        cases hp
    · rename_i hself
      simp only [Bool.true_eq_false, if_false]
      exact wp_wait h hf huser hheld hself hout

theorem call_trylock (h : Good ringOf (Inv kills) t q) (hf : t.running = some f) (huser : t.place f = .user)
    (hout : f ∉ t.obj.inside lk) :
    Code.wp queueExec (lockTrylock lk) (fun _ => Good ringOf (Inv kills)) t q := by
  simp only [lockTrylock, lock, Code.wp_bind, wp_fiberRunning hf, Code.wp_modify, Code.wp_get, Code.wp_ite,
    Code.wp_pure, Code.wp_fail]
  split
  · rename_i hfree
    simp only [if_true]
    refine (wp_returns (t := { t with obj := (t.obj.asks lk f).setOwner lk (some f) }) hf).2 ?_
    exact good_take h hf huser hfree (by simp [Answer.Fair])
  · rename_i hheld
    split
    · rename_i hself
      rcases (h.inv.one lk).holder f hself with hin | hp
      · exact hout hin
      · rw [huser] at hp
        cases hp
    · rename_i hself
      refine (wp_returns (f := f) hf).2 ?_
      have hplace : Function.update t.place f .user = t.place := by rw [← huser, Function.update_eq_self]
      have hne : (t.obj.owner lk == some f) = false := by simpa using hself
      refine ⟨h.sound.goOn hf, ?_⟩
      simp only [Thread.setPlace, hplace, Locks.answered, hne]
      exact ⟨h.inv.one, h.inv.locks, fair_append h.inv.answers (by simp [Answer.Fair])⟩

theorem resume_lock (h : Good ringOf (Inv kills) t q) (hf : t.running = some f) (hp : t.place f = .inside (.lock lk)) :
    Code.wp queueExec (lockResume lk >>= returns (.lock lk) lk) (fun _ => Good ringOf (Inv kills)) t q := by
  obtain ⟨-, -, hnot⟩ := h.sound.current f hf
  have hdrop : q.drop f = q := funext fun r => List.erase_of_not_mem (hnot r)
  have hother : ∀ lk', lk' ≠ lk → One kills (Function.update t.place f .user) t.killed lk' (t.obj.owner lk')
      (t.obj.asked lk') (t.obj.granted lk') (t.obj.inside lk') (q (.ring (.waiting lk'))) := by
    intro lk' hlk
    refine (h.inv.one lk').move ?_ nofun fun _ => rfl
    rw [hp]
    intro heq
    cases heq
    exact hlk rfl
  have hlocks := locks_update (f := f) (p := .user) h.inv.locks nofun
  simp only [lockResume, Code.wp_bind, wp_fiberRunning hf, wp_detach, hdrop, Code.wp_get, Code.wp_ite, Code.wp_pure]
  split
  · rename_i hown
    refine (wp_returns hf).2 ⟨h.sound.goOn hf, ?_⟩
    have hone := h.inv.one lk
    rw [hown] at hone
    refine Inv.of_one lk t.obj (fun r => q (.ring r)) ?_ hother (fun lk' hlk => ?_) hlocks ?_
    · simpa [Locks.answered, hown, Thread.setPlace] using hone.enter hp
    · simp [Locks.answered, hown, hlk]
    · simp only [Locks.answered, hown, beq_self_eq_true]
      exact fair_append h.inv.answers (by simp [Answer.Fair])
  · rename_i hown
    refine (wp_returns hf).2 ⟨h.sound.goOn hf, ?_⟩
    have hne : (t.obj.owner lk == some f) = false := by simpa using hown
    -- it has been taken out of the ring by who killed it
    have hkilled : t.killed f = true := by
      rcases (h.inv.one lk).pending f hp with hw | ho | hk
      · exact absurd hw (hnot _)
      · exact absurd ho hown
      · exact hk
    refine Inv.of_one lk t.obj (fun r => q (.ring r)) ?_ hother (fun lk' hlk => ?_) hlocks ?_
    · simpa [Locks.answered, hne, Thread.setPlace] using (h.inv.one lk).giveUp hp hown
    · simp [Locks.answered, hne]
    · simp only [Locks.answered, hne, hkilled]
      exact fair_append h.inv.answers (by simp [Answer.Fair])

omit [DecidableEq κ] [DecidableEq ι] in
theorem owner_of_inside (h : Good ringOf (Inv kills) t q) (hin : f ∈ t.obj.inside lk) : t.obj.owner lk = some f := by
  rcases (h.inv.one lk).sole with hnil | ⟨g, hg, ho⟩
  · rw [hnil] at hin
    cases hin
  · rw [hg, List.mem_singleton] at hin
    rw [hin, ho]

/-- The locks when one has been handed to the first that waits. -/
theorem inv_hand (h : Good ringOf (Inv kills) t q) (huser : t.place f = .user) (hin : f ∈ t.obj.inside lk)
    {w : LockRing κ → List ι} (hw : w (.waiting lk) = (q (.ring (.waiting lk))).tail)
    (hw' : ∀ lk', lk' ≠ lk → w (.waiting lk') = q (.ring (.waiting lk'))) :
    Inv kills t.place t.killed
      ({ t.obj with inside := Function.update t.obj.inside lk ((t.obj.inside lk).erase f) }.setOwner lk
        (q (.ring (.waiting lk))).head?) w := by
  have howner := owner_of_inside h hin
  have hone := h.inv.one lk
  rw [howner] at hone
  refine Inv.of_one lk t.obj (fun r => q (.ring r)) ?_ (fun lk' _ => h.inv.one lk')
    (fun lk' hlk => ?_) h.inv.locks h.inv.answers
  · rw [hw]
    simp only [Locks.setOwner, Function.update_self]
    refine hone.hand hin (h.sound.nodup _) (fun g hg => ?_) (by rw [huser]; rintro ⟨⟩)
    obtain ⟨op, hop, hring⟩ := h.sound.fits (.ring (.waiting lk)) g hg
    obtain ⟨lk', rfl⟩ := h.inv.locks g op hop
    cases hring
    exact hop
  · simp [Locks.setOwner, hlk, hw' lk' hlk]

theorem call_unlock (h : Good ringOf (Inv kills) t q) (hf : t.running = some f) (huser : t.place f = .user)
    (hin : f ∈ t.obj.inside lk) :
    Code.wp queueExec (lockUnlock lk) (fun _ => Good ringOf (Inv kills)) t q := by
  have howner := owner_of_inside h hin
  simp only [lockUnlock, Code.wp_bind, wp_fiberRunning hf, Code.wp_get, howner, Code.wp_ite,
    Code.wp_modify, wp_detach_head, wp_first]
  simp only [reduceCtorEq, if_false, ne_eq, not_true_eq_false]
  cases hw : q (.ring (.waiting lk)) with
  | nil =>
    refine (Code.wp_pure _).2 ⟨h.sound, ?_⟩
    have hinv := inv_hand h huser hin (w := fun r => q (.ring r)) (by rw [hw]; rfl) fun _ _ => rfl
    rw [hw] at hinv
    exact hinv
  | cons g l =>
    simp only [List.head?_cons, Code.wp_bind, wp_detach]
    refine Code.wp_mono (wp_wakeFirst (q := q) h.sound hw (.inr rfl)) ?_
    rintro _ t₁ q₁ ⟨hsound₁, rfl, hself, hother⟩
    refine Code.wp_mono (wp_fiberYield hsound₁ hf) ?_
    rintro _ t' q' ⟨hsound, hkeeps⟩
    refine hkeeps.good hsound ?_
    have hinv := inv_hand h huser hin (w := fun r => q₁ (.ring r)) (by rw [hself, hw]; rfl) fun lk' hlk =>
      hother _ fun heq => hlk (LockRing.waiting.inj heq)
    rw [hw] at hinv
    exact hinv

/-- **The operations, each by itself.** -/
theorem verified : Verified (code κ ι) ringOf (Inv kills) (Allowed kills) where
  call t q f op h hf huser hallowed := by
    cases op with
    | lock lk => exact call_lock h hf huser (hallowed f hf)
    | trylock lk => exact call_trylock h hf huser (hallowed f hf)
    | unlock lk => exact call_unlock h hf huser (hallowed f hf)
  resume t q f op h hf hp := by
    obtain ⟨lk, rfl⟩ := h.inv.locks f op hp
    exact resume_lock h hf hp
  exit t f w h hf huser hallowed := by
    refine ⟨fun lk => (h.one lk).move ?_ nofun fun hin => absurd hin (hallowed f hf lk),
      locks_update h.locks nofun, h.answers⟩
    rw [huser]
    nofun
  born place killed obj w f h hf := by
    have hne : ∀ lk, place f ≠ .inside (.lock lk) := by
      intro lk hp
      rcases hf with hf | hf <;> rw [hf] at hp <;> cases hp
    refine ⟨fun lk => ?_, locks_update h.locks nofun, h.answers⟩
    have hmoved := (h.one lk).move (f := f) (p := .user) (hne lk) nofun fun _ => rfl
    exact hmoved.revive (by rw [Function.update_self]; nofun)
  kill t f w h hallowed := by
    refine ⟨⟨fun lk => (h.one lk).kill, h.locks, h.answers⟩, ⟨fun lk => ?_, h.locks, h.answers⟩⟩
    exact (h.one lk).kill.drop hallowed (by rw [Function.update_self])

omit [DecidableEq κ] [DecidableEq ι] in
theorem inv_initial : Inv (ι := ι) (κ := κ) kills (fun _ => .unborn) (fun _ => false)
    ⟨fun _ => none, fun _ => [], fun _ => [], fun _ => [], []⟩ fun _ => [] :=
  ⟨fun _ => ⟨fun _ => rfl, nofun, .inl rfl, nofun, nofun, nofun, nofun, .refl _, fun _ => rfl⟩, nofun, nofun⟩

/-- **The lock is handed over in order.** In every state of a thread whose fibers unlock what they hold and
lock what they do not: nothing has failed and the rings hold queues; at most one fiber is between its call's
return and its `unlock`, and the lock is its; where somebody waits, the lock has an owner, who is inside, or
whose call is about to return; the lock has been granted in the order in which it was asked for, and without
kills to everybody in front of those that wait; and `lock` has failed only for fibers that were killed, while
`trylock` has returned 0 exactly where it did not lock. -/
theorem lock_safe {s : Option (Thread (Locks κ ι) (Op κ) ι × Memory (Node (Head (LockRing κ)) ι))}
    (h : (fiberLock κ ι).Reach (Obeys (Allowed kills)) s) :
    ∃ t m q, s = some (t, m) ∧ Rings m q ∧
      (∀ lk, t.obj.inside lk = [] ∨ ∃ f, t.obj.inside lk = [f] ∧ t.obj.owner lk = some f) ∧
      (∀ lk, q (.ring (.waiting lk)) ≠ [] → ∃ f, t.obj.owner lk = some f ∧
        (f ∈ t.obj.inside lk ∨ t.place f = .inside (.lock lk) ∧ (t.running = some f ∨ f ∈ q .ready))) ∧
      (∀ lk, (t.obj.granted lk ++ q (.ring (.waiting lk))).Sublist (t.obj.asked lk)) ∧
      (kills = false → ∀ lk, t.obj.granted lk ++ q (.ring (.waiting lk)) = t.obj.asked lk) ∧
      ∀ a ∈ t.obj.answers, a.Fair := by
  obtain ⟨t, m, q, rfl, hrings, hgood⟩ := verified.reach inv_initial h
  refine ⟨t, m, q, rfl, hrings, fun lk => (hgood.inv.one lk).sole, fun lk hw => ?_,
    fun lk => (hgood.inv.one lk).order, fun hk lk => (hgood.inv.one lk).queue hk, hgood.inv.answers⟩
  cases ho : t.obj.owner lk with
  | none => exact absurd ((hgood.inv.one lk).idle ho) hw
  | some f =>
    refine ⟨f, rfl, ?_⟩
    rcases (hgood.inv.one lk).holder f ho with hin | hp
    · exact .inl hin
    · refine .inr ⟨hp, ?_⟩
      rcases hgood.sound.inside f _ hp with hrun | hready | ⟨r, hr, hring⟩
      · exact .inl hrun
      · exact .inr hready
      · cases hr
        exact absurd ho ((hgood.inv.one lk).waits f hring)

end Calls

/-- Two fibers and a lock: the second waits while the first has it. -/
def handOver : List (FiberLabel (Op Unit) (Fin 2)) :=
  [.create 0, .create 1, .schedule, .call (.lock ()), .yield, .call (.lock ()), .call (.unlock ()), .resume]

/-- The test that the labels of `handOver` keep the discipline. -/
def keepsDiscipline (s : Option (Thread (Locks Unit (Fin 2)) (Op Unit) (Fin 2) ×
    Memory (Node (Head (LockRing Unit)) (Fin 2)))) (e : FiberLabel (Op Unit) (Fin 2)) : Bool :=
  match s, e with
  | some (t, _), .call (.lock lk) => t.running.all fun f => !(t.obj.inside lk).contains f
  | some (t, _), .call (.unlock lk) => t.running.all fun f => (t.obj.inside lk).contains f
  | _, .create _ | _, .schedule | _, .yield | _, .resume => true
  | _, _ => false

theorem obeys_of_keeps {s : Option (Thread (Locks Unit (Fin 2)) (Op Unit) (Fin 2) ×
    Memory (Node (Head (LockRing Unit)) (Fin 2)))} {e : FiberLabel (Op Unit) (Fin 2)}
    (h : keepsDiscipline s e = true) : Obeys (Allowed false) s e := by
  rintro t m rfl
  cases e with
  | call op =>
    cases op with
    | lock lk =>
      intro f hf
      simpa [keepsDiscipline, hf] using h
    | trylock lk => cases h
    | unlock lk =>
      intro f hf
      simpa [keepsDiscipline, hf] using h
  | exit => cases h
  | kill f => cases h
  | _ => trivial

theorem lock_safe_handOver : ∃ (t : Thread (Locks Unit (Fin 2)) (Op Unit) (Fin 2)) (q : Queues (LockRing Unit) (Fin 2)),
    t.obj.inside () = [1] ∧ t.obj.granted () = [0, 1] ∧
      t.obj.granted () ++ q (.ring (.waiting ())) = t.obj.asked () := by
  obtain ⟨s, hreach, hs⟩ := System.exists_reach (S := fiberLock Unit (Fin 2)) (C := Obeys (Allowed false))
    (T := keepsDiscipline)
    (P := fun s => s.any fun result => result.1.obj.inside () == [1] && result.1.obj.granted () == [0, 1])
    handOver (fun _ _ _ h _ => obeys_of_keeps h) (by decide)
  obtain ⟨t, m, q, rfl, -, -, -, -, hqueue, -⟩ := lock_safe hreach
  simp only [Option.any_some, Bool.and_eq_true, beq_iff_eq] at hs
  exact ⟨t, q, hs.1, hs.2, hqueue rfl ()⟩

end FiberLock

end SocketAcl
