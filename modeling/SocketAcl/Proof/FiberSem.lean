import SocketAcl.Proof.Fiber
import SocketAcl.Spec.FiberSem

/-!
# A semaphore gives out what it has

Its number, the fibers inside, those about to be and the permits that were lost with a killed fiber add up to
the first number and what has been given since (`Core.count`).

* `verified`: the operations of the semaphore, each by itself.
* `sem_safe`: what holds in every state of a thread whose fibers do what they like.
-/

namespace SocketAcl

namespace FiberSem

variable {κ ι : Type} [DecidableEq κ] [DecidableEq ι]

def ringOf : Op κ → Option (SemRing κ)
  | .wait s => some (.waiting s)
  | _ => none

/-- Fibers are killed only if `kills`. -/
def Allowed (kills : Bool) (_ : Thread (κ → Sem κ ι) (Op κ) ι) : FiberLabel (Op κ) ι → Prop
  | .kill _ => kills = true
  | _ => True

/-- What an answer says about the permit. -/
structure Answer.Fair (a : Answer κ ι) : Prop where
  permit : 0 ≤ a.result → a.permit = true
  refusal : a.result < 0 → a.result = -1
  canceled : ∀ s, a.op = .wait s → a.result < 0 → a.canceled = true
  kept : a.permit = true → a.result < 0 → a.canceled = true

/-- **The invariant of one semaphore** that began with `num`, with `w` its waiting fibers. -/
structure Core (kills : Bool) (num : ℕ) (place : ι → Place (Op κ)) (killed : ι → Bool) (s : κ) (l : Sem κ ι)
    (w : List ι) : Prop where
  count : l.num + l.inside.length + l.admitted.length + l.lost = num + l.given
  nonneg : 0 ≤ l.num
  idle : 0 < l.num → w = []
  nodup : l.admitted.Nodup
  admitted : ∀ f ∈ l.admitted, place f = .inside (.wait s) ∧ f ∉ w
  pending : ∀ f, place f = .inside (.wait s) → f ∈ w ∨ f ∈ l.admitted ∨ killed f = true
  order : (l.granted ++ w).Sublist l.asked
  queue : kills = false → l.granted ++ w = l.asked
  lost : kills = false → l.lost = 0
  answers : ∀ a ∈ l.answers, a.Fair

/-- **The invariant.** -/
structure Inv (kills : Bool) (num : κ → ℕ) (place : ι → Place (Op κ)) (killed : ι → Bool) (obj : κ → Sem κ ι)
    (w : SemRing κ → List ι) : Prop where
  core : ∀ s, Core kills (num s) place killed s (obj s) (w (.waiting s))
  ops : ∀ f op, place f = .inside op → ∃ s, op = .wait s
  nokill : kills = false → ∀ f, killed f = false

section Core

variable {kills : Bool} {num : ℕ} {place : ι → Place (Op κ)} {killed : ι → Bool} {s : κ} {l : Sem κ ι} {w : List ι}
  {f g : ι} {p : Place (Op κ)}

omit [DecidableEq κ] in
/-- A fiber that has nothing to do with the semaphore goes elsewhere. -/
theorem Core.move (h : Core kills num place killed s l w) (hold : place f ≠ .inside (.wait s))
    (hnew : p ≠ .inside (.wait s)) : Core kills num (Function.update place f p) killed s l w := by
  refine { h with admitted := fun g hg => ?_, pending := fun g hg => ?_ }
  · exact (h.admitted g hg).imp_left (inside_update hold)
  · exact h.pending g (inside_of_update hnew hg).2

omit [DecidableEq κ] in
/-- More fibers are killed, and do not wait any longer. -/
theorem Core.kill (h : Core kills num place killed s l w) (hk : kills = true) {w' : List ι}
    (hw : w' = w ∨ w' = w.erase f) :
    Core kills num place (Function.update killed f true) s l w' := by
  have hsub : w'.Sublist w := by
    rcases hw with rfl | rfl
    · exact .refl _
    · exact List.erase_sublist
  have hmem : ∀ g ∈ w, g ∈ w' ∨ g = f := by
    intro g hg
    rcases hw with rfl | rfl
    · exact .inl hg
    · by_cases hgf : g = f
      · exact .inr hgf
      · exact .inl ((List.mem_erase_of_ne hgf).2 hg)
  refine { h with idle := fun hn => ?_, admitted := fun g hg => ?_, pending := fun g hg => ?_, order := ?_, queue := ?_ }
  · rw [h.idle hn] at hsub
    exact List.sublist_nil.1 hsub
  · exact (h.admitted g hg).imp_right fun hnot hg' => hnot (hsub.subset hg')
  · rcases h.pending g hg with hg | hg | hg
    · rcases hmem g hg with hg | rfl
      · exact .inl hg
      · exact .inr (.inr (Function.update_self ..))
    · exact .inr (.inl hg)
    · exact .inr (.inr (killed_update hg))
  · exact ((List.Sublist.refl _).append hsub).trans h.order
  · rw [hk]
    nofun

omit [DecidableEq κ] in
/-- A fiber that does not wait is no longer killed, or not. -/
theorem Core.revive (h : Core kills num place killed s l w) (hf : place f ≠ .inside (.wait s)) :
    Core kills num place (Function.update killed f false) s l w := by
  refine { h with pending := fun g hg => ?_ }
  have hgf : g ≠ f := by
    rintro rfl
    exact hf hg
  rw [Function.update_of_ne hgf]
  exact h.pending g hg

omit [DecidableEq κ] [DecidableEq ι] in
theorem Core.answer (h : Core kills num place killed s l w) {a : Answer κ ι} (ha : a.Fair) :
    Core kills num place killed s { l with answers := l.answers ++ [a] } w := by
  refine { h with answers := fun b hb => ?_ }
  rcases List.mem_append.1 hb with hb | hb
  · exact h.answers b hb
  · rw [List.mem_singleton.1 hb]
    exact ha

omit [DecidableEq κ] [DecidableEq ι] in
/-- **A permit is taken.** -/
theorem Core.take (h : Core kills num place killed s l w) (hn : 0 < l.num) :
    Core kills num place killed s (l.take f) w := by
  obtain rfl := h.idle hn
  have hcount := h.count
  have horder := h.order
  have hqueue := h.queue
  rw [List.append_nil] at horder hqueue
  refine { h with count := ?_, nonneg := ?_, idle := fun _ => rfl, order := ?_, queue := fun hk => ?_ }
  · simp only [Sem.take, List.length_append, List.length_singleton]
    omega
  · simp only [Sem.take]
    omega
  · rw [List.append_nil]
    exact horder.append (.refl _)
  · rw [List.append_nil, Sem.take, hqueue hk]

omit [DecidableEq κ] in
/-- **A fiber waits.** -/
theorem Core.wait (h : Core kills num place killed s l w) (hn : ¬ 0 < l.num) (hf : place f = .user) :
    Core kills num (Function.update place f (.inside (.wait s))) killed s { l with asked := l.asked ++ [f] }
      (w ++ [f]) := by
  have hne : place f ≠ .inside (.wait s) := by
    rw [hf]
    nofun
  refine { h with idle := fun hn' => absurd hn' hn, admitted := fun g hg => ?_, pending := fun g hg => ?_,
                  order := ?_, queue := fun hk => ?_ }
  · obtain ⟨hp, hnot⟩ := h.admitted g hg
    refine ⟨inside_update hne hp, fun hmem => ?_⟩
    rcases List.mem_append.1 hmem with hmem | hmem
    · exact hnot hmem
    · rw [List.mem_singleton.1 hmem] at hp
      exact hne hp
  · by_cases hgf : g = f
    · exact .inl (List.mem_append_right _ (List.mem_singleton.2 hgf))
    · rw [Function.update_of_ne hgf] at hg
      exact (h.pending g hg).imp_left (List.mem_append_left _)
  · rw [← List.append_assoc]
    exact h.order.append (.refl _)
  · rw [← List.append_assoc, h.queue hk]

/-- The record when `wait` goes on behind its switch. -/
def Sem.back (l : Sem κ ι) (f : ι) (canceled : Bool) : Sem κ ι :=
  { l with
    admitted := l.admitted.erase f
    inside := if canceled then l.inside else l.inside ++ [f]
    lost := if canceled ∧ f ∈ l.admitted then l.lost + 1 else l.lost }

omit [DecidableEq κ] in
/-- Who runs again has been given a permit, or killed. -/
theorem Core.back_cases (h : Core kills num place killed s l w) (hf : place f = .inside (.wait s)) (hw : f ∉ w) :
    f ∈ l.admitted ∨ f ∉ l.admitted ∧ killed f = true := by
  rcases h.pending f hf with hmem | ha | hk
  · exact absurd hmem hw
  · exact .inl ha
  · by_cases ha : f ∈ l.admitted
    · exact .inl ha
    · exact .inr ⟨ha, hk⟩

omit [DecidableEq κ] in
/-- **A fiber comes back** from the ring. -/
theorem Core.back (h : Core kills num place killed s l w) (hf : place f = .inside (.wait s)) (hw : f ∉ w)
    (hk : kills = false → killed f = false) :
    Core kills num (Function.update place f .user) killed s (l.back f (killed f)) w := by
  refine { h with count := ?_, nodup := h.nodup.erase f, admitted := fun g hg => ?_, pending := fun g hg => ?_,
                  lost := fun hkills => ?_ }
  · have hcount := h.count
    rcases h.back_cases hf hw with ha | ⟨ha, hkilled⟩
    · have hpos := List.length_pos_of_mem ha
      have hlen := List.length_erase_of_mem ha
      cases hkilled : killed f with
      | true =>
        simp only [Sem.back, ha, and_self, if_true]
        omega
      | false =>
        simp only [Sem.back, Bool.false_eq_true, false_and, if_false, List.length_append, List.length_singleton]
        omega
    · simp only [Sem.back, hkilled, ha, and_false, if_false, if_true, List.erase_of_not_mem ha]
      exact hcount
  · obtain ⟨hgf, hg⟩ := h.nodup.mem_erase_iff.1 hg
    rw [Function.update_of_ne hgf]
    exact h.admitted g hg
  · obtain ⟨hgf, hg⟩ := inside_of_update (p := .user) (by rintro ⟨⟩) hg
    rcases h.pending g hg with hg | hg | hg
    · exact .inl hg
    · exact .inr (.inl (h.nodup.mem_erase_iff.2 ⟨hgf, hg⟩))
    · exact .inr (.inr hg)
  · simp only [Sem.back, hk hkills, Bool.false_eq_true, false_and, if_false]
    exact h.lost hkills

omit [DecidableEq κ] in
/-- **A post** that nobody waits for. -/
theorem Core.post (h : Core kills num place killed s l []) : Core kills num place killed s (l.post f) [] := by
  have hcount := h.count
  have hnonneg := h.nonneg
  refine { h with count := ?_, nonneg := ?_, idle := fun _ => rfl }
  · simp only [Sem.post]
    split
    · rename_i hin
      have hpos := List.length_pos_of_mem hin
      rw [List.length_erase_of_mem hin]
      omega
    · rename_i hout
      rw [List.erase_of_not_mem hout]
      omega
  · simp only [Sem.post]
    omega

omit [DecidableEq κ] in
/-- **A post** that hands its permit to the first that waits. -/
theorem Core.hand (h : Core kills num place killed s l (g :: w)) (hnd : (g :: w).Nodup)
    (hg : place g = .inside (.wait s)) : Core kills num place killed s ((l.post f).hand g) w := by
  have hcount := h.count
  have hnum : ((l.post f).hand g).num = l.num := by simp [Sem.post, Sem.hand]
  refine { h with count := ?_, nonneg := ?_, idle := fun hn => ?_, nodup := ?_, admitted := fun a ha => ?_,
                  pending := fun a ha => ?_, order := ?_, queue := fun hk => ?_ }
  · rw [hnum]
    simp only [Sem.hand, Sem.post, List.length_append, List.length_singleton]
    split
    · rename_i hin
      have hpos := List.length_pos_of_mem hin
      rw [List.length_erase_of_mem hin]
      have hzero : ¬ 0 < l.num := fun hn => by cases h.idle hn
      omega
    · rename_i hout
      rw [List.erase_of_not_mem hout]
      omega
  · rw [hnum]
    exact h.nonneg
  · rw [hnum] at hn
    cases h.idle hn
  · refine List.nodup_append.2 ⟨h.nodup, List.nodup_singleton g, fun a ha b hb hab => ?_⟩
    rw [List.mem_singleton.1 hb] at hab
    exact (h.admitted a ha).2 (hab ▸ List.mem_cons_self)
  · rcases List.mem_append.1 ha with ha | ha
    · exact (h.admitted a ha).imp_right fun hnot hmem => hnot (List.mem_cons_of_mem _ hmem)
    · rw [List.mem_singleton.1 ha]
      exact ⟨hg, (List.nodup_cons.1 hnd).1⟩
  · rcases h.pending a ha with ha | ha | ha
    · rcases List.mem_cons.1 ha with rfl | ha
      · exact .inr (.inl (List.mem_append_right _ (List.mem_singleton.2 rfl)))
      · exact .inl ha
    · exact .inr (.inl (List.mem_append_left _ ha))
    · exact .inr (.inr ha)
  · have horder := h.order
    rwa [List.append_cons] at horder
  · have hqueue := h.queue hk
    rwa [List.append_cons] at hqueue

end Core

section Calls

variable {kills : Bool} {num : κ → ℕ} {t : Thread (κ → Sem κ ι) (Op κ) ι} {q : Queues (SemRing κ) ι} {f : ι} {s : κ}
  {place place' : ι → Place (Op κ)} {killed killed' : ι → Bool} {obj : κ → Sem κ ι} {w w' : SemRing κ → List ι}

omit [DecidableEq ι] in
/-- One semaphore changes, and the others do not. -/
theorem Inv.of_one (h : Inv kills num place killed obj w) {l : Sem κ ι}
    (hcore : Core kills (num s) place' killed' s l (w' (.waiting s)))
    (hother : ∀ s', s' ≠ s → Core kills (num s') place killed s' (obj s') (w (.waiting s')) →
      Core kills (num s') place' killed' s' (obj s') (w (.waiting s')))
    (hsame : ∀ s', s' ≠ s → w' (.waiting s') = w (.waiting s'))
    (hops : ∀ f op, place' f = .inside op → ∃ s, op = .wait s) (hkilled : kills = false → ∀ f, killed' f = false) :
    Inv kills num place' killed' (Function.update obj s l) w' := by
  refine ⟨fun s' => ?_, hops, hkilled⟩
  by_cases hs : s' = s
  · subst hs
    rw [Function.update_self]
    exact hcore
  · rw [Function.update_of_ne hs, hsame s' hs]
    exact hother s' hs (h.core s')

@[simp] theorem wp_update {g : Sem κ ι → Sem κ ι}
    {Q : Unit → Thread (κ → Sem κ ι) (Op κ) ι → Queues (SemRing κ) ι → Prop} :
    Code.wp queueExec (update s g) Q t q ↔ Q () { t with obj := Function.update t.obj s (g (t.obj s)) } q :=
  Code.wp_modify _

omit [DecidableEq κ] in
theorem ops_update {p : Place (Op κ)} (h : ∀ f op, place f = .inside op → ∃ s, op = .wait s)
    (hp : ∀ op, p = .inside op → ∃ s, op = .wait s) (g : ι) (op : Op κ)
    (hg : Function.update place f p g = .inside op) : ∃ s, op = .wait s := by
  by_cases hgf : g = f
  · rw [hgf, Function.update_self] at hg
    exact hp op hg
  · rw [Function.update_of_ne hgf] at hg
    exact h g op hg

/-- **A call returns**, and all is in order. -/
theorem good_returns (h : Good ringOf (Inv kills num) t q) (hf : t.running = some f) {op : Op κ} {result : ℤ}
    {permit : Bool} (hfair : (Answer.mk f op result permit (t.killed f)).Fair) :
    Code.wp queueExec (returns op s result permit) (fun _ => Good ringOf (Inv kills num)) t q := by
  simp only [FiberSem.returns, Code.wp_bind, wp_fiberRunning hf, Code.wp_get, wp_update]
  exact ⟨h.sound, h.inv.of_one ((h.inv.core s).answer hfair) (fun _ _ hs => hs) (fun _ _ => rfl) h.inv.ops
    h.inv.nokill⟩

omit [DecidableEq ι] in
/-- A permit is taken. -/
theorem good_take (h : Good ringOf (Inv kills num) t q) (hn : 0 < (t.obj s).num) :
    Good ringOf (Inv kills num) { t with obj := Function.update t.obj s ((t.obj s).take f) } q :=
  ⟨h.sound, h.inv.of_one ((h.inv.core s).take hn) (fun _ _ hs => hs) (fun _ _ => rfl) h.inv.ops h.inv.nokill⟩

omit [DecidableEq κ] [DecidableEq ι] in
theorem fair_take {op : Op κ} {n : ℤ} {canceled : Bool} (hn : 0 < n) :
    (Answer.mk f op (n - 1) true canceled).Fair :=
  ⟨fun _ => rfl, fun h => by simp only at h; omega, fun _ _ h => by simp only at h; omega,
    fun _ h => by simp only at h; omega⟩

theorem call_wait (h : Good ringOf (Inv kills num) t q) (hf : t.running = some f) (huser : t.place f = .user) :
    Code.wp queueExec (semWait s) (fun _ => Good ringOf (Inv kills num)) t q := by
  simp only [semWait, Code.wp_bind, wp_fiberRunning hf, Code.wp_get, Code.wp_ite, wp_update, Function.update_self]
  split
  · rename_i hn
    exact good_returns (good_take h hn) hf (fair_take hn)
  · rename_i hn
    split
    · rename_i hkilled
      exact good_returns h hf ⟨(by rintro ⟨⟩), fun _ => rfl, fun _ _ _ => hkilled, (by rintro ⟨⟩)⟩
    · refine Code.wp_mono (wp_fiberWait (t := { t with
        obj := Function.update t.obj s ({ t.obj s with asked := (t.obj s).asked ++ [f] }) }) h.sound hf rfl) ?_
      rintro _ t' q' ⟨hsound, hkeeps⟩
      refine hkeeps.good hsound (h.inv.of_one ?_ (fun s' hs hs' => ?_) (fun s' hs => ?_)
        (ops_update h.inv.ops fun op hop => ?_) h.inv.nokill)
      · rw [Queues.put_self]
        exact (h.inv.core s).wait hn huser
      · refine hs'.move (by rw [huser]; rintro ⟨⟩) fun heq => ?_
        cases heq
        exact hs rfl
      · refine Queues.put_of_ne fun heq => hs ?_
        cases heq
        rfl
      · cases hop
        exact ⟨s, rfl⟩

theorem call_trywait (h : Good ringOf (Inv kills num) t q) (hf : t.running = some f) :
    Code.wp queueExec (semTrywait s) (fun _ => Good ringOf (Inv kills num)) t q := by
  simp only [semTrywait, Code.wp_bind, wp_fiberRunning hf, Code.wp_get, Code.wp_ite, wp_update, Function.update_self]
  split
  · rename_i hn
    exact good_returns (good_take h hn) hf (fair_take hn)
  · exact good_returns h hf ⟨(by rintro ⟨⟩), fun _ => rfl, (by rintro s ⟨⟩), (by rintro ⟨⟩)⟩

theorem resume_wait (h : Good ringOf (Inv kills num) t q) (hf : t.running = some f)
    (hp : t.place f = .inside (.wait s)) :
    Code.wp queueExec (semResume s) (fun _ => Good ringOf (Inv kills num)) t q := by
  obtain ⟨-, -, hnot⟩ := h.sound.current f hf
  have hdrop : q.drop f = q := funext fun r => List.erase_of_not_mem (hnot r)
  have hcore := h.inv.core s
  have hgood : Good ringOf (Inv kills num)
      { t.setPlace f .user with obj := Function.update t.obj s ((t.obj s).back f (t.killed f)) } q := by
    refine ⟨h.sound.goOn hf, h.inv.of_one ?_ (fun s' hs hs' => ?_) (fun _ _ => rfl) (ops_update h.inv.ops (by rintro op ⟨⟩)) h.inv.nokill⟩
    · exact hcore.back hp (hnot _) fun hk => h.inv.nokill hk f
    · refine hs'.move ?_ (by rintro ⟨⟩)
      rw [hp]
      intro heq
      cases heq
      exact hs rfl
  simp only [semResume, Code.wp_bind, wp_fiberRunning hf, wp_detach, hdrop, Code.wp_get, Code.wp_modify, wp_update,
    Function.update_self]
  refine good_returns hgood hf ?_
  have hnonneg := hcore.nonneg
  have hcases := hcore.back_cases hp (hnot _)
  cases hkilled : t.killed f with
  | true => exact ⟨(by rintro ⟨⟩), fun _ => rfl, fun _ _ _ => hkilled, fun _ _ => hkilled⟩
  | false =>
    have ha : f ∈ (t.obj s).admitted := by
      rcases hcases with ha | ⟨_, hk⟩
      · exact ha
      · rw [hkilled] at hk
        cases hk
    refine ⟨fun _ => decide_eq_true ha, fun hneg => ?_, fun _ _ hneg => ?_, fun _ hneg => ?_⟩ <;>
      exact absurd hneg (not_lt.2 hnonneg)

theorem call_post (h : Good ringOf (Inv kills num) t q) (hf : t.running = some f) :
    Code.wp queueExec (semPost s) (fun _ => Good ringOf (Inv kills num)) t q := by
  have hcore := h.inv.core s
  simp only [semPost, Code.wp_bind, wp_fiberRunning hf, wp_update, wp_first]
  cases hw : q (.ring (.waiting s)) with
  | nil =>
    rw [hw] at hcore
    simp only [List.head?_nil, Code.wp_bind, Code.wp_get, Code.wp_pure]
    refine ⟨h.sound, h.inv.of_one ?_ (fun _ _ hs => hs) (fun _ _ => rfl) h.inv.ops h.inv.nokill⟩
    rw [hw]
    exact hcore.post
  | cons g l =>
    have hg : t.place g = .inside (.wait s) := by
      obtain ⟨op, hop, hring⟩ := h.sound.fits (.ring (.waiting s)) g (by rw [hw]; exact List.mem_cons_self)
      obtain ⟨s', rfl⟩ := h.inv.ops g op hop
      cases hring
      exact hop
    have hnd : (g :: l).Nodup := by
      rw [← hw]
      exact h.sound.nodup _
    rw [hw] at hcore
    simp only [List.head?_cons, Code.wp_bind, wp_detach]
    refine Code.wp_mono (wp_wakeFirst (q := q) h.sound hw (.inr rfl)) ?_
    rintro _ t₁ q₁ ⟨hsound₁, rfl, hself, hother⟩
    simp only [Code.wp_get, wp_update, Code.wp_ite, Code.wp_pure]
    have hinv : Inv kills num t.place t.killed
        (Function.update (Function.update t.obj s ((t.obj s).post f)) s (((t.obj s).post f).hand g))
        fun r => q₁ (.ring r) := by
      rw [Function.update_idem]
      refine h.inv.of_one ?_ (fun _ _ hs => hs) (fun s' hs => ?_) h.inv.ops
        h.inv.nokill
      · rw [hself]
        exact hcore.hand hnd hg
      · refine hother _ fun heq => hs ?_
        cases heq
        rfl
    simp only [Thread.setStatus, Function.update_self]
    have hgood : Good ringOf (Inv kills num)
        { t.setStatus g .ready with
          obj := Function.update (Function.update t.obj s ((t.obj s).post f)) s (((t.obj s).post f).hand g) } q₁ :=
      ⟨hsound₁, hinv⟩
    split
    · rw [Code.wp_bind]
      refine Code.wp_mono (wp_fiberYield hgood.sound hf) ?_
      rintro _ t' q' ⟨hsound, hkeeps⟩
      exact (Code.wp_pure _).2 (hkeeps.good hsound hgood.inv)
    · exact hgood

/-- **The operations, each by itself.** -/
theorem verified : Verified (code κ ι) ringOf (Inv kills num) (Allowed kills) where
  call t q f op h hf huser _ := by
    cases op with
    | wait s => exact call_wait h hf huser
    | trywait s => exact call_trywait h hf
    | post s => exact (Code.wp_discard _).2 (call_post h hf)
  resume t q f op h hf hp := by
    obtain ⟨s, rfl⟩ := h.inv.ops f op hp
    exact resume_wait h hf hp
  exit t f w h _ huser _ := by
    refine ⟨fun s => (h.core s).move ?_ nofun, ops_update h.ops nofun, h.nokill⟩
    rw [huser]
    nofun
  born place killed obj w f h hf := by
    have hne : ∀ s, place f ≠ .inside (.wait s) := by
      intro s hp
      rcases hf with hf | hf <;> rw [hf] at hp <;> cases hp
    refine ⟨fun s => ?_, ops_update h.ops nofun, fun hk g => ?_⟩
    · have hmoved := (h.core s).move (f := f) (p := .user) (hne s) nofun
      exact hmoved.revive (by rw [Function.update_self]; nofun)
    · by_cases hgf : g = f
      · rw [hgf, Function.update_self]
      · rw [Function.update_of_ne hgf]
        exact h.nokill hk g
  kill t f w h hallowed := by
    have hkills : kills = true := hallowed
    subst hkills
    exact ⟨⟨fun s => (h.core s).kill rfl (.inl rfl), h.ops, nofun⟩,
      ⟨fun s => (h.core s).kill rfl (.inr rfl), h.ops, nofun⟩⟩

omit [DecidableEq κ] [DecidableEq ι] in
theorem inv_initial {async : κ → Bool} : Inv (ι := ι) kills num (fun _ => .unborn) (fun _ => false)
    (fun s => .create (num s) (async s)) fun _ => [] := by
  refine ⟨fun s => ⟨?_, ?_, fun _ => rfl, .nil, nofun, nofun, .refl _, fun _ => rfl, fun _ => rfl, nofun⟩, nofun,
    fun _ _ => rfl⟩
  · simp [Sem.create]
  · simp [Sem.create]

/-- **A semaphore gives out what it has.** In every state of a thread, whatever its fibers do: nothing has
failed and the rings hold queues. The number is not negative, and with the fibers inside, those about to be and
the lost permits makes up the first number and the posts by fibers that were not inside, so that no more are
inside than that. Where a fiber waits there is no permit; who has been given one runs or is ready. Permits are
given in the order in which they were asked for, without kills to all that are in front of those that wait, and
none is lost. `wait` has failed only for fibers that were killed. -/
theorem sem_safe {async : κ → Bool} {st : Option (Thread (κ → Sem κ ι) (Op κ) ι × Memory (Node (Head (SemRing κ)) ι))}
    (h : (fiberSem κ ι (fun s => num s) async).Reach (Obeys (Allowed kills)) st) :
    ∃ t m q, st = some (t, m) ∧ Rings m q ∧ ∀ s,
      0 ≤ (t.obj s).num ∧
      (t.obj s).num + (t.obj s).inside.length + (t.obj s).admitted.length + (t.obj s).lost =
        num s + (t.obj s).given ∧
      (q (.ring (.waiting s)) ≠ [] → (t.obj s).num = 0) ∧
      (∀ f ∈ (t.obj s).admitted, t.running = some f ∨ f ∈ q .ready) ∧
      ((t.obj s).granted ++ q (.ring (.waiting s))).Sublist (t.obj s).asked ∧
      (kills = false → (t.obj s).granted ++ q (.ring (.waiting s)) = (t.obj s).asked ∧ (t.obj s).lost = 0) ∧
      ∀ a ∈ (t.obj s).answers, a.Fair := by
  obtain ⟨t, m, q, rfl, hrings, hgood⟩ := verified.reach inv_initial h
  refine ⟨t, m, q, rfl, hrings, fun s => ?_⟩
  have hcore := hgood.inv.core s
  refine ⟨hcore.nonneg, hcore.count, fun hw => ?_, fun f hf => ?_, hcore.order,
    fun hk => ⟨hcore.queue hk, hcore.lost hk⟩, hcore.answers⟩
  · by_contra hne
    exact hw (hcore.idle (lt_of_le_of_ne hcore.nonneg (Ne.symm hne)))
  · obtain ⟨hp, hnot⟩ := hcore.admitted f hf
    rcases hgood.sound.inside f _ hp with hrun | hready | ⟨r, hr, hring⟩
    · exact .inl hrun
    · exact .inr hready
    · cases hr
      exact absurd hring hnot

end Calls

/-- One permit: the second fiber waits for it, and is given it. -/
def handOver {ι : Type} (f g : ι) : List (FiberLabel (Op Unit) ι) :=
  [.create f, .create g, .schedule, .call (.wait ()), .yield, .call (.wait ()), .call (.post ()), .resume]

theorem sem_safe_handOver : ∃ t : Thread (Unit → Sem Unit (Fin 2)) (Op Unit) (Fin 2),
    (t.obj ()).inside = [1] ∧ (t.obj ()).num = 0 ∧ (t.obj ()).granted.Sublist (t.obj ()).asked := by
  obtain ⟨s, hreach, hs⟩ := System.exists_reach
    (S := fiberSem Unit (Fin 2) (fun s => ((fun _ => 1 : Unit → ℕ) s : ℤ)) fun _ => false)
    (C := Obeys (Allowed true)) (T := fun _ _ => true)
    (P := fun s => s.any fun result => (result.1.obj ()).inside == [1] && (result.1.obj ()).given == 0) (handOver 0 1)
    (fun _ e _ _ _ _ _ _ => by cases e <;> trivial) (by decide +kernel)
  obtain ⟨t, m, q, rfl, -, hall⟩ := sem_safe hreach
  obtain ⟨hnonneg, hcount, -, -, horder, -, -⟩ := hall ()
  simp only [Option.any_some, Bool.and_eq_true, beq_iff_eq] at hs
  obtain ⟨hinside, hgiven⟩ := hs
  refine ⟨t, hinside, ?_, (List.sublist_append_left _ _).trans horder⟩
  rw [hinside, hgiven] at hcount
  simp only [List.length_singleton] at hcount
  omega

end FiberSem

end SocketAcl
