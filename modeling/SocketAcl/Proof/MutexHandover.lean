import SocketAcl.Proof.MutexFlow
import Mathlib.Algebra.BigOperators.Group.Finset.Piecewise
import Mathlib.Algebra.Order.BigOperators.Group.Finset
import Mathlib.Data.Fintype.BigOperators

/-!
# Who waits is woken once

The mutex as its `View`: the classes of the points the fibers stand at, and what the threads share. A fiber that
sleeps for the mutex is in the array, or with the fiber that has taken it out, or in the mailbox of its thread, and
there once (`Mail.tokens`); where the mutex is free and somebody is in the array, another is about to try
(`Safe.woken`).

One lemma for each kind of move. `Safe` is what they keep.
-/

namespace SocketAcl

namespace MutexCode

variable {ι τ : Type}

/-! ## Flags that one fiber has -/

section Held

/-- `o` is the one that `P` is true of. -/
def Held (P : ι → Bool) (o : Option ι) : Prop := ∀ f, P f = true ↔ o = some f

variable {P : ι → Bool} {o : Option ι} {f g : ι}

theorem Held.eq (h : Held P o) (hf : P f = true) (hg : P g = true) : f = g :=
  Option.some.inj (((h f).1 hf).symm.trans ((h g).1 hg))

variable [DecidableEq ι]

theorem Held.take (h : Held P none) : Held (Function.update P f true) (some f) := by
  intro g
  by_cases hgf : g = f
  · simp [hgf]
  · have hg := h g
    simp only [reduceCtorEq, iff_false] at hg
    simp [hgf, hg, Ne.symm hgf]

theorem Held.give (h : Held P o) (hf : P f = true) : Held (Function.update P f false) none := by
  intro g
  by_cases hgf : g = f
  · simp [hgf]
  · have hg : P g ≠ true := fun hg => hgf (h.eq hg hf)
    simp [hgf, hg]

end Held

/-! ## Arrays without order -/

theorem arrayDelete_last {α : Type} (l : List α) (x : α) : arrayDelete (l ++ [x]) l.length = l := by
  simp [arrayDelete]

theorem arrayDelete_zero {α : Type} (x : α) (l : List α) : (arrayDelete (x :: l) 0).Perm l := by
  rcases List.eq_nil_or_concat l with rfl | ⟨init, last, rfl⟩
  · exact .refl _
  · have hdelete : arrayDelete (x :: (init ++ [last])) 0 = last :: init := by
      simp only [arrayDelete, ← List.cons_append, List.getLast?_concat]
      rw [if_pos (by simp), List.cons_append, List.set_cons_zero, ← List.cons_append, List.dropLast_concat]
    rw [List.concat_eq_append, hdelete]
    exact (List.perm_append_singleton last init).symm

/-! ## The invariant -/

/-- A fiber at this post, with this status, waits to be woken. -/
def registered (post : Post) (status : FiberStatus) : Bool :=
  match post with
  | .trying _ | .deleting _ | .leaving | .switching => true
  | .waiting => status == .suspend
  | .away | .coming => false

structure View (ι τ : Type) where
  cls : ι → Class ι
  lock : Option ι
  threadLock : Option ι
  fiber : Option ι
  waiters : List ι
  box : τ → List ι
  running : τ → Option ι
  status : ι → FiberStatus
  complained : Bool

/-- A thread runs one fiber, of its own. -/
structure Sched (S : Setting ι τ) (running : τ → Option ι) (status : ι → FiberStatus) : Prop where
  running : ∀ th f, running th = some f ↔ S.tid f = th ∧ status f = .running
  status : ∀ f, status f ≠ .none

/-- It will try the mutex before it sleeps, or when it has been woken. -/
def Coming (a : Class ι) (f : ι) (waiters : List ι) : Prop :=
  a.post = .coming ∨ (∃ pos, a.post = .trying pos) ∨ (a.post = .switching ∨ a.post = .waiting) ∧ f ∉ waiters

variable [DecidableEq ι] [Fintype ι]

/-- **Who waits is somewhere once.** -/
structure Mail (S : Setting ι τ) (cls : ι → Class ι) (status : ι → FiberStatus) (waiters : List ι) (box : τ → List ι) :
    Prop where
  tokens : ∀ f, waiters.count f + (∑ g, if (cls g).pending = some f then 1 else 0) + (box (S.tid f)).count f =
    if registered (cls f).post (status f) then 1 else 0
  parked : ∀ g f, (cls g).pending = some f →
    (cls f).post = .waiting ∨ (cls f).post = .switching ∧ S.tid f ≠ S.tid g
  boxed : ∀ th f, f ∈ box th → S.tid f = th ∧ ((cls f).post = .waiting ∨ (cls f).post = .switching)
  last : ∀ f pos, (cls f).post = .trying pos ∨ (cls f).post = .deleting pos →
    ∃ l, waiters = l ++ [f] ∧ pos = l.length
  emptied : ∀ f, (cls f).emptied = true → waiters = []

/-- **The invariant.** -/
structure Safe (S : Setting ι τ) (v : View ι τ) : Prop where
  lock : Held (fun f => (v.cls f).lock) v.lock
  thread : Held (fun f => (v.cls f).thread) v.threadLock
  sched : Sched S v.running v.status
  rest : ∀ f, v.status f ≠ .running → (v.cls f).Rests
  wf : ∀ f, (v.cls f).Wf
  mail : Mail S v.cls v.status v.waiters v.box
  owns : ∀ f, (v.cls f).owns = true → v.fiber = S.me f
  quiet : v.complained = false
  woken : v.threadLock = none → v.waiters ≠ [] → ∃ f, Coming (v.cls f) f v.waiters

variable {S : Setting ι τ} {cls : ι → Class ι} {status : ι → FiberStatus} {waiters : List ι} {box : τ → List ι}
  {v : View ι τ} {a : Class ι} {f g : ι}

omit [Fintype ι] in
/-- What a fiber that moves does not change of its class, has not changed. -/
theorem proj_same (cls : ι → Class ι) (f : ι) (a : Class ι) {β : Type} (p : Class ι → β) (h : p a = p (cls f)) :
    (fun g => p (Function.update cls f a g)) = fun g => p (cls g) := by
  funext g
  by_cases hgf : g = f
  · rw [hgf, Function.update_self, h]
  · rw [Function.update_of_ne hgf]

omit [Fintype ι] in
theorem proj_update {β : Type} (p : Class ι → β) :
    (fun g => p (Function.update cls f a g)) = Function.update (fun g => p (cls g)) f (p a) := by
  funext g
  by_cases hgf : g = f
  · rw [hgf, Function.update_self, Function.update_self]
  · rw [Function.update_of_ne hgf, Function.update_of_ne hgf]

omit [Fintype ι] in
theorem forall_update {P : ι → Class ι → Prop} (h : ∀ g, P g (cls g)) (hf : P f a) (g : ι) :
    P g (Function.update cls f a g) := by
  by_cases hgf : g = f
  · rw [hgf, Function.update_self]
    exact hf
  · rw [Function.update_of_ne hgf]
    exact h g

/-! ## What follows from the mail -/

theorem Mail.not_pending (h : Mail S cls status waiters box) (hf : registered (cls f).post (status f) = false) :
    f ∉ waiters ∧ (∀ g, (cls g).pending ≠ some f) ∧ ∀ th, f ∉ box th := by
  have htokens := h.tokens f
  rw [hf] at htokens
  simp only [Bool.false_eq_true, if_false, Nat.add_eq_zero_iff, Finset.sum_eq_zero_iff, Finset.mem_univ, true_imp_iff,
    List.count_eq_zero] at htokens
  obtain ⟨⟨hw, hp⟩, hb⟩ := htokens
  refine ⟨hw, fun g hg => ?_, fun th hth => ?_⟩
  · have hzero := hp g
    rw [if_pos hg] at hzero
    cases hzero
  · obtain ⟨rfl, -⟩ := h.boxed th f hth
    exact hb hth

/-- Who has been taken out of the array is not in it. -/
theorem Mail.not_mem_of_pending (h : Mail S cls status waiters box) (hg : (cls g).pending = some f) : f ∉ waiters := by
  have htokens := h.tokens f
  have hone : 1 ≤ ∑ g, if (cls g).pending = some f then 1 else 0 := by
    have hle := Finset.single_le_sum (f := fun g => if (cls g).pending = some f then 1 else 0)
      (fun _ _ => Nat.zero_le _) (Finset.mem_univ g)
    simpa [hg] using hle
  refine List.count_eq_zero.1 ?_
  split at htokens <;> omega

theorem Mail.registered_of_pending (h : Mail S cls status waiters box) (hg : (cls g).pending = some f) :
    registered (cls f).post (status f) = true := by
  by_contra hf
  exact (h.not_pending (Bool.not_eq_true _ ▸ hf)).2.1 g hg

theorem Mail.somewhere (h : Mail S cls status waiters box) (hf : registered (cls f).post (status f) = true) :
    f ∈ waiters ∨ (∃ g, (cls g).pending = some f) ∨ f ∈ box (S.tid f) := by
  by_contra hnone
  push Not at hnone
  obtain ⟨hw, hp, hb⟩ := hnone
  have htokens := h.tokens f
  have hsum : (∑ g, if (cls g).pending = some f then 1 else 0) = 0 :=
    Finset.sum_eq_zero fun g _ => if_neg (hp g)
  rw [hf, List.count_eq_zero.2 hw, List.count_eq_zero.2 hb, hsum] at htokens
  cases htokens

/-! ## How the mail changes -/

/-- A move that has nothing to do with it. -/
theorem Mail.same (h : Mail S cls status waiters box) (hpending : a.pending = (cls f).pending)
    (hpost : a.post = (cls f).post) (hemptied : a.emptied = true → (cls f).emptied = true) :
    Mail S (Function.update cls f a) status waiters box := by
  have hp := fun g => congrFun (proj_same cls f a Class.pending hpending) g
  have hq := fun g => congrFun (proj_same cls f a Class.post hpost) g
  refine ⟨fun g => ?_, fun g g' hg => ?_, fun th g hg => ?_, fun g pos hg => ?_, ?_⟩
  · simp only [hp, hq]
    exact h.tokens g
  · simp only [hp, hq] at hg ⊢
    exact h.parked g g' hg
  · rw [hq]
    exact h.boxed th g hg
  · simp only [hq] at hg
    exact h.last g pos hg
  · exact forall_update (P := fun _ a => a.emptied = true → waiters = []) h.emptied fun ha => h.emptied f (hemptied ha)

/-- A fiber that nobody is to wake goes to another post. -/
theorem Mail.repost (h : Mail S cls status waiters box) (hpending : a.pending = (cls f).pending)
    (hemptied : a.emptied = true → (cls f).emptied = true)
    (hregistered : registered a.post (status f) = registered (cls f).post (status f))
    (hfree : (∀ g, (cls g).pending ≠ some f) ∧ ∀ th, f ∉ box th)
    (hlast : ∀ pos, a.post = .trying pos ∨ a.post = .deleting pos →
      (cls f).post = .trying pos ∨ (cls f).post = .deleting pos) :
    Mail S (Function.update cls f a) status waiters box := by
  have hp := fun g => congrFun (proj_same cls f a Class.pending hpending) g
  refine ⟨fun g => ?_, fun g g' hg => ?_, fun th g hg => ?_, fun g pos hg => ?_, ?_⟩
  · simp only [hp]
    by_cases hgf : g = f
    · subst hgf
      rw [Function.update_self, hregistered]
      exact h.tokens g
    · rw [Function.update_of_ne hgf]
      exact h.tokens g
  · simp only [hp] at hg
    have hgf : g' ≠ f := fun heq => hfree.1 g (heq ▸ hg)
    rw [Function.update_of_ne hgf]
    exact h.parked g g' hg
  · have hgf : g ≠ f := fun heq => hfree.2 th (heq ▸ hg)
    rw [Function.update_of_ne hgf]
    exact h.boxed th g hg
  · by_cases hgf : g = f
    · subst hgf
      rw [Function.update_self] at hg
      exact h.last g pos (hlast pos hg)
    · rw [Function.update_of_ne hgf] at hg
      exact h.last g pos hg
  · exact forall_update (P := fun _ a => a.emptied = true → waiters = []) h.emptied fun ha => h.emptied f (hemptied ha)

/-- A fiber at no post, or not yet at rest, is not about to be woken. -/
theorem Mail.free_of_post (h : Mail S cls status waiters box) (hw : (cls f).post ≠ .waiting)
    (hs : (cls f).post ≠ .switching) : (∀ g, (cls g).pending ≠ some f) ∧ ∀ th, f ∉ box th := by
  refine ⟨fun g hg => ?_, fun th hth => ?_⟩
  · rcases h.parked g f hg with hp | ⟨hp, -⟩
    · exact hw hp
    · exact hs hp
  · rcases (h.boxed th f hth).2 with hp | hp
    · exact hw hp
    · exact hs hp

/-- A sum over all fibers, when one of them changes. -/
theorem sum_update_add {β : Type} (m : β → ℕ) (w : ι → β) (f : ι) (b : β) :
    (∑ g, m (Function.update w f b g)) + m (w f) = (∑ g, m (w g)) + m b := by
  have hnew := Finset.add_sum_erase Finset.univ (fun g => m (Function.update w f b g)) (Finset.mem_univ f)
  have hold := Finset.add_sum_erase Finset.univ (fun g => m (w g)) (Finset.mem_univ f)
  have hsame : ∑ g ∈ Finset.univ.erase f, m (Function.update w f b g) = ∑ g ∈ Finset.univ.erase f, m (w g) :=
    Finset.sum_congr rfl fun g hg => by rw [Function.update_of_ne (Finset.ne_of_mem_erase hg)]
  simp only [Function.update_self] at hnew
  omega

/-- **A fiber enters itself** in the array. -/
theorem Mail.append (h : Mail S cls status waiters box) (hpost : (cls f).post = .coming)
    (ha : a = { cls f with post := .trying waiters.length }) (hemptied : ∀ g, (cls g).emptied = false)
    (halone : ∀ g pos, (cls g).post ≠ .trying pos ∧ (cls g).post ≠ .deleting pos) :
    Mail S (Function.update cls f a) status (waiters ++ [f]) box := by
  have hp := fun g => congrFun (proj_same cls f a Class.pending (by rw [ha])) g
  have hposta : a.post = .trying waiters.length := by rw [ha]
  obtain ⟨hpending, hboxed⟩ := h.free_of_post (f := f) (by rw [hpost]; simp) (by rw [hpost]; simp)
  refine ⟨fun g => ?_, fun g g' hg => ?_, fun th g hg => ?_, fun g pos hg => ?_, fun g hg => ?_⟩
  · have htokens := h.tokens g
    simp only [hp, List.count_append]
    by_cases hgf : g = f
    · subst hgf
      rw [hpost] at htokens
      simp only [registered, Bool.false_eq_true, if_false] at htokens
      simp only [Function.update_self, hposta, registered, if_true, List.count_singleton_self]
      omega
    · simp only [Function.update_of_ne hgf, List.count_singleton, beq_iff_eq, Ne.symm hgf, if_false, Nat.add_zero]
      exact htokens
  · simp only [hp] at hg
    have hgf : g' ≠ f := fun heq => hpending g (heq ▸ hg)
    rw [Function.update_of_ne hgf]
    exact h.parked g g' hg
  · have hgf : g ≠ f := fun heq => hboxed th (heq ▸ hg)
    rw [Function.update_of_ne hgf]
    exact h.boxed th g hg
  · by_cases hgf : g = f
    · subst hgf
      rw [Function.update_self, hposta] at hg
      refine ⟨waiters, rfl, ?_⟩
      rcases hg with hg | hg <;> cases hg
      rfl
    · rw [Function.update_of_ne hgf] at hg
      rcases hg with hg | hg
      · exact absurd hg (halone g pos).1
      · exact absurd hg (halone g pos).2
  · have hfalse : (Function.update cls f a g).emptied = false :=
      forall_update (P := fun _ a => a.emptied = false) hemptied (by rw [ha]; exact hemptied f) g
    rw [hfalse] at hg
    cases hg

/-- **It takes itself out** again. -/
theorem Mail.delete {pos : ℕ} (h : Mail S cls status waiters box) (hpost : (cls f).post = .deleting pos)
    (ha : a = { cls f with post := .away }) (hemptied : ∀ g, (cls g).emptied = false)
    (halone : ∀ g pos, g ≠ f → (cls g).post ≠ .trying pos ∧ (cls g).post ≠ .deleting pos) :
    Mail S (Function.update cls f a) status (arrayDelete waiters pos) box := by
  obtain ⟨l, rfl, rfl⟩ := h.last f pos (.inr hpost)
  rw [arrayDelete_last]
  have hp := fun g => congrFun (proj_same cls f a Class.pending (by rw [ha])) g
  have hposta : a.post = .away := by rw [ha]
  obtain ⟨hpending, hboxed⟩ := h.free_of_post (f := f) (by rw [hpost]; simp) (by rw [hpost]; simp)
  refine ⟨fun g => ?_, fun g g' hg => ?_, fun th g hg => ?_, fun g pos hg => ?_, fun g hg => ?_⟩
  · have htokens := h.tokens g
    simp only [List.count_append] at htokens
    simp only [hp]
    by_cases hgf : g = f
    · subst hgf
      rw [hpost] at htokens
      simp only [registered, if_true, List.count_singleton_self] at htokens
      simp only [Function.update_self, hposta, registered, Bool.false_eq_true, if_false]
      omega
    · simp only [List.count_singleton, beq_iff_eq, Ne.symm hgf, if_false, Nat.add_zero] at htokens
      rw [Function.update_of_ne hgf]
      exact htokens
  · simp only [hp] at hg
    have hgf : g' ≠ f := fun heq => hpending g (heq ▸ hg)
    rw [Function.update_of_ne hgf]
    exact h.parked g g' hg
  · have hgf : g ≠ f := fun heq => hboxed th (heq ▸ hg)
    rw [Function.update_of_ne hgf]
    exact h.boxed th g hg
  · by_cases hgf : g = f
    · subst hgf
      rw [Function.update_self, hposta] at hg
      rcases hg with hg | hg <;> cases hg
    · rw [Function.update_of_ne hgf] at hg
      rcases hg with hg | hg
      · exact absurd hg (halone g pos hgf).1
      · exact absurd hg (halone g pos hgf).2
  · have hfalse : (Function.update cls f a g).emptied = false :=
      forall_update (P := fun _ a => a.emptied = false) hemptied (by rw [ha]; exact hemptied f) g
    rw [hfalse] at hg
    cases hg

/-- **A fiber takes the first out** of the array, to wake it. -/
theorem Mail.pop (h : Mail S cls status waiters box) (hpost : (cls f).post = .away) (hnone : (cls f).pending = none)
    (ha : a = { cls f with pending := waiters.head?, emptied := waiters.head?.isNone })
    (hemptied : ∀ g, (cls g).emptied = false)
    (halone : ∀ g pos, (cls g).post ≠ .trying pos ∧ (cls g).post ≠ .deleting pos ∧ (cls g).post ≠ .leaving)
    (hswitching : ∀ g, (cls g).post = .switching → S.tid g ≠ S.tid f) :
    Mail S (Function.update cls f a) status (arrayDelete waiters 0) box := by
  have hpending : a.pending = waiters.head? := by rw [ha]
  have hq := fun g => congrFun (proj_same cls f a Class.post (by rw [ha])) g
  have hsum := fun x => sum_update_add (fun a : Class ι => if a.pending = some x then 1 else 0) cls f a
  have hcount : ∀ x, (arrayDelete waiters 0).count x + (if waiters.head? = some x then 1 else 0) = waiters.count x := by
    intro x
    cases waiters with
    | nil => rfl
    | cons y l =>
      rw [(arrayDelete_zero y l).count_eq x, List.count_cons]
      simp
  have hsub : ∀ x, x ∈ arrayDelete waiters 0 → x ∈ waiters := by
    intro x hx
    have hx' := hcount x
    have hpos := List.count_pos_iff.2 hx
    exact List.count_pos_iff.1 (by omega)
  refine ⟨fun g => ?_, fun g g' hg => ?_, fun th g hg => ?_, fun g pos hg => ?_, fun g hg => ?_⟩
  · have htokens := h.tokens g
    have hs := hsum g
    have hc := hcount g
    rw [hpending, hnone] at hs
    simp only [reduceCtorEq, if_false] at hs
    rw [hq]
    omega
  · rw [hq]
    by_cases hgf : g = f
    · subst hgf
      rw [Function.update_self, hpending] at hg
      have htokens := h.tokens g'
      have hpos := List.count_pos_iff.2 (List.mem_of_mem_head? hg)
      have hregistered : registered (cls g').post (status g') = true := by
        by_contra hne
        rw [Bool.not_eq_true] at hne
        rw [hne] at htokens
        simp only [Bool.false_eq_true, if_false] at htokens
        omega
      cases hp : (cls g').post with
      | waiting => exact .inl rfl
      | switching => exact .inr ⟨rfl, hswitching g' hp⟩
      | trying pos => exact absurd hp (halone g' pos).1
      | deleting pos => exact absurd hp (halone g' pos).2.1
      | leaving => exact absurd hp (halone g' 0).2.2
      | away | coming =>
        rw [hp] at hregistered
        cases hregistered
    · rw [Function.update_of_ne hgf] at hg
      exact h.parked g g' hg
  · rw [hq]
    exact h.boxed th g hg
  · rw [hq] at hg
    rcases hg with hg | hg
    · exact absurd hg (halone g pos).1
    · exact absurd hg (halone g pos).2.1
  · by_cases hgf : g = f
    · subst hgf
      rw [Function.update_self, ha] at hg
      have hhead : waiters = [] := List.head?_eq_none_iff.1 (Option.isNone_iff_eq_none.1 hg)
      rw [hhead]
      rfl
    · rw [Function.update_of_ne hgf, hemptied g] at hg
      cases hg

/-- **A fiber goes to sleep** behind its switch. -/
theorem Mail.park (h : Mail S cls status waiters box) (hpost : (cls f).post = .switching)
    (ha : a = { cls f with post := .waiting }) :
    Mail S (Function.update cls f a) (Function.update status f .suspend) waiters box := by
  have hp := fun g => congrFun (proj_same cls f a Class.pending (by rw [ha])) g
  have hposta : a.post = .waiting := by rw [ha]
  refine ⟨fun g => ?_, fun g g' hg => ?_, fun th g hg => ?_, fun g pos hg => ?_,
    forall_update (P := fun _ a => a.emptied = true → waiters = []) h.emptied (by rw [ha]; exact h.emptied f)⟩
  · have htokens := h.tokens g
    simp only [hp]
    by_cases hgf : g = f
    · subst hgf
      rw [hpost] at htokens
      simp only [Function.update_self, hposta]
      exact htokens
    · rw [Function.update_of_ne hgf, Function.update_of_ne hgf]
      exact htokens
  · simp only [hp] at hg
    by_cases hgf : g' = f
    · subst hgf
      rw [Function.update_self]
      exact .inl hposta
    · rw [Function.update_of_ne hgf]
      exact h.parked g g' hg
  · by_cases hgf : g = f
    · subst hgf
      rw [Function.update_self]
      exact ⟨(h.boxed th g hg).1, .inl hposta⟩
    · rw [Function.update_of_ne hgf]
      exact h.boxed th g hg
  · by_cases hgf : g = f
    · subst hgf
      rw [Function.update_self, hposta] at hg
      rcases hg with hg | hg <;> cases hg
    · rw [Function.update_of_ne hgf] at hg
      exact h.last g pos hg

/-- The status of a fiber changes that does not wait, or does not begin or cease to. -/
theorem Mail.restatus {st : FiberStatus} (h : Mail S cls status waiters box)
    (hst : registered (cls f).post st = registered (cls f).post (status f)) :
    Mail S cls (Function.update status f st) waiters box := by
  refine { h with tokens := fun g => ?_ }
  by_cases hgf : g = f
  · subst hgf
    rw [Function.update_self, hst]
    exact h.tokens g
  · rw [Function.update_of_ne hgf]
    exact h.tokens g

/-- **A fiber is woken** by the one that has taken it out, in its own thread. -/
theorem Mail.wake (h : Mail S cls status waiters box) (hg : (cls f).pending = some g) (hpost : (cls g).post = .waiting)
    (ha : a = { cls f with pending := none }) :
    Mail S (Function.update cls f a) (Function.update status g .ready) waiters box := by
  have hnone : a.pending = none := by rw [ha]
  have hq := fun x => congrFun (proj_same cls f a Class.post (by rw [ha])) x
  have hsum := fun x => sum_update_add (fun a : Class ι => if a.pending = some x then 1 else 0) cls f a
  have hpending : ∀ x y, (Function.update cls f a x).pending = some y →
      (cls x).pending = some y := by
    intro x y hx
    by_cases hxf : x = f
    · rw [hxf, Function.update_self, hnone] at hx
      cases hx
    · rwa [Function.update_of_ne hxf] at hx
  refine ⟨fun x => ?_, fun x y hx => ?_, fun th x hx => ?_, fun x pos hx => ?_,
    forall_update (P := fun _ a => a.emptied = true → waiters = []) h.emptied (by rw [ha]; exact h.emptied f)⟩
  · have htokens := h.tokens x
    have hs := hsum x
    rw [hg, hnone] at hs
    rw [hq]
    by_cases hxg : x = g
    · subst hxg
      have hregistered := h.registered_of_pending hg
      rw [hregistered] at htokens
      simp only [if_true, reduceCtorEq, if_false] at hs htokens
      simp only [Function.update_self, hpost, registered, beq_iff_eq, reduceCtorEq, if_false]
      omega
    · rw [Function.update_of_ne hxg]
      simp only [Option.some.injEq, Ne.symm hxg, reduceCtorEq, if_false] at hs
      omega
  · rw [hq]
    exact h.parked x y (hpending x y hx)
  · rw [hq]
    exact h.boxed th x hx
  · rw [hq] at hx
    exact h.last x pos hx

variable [DecidableEq τ]

/-- **It is sent to the thread** of the fiber. -/
theorem Mail.send (h : Mail S cls status waiters box) (hg : (cls f).pending = some g)
    (ha : a = { cls f with pending := none }) :
    Mail S (Function.update cls f a) status waiters (Function.update box (S.tid g) (box (S.tid g) ++ [g])) := by
  have hnone : a.pending = none := by rw [ha]
  have hq := fun x => congrFun (proj_same cls f a Class.post (by rw [ha])) x
  have hsum := fun x => sum_update_add (fun a : Class ι => if a.pending = some x then 1 else 0) cls f a
  refine ⟨fun x => ?_, fun x y hx => ?_, fun th x hx => ?_, fun x pos hx => ?_,
    forall_update (P := fun _ a => a.emptied = true → waiters = []) h.emptied (by rw [ha]; exact h.emptied f)⟩
  · have htokens := h.tokens x
    have hs := hsum x
    rw [hg, hnone] at hs
    simp only [Option.some.injEq, reduceCtorEq, if_false] at hs
    rw [hq]
    have hbox : (Function.update box (S.tid g) (box (S.tid g) ++ [g]) (S.tid x)).count x =
        (box (S.tid x)).count x + if g = x then 1 else 0 := by
      by_cases hth : S.tid x = S.tid g
      · rw [hth, Function.update_self, List.count_append, List.count_singleton]
        simp
      · have hgx : g ≠ x := fun heq => hth (heq ▸ rfl)
        rw [Function.update_of_ne hth, if_neg hgx, Nat.add_zero]
    omega
  · rw [hq]
    by_cases hxf : x = f
    · rw [hxf, Function.update_self, hnone] at hx
      cases hx
    · rw [Function.update_of_ne hxf] at hx
      exact h.parked x y hx
  · rw [hq]
    by_cases hth : th = S.tid g
    · subst hth
      rw [Function.update_self] at hx
      rcases List.mem_append.1 hx with hx | hx
      · exact h.boxed _ x hx
      · obtain rfl := List.mem_singleton.1 hx
        refine ⟨rfl, ?_⟩
        rcases h.parked f x hg with hp | ⟨hp, -⟩
        · exact .inl hp
        · exact .inr hp
    · rw [Function.update_of_ne hth] at hx
      exact h.boxed th x hx
  · rw [hq] at hx
    exact h.last x pos hx

/-- **It is read there.** -/
theorem Mail.deliver {th : τ} {rest : List ι} (h : Mail S cls status waiters box) (hbox : box th = f :: rest)
    (hpost : (cls f).post = .waiting) (hst : status f = .suspend) :
    Mail S cls (Function.update status f .ready) waiters (Function.update box th rest) := by
  obtain ⟨rfl, -⟩ := h.boxed th f (by rw [hbox]; exact List.mem_cons_self)
  refine { h with tokens := fun g => ?_, boxed := fun th g hg => ?_ }
  · have htokens := h.tokens g
    by_cases hgf : g = f
    · subst hgf
      rw [hbox, hpost, hst, List.count_cons_self] at htokens
      rw [Function.update_self, Function.update_self, hpost]
      simp only [registered, beq_self_eq_true, if_true, beq_iff_eq, reduceCtorEq, if_false] at htokens ⊢
      omega
    · rw [Function.update_of_ne hgf]
      by_cases hth : S.tid g = S.tid f
      · rw [hth, hbox, List.count_cons_of_ne (Ne.symm hgf)] at htokens
        rw [hth, Function.update_self]
        exact htokens
      · rw [Function.update_of_ne hth]
        exact htokens
  · by_cases hth : th = S.tid f
    · subst hth
      rw [Function.update_self] at hg
      exact h.boxed _ g (by rw [hbox]; exact List.mem_cons_of_mem _ hg)
    · rw [Function.update_of_ne hth] at hg
      exact h.boxed th g hg

/-! ## The moves -/

section Held

variable {p : Class ι → Bool} {o : Option ι}

omit [Fintype ι] [DecidableEq τ] in
theorem Held.same (h : Held (fun g => p (cls g)) o) (ha : p a = p (cls f)) :
    Held (fun g => p (Function.update cls f a g)) o := by
  rw [proj_same cls f a p ha]
  exact h

omit [Fintype ι] [DecidableEq τ] in
theorem Held.takes (h : Held (fun g => p (cls g)) none) (ha : p a = true) :
    Held (fun g => p (Function.update cls f a g)) (some f) := by
  rw [proj_update, ha]
  exact h.take

omit [Fintype ι] [DecidableEq τ] in
theorem Held.gives (h : Held (fun g => p (cls g)) o) (hf : p (cls f) = true) (ha : p a = false) :
    Held (fun g => p (Function.update cls f a g)) none := by
  rw [proj_update, ha]
  exact h.give hf

end Held

omit [DecidableEq τ] in
/-- A move between points of one class. -/
theorem Safe.same (h : Safe S v) (ha : a = v.cls f) : Safe S { v with cls := Function.update v.cls f a } := by
  rw [ha, Function.update_eq_self]
  exact h

section Moves

variable (h : Safe S v) (hf : v.status f = .running) (hwf : a.Wf)
include h hf

omit [DecidableEq τ] in
/-- Who runs and moves is still at rest nowhere. -/
theorem Safe.rest_update (g : ι) : v.status g ≠ .running → (Function.update v.cls f a g).Rests :=
  forall_update (P := fun g a => v.status g ≠ .running → a.Rests) h.rest (fun hne => absurd hf hne) g

omit [DecidableEq τ] hf in
theorem Safe.owns_update (ha : a.owns = true → (v.cls f).owns = true) (g : ι)
    (hg : (Function.update v.cls f a g).owns = true) : v.fiber = S.me g :=
  forall_update (P := fun g a => a.owns = true → v.fiber = S.me g) h.owns (fun ho => h.owns f (ha ho)) g hg

omit [DecidableEq τ] hf in
theorem Safe.woken_update (ha : Coming (v.cls f) f v.waiters → Coming a f v.waiters) (hfree : v.threadLock = none)
    (hw : v.waiters ≠ []) : ∃ g, Coming (Function.update v.cls f a g) g v.waiters := by
  obtain ⟨g, hg⟩ := h.woken hfree hw
  refine ⟨g, ?_⟩
  by_cases hgf : g = f
  · subst hgf
    rw [Function.update_self]
    exact ha hg
  · rw [Function.update_of_ne hgf]
    exact hg

include hwf

omit [DecidableEq τ] hf in
theorem Safe.wf_update (g : ι) : (Function.update v.cls f a g).Wf :=
  forall_update (P := fun _ a => a.Wf) h.wf hwf g

omit [DecidableEq τ] in
/-- `mutex->lock` is taken. -/
theorem Safe.takeLock (hfree : v.lock = none) (ha : a = { v.cls f with lock := true }) :
    Safe S { v with cls := Function.update v.cls f a, lock := some f } := by
  refine ⟨?_, h.thread.same (by rw [ha]), h.sched, h.rest_update hf, h.wf_update hwf,
    h.mail.same (by rw [ha]) (by rw [ha]) (by rw [ha]; exact id), h.owns_update (by rw [ha]; exact id), h.quiet,
    h.woken_update fun hc => by rw [ha]; exact hc⟩
  have hlock := h.lock
  rw [hfree] at hlock
  exact hlock.takes (by rw [ha])

omit [DecidableEq τ] in
/-- `mutex->lock` is given back. -/
theorem Safe.giveLock (hheld : (v.cls f).lock = true)
    (ha : a = { v.cls f with lock := false, post := if (v.cls f).post = .leaving then .switching else (v.cls f).post }) :
    Safe S { v with cls := Function.update v.cls f a, lock := none } := by
  have hposts : a.post = (v.cls f).post ∨ (v.cls f).post = .leaving ∧ a.post = .switching := by
    rw [ha]
    by_cases hp : (v.cls f).post = .leaving
    · exact .inr ⟨hp, if_pos hp⟩
    · exact .inl (if_neg hp)
  have hnot : a.emptied = true → (v.cls f).emptied = true := by
    rw [ha]
    exact id
  refine ⟨h.lock.gives hheld (by rw [ha]), h.thread.same (by rw [ha]), h.sched, h.rest_update hf, h.wf_update hwf, ?_,
    h.owns_update (by rw [ha]; exact id), h.quiet, h.woken_update fun hc => ?_⟩
  · rcases hposts with hp | ⟨hold, hnew⟩
    · exact h.mail.same (by rw [ha]) hp hnot
    · refine h.mail.repost (by rw [ha]) hnot (by rw [hold, hnew]; rfl)
        (h.mail.free_of_post (by rw [hold]; simp) (by rw [hold]; simp)) fun pos hpos => ?_
      rw [hnew] at hpos
      rcases hpos with hpos | hpos <;> cases hpos
  · rcases hposts with hp | ⟨hold, -⟩
    · unfold Coming
      rw [hp]
      exact hc
    · rcases hc with hc | ⟨pos, hc⟩ | ⟨hc | hc, -⟩ <;> rw [hold] at hc <;> cases hc

omit [DecidableEq τ] in
/-- `mutex->thread_lock` is taken. -/
theorem Safe.takeThread (hfree : v.threadLock = none)
    (ha : (∃ pos, (v.cls f).post = .trying pos ∧ a = { v.cls f with thread := true, post := .deleting pos }) ∨
      ((v.cls f).post = .coming ∨ (v.cls f).post = .away) ∧ a = { v.cls f with thread := true, post := .away }) :
    Safe S { v with cls := Function.update v.cls f a, threadLock := some f } := by
  have hlock : a.lock = (v.cls f).lock := by
    rcases ha with ⟨pos, _, rfl⟩ | ⟨_, rfl⟩ <;> rfl
  have hthread : a.thread = true := by
    rcases ha with ⟨pos, _, rfl⟩ | ⟨_, rfl⟩ <;> rfl
  have howns' : a.owns = true → (v.cls f).owns = true := by
    rcases ha with ⟨pos, _, rfl⟩ | ⟨_, rfl⟩ <;> exact id
  have hheld := h.thread
  rw [hfree] at hheld
  refine ⟨h.lock.same hlock, hheld.takes hthread, h.sched, h.rest_update hf, h.wf_update hwf, ?_,
    h.owns_update howns', h.quiet, nofun⟩
  rcases ha with ⟨pos, hp, rfl⟩ | ⟨hp, rfl⟩
  · refine h.mail.repost rfl id (by rw [hp]; rfl) (h.mail.free_of_post (by rw [hp]; simp) (by rw [hp]; simp))
      fun pos' hpos => .inl ?_
    rcases hpos with hpos | hpos <;> cases hpos
    exact hp
  · refine h.mail.repost rfl id (by rcases hp with hp | hp <;> simp [hp, registered]) (h.mail.free_of_post ?_ ?_) ?_
    · rcases hp with hp | hp <;> rw [hp] <;> simp
    · rcases hp with hp | hp <;> rw [hp] <;> simp
    · rintro pos (hpos | hpos) <;> cases hpos

omit [DecidableEq τ] in
/-- `mutex->thread_lock` is given back: if the array is not empty, a fiber has been taken out. -/
theorem Safe.giveThread (hheld : (v.cls f).thread = true)
    (hnone : (v.cls f).pending = none → (v.cls f).emptied = true)
    (ha : a = { v.cls f with thread := false, emptied := false }) :
    Safe S { v with cls := Function.update v.cls f a, threadLock := none } := by
  have hmail : Mail S (Function.update v.cls f a) v.status v.waiters v.box :=
    h.mail.same (by rw [ha]) (by rw [ha]) (by rw [ha]; nofun)
  refine ⟨h.lock.same (by rw [ha]), h.thread.gives hheld (by rw [ha]), h.sched, h.rest_update hf, h.wf_update hwf, hmail,
    h.owns_update (by rw [ha]; exact id), h.quiet, fun _ hw => ?_⟩
  cases hp : (v.cls f).pending with
  | none => exact absurd (h.mail.emptied f (hnone hp)) hw
  | some g =>
    have hpa : (Function.update v.cls f a f).pending = some g := by rw [Function.update_self, ha, hp]
    refine ⟨g, .inr (.inr ⟨?_, hmail.not_mem_of_pending hpa⟩)⟩
    rcases hmail.parked f g hpa with hpost | ⟨hpost, -⟩
    · exact .inr hpost
    · exact .inl hpost

omit [DecidableEq τ] in
/-- It goes to another post, and tries the mutex if that is free. -/
theorem Safe.turn {p : Post} (hp : (∃ pos, (v.cls f).post = .trying pos ∧ p = .leaving) ∨
      (v.cls f).post = .coming ∧ p = .away ∨ ((v.cls f).post = .away ∨ (v.cls f).post = .waiting) ∧ p = .coming)
    (hfree : v.threadLock = none → p = .coming) (ha : a = { v.cls f with post := p }) :
    Safe S { v with cls := Function.update v.cls f a } := by
  have hposta : a.post = p := by rw [ha]
  have hregistered : registered a.post (v.status f) = registered (v.cls f).post (v.status f) := by
    rw [hposta, hf]
    rcases hp with ⟨pos, hp, rfl⟩ | ⟨hp, rfl⟩ | ⟨hp | hp, rfl⟩ <;> (rw [hp]; rfl)
  have hunpending : (∀ g, (v.cls g).pending ≠ some f) ∧ ∀ th, f ∉ v.box th := by
    rcases hp with ⟨pos, hp, rfl⟩ | ⟨hp, rfl⟩ | ⟨hp | hp, rfl⟩
    · exact h.mail.free_of_post (by rw [hp]; simp) (by rw [hp]; simp)
    · exact h.mail.free_of_post (by rw [hp]; simp) (by rw [hp]; simp)
    · exact h.mail.free_of_post (by rw [hp]; simp) (by rw [hp]; simp)
    · exact (h.mail.not_pending (by rw [hp, hf]; rfl)).2
  refine ⟨h.lock.same (by rw [ha]), h.thread.same (by rw [ha]), h.sched, h.rest_update hf, h.wf_update hwf,
    h.mail.repost (by rw [ha]) (by rw [ha]; exact id) hregistered hunpending fun pos hpos => ?_,
    h.owns_update (by rw [ha]; exact id), h.quiet, fun hthread hw => ?_⟩
  · rw [hposta] at hpos
    rcases hp with ⟨_, _, rfl⟩ | ⟨_, rfl⟩ | ⟨_, rfl⟩ <;> rcases hpos with hpos | hpos <;> cases hpos
  · exact h.woken_update (fun _ => .inl (hposta.trans (hfree hthread))) hthread hw

omit [DecidableEq τ] hf hwf in
/-- Who holds `mutex->lock` is alone with the array. -/
theorem Safe.alone (hlock : (v.cls f).lock = true) (hg : g ≠ f) (pos : ℕ) :
    (v.cls g).post ≠ .trying pos ∧ (v.cls g).post ≠ .deleting pos ∧ (v.cls g).post ≠ .leaving := by
  refine ⟨fun hp => ?_, fun hp => ?_, fun hp => ?_⟩
  · exact hg (h.lock.eq ((h.wf g).guarded pos (.inl hp)) hlock)
  · exact hg (h.lock.eq ((h.wf g).guarded pos (.inr (.inl hp))) hlock)
  · exact hg (h.lock.eq ((h.wf g).guarded pos (.inr (.inr hp))) hlock)

omit [DecidableEq τ] hf hwf in
theorem Safe.not_emptied (hlock : (v.cls f).lock = true) (hf : (v.cls f).emptied = false) (g : ι) :
    (v.cls g).emptied = false := by
  by_cases hgf : g = f
  · rw [hgf]
    exact hf
  · rw [← Bool.not_eq_true]
    exact fun hg => hgf (h.lock.eq ((h.wf g).emptied hg) hlock)

omit [DecidableEq τ] in
theorem Safe.append (hlock : (v.cls f).lock = true) (hemptied : (v.cls f).emptied = false)
    (hpost : (v.cls f).post = .coming) (ha : a = { v.cls f with post := .trying v.waiters.length }) :
    Safe S { v with cls := Function.update v.cls f a, waiters := v.waiters ++ [f] } := by
  refine ⟨h.lock.same (by rw [ha]), h.thread.same (by rw [ha]), h.sched, h.rest_update hf, h.wf_update hwf,
    h.mail.append hpost ha (h.not_emptied hlock hemptied) fun g pos => ?_, h.owns_update (by rw [ha]; exact id),
    h.quiet, fun _ _ => ⟨f, .inr (.inl ⟨v.waiters.length, ?_⟩)⟩⟩
  · by_cases hgf : g = f
    · rw [hgf, hpost]
      exact ⟨nofun, nofun⟩
    · exact ⟨(h.alone hlock hgf pos).1, (h.alone hlock hgf pos).2.1⟩
  · simp only [Function.update_self]
    rw [ha]

omit [DecidableEq τ] in
theorem Safe.delete {pos : ℕ} (hlock : (v.cls f).lock = true) (hthread : (v.cls f).thread = true)
    (hemptied : (v.cls f).emptied = false) (hpost : (v.cls f).post = .deleting pos)
    (ha : a = { v.cls f with post := .away }) :
    Safe S { v with cls := Function.update v.cls f a, waiters := arrayDelete v.waiters pos } := by
  refine ⟨h.lock.same (by rw [ha]), h.thread.same (by rw [ha]), h.sched, h.rest_update hf, h.wf_update hwf,
    h.mail.delete hpost ha (h.not_emptied hlock hemptied) fun g pos hgf => ?_, h.owns_update (by rw [ha]; exact id),
    h.quiet, fun hfree => ?_⟩
  · exact ⟨(h.alone hlock hgf pos).1, (h.alone hlock hgf pos).2.1⟩
  · have hheld := (h.thread f).1 hthread
    rw [hfree] at hheld
    cases hheld

omit [DecidableEq τ] in
theorem Safe.pop (hlock : (v.cls f).lock = true) (hthread : (v.cls f).thread = true)
    (hemptied : (v.cls f).emptied = false) (hpost : (v.cls f).post = .away) (hnone : (v.cls f).pending = none)
    (ha : a = { v.cls f with pending := v.waiters.head?, emptied := v.waiters.head?.isNone }) :
    Safe S { v with cls := Function.update v.cls f a, waiters := arrayDelete v.waiters 0 } := by
  refine ⟨h.lock.same (by rw [ha]), h.thread.same (by rw [ha]), h.sched, h.rest_update hf, h.wf_update hwf,
    h.mail.pop hpost hnone ha (h.not_emptied hlock hemptied) (fun g pos => ?_) (fun g hg hth => ?_),
    h.owns_update (by rw [ha]; exact id), h.quiet, fun hfree => ?_⟩
  · by_cases hgf : g = f
    · rw [hgf, hpost]
      exact ⟨nofun, nofun, nofun⟩
    · exact h.alone hlock hgf pos
  · -- a fiber at its switch runs, and so does this one
    have hrun : v.status g = .running := by
      by_contra hne
      rcases (h.rest g hne).post with hp | hp | hp <;> rw [hg] at hp <;> cases hp
    have hgt := (h.sched.running (S.tid f) g).2 ⟨hth, hrun⟩
    have hft := (h.sched.running (S.tid f) f).2 ⟨rfl, hf⟩
    obtain rfl := Option.some.inj (hgt.symm.trans hft)
    rw [hpost] at hg
    cases hg
  · have hheld := (h.thread f).1 hthread
    rw [hfree] at hheld
    cases hheld

omit [DecidableEq τ] in
/-- The sanity check holds. -/
theorem Safe.check (howns : (v.cls f).owns = true) (ha : a = { v.cls f with owns := false }) :
    Safe S { v with cls := Function.update v.cls f a, complained := v.complained || S.me f != v.fiber } := by
  refine ⟨h.lock.same (by rw [ha]), h.thread.same (by rw [ha]), h.sched, h.rest_update hf, h.wf_update hwf,
    h.mail.same (by rw [ha]) (by rw [ha]) (by rw [ha]; exact id), h.owns_update (by rw [ha]; nofun), ?_,
    h.woken_update fun hc => by rw [ha]; exact hc⟩
  simp [h.quiet, h.owns f howns]

omit [DecidableEq τ] in
theorem Safe.setFiber {fiber : Option ι} (hthread : (v.cls f).thread = true)
    (ha : a = { v.cls f with owns := a.owns }) (hfiber : a.owns = true → fiber = S.me f) :
    Safe S { v with cls := Function.update v.cls f a, fiber := fiber } := by
  refine ⟨h.lock.same (by rw [ha]), h.thread.same (by rw [ha]), h.sched, h.rest_update hf, h.wf_update hwf,
    h.mail.same (by rw [ha]) (by rw [ha]) (by rw [ha]; exact id), fun g hg => ?_, h.quiet,
    h.woken_update fun hc => by rw [ha]; exact hc⟩
  have hg : (Function.update v.cls f a g).owns = true := hg
  by_cases hgf : g = f
  · subst hgf
    rw [Function.update_self] at hg
    exact hfiber hg
  · -- nobody else holds the mutex
    rw [Function.update_of_ne hgf] at hg
    exact absurd (h.thread.eq ((h.wf g).owns hg) hthread) hgf

end Moves

/-! ## The moves of the scheduler -/

section Sched

variable {running : τ → Option ι} {st : FiberStatus}

omit [Fintype ι] in
theorem Sched.leave (h : Sched S running status) (hf : status f = .running) (hst : st ≠ .running) (hst' : st ≠ .none) :
    Sched S (Function.update running (S.tid f) none) (Function.update status f st) := by
  refine ⟨fun th g => ?_, fun g => ?_⟩
  · by_cases hgf : g = f
    · subst hgf
      rw [Function.update_self]
      refine iff_of_false (fun hg => ?_) fun hg => hst hg.2
      by_cases hth : th = S.tid g
      · rw [hth, Function.update_self] at hg
        cases hg
      · rw [Function.update_of_ne hth] at hg
        exact hth ((h.running th g).1 hg).1.symm
    · rw [Function.update_of_ne hgf]
      by_cases hth : th = S.tid f
      · subst hth
        rw [Function.update_self]
        refine iff_of_false nofun fun hg => hgf ?_
        have hgt := (h.running (S.tid f) g).2 hg
        have hft := (h.running (S.tid f) f).2 ⟨rfl, hf⟩
        exact Option.some.inj (hgt.symm.trans hft)
      · rw [Function.update_of_ne hth]
        exact h.running th g
  · by_cases hgf : g = f
    · rw [hgf, Function.update_self]
      exact hst'
    · rw [Function.update_of_ne hgf]
      exact h.status g

omit [Fintype ι] [DecidableEq τ] in
theorem Sched.ready (h : Sched S running status) (hf : status f ≠ .running) :
    Sched S running (Function.update status f .ready) := by
  refine ⟨fun th g => ?_, fun g => ?_⟩
  · by_cases hgf : g = f
    · subst hgf
      rw [Function.update_self]
      exact iff_of_false (fun hg => hf ((h.running th g).1 hg).2) fun hg => by cases hg.2
    · rw [Function.update_of_ne hgf]
      exact h.running th g
  · by_cases hgf : g = f
    · rw [hgf, Function.update_self]
      nofun
    · rw [Function.update_of_ne hgf]
      exact h.status g

omit [Fintype ι] in
theorem Sched.pick (h : Sched S running status) (hidle : running (S.tid f) = none) :
    Sched S (Function.update running (S.tid f) (some f)) (Function.update status f .running) := by
  refine ⟨fun th g => ?_, fun g => ?_⟩
  · by_cases hgf : g = f
    · subst hgf
      rw [Function.update_self]
      by_cases hth : th = S.tid g
      · rw [hth, Function.update_self]
        exact iff_of_true rfl ⟨rfl, rfl⟩
      · rw [Function.update_of_ne hth]
        exact iff_of_false (fun hg => hth ((h.running th g).1 hg).1.symm) fun hg => hth hg.1.symm
    · rw [Function.update_of_ne hgf]
      by_cases hth : th = S.tid f
      · subst hth
        rw [Function.update_self]
        refine iff_of_false (fun hg => hgf (Option.some.inj hg).symm) fun hg => ?_
        have hgt := (h.running (S.tid f) g).2 hg
        rw [hidle] at hgt
        cases hgt
      · rw [Function.update_of_ne hth]
        exact h.running th g
  · by_cases hgf : g = f
    · rw [hgf, Function.update_self]
      nofun
    · rw [Function.update_of_ne hgf]
      exact h.status g

end Sched

section Scheduler

variable (h : Safe S v)
include h

/-- **A fiber goes to sleep**, behind its switch or for a while. -/
theorem Safe.suspend (hf : v.status f = .running) (hwf : a.Wf) (hlock : (v.cls f).lock = false)
    (hpost : (v.cls f).post = .switching ∧ a = { v.cls f with post := .waiting } ∨ (v.cls f).post = .coming ∧ a = v.cls f) :
    Safe S { v with
      cls := Function.update v.cls f a, status := Function.update v.status f .suspend
      running := Function.update v.running (S.tid f) none } := by
  have hposta : a.post = .waiting ∨ a.post = .coming := by
    rcases hpost with ⟨-, rfl⟩ | ⟨hp, rfl⟩
    · exact .inl rfl
    · exact .inr hp
  have hrest : a.lock = (v.cls f).lock ∧ a.thread = (v.cls f).thread ∧ a.owns = (v.cls f).owns := by
    rcases hpost with ⟨-, rfl⟩ | ⟨-, rfl⟩ <;> exact ⟨rfl, rfl, rfl⟩
  refine ⟨h.lock.same hrest.1, h.thread.same hrest.2.1, h.sched.leave hf nofun nofun, fun g hg => ?_, h.wf_update hwf, ?_,
    h.owns_update (by rw [hrest.2.2]; exact id), h.quiet, fun hfree hw => ?_⟩
  · by_cases hgf : g = f
    · subst hgf
      simp only [Function.update_self]
      refine ⟨hrest.1.trans hlock, ?_⟩
      rcases hposta with hp | hp
      · exact .inr (.inr hp)
      · exact .inr (.inl hp)
    · simp only [Function.update_of_ne hgf] at hg ⊢
      exact h.rest g hg
  · rcases hpost with ⟨hp, ha⟩ | ⟨hp, rfl⟩
    · exact h.mail.park hp ha
    · rw [Function.update_eq_self]
      exact h.mail.restatus (by rw [hp]; rfl)
  · refine h.woken_update (fun hc => ?_) hfree hw
    rcases hpost with ⟨hp, rfl⟩ | ⟨-, rfl⟩
    · rcases hc with hc | ⟨pos, hc⟩ | ⟨-, hc⟩
      · rw [hp] at hc
        cases hc
      · rw [hp] at hc
        cases hc
      · exact .inr (.inr ⟨.inr rfl, hc⟩)
    · exact hc

/-- **A fiber gives way or ends**, in its own code. -/
theorem Safe.leave {st : FiberStatus} (hf : v.status f = .running) (hrests : (v.cls f).Rests)
    (hpost : (v.cls f).post = .away) (hst : st ≠ .running) (hst' : st ≠ .none) :
    Safe S { v with
      status := Function.update v.status f st, running := Function.update v.running (S.tid f) none } := by
  refine { h with sched := h.sched.leave hf hst hst', rest := fun g hg => ?_,
                  mail := h.mail.restatus (by rw [hpost]; rfl) }
  by_cases hgf : g = f
  · rw [hgf]
    exact hrests
  · simp only [Function.update_of_ne hgf] at hg
    exact h.rest g hg

omit [DecidableEq τ] in
/-- A fiber that sleeps, but not for the mutex, is made ready. -/
theorem Safe.awake (hf : v.status f = .suspend) (hpost : (v.cls f).post ≠ .waiting) :
    Safe S { v with status := Function.update v.status f .ready } := by
  have hrests := h.rest f (by rw [hf]; nofun)
  refine { h with sched := h.sched.ready (by rw [hf]; nofun), rest := fun g hg => ?_, mail := h.mail.restatus ?_ }
  · by_cases hgf : g = f
    · rw [hgf]
      exact hrests
    · simp only [Function.update_of_ne hgf] at hg
      exact h.rest g hg
  · rcases hrests.post with hp | hp | hp
    · rw [hp]
      rfl
    · rw [hp]
      rfl
    · exact absurd hp hpost

/-- **A thread takes up** a ready fiber. -/
theorem Safe.pick (hf : v.status f = .ready) (hidle : v.running (S.tid f) = none) :
    Safe S { v with
      status := Function.update v.status f .running, running := Function.update v.running (S.tid f) (some f) } := by
  have hrests := h.rest f (by rw [hf]; nofun)
  refine { h with sched := h.sched.pick hidle, rest := fun g hg => ?_, mail := h.mail.restatus ?_ }
  · by_cases hgf : g = f
    · rw [hgf]
      exact hrests
    · simp only [Function.update_of_ne hgf] at hg
      exact h.rest g hg
  · rcases hrests.post with hp | hp | hp <;> rw [hp, hf] <;> rfl

/-- **The mailbox is read**: the fiber sleeps. -/
theorem Safe.deliver {th : τ} {rest : List ι} (hidle : v.running th = none) (hbox : v.box th = f :: rest) :
    v.status f = .suspend ∧
      Safe S { v with status := Function.update v.status f .ready, box := Function.update v.box th rest } := by
  obtain ⟨hth, hpost⟩ := h.mail.boxed th f (by rw [hbox]; exact List.mem_cons_self)
  have hrun : v.status f ≠ .running := by
    intro hrun
    have hf := (h.sched.running th f).2 ⟨hth, hrun⟩
    rw [hidle] at hf
    cases hf
  have hrests := h.rest f hrun
  have hwaiting : (v.cls f).post = .waiting := by
    rcases hpost with hp | hp
    · exact hp
    · rcases hrests.post with hp' | hp' | hp' <;> rw [hp] at hp' <;> cases hp'
  have hst : v.status f = .suspend := by
    by_contra hne
    have hreg : registered (v.cls f).post (v.status f) = false := by
      rw [hwaiting]
      exact beq_false_of_ne hne
    exact (h.mail.not_pending hreg).2.2 th (by rw [hbox]; exact List.mem_cons_self)
  refine ⟨hst, { h with sched := h.sched.ready hrun, rest := fun g hg => ?_,
                        mail := h.mail.deliver hbox hwaiting hst }⟩
  by_cases hgf : g = f
  · rw [hgf]
    exact hrests
  · simp only [Function.update_of_ne hgf] at hg
    exact h.rest g hg

omit [DecidableEq τ] in
/-- **A fiber wakes another** of its thread. -/
theorem Safe.wake (hf : v.status f = .running) (hwf : a.Wf) (hg : (v.cls f).pending = some g) (hth : S.tid f = S.tid g)
    (haway : (v.cls f).post = .away) (ha : a = { v.cls f with pending := none }) :
    v.status g = .suspend ∧
      Safe S { v with cls := Function.update v.cls f a, status := Function.update v.status g .ready } := by
  have hwaiting : (v.cls g).post = .waiting := by
    rcases h.mail.parked f g hg with hp | ⟨-, hne⟩
    · exact hp
    · exact absurd hth.symm hne
  have hst : v.status g = .suspend := by
    have hreg := h.mail.registered_of_pending hg
    rw [hwaiting] at hreg
    exact eq_of_beq hreg
  have hgf : g ≠ f := by
    rintro rfl
    rw [hf] at hst
    cases hst
  refine ⟨hst, h.lock.same (by rw [ha]), h.thread.same (by rw [ha]), h.sched.ready (by rw [hst]; nofun), fun x hx => ?_,
    h.wf_update hwf, h.mail.wake hg hwaiting ha, h.owns_update (by rw [ha]; exact id), h.quiet,
    h.woken_update fun hc => by rw [ha]; exact hc⟩
  have hrest : v.status x ≠ .running := by
    by_cases hxg : x = g
    · rw [hxg, hst]
      nofun
    · simp only [Function.update_of_ne hxg] at hx
      exact hx
  exact h.rest_update hf x hrest

/-- **A fiber sends for another** of another thread. -/
theorem Safe.send (hf : v.status f = .running) (hwf : a.Wf) (hg : (v.cls f).pending = some g)
    (ha : a = { v.cls f with pending := none }) :
    Safe S { v with
      cls := Function.update v.cls f a, box := Function.update v.box (S.tid g) (v.box (S.tid g) ++ [g]) } :=
  ⟨h.lock.same (by rw [ha]), h.thread.same (by rw [ha]), h.sched, h.rest_update hf, h.wf_update hwf,
    h.mail.send hg ha, h.owns_update (by rw [ha]; exact id), h.quiet, h.woken_update fun hc => by rw [ha]; exact hc⟩

end Scheduler

end MutexCode

end SocketAcl
