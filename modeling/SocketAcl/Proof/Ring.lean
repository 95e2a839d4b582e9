import Mathlib.Algebra.Order.Group.Unbundled.Int
import SocketAcl.Lib.Ring
import SocketAcl.Spec.Ring

/-!
# What the rings hold

A memory holds queues of fibers (`Rings m q`) if from each head the links lead through its queue and back,
and every fiber outside the queues is detached. Insertion, removal and the look at the first fiber are those
of lists, and none of them follows a null pointer.

* `Rings.prepend`, `Rings.detach`, `Rings.popHead`: what the operations do to the queues.
* `Rings.detach_head`: detaching a head does nothing.
-/

namespace SocketAcl

section Fields

variable {ν : Type*} [DecidableEq ν] {m : Memory ν} {ring entry p s par : ν}

/-- **Insertion, field by field.** -/
theorem ringPrepend_fields (hpred : (m ring).pred = some p) (hparent : (m ring).parent = some ring)
    (hne : entry ≠ ring) (hp : p ≠ entry) :
    ∃ m', ringPrepend m ring entry = some m' ∧
      (∀ x, (m' x).succ = if x = entry then some ring else if x = p then some entry else (m x).succ) ∧
      (∀ x, (m' x).pred = if x = entry then some p else if x = ring then some entry else (m x).pred) ∧
      (∀ x, (m' x).parent = if x = entry then some ring else (m x).parent) ∧
      ∀ x, (m' x).len = (m x).len + if x = ring then 1 else 0 := by
  have hne' := hne.symm
  have hpring : (Function.update (Function.update m entry
      { m entry with pred := some p, succ := some ring, parent := some ring }) p
      { m p with succ := some entry } ring).parent = some ring := by
    by_cases hpr : ring = p
    · rw [← hpr, Function.update_self]
      exact hparent
    · rw [Function.update_of_ne hpr, Function.update_of_ne hne']
      exact hparent
  simp only [ringPrepend, hpred, hparent, Function.update_of_ne hne', Function.update_of_ne hp,
    Option.bind_eq_bind, Option.bind_some, Function.update_self, hpring]
  refine ⟨_, rfl, fun x => ?_, fun x => ?_, fun x => ?_, fun x => ?_⟩ <;>
    (simp only [Function.update_apply]; split_ifs <;> simp_all)

/-- **Removal, field by field.** -/
theorem ringDetach_fields (hparent : (m entry).parent = some par) (hpar : par ≠ entry)
    (hsucc : (m entry).succ = some s) (hpred : (m entry).pred = some p) (hs : s ≠ entry) (hp : p ≠ entry) :
    ∃ m', ringDetach m entry = some m' ∧
      (∀ x, (m' x).succ = if x = entry then some entry else if x = p then some s else (m x).succ) ∧
      (∀ x, (m' x).pred = if x = entry then some entry else if x = s then some p else (m x).pred) ∧
      (∀ x, (m' x).parent = if x = entry then some entry else (m x).parent) ∧
      ∀ x, (m' x).len = if x = entry then 0 else (m x).len - if x = par then 1 else 0 := by
  have hself : (m entry).parent ≠ some entry := by
    rw [hparent]
    exact fun h => hpar (Option.some.inj h)
  rw [ringDetach, if_neg hself, hsucc, hpred]
  simp only [Function.update_of_ne hs.symm, Function.update_of_ne hp.symm, hparent, Option.bind_eq_bind,
    Option.bind_some, ringInit]
  refine ⟨_, rfl, fun x => ?_, fun x => ?_, fun x => ?_, fun x => ?_⟩ <;>
    (simp only [Function.update_apply]; split_ifs <;> simp_all)

end Fields

variable {η ι : Type*} {m : Memory (Node η ι)} {q : η → List ι} {r : η} {f : ι}

def Memory.links {ν : Type*} (m : Memory ν) : Links ν := ⟨fun x => (m x).succ, fun x => (m x).pred⟩

/-- Detached, or never attached. -/
def Memory.Free {ν : Type*} (m : Memory ν) (x : ν) : Prop :=
  (m x).parent = some x ∨ (m x).parent = none ∧ (m x).succ = none

/-- **The memory holds the queues.** -/
structure Rings (m : Memory (Node η ι)) (q : η → List ι) : Prop where
  ring : ∀ r, m.links.Ring (.head r) ((q r).map .me)
  head : ∀ r, (m (.head r)).parent = some (.head r)
  len : ∀ r, (m (.head r)).len = (q r).length
  parent : ∀ r, ∀ f ∈ q r, (m (.me f)).parent = some (.head r)
  free : ∀ f, (∀ r, f ∉ q r) → m.Free (.me f)

namespace Rings

theorem nodup (h : Rings m q) (r : η) : (q r).Nodup :=
  ((List.nodup_cons.1 (h.ring r).nodup).2).of_map

/-- A fiber is in one queue at most. -/
theorem unique (h : Rings m q) {r' : η} (hf : f ∈ q r) (hf' : f ∈ q r') : r = r' := by
  have heq := (h.parent r f hf).symm.trans (h.parent r' f hf')
  exact Node.head.inj (Option.some.inj heq)

theorem me_mem {l : List ι} : Node.me f ∈ Node.head r :: l.map Node.me ↔ f ∈ l := by simp

theorem head_mem {r' : η} {l : List ι} : Node.head r' ∈ Node.head r :: l.map (Node.me (η := η)) ↔ r' = r := by simp

/-- **Frame**: the rings of the other queues, when only `f` and the ring of `r` are written. -/
theorem frame_other {m' : Memory (Node η ι)} {r' : η} (h : Rings m q) (hr : r' ≠ r) (hf : f ∉ q r')
    (hkeep : ∀ x, x ≠ .me f → x ∉ Node.head r :: (q r).map .me →
      (m' x).succ = (m x).succ ∧ (m' x).pred = (m x).pred) :
    m'.links.Ring (.head r') ((q r').map .me) := by
  have hsame : ∀ x ∈ Node.head r' :: (q r').map .me, (m' x).succ = (m x).succ ∧ (m' x).pred = (m x).pred := by
    intro x hx
    refine hkeep x ?_ fun hxr => ?_
    · rintro rfl
      exact hf (me_mem.1 hx)
    · cases x with
      | head r₀ => exact hr ((head_mem.1 hx).symm.trans (head_mem.1 hxr))
      | me g => exact hr (h.unique (me_mem.1 hx) (me_mem.1 hxr))
  exact (h.ring r').frame (fun x hx => (hsame x hx).1) fun x hx => (hsame x hx).2

theorem succ_nil (h : Rings m q) (hq : q r = []) : (m (.head r)).succ = some (.head r) := by
  have hs := (h.ring r).succ_head
  simpa [hq, Memory.links] using hs

theorem succ_cons (h : Rings m q) {l : List ι} (hq : q r = f :: l) : (m (.head r)).succ = some (.me f) := by
  have hs := (h.ring r).succ_head
  simpa [hq, Memory.links] using hs

variable [DecidableEq η] [DecidableEq ι]

/-- **Insertion** at the end of a queue. -/
theorem prepend (h : Rings m q) (hf : ∀ r, f ∉ q r) (r : η) :
    ∃ m', ringPrepend m (.head r) (.me f) = some m' ∧ Rings m' (Function.update q r (q r ++ [f])) := by
  obtain ⟨A, p, hA⟩ := Links.exists_last (Node.head r) ((q r).map .me)
  have hpred : (m (.head r)).pred = some p := (h.ring r).pred_head hA
  have hp : p ∈ Node.head r :: (q r).map .me := by rw [hA]; simp
  have hpf : p ≠ .me f := by
    rintro rfl
    exact hf r (me_mem.1 hp)
  obtain ⟨m', hm', hsucc, hpred', hparent, hlen⟩ :=
    ringPrepend_fields hpred (h.head r) (by simp : Node.me f ≠ .head r) hpf
  refine ⟨m', hm', ⟨fun r' => ?_, fun r' => ?_, fun r' => ?_, fun r' g hg => ?_, fun g hg => ?_⟩⟩
  · by_cases hr : r' = r
    · subst hr
      have hins : m'.links.Ring (.head r') ((q r').map .me ++ [.me f]) := by
        refine (h.ring r').insert (p := p) ?_ hpred ⟨?_, ?_⟩ ⟨?_, ?_⟩ (fun x hx hxp => ?_) fun x hx hxr => ?_
        · rw [me_mem]
          exact hf r'
        · exact (hsucc p).trans (by rw [if_neg hpf, if_pos rfl])
        · exact (hpred' (.me f)).trans (if_pos rfl)
        · exact (hsucc (.me f)).trans (if_pos rfl)
        · exact (hpred' (.head r')).trans (by rw [if_neg (by simp), if_pos rfl])
        · exact (hsucc x).trans (by rw [if_neg hx, if_neg hxp]; rfl)
        · exact (hpred' x).trans (by rw [if_neg hx, if_neg hxr]; rfl)
      rw [Function.update_self, List.map_append]
      exact hins
    · rw [Function.update_of_ne hr]
      refine h.frame_other hr (hf r') fun x hx hxr => ⟨?_, ?_⟩
      · rw [hsucc, if_neg hx, if_neg (ne_of_mem_of_not_mem hp hxr).symm]
      · rw [hpred', if_neg hx, if_neg (ne_of_mem_of_not_mem List.mem_cons_self hxr).symm]
  · rw [hparent, if_neg (by simp)]
    exact h.head r'
  · rw [hlen, h.len]
    by_cases hr : r' = r
    · subst hr
      simp
    · simp [hr]
  · rw [hparent]
    by_cases hr : r' = r
    · subst hr
      rw [Function.update_self, List.mem_append, List.mem_singleton] at hg
      rcases hg with hg | rfl
      · by_cases hgf : g = f
        · rw [if_pos (congrArg _ hgf)]
        · rw [if_neg (by simpa using hgf)]
          exact h.parent r' g hg
      · rw [if_pos rfl]
    · rw [Function.update_of_ne hr] at hg
      rw [if_neg (by rintro ⟨⟩; exact hf r' hg)]
      exact h.parent r' g hg
  · have hgf : Node.me g ≠ Node.me (η := η) f := by
      rintro ⟨⟩
      exact hg r (by simp)
    have hold : ∀ r', g ∉ q r' := by
      intro r' hmem
      by_cases hr : r' = r
      · subst hr
        exact hg r' (by rw [Function.update_self]; exact List.mem_append_left _ hmem)
      · exact hg r' (by rw [Function.update_of_ne hr]; exact hmem)
    have hgp : Node.me g ≠ p := fun hgp => hold r (me_mem.1 (hgp ▸ hp))
    rw [Memory.Free, hparent, hsucc, if_neg hgf, if_neg hgf, if_neg hgp]
    exact h.free g hold

/-- What a head is detached from: nothing. -/
theorem detach_head (h : Rings m q) (r : η) : ringDetach m (.head r) = some m := if_pos (h.head r)

omit [DecidableEq η] in
/-- A fiber of a queue and its neighbours, which lie in the ring that is left. -/
theorem neighbours (h : Rings m q) (hf : f ∈ q r) :
    ∃ A B p s, q r = A ++ f :: B ∧ (q r).erase f = A ++ B ∧ (m (.me f)).pred = some p ∧ (m (.me f)).succ = some s ∧
      p ∈ Node.head r :: ((q r).erase f).map .me ∧ s ∈ Node.head r :: ((q r).erase f).map .me := by
  obtain ⟨A, B, hq⟩ := List.mem_iff_append.1 hf
  have hnd := h.nodup r
  rw [hq] at hnd
  have hfA : f ∉ A := fun hfA => (List.nodup_append.1 hnd).2.2 f hfA f (by simp) rfl
  have herase : (q r).erase f = A ++ B := by
    rw [hq, List.erase_append_right _ hfA, List.erase_cons_head]
  have hring := h.ring r
  rw [hq, List.map_append, List.map_cons] at hring
  obtain ⟨A', p, s, B', hA, hB, hpred, hsucc⟩ := hring.split
  refine ⟨A, B, p, s, hq, herase, hpred, hsucc, ?_, ?_⟩
  · have hp : p ∈ Node.head r :: A.map Node.me := by rw [hA]; simp
    rw [herase, List.map_append, ← List.cons_append]
    exact List.mem_append_left _ hp
  · have hs : s ∈ B.map Node.me ++ [Node.head r] := by rw [hB]; simp
    rw [herase, List.map_append]
    rcases List.mem_append.1 hs with hs | hs
    · exact List.mem_cons_of_mem _ (List.mem_append_right _ hs)
    · exact List.mem_singleton.1 hs ▸ List.mem_cons_self

/-- What is in no queue is left alone. -/
theorem detach_free (h : Rings m q) (hf : ∀ r, f ∉ q r) : ringDetach m (.me f) = some m := by
  rcases h.free f hf with hfree | ⟨hnone, hsnone⟩
  · exact if_pos hfree
  · rw [ringDetach, if_neg (by rw [hnone]; simp), hsnone]

theorem detach_mem (h : Rings m q) (hf : f ∈ q r) :
    ∃ m', ringDetach m (.me f) = some m' ∧ Rings m' fun r => (q r).erase f := by
  obtain ⟨A, B, p, s, hq, herase, hpred, hsucc, hp, hs⟩ := h.neighbours hf
  have hother : ∀ r', r' ≠ r → f ∉ q r' := fun r' hr hf' => hr (h.unique hf' hf)
  have hne : ∀ {x}, x ∈ Node.head r :: ((q r).erase f).map .me → x ≠ .me f := by
    rintro x hx rfl
    exact ((h.nodup r).mem_erase_iff.1 (me_mem.1 hx)).1 rfl
  have hold : ∀ {x}, x ∈ Node.head r :: ((q r).erase f).map .me → x ∈ Node.head r :: (q r).map .me := by
    intro x hx
    exact List.cons_subset_cons _ (List.map_subset _ List.erase_subset) hx
  obtain ⟨m', hm', hsucc', hpred', hparent, hlen⟩ :=
    ringDetach_fields (h.parent r f hf) (by simp) hsucc hpred (hne hs) (hne hp)
  refine ⟨m', hm', ⟨fun r' => ?_, fun r' => ?_, fun r' => ?_, fun r' g hg => ?_, fun g hg => ?_⟩⟩
  · by_cases hr : r' = r
    · subst hr
      have hring := h.ring r'
      rw [hq, List.map_append, List.map_cons] at hring
      have hdel : m'.links.Ring (.head r') (A.map .me ++ B.map .me) := by
        refine hring.unlink hpred hsucc ⟨?_, ?_⟩ (fun x hx hxp => ?_) fun x hx hxs => ?_
        · exact (hsucc' p).trans (by rw [if_neg (hne hp), if_pos rfl])
        · exact (hpred' s).trans (by rw [if_neg (hne hs), if_pos rfl])
        · exact (hsucc' x).trans (by rw [if_neg hx, if_neg hxp]; rfl)
        · exact (hpred' x).trans (by rw [if_neg hx, if_neg hxs]; rfl)
      rw [herase, List.map_append]
      exact hdel
    · rw [List.erase_of_not_mem (hother r' hr)]
      refine h.frame_other hr (hother r' hr) fun x hx hxr => ⟨?_, ?_⟩
      · rw [hsucc', if_neg hx, if_neg (ne_of_mem_of_not_mem (hold hp) hxr).symm]
      · rw [hpred', if_neg hx, if_neg (ne_of_mem_of_not_mem (hold hs) hxr).symm]
  · rw [hparent, if_neg (by simp)]
    exact h.head r'
  · rw [hlen, if_neg (by simp), h.len]
    by_cases hr : r' = r
    · subst hr
      have hpos := List.length_pos_of_mem hf
      rw [if_pos rfl, List.length_erase_of_mem hf]
      omega
    · rw [if_neg (by simpa using hr), List.erase_of_not_mem (hother r' hr), sub_zero]
  · have hgf : g ≠ f := by
      rintro rfl
      exact ((h.nodup r').mem_erase_iff.1 hg).1 rfl
    rw [hparent, if_neg (by simpa using hgf)]
    exact h.parent r' g (List.mem_of_mem_erase hg)
  · by_cases hgf : g = f
    · exact .inl ((hparent _).trans (by rw [hgf, if_pos rfl]))
    · have hgf' : Node.me g ≠ Node.me (η := η) f := by simpa using hgf
      have hgp : Node.me g ≠ p := fun hgp => hg r (me_mem.1 (hgp ▸ hp))
      have hfree := h.free g fun r' hmem => hg r' ((List.mem_erase_of_ne hgf).2 hmem)
      rw [Memory.Free, hparent, hsucc', if_neg hgf', if_neg hgf', if_neg hgp]
      exact hfree

/-- **Removal** from whichever queue the fiber is in. -/
theorem detach (h : Rings m q) (f : ι) :
    ∃ m', ringDetach m (.me f) = some m' ∧ Rings m' fun r => (q r).erase f := by
  by_cases hf : ∃ r, f ∈ q r
  · obtain ⟨r, hf⟩ := hf
    exact h.detach_mem hf
  · have hf' : ∀ r, f ∉ q r := fun r hmem => hf ⟨r, hmem⟩
    have hsame : (fun r => (q r).erase f) = q := funext fun r => List.erase_of_not_mem (hf' r)
    rw [hsame]
    exact ⟨m, h.detach_free hf', h⟩

/-- **The first is popped.** -/
theorem popHead (h : Rings m q) (r : η) :
    ∃ m', ringPopHead m (.head r) = some (m', (q r).head?.map .me) ∧ Rings m' (Function.update q r (q r).tail) := by
  cases hq : q r with
  | nil =>
    refine ⟨m, if_pos (h.succ_nil hq), ?_⟩
    have hsame : Function.update q r [] = q := by rw [← hq, Function.update_eq_self]
    rw [List.tail_nil, hsame]
    exact h
  | cons f l =>
    have hs := h.succ_cons hq
    obtain ⟨m', hm', hr'⟩ := h.detach f
    have hsame : (fun r => (q r).erase f) = Function.update q r l := by
      funext r'
      by_cases hr : r' = r
      · subst hr
        rw [Function.update_self, hq, List.erase_cons_head]
      · rw [Function.update_of_ne hr]
        refine List.erase_of_not_mem fun hf => hr (h.unique hf ?_)
        rw [hq]
        exact List.mem_cons_self
    refine ⟨m', ?_, hsame ▸ hr'⟩
    rw [ringPopHead, if_neg (by rw [hs]; simp), hs]
    simp [hm']

end Rings

end SocketAcl
