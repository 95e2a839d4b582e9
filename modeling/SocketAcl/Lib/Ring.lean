import Mathlib.Data.List.Chain
import Mathlib.Data.List.Nodup
import Mathlib.Tactic.Common

/-!
# Rings of linked nodes

Nodes with a link to the next one and a link to the one before, as in a doubly linked ring that is
built into the records it holds: from its head, the links lead through the nodes of a list and back.

* `Linked.congr`: what is linked depends on the links forward of all nodes but the last and on the links
  back of all nodes but the first.
* `Ring.insert`: links that put a new node in front of the head hold the list with it behind.
* `Ring.unlink`: links that lead past a node hold the list without it.
-/

namespace SocketAcl

/-- The links of the nodes; null where there is none. -/
structure Links (ν : Type*) where
  succ : ν → Option ν
  pred : ν → Option ν

namespace Links

variable {ν : Type*} {L L' : Links ν} {h e : ν} {l A B : List ν}

/-- Linked both ways. -/
def Joined (L : Links ν) (x y : ν) : Prop := L.succ x = some y ∧ L.pred y = some x

/-- Each node is linked with the next of the list. -/
def Linked (L : Links ν) (l : List ν) : Prop := l.IsChain L.Joined

theorem Linked.congr (hsucc : ∀ x ∈ l.dropLast, L'.succ x = L.succ x) (hpred : ∀ y ∈ l.tail, L'.pred y = L.pred y)
    (hl : L.Linked l) : L'.Linked l := by
  unfold Linked at *
  induction l with
  | nil => exact .nil
  | cons x l ih =>
    cases l with
    | nil => exact .singleton x
    | cons y l =>
      rw [List.isChain_cons_cons] at hl ⊢
      obtain ⟨⟨hx, hy⟩, hrest⟩ := hl
      refine ⟨⟨?_, ?_⟩, ih (fun z hz => ?_) (fun z hz => ?_) hrest⟩
      · rw [hsucc x (by simp), hx]
      · rw [hpred y (by simp), hy]
      · exact hsucc z (by rw [List.dropLast_cons_of_ne_nil (by simp)]; exact List.mem_cons_of_mem _ hz)
      · exact hpred z (List.mem_cons_of_mem _ hz)

/-- **The ring**: from the head through the list and back to it. -/
structure Ring (L : Links ν) (h : ν) (l : List ν) : Prop where
  linked : L.Linked (h :: l ++ [h])
  nodup : (h :: l).Nodup

/-- A nonempty list by its last node. -/
theorem exists_last (x : ν) (l : List ν) : ∃ A p, x :: l = A ++ [p] :=
  ⟨_, _, (List.dropLast_append_getLast (List.cons_ne_nil x l)).symm⟩

/-- The head's links: where the list begins, and where it ends. -/
theorem Ring.succ_head (hr : L.Ring h l) : L.succ h = some ((l ++ [h]).head (by simp)) := by
  have hl := hr.linked
  cases l with
  | nil => exact (List.isChain_cons_cons.1 hl).1.1
  | cons x l => exact (List.isChain_cons_cons.1 hl).1.1

theorem Ring.pred_head (hr : L.Ring h l) (hp : h :: l = A ++ [e]) : L.pred h = some e := by
  have hl := hr.linked
  rw [hp, List.append_assoc] at hl
  exact (List.isChain_append_cons_cons.1 hl).2.1.2

/-- What lies in front of a node of the ring and behind it. -/
theorem Ring.split (hr : L.Ring h (A ++ e :: B)) : ∃ A' p s B', h :: A = A' ++ [p] ∧ B ++ [h] = s :: B' ∧
    L.pred e = some p ∧ L.succ e = some s := by
  obtain ⟨A', p, hA⟩ := exists_last h A
  obtain ⟨s, B', hB⟩ : ∃ s B', B ++ [h] = s :: B' := List.exists_cons_of_ne_nil (by simp)
  have hl : L.Linked (A' ++ [p] ++ e :: s :: B') := by simpa [← hA, ← hB] using hr.linked
  rw [Linked, List.append_assoc, List.singleton_append, List.isChain_append_cons_cons,
    List.isChain_cons_cons] at hl
  exact ⟨A', p, s, B', hA, hB, hl.2.1.2, hl.2.2.1.1⟩

/-- **Frame**: other nodes' links do not matter. -/
theorem Ring.frame (hr : L.Ring h l) (hsucc : ∀ x ∈ h :: l, L'.succ x = L.succ x)
    (hpred : ∀ x ∈ h :: l, L'.pred x = L.pred x) : L'.Ring h l := by
  refine ⟨hr.linked.congr (fun x hx => ?_) (fun x hx => ?_), hr.nodup⟩
  · rw [List.dropLast_concat] at hx
    exact hsucc x hx
  · exact hpred x (by simpa [or_comm] using hx)

/-- **Insertion** in front of the head, behind the last node `p`. -/
theorem Ring.insert {p : ν} (hr : L.Ring h l) (he : e ∉ h :: l) (hp : L.pred h = some p)
    (hpe : L'.Joined p e) (heh : L'.Joined e h) (hsucc : ∀ x, x ≠ e → x ≠ p → L'.succ x = L.succ x)
    (hpred : ∀ x, x ≠ e → x ≠ h → L'.pred x = L.pred x) : L'.Ring h (l ++ [e]) := by
  obtain ⟨A, q, hA⟩ := exists_last h l
  obtain rfl : q = p := Option.some.inj ((hr.pred_head hA).symm.trans hp)
  have hnd := hr.nodup
  refine ⟨?_, ?_⟩
  · -- up to the last node nothing has changed
    have hfirst : L.Linked (A ++ [q]) := by
      have hl := hr.linked
      rw [hA] at hl
      exact hl.left_of_append
    have hfirst' : L'.Linked (A ++ [q]) := by
      refine hfirst.congr (fun x hx => ?_) (fun x hx => ?_)
      · rw [List.dropLast_concat] at hx
        rw [hA] at hnd he
        refine hsucc x (fun hxe => he ?_) (fun hxq => (List.nodup_append.1 hnd).2.2 x hx q (by simp) hxq)
        exact hxe ▸ List.mem_append_left _ hx
      · rw [← hA, List.tail_cons] at hx
        refine hpred x (fun hxe => he (hxe ▸ List.mem_cons_of_mem _ hx)) fun hxh => ?_
        exact (List.nodup_cons.1 hnd).1 (hxh ▸ hx)
    have hall : L'.Linked (A ++ q :: e :: [h]) := by
      rw [Linked, List.isChain_append_cons_cons]
      exact ⟨hfirst', hpe, List.isChain_cons_cons.2 ⟨heh, .singleton h⟩⟩
    have heq : h :: (l ++ [e]) ++ [h] = A ++ q :: e :: [h] := by
      rw [← List.cons_append, hA]
      simp
    rw [heq]
    exact hall
  · rw [← List.cons_append, List.nodup_append]
    refine ⟨hnd, List.nodup_singleton e, fun a ha b hb hab => he ?_⟩
    rw [← List.mem_singleton.1 hb, ← hab]
    exact ha

/-- **Removal**: the nodes on both sides are linked with each other. -/
theorem Ring.unlink {p s : ν} (hr : L.Ring h (A ++ e :: B)) (hp : L.pred e = some p) (hs : L.succ e = some s)
    (hps : L'.Joined p s) (hsucc : ∀ x, x ≠ e → x ≠ p → L'.succ x = L.succ x)
    (hpred : ∀ x, x ≠ e → x ≠ s → L'.pred x = L.pred x) : L'.Ring h (A ++ B) := by
  obtain ⟨A', p', s', B', hA, hB, hp', hs'⟩ := hr.split
  obtain rfl : p' = p := Option.some.inj (hp'.symm.trans hp)
  obtain rfl : s' = s := Option.some.inj (hs'.symm.trans hs)
  have hnd := hr.nodup
  have hl := hr.linked
  rw [show h :: (A ++ e :: B) ++ [h] = (h :: A) ++ e :: (B ++ [h]) by simp, hA, hB] at hl
  rw [show h :: (A ++ e :: B) = (h :: A) ++ e :: B by simp, List.nodup_append] at hnd
  obtain ⟨hndA, hndB, hdis⟩ := hnd
  rw [List.nodup_cons] at hndB
  refine ⟨?_, ?_⟩
  · have hfront : L'.Linked (A' ++ [p']) := by
      have hfront := hl.left_of_append
      refine Linked.congr (fun x hx => ?_) (fun x hx => ?_) hfront
      · rw [List.dropLast_concat] at hx
        have hxA : x ∈ h :: A := hA ▸ List.mem_append_left _ hx
        refine hsucc x (fun hxe => hdis x hxA e (by simp) hxe) fun hxp => ?_
        rw [hA] at hndA
        exact (List.nodup_append.1 hndA).2.2 x hx p' (by simp) hxp
      · rw [← hA, List.tail_cons] at hx
        refine hpred x (fun hxe => hdis x (List.mem_cons_of_mem _ hx) e (by simp) hxe) fun hxs => ?_
        -- the node behind `e` is the head or one behind `e`
        have hmem : s' ∈ B ++ [h] := by rw [hB]; simp
        rcases List.mem_append.1 hmem with hsB | hsh
        · exact hdis x (List.mem_cons_of_mem _ hx) s' (List.mem_cons_of_mem _ hsB) hxs
        · rw [hxs, List.mem_singleton.1 hsh] at hx
          exact (List.nodup_cons.1 hndA).1 hx
    have hback : L'.Linked (s' :: B') := by
      have hback : L.Linked (s' :: B') := (List.IsChain.right_of_append hl).tail
      refine Linked.congr (fun x hx => ?_) (fun x hx => ?_) hback
      · rw [← hB, List.dropLast_concat] at hx
        refine hsucc x (fun hxe => hndB.1 (hxe ▸ hx)) fun hxp => ?_
        have hpA : p' ∈ h :: A := by rw [hA]; simp
        exact hdis p' hpA x (List.mem_cons_of_mem _ hx) hxp.symm
      · rw [List.tail_cons] at hx
        have hndBh : (s' :: B').Nodup := by
          rw [← hB, List.nodup_append]
          refine ⟨hndB.2, List.nodup_singleton h, fun a ha b hb hab => ?_⟩
          exact hdis b (by rw [List.mem_singleton.1 hb]; simp) a (List.mem_cons_of_mem _ ha) hab.symm
        refine hpred x (fun hxe => ?_) (fun hxs => (List.nodup_cons.1 hndBh).1 (hxs ▸ hx))
        have hmem : x ∈ B ++ [h] := by rw [hB]; exact List.mem_cons_of_mem _ hx
        rcases List.mem_append.1 hmem with hxB | hxh
        · exact hndB.1 (hxe ▸ hxB)
        · exact hdis h (by simp) e (by simp) ((List.mem_singleton.1 hxh).symm.trans hxe)
    have hall : L'.Linked (A' ++ p' :: s' :: B') := by
      rw [Linked, List.isChain_append_cons_cons]
      exact ⟨hfront, hps, hback⟩
    rw [show h :: (A ++ B) ++ [h] = (h :: A) ++ (B ++ [h]) by simp, hA, hB, List.append_assoc]
    exact hall
  · rw [← List.cons_append, List.nodup_append]
    exact ⟨hndA, hndB.2, fun a ha b hb => hdis a ha b (List.mem_cons_of_mem _ hb)⟩

end Links

end SocketAcl
