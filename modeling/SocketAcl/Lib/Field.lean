import Mathlib.Data.Set.Lattice
import Mathlib.Order.CompletePartialOrder
import Mathlib.Order.Interval.Set.Basic
import Mathlib.Tactic.Common

/-!
# Fields of a memory

A field reads and overwrites a value at some places of a memory, a list of cells. Its laws are
part of it, so that a field put together from others needs no proof of its own.

* `Field`: `get_put`, `put_get`, and the two frame laws: `put` changes no other place
  (`frame`), and `get` depends on no other place (`get_congr`).
* `Field.copy`: a value copied to one place after the other, from an offset on.
* `Field.and`: two fields at disjoint places. `Field.iso`: the same field under another type.
-/

namespace SocketAcl

variable {α β γ : Type*}

/-- **A field** of type `α` in a memory of cells `β`, of at least `size` cells. -/
structure Field (β α : Type*) where
  places : Set ℕ
  size : ℕ
  get : List β → α
  put : α → List β → List β
  length_put : ∀ a m, size ≤ m.length → (put a m).length = m.length
  get_put : ∀ a m, size ≤ m.length → get (put a m) = a
  put_get : ∀ m, size ≤ m.length → put (get m) m = m
  frame : ∀ a m, size ≤ m.length → ∀ i ∉ places, (put a m)[i]? = m[i]?
  get_congr : ∀ m m', size ≤ m.length → (∀ i ∈ places, m'[i]? = m[i]?) → get m' = get m

/-- The memory `m` with `bs` copied over it, from offset `off` on. -/
def splice (off : ℕ) (bs m : List β) : List β := m.take off ++ bs ++ m.drop (off + bs.length)

theorem length_splice {off : ℕ} {bs m : List β} (h : off + bs.length ≤ m.length) :
    (splice off bs m).length = m.length := by
  unfold splice
  simp only [List.length_append, List.length_take, List.length_drop]
  omega

theorem getElem?_splice {off : ℕ} {bs m : List β} (h : off + bs.length ≤ m.length) (i : ℕ) :
    (splice off bs m)[i]? = if off ≤ i ∧ i < off + bs.length then bs[i - off]? else m[i]? := by
  have htake : (m.take off).length = off := List.length_take_of_le (by omega)
  unfold splice
  rw [List.append_assoc]
  by_cases hfront : i < off
  · rw [List.getElem?_append_left (by omega), List.getElem?_take_of_lt hfront, if_neg (by omega)]
  · rw [List.getElem?_append_right (by omega), htake]
    by_cases hin : i < off + bs.length
    · rw [List.getElem?_append_left (by omega), if_pos ⟨by omega, hin⟩]
    · rw [List.getElem?_append_right (by omega), List.getElem?_drop, if_neg (by omega)]
      congr 1
      omega

namespace Field

/-- **A copied field**: `enc` gives the `n` cells of a value, `get` reads it from the memory. -/
def copy (off n : ℕ) (enc : α → List β) (get : List β → α) (length_enc : ∀ a, (enc a).length = n)
    (get_enc : ∀ a m, (∀ i < n, m[off + i]? = (enc a)[i]?) → get m = a)
    (enc_get : ∀ m, off + n ≤ m.length → ∀ i < n, (enc (get m))[i]? = m[off + i]?) : Field β α where
  places := Set.Ico off (off + n)
  size := off + n
  get := get
  put := fun a m => splice off (enc a) m
  length_put := fun a m h => length_splice (by rw [length_enc]; exact h)
  get_put := fun a m h => get_enc a _ fun i hi => by
    have hlen := length_enc a
    rw [getElem?_splice (by omega), if_pos ⟨by omega, by omega⟩, Nat.add_sub_cancel_left]
  put_get := fun m h => by
    have hlen := length_enc (get m)
    refine List.ext_getElem? ?_
    intro i
    rw [getElem?_splice (by omega)]
    split
    · rename_i hi
      rw [enc_get m h (i - off) (by omega), Nat.add_sub_cancel' hi.1]
    · rfl
  frame := fun a m h i hi => by
    have hlen := length_enc a
    rw [getElem?_splice (by omega), if_neg]
    rintro ⟨hlo, hhi⟩
    exact hi ⟨hlo, by omega⟩
  get_congr := fun m m' h hm => get_enc (get m) m' fun i hi => by
    rw [enc_get m h i hi]
    exact hm (off + i) ⟨by omega, by omega⟩

/-- **Two fields** at disjoint places. -/
def and (F : Field β α) (G : Field β γ) (hd : Disjoint F.places G.places) : Field β (α × γ) where
  places := F.places ∪ G.places
  size := max F.size G.size
  get := fun m => (F.get m, G.get m)
  put := fun a m => G.put a.2 (F.put a.1 m)
  length_put := fun a m h => by
    have hF := F.length_put a.1 m (by omega)
    rw [G.length_put a.2 _ (by omega), hF]
  get_put := fun a m h => by
    have hF := F.length_put a.1 m (by omega)
    -- what `G` puts behind leaves the places of `F` alone
    have hget : F.get (G.put a.2 (F.put a.1 m)) = F.get (F.put a.1 m) := by
      refine F.get_congr _ _ (by omega) ?_
      intro i hi
      exact G.frame a.2 _ (by omega) i (Set.disjoint_left.1 hd hi)
    rw [hget, F.get_put a.1 m (by omega), G.get_put a.2 _ (by omega)]
  put_get := fun m h => by
    rw [F.put_get m (by omega), G.put_get m (by omega)]
  frame := fun a m h i hi => by
    have hF := F.length_put a.1 m (by omega)
    rw [Set.mem_union, not_or] at hi
    rw [G.frame a.2 _ (by omega) i hi.2, F.frame a.1 m (by omega) i hi.1]
  get_congr := fun m m' h hm => by
    rw [F.get_congr m m' (by omega) fun i hi => hm i (.inl hi),
      G.get_congr m m' (by omega) fun i hi => hm i (.inr hi)]

/-- The same field under another type. -/
def iso (F : Field β α) (e : α ≃ γ) : Field β γ where
  places := F.places
  size := F.size
  get := fun m => e (F.get m)
  put := fun c m => F.put (e.symm c) m
  length_put := fun c m h => F.length_put _ m h
  get_put := fun c m h => by rw [F.get_put _ m h, e.apply_symm_apply]
  put_get := fun m h => by rw [e.symm_apply_apply, F.put_get m h]
  frame := fun c m h => F.frame _ m h
  get_congr := fun m m' h hm => by rw [F.get_congr m m' h hm]

end Field

end SocketAcl
