import Mathlib.Algebra.Ring.Nat
import Mathlib.Data.List.SplitLengths
import Mathlib.Tactic.Common

/-!
# Cutting a stream of packets into pieces

A stream is the concatenation of packets. A reader sees it cut into pieces of other lengths
(`List.splitLengths`) and takes each piece for a packet: `R piece packet`. It stops at a piece
that satisfies `T`.

* `Cuts size total ns`: lengths that the reads of `total` elements into a buffer can return.
* `Filled size l pieces`: the pieces where every read returns as much as the buffer holds.
* `ReadAs R T l ns packets`: cut in lengths `ns`, the stream `l` is read as `packets`.
* `Sharp size R T P`: the two conditions on a reader of packets `P`. A piece from inside a packet
  is not taken for that packet, and behind a piece that ends too early the rest cannot be read.
* `Sharp.lengths`: a sharp reader takes the pieces for the packets only if they are the packets.

A piece that ends too late leaves the reader ahead of the packets for good (`not_ahead`): it
would have to take a piece from inside the packet expected there.
-/

namespace SocketAcl

/-- Lengths that the reads of `total` elements into a buffer of length `size` can return. -/
structure Cuts (size total : ℕ) (ns : List ℕ) : Prop where
  pos : ∀ n ∈ ns, 0 < n
  le : ∀ n ∈ ns, n ≤ size
  sum : ns.sum = total

theorem Cuts.nil {size total : ℕ} (h : Cuts size total []) : total = 0 := h.sum.symm

theorem Cuts.cons {size total n : ℕ} {ns : List ℕ} (h : Cuts size total (n :: ns)) :
    0 < n ∧ n ≤ size ∧ n ≤ total ∧ Cuts size (total - n) ns := by
  obtain ⟨hpos, hle, hsum⟩ := h
  rw [List.sum_cons] at hsum
  have hrest : ns.sum = total - n := by omega
  exact ⟨hpos n List.mem_cons_self, hle n List.mem_cons_self, by omega,
    fun m hm => hpos m (List.mem_cons_of_mem _ hm), fun m hm => hle m (List.mem_cons_of_mem _ hm), hrest⟩

/-- The pieces that reads into a buffer of length `size` return if each returns as much as it holds. -/
inductive Filled {β : Type*} (size : ℕ) : List β → List (List β) → Prop
  | done : Filled size [] []
  | read {l : List β} {pieces : List (List β)} :
      l ≠ [] → Filled size (l.drop size) pieces → Filled size l (l.take size :: pieces)

variable {β : Type*} {R : List β → List β → Prop} {T P : List β → Prop} {size : ℕ}

/-- **What fits the buffer is read at once**, and only that. -/
theorem Filled.length_eq_one_iff {l : List β} {pieces : List (List β)} (h : Filled size l pieces)
    (hl : l ≠ []) :
    pieces.length = 1 ↔ l.length ≤ size := by
  cases h with
  | done => exact absurd rfl hl
  | @read _ pieces _ hrest =>
    rw [← List.drop_eq_nil_iff]
    generalize l.drop size = rest at hrest ⊢
    cases hrest with
    | done => exact iff_of_true rfl rfl
    | read hne hrest =>
      refine iff_of_false ?_ hne
      rw [List.length_cons, List.length_cons]
      omega

/-- Cut at the packets' own lengths, a stream gives the packets back. -/
theorem splitLengths_packets (packets : List (List β)) :
    (packets.map List.length).splitLengths packets.flatten = packets := by
  induction packets with
  | nil => rfl
  | cons p packets ih =>
    rw [List.map_cons, List.flatten_cons, List.splitLengths_cons, List.take_left, List.drop_left, ih]

/-- Cut in lengths `ns`, the stream `l` is read as `packets`, one piece for each. -/
inductive ReadAs (R : List β → List β → Prop) (T : List β → Prop) : List β → List ℕ → List (List β) → Prop
  | done {l : List β} : ReadAs R T l [] []
  | stop {l : List β} {n : ℕ} {ns : List ℕ} : T (l.take n) → ReadAs R T l (n :: ns) []
  | read {l p : List β} {n : ℕ} {ns : List ℕ} {packets : List (List β)} :
      R (l.take n) p → ReadAs R T (l.drop n) ns packets → ReadAs R T l (n :: ns) (p :: packets)

/-- **Sharp readers** of packets `P`, into a buffer of length `size`. -/
structure Sharp (size : ℕ) (R : List β → List β → Prop) (T P : List β → Prop) : Prop where
  inside : ∀ p, P p → ∀ o n, 0 < o → ¬ R ((p.drop o).take n) p
  short : ∀ p packets n ns, P p → (∀ q ∈ packets, P q) → n < p.length → R (p.take n) p →
    Cuts size (p.drop n ++ packets.flatten).length ns → ¬ ReadAs R T (p.drop n ++ packets.flatten) ns packets

/-- **No way back.** A reader that is ahead of the packets stays ahead: it cannot read them all. -/
theorem not_ahead (hR : ∀ p, P p → ∀ o n, 0 < o → ¬ R ((p.drop o).take n) p) {packets : List (List β)}
    (hP : ∀ p ∈ packets, P p) {o : ℕ} (ho : 0 < o) (hle : o ≤ packets.flatten.length) {ns : List ℕ}
    (hns : Cuts size (packets.flatten.drop o).length ns) : ¬ ReadAs R T (packets.flatten.drop o) ns packets := by
  induction packets generalizing o ns with
  | nil =>
    simp only [List.flatten_nil, List.length_nil] at hle
    omega
  | cons p packets ih =>
    intro h
    rw [List.flatten_cons] at h hns
    rw [List.flatten_cons, List.length_append] at hle
    cases h with
    | @read _ _ n ns _ hfirst hrest =>
      obtain ⟨-, -, hn, hns'⟩ := hns.cons
      rw [List.length_drop, List.length_append] at hn
      by_cases hin : o + n ≤ p.length
      · -- the piece lies inside the packet
        rw [List.drop_append_of_le_length (by omega),
          List.take_append_of_le_length (by rw [List.length_drop]; omega)] at hfirst
        exact hR p (hP p List.mem_cons_self) o n ho hfirst
      · rw [← List.length_drop, List.drop_drop, List.drop_append, List.drop_of_length_le (by omega),
          List.nil_append] at hns'
        rw [List.drop_drop, List.drop_append, List.drop_of_length_le (by omega), List.nil_append] at hrest
        exact ih (fun q hq => hP q (List.mem_cons_of_mem _ hq)) (by omega) (by omega) hns' hrest

/-- **Framing.** A sharp reader takes the pieces for the packets only if they are the packets. -/
theorem Sharp.lengths (hR : Sharp size R T P) {packets : List (List β)} (hP : ∀ p ∈ packets, P p)
    {ns : List ℕ} (hns : Cuts size packets.flatten.length ns) (h : ReadAs R T packets.flatten ns packets) :
    ns = packets.map List.length := by
  induction packets generalizing ns with
  | nil =>
    cases ns with
    | nil => rfl
    | cons n ns =>
      -- nothing is left for a piece
      obtain ⟨hpos, -, hn, -⟩ := hns.cons
      simp only [List.flatten_nil, List.length_nil] at hn
      omega
  | cons p packets ih =>
    have hp := hP p List.mem_cons_self
    have hPs : ∀ q ∈ packets, P q := fun q hq => hP q (List.mem_cons_of_mem _ hq)
    rw [List.flatten_cons] at h hns
    cases h with
    | @read _ _ n ns _ hfirst hrest =>
      obtain ⟨-, -, hn, hns'⟩ := hns.cons
      rw [← List.length_drop] at hns'
      rw [List.length_append] at hn
      rcases Nat.lt_trichotomy n p.length with hlt | heq | hgt
      · rw [List.take_append_of_le_length (by omega)] at hfirst
        rw [List.drop_append_of_le_length (by omega)] at hrest hns'
        exact absurd hrest (hR.short p packets n ns hp hPs hlt hfirst hns')
      · subst heq
        rw [List.drop_left] at hrest hns'
        rw [List.map_cons, ih hPs hns' hrest]
      · rw [List.drop_append, List.drop_of_length_le (by omega), List.nil_append] at hrest hns'
        exact absurd hrest (not_ahead hR.inside hPs (by omega) (by omega) hns')

end SocketAcl
