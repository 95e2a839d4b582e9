import Mathlib.Data.Finmap
import Mathlib.Data.Finset.Card

/-!
# Nested finite maps

A map of maps, `unordered_map<ρ, unordered_map<υ, γ>>`: a finite map has no order of its
own, so an iteration over it is any list that enumerates it (`Enumerates`).

* `row t r`: the inner map under `r`, empty where there is none; `touch t r` is what
  `operator[]` leaves behind: it creates the row.
* `cell t r u`: the value stored under the two keys; `cell_insert` and `cell_erase` say how
  replacing and removing a row act on it.
* `NoEmptyRow`: every row that exists has an entry.
* `ActsOn`: an operation that reads and changes one row only; two of them, on different rows,
  commute (`ActsOn.commute`).
-/

namespace SocketAcl

variable {ρ υ γ : Type*}

/-- The inner map of a nested map. -/
abbrev Row (υ γ : Type*) := Finmap fun _ : υ => γ

/-- A nested map. -/
abbrev Nested (ρ υ γ : Type*) := Finmap fun _ : ρ => Row υ γ

namespace Row

/-- `size()`. -/
def size (m : Row υ γ) : ℕ := m.keys.card

/-- **One pass over a map** visits each entry once, in an order of its own. -/
def Enumerates (l : List (υ × γ)) (m : Row υ γ) : Prop :=
  ((l.map fun e => (⟨e.1, e.2⟩ : Sigma fun _ : υ => γ) : List _) : Multiset _) = m.entries

instance [DecidableEq υ] [DecidableEq γ] (l : List (υ × γ)) (m : Row υ γ) : Decidable (Enumerates l m) :=
  inferInstanceAs (Decidable (_ = _))

@[simp] theorem size_empty : size (∅ : Row υ γ) = 0 := by simp [size]

section

variable [DecidableEq υ]

theorem size_insert_le (m : Row υ γ) (u : υ) (c : γ) : size (m.insert u c) ≤ size m + 1 := by
  have hk : (m.insert u c).keys = insert u m.keys := by
    ext x
    simp only [Finmap.mem_keys, Finmap.mem_insert, Finset.mem_insert]
  unfold size
  rw [hk]
  exact Finset.card_insert_le u m.keys

theorem size_erase_le (m : Row υ γ) (u : υ) : size (m.erase u) ≤ size m := by
  unfold size
  rw [Finmap.keys_erase]
  exact Finset.card_erase_le

theorem size_eq_zero {m : Row υ γ} : size m = 0 ↔ m = ∅ := by
  unfold size
  rw [Finset.card_eq_zero]
  constructor
  · intro h
    apply Finmap.ext_lookup
    intro u
    have hu : u ∉ m := by
      rw [← Finmap.mem_keys, h]
      exact Finset.notMem_empty u
    rw [Finmap.lookup_eq_none.2 hu, Finmap.lookup_empty]
  · rintro rfl
    exact Finmap.keys_empty

end

namespace Enumerates

variable {l : List (υ × γ)} {m : Row υ γ}

theorem mem_iff [DecidableEq υ] (h : Enumerates l m) {u : υ} {c : γ} : (u, c) ∈ l ↔ m.lookup u = some c := by
  rw [Finmap.lookup_eq_some_iff, ← h, Multiset.mem_coe, List.mem_map]
  constructor
  · intro hm
    exact ⟨(u, c), hm, rfl⟩
  · rintro ⟨⟨u', c'⟩, hm, he⟩
    simp only [Sigma.mk.injEq, heq_eq_eq] at he
    obtain ⟨rfl, rfl⟩ := he
    exact hm

/-- The keys met are the keys of the map, each once. -/
theorem keys (h : Enumerates l m) : (l.map Prod.fst : Multiset υ) = m.keys.val := by
  change _ = m.entries.keys
  rw [← h]
  simp [Multiset.keys, Function.comp_def]

theorem nodup (h : Enumerates l m) : (l.map Prod.fst).Nodup := by
  have := m.keys.nodup
  rw [← h.keys] at this
  exact Multiset.coe_nodup.1 this

theorem length (h : Enumerates l m) : l.length = size m := by
  have := congrArg Multiset.card h.keys
  simpa [size] using this

end Enumerates

/-- Every map can be enumerated. -/
theorem exists_enumerates (m : Row υ γ) : ∃ l, Enumerates l m := by
  induction m using Finmap.induction_on with
  | H s =>
    refine ⟨s.entries.map fun e => (e.1, e.2), ?_⟩
    unfold Enumerates
    rw [List.map_map, AList.toFinmap_entries]
    simp [Function.comp_def]

end Row

namespace Nested

variable [DecidableEq ρ]

/-- The inner map under `r`. -/
def row (t : Nested ρ υ γ) (r : ρ) : Row υ γ := (t.lookup r).getD ∅

/-- What `operator[]` leaves behind: the row exists afterwards. -/
def touch (t : Nested ρ υ γ) (r : ρ) : Nested ρ υ γ := if r ∈ t then t else t.insert r ∅

/-- The value stored under the two keys. -/
def cell [DecidableEq υ] (t : Nested ρ υ γ) (r : ρ) (u : υ) : Option γ := (t.row r).lookup u

/-- Every row that exists has an entry. -/
def NoEmptyRow (t : Nested ρ υ γ) : Prop := ∀ r, t.lookup r ≠ some ∅

variable {t : Nested ρ υ γ} {r r' : ρ}

theorem touch_of_mem (h : r ∈ t) : t.touch r = t := if_pos h

theorem mem_touch : r' ∈ t.touch r ↔ r' = r ∨ r' ∈ t := by
  unfold touch
  split
  · rename_i h
    constructor
    · exact Or.inr
    · rintro (rfl | h')
      · exact h
      · exact h'
  · exact Finmap.mem_insert

@[simp] theorem row_touch : (t.touch r).row r' = t.row r' := by
  unfold touch
  split
  · rfl
  · rename_i h
    unfold row
    rcases eq_or_ne r' r with rfl | hne
    · rw [Finmap.lookup_insert, Finmap.lookup_eq_none.2 h]
      rfl
    · rw [Finmap.lookup_insert_of_ne _ hne]

theorem row_insert (m : Row υ γ) : row (Finmap.insert r m t) r' = if r' = r then m else t.row r' := by
  unfold row
  split
  · rename_i h
    subst h
    rw [Finmap.lookup_insert]
    rfl
  · rename_i h
    rw [Finmap.lookup_insert_of_ne _ h]

theorem row_erase : row (Finmap.erase r t) r' = if r' = r then ∅ else t.row r' := by
  unfold row
  split
  · rename_i h
    subst h
    rw [Finmap.lookup_erase]
    rfl
  · rename_i h
    rw [Finmap.lookup_erase_ne h]

theorem row_of_lookup {m : Row υ γ} (h : t.lookup r = some m) : t.row r = m := by
  unfold row
  rw [h]
  rfl

theorem row_of_notMem (h : r ∉ t) : t.row r = ∅ := by
  unfold row
  rw [Finmap.lookup_eq_none.2 h]
  rfl

theorem lookup_of_mem (h : r ∈ t) : t.lookup r = some (t.row r) := by
  obtain ⟨m, hm⟩ := Finmap.mem_iff.1 h
  rw [hm, row_of_lookup hm]

/-- A lookup is told by whether the row exists and what is in it. -/
theorem lookup_congr {t' : Nested ρ υ γ} (hm : r ∈ t ↔ r ∈ t') (hr : t.row r = t'.row r) :
    t.lookup r = t'.lookup r := by
  by_cases h : r ∈ t
  · rw [lookup_of_mem h, lookup_of_mem (hm.1 h), hr]
  · rw [Finmap.lookup_eq_none.2 h, Finmap.lookup_eq_none.2 fun h' => h (hm.2 h')]

/-! ## Operations on one row -/

/-- An operation that reads and changes the row under `r` only: `g` says what it answers and what becomes
of the row. -/
structure ActsOn {α : Type*} (r : ρ) (g : Option (Row υ γ) → α × Option (Row υ γ))
    (op : Nested ρ υ γ → α × Nested ρ υ γ) : Prop where
  answer : ∀ t, (op t).1 = (g (t.lookup r)).1
  row : ∀ t, (op t).2.lookup r = (g (t.lookup r)).2
  others : ∀ t r', r' ≠ r → (op t).2.lookup r' = t.lookup r'

/-- **Operations on different rows commute**, in what they answer and in what they leave behind. -/
theorem ActsOn.commute {α : Type*} {g g' : Option (Row υ γ) → α × Option (Row υ γ)}
    {op op' : Nested ρ υ γ → α × Nested ρ υ γ} (h : ActsOn r g op) (h' : ActsOn r' g' op') (hr : r ≠ r')
    (t : Nested ρ υ γ) :
    (op (op' t).2).1 = (op t).1 ∧ (op' (op t).2).1 = (op' t).1 ∧ (op (op' t).2).2 = (op' (op t).2).2 := by
  have hfirst : (op' t).2.lookup r = t.lookup r := h'.others t r hr
  have hsecond : (op t).2.lookup r' = t.lookup r' := h.others t r' hr.symm
  refine ⟨?_, ?_, ?_⟩
  · rw [h.answer, hfirst, h.answer]
  · rw [h'.answer, hsecond, h'.answer]
  · apply Finmap.ext_lookup
    intro k
    by_cases hk : k = r
    · subst hk
      rw [h.row, hfirst, h'.others _ _ hr, h.row]
    · rw [h.others _ _ hk]
      by_cases hk' : k = r'
      · subst hk'
        rw [h'.row, h'.row, hsecond]
      · rw [h'.others _ _ hk', h'.others _ _ hk', h.others _ _ hk]

variable [DecidableEq υ] {u : υ}

@[simp] theorem cell_empty : (∅ : Nested ρ υ γ).cell r u = none := by
  simp [cell, row]

/-- A filled cell lies in a row that exists. -/
theorem mem_of_cell {c : γ} (h : t.cell r u = some c) : r ∈ t := by
  by_contra hr
  unfold cell at h
  rw [row_of_notMem hr] at h
  simp at h

end Nested

end SocketAcl
