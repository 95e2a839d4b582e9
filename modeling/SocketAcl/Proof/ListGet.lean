import SocketAcl.Spec.RedisHandler

/-!
# The positions `handle_list_get` prints

The index printed is `start + i` modulo `2 ^ 64` (`printed_index`). From a bound that is not negative
this is the position of the element (`lrange_getElem?`); a negative bound selects fewer elements
than it counts back (`lrange_length_neg`), so the sum wraps around for all of them.

* `listing_true`: all lines are true exactly if nothing is selected, or the first bound is not
  negative and no element selected contains a NUL.
-/

namespace SocketAcl

variable {list : RedisList} {start stop : Int32} {i : ℕ} {v : Bytes}

/-- The index printed. -/
theorem printed_index (z : ℤ) (i : ℕ) : (UInt64.ofInt z + UInt64.ofNat i).toNat = ((z + i) % 2 ^ 64).toNat := by
  rw [UInt64.toNat_add, UInt64.ofInt, UInt64.toNat_ofNat', UInt64.toNat_ofNat']
  omega

/-- Elements are selected in order, from the first bound on. -/
theorem lrange_getElem? (hstart : 0 ≤ start.toInt) (h : (list.lrange start stop)[i]? = some v) :
    list.elements[start.toInt.toNat + i]? = some v := by
  have hindex : list.index start = start.toInt := if_neg (by omega)
  rw [RedisList.lrange, hindex, List.getElem?_drop] at h
  rw [← h, List.getElem?_take_of_lt]
  -- the element lies in front of the last bound
  have hlt := (List.getElem?_eq_some_iff.1 h).1
  rw [List.length_take] at hlt
  omega

theorem lrange_length_neg (hstart : start.toInt < 0) : (list.lrange start stop).length ≤ start.toInt.natAbs := by
  have hindex : list.index start = list.elements.length + start.toInt := if_pos hstart
  rw [RedisList.lrange, hindex, List.length_drop, List.length_take]
  omega

/-- **The lines are true**: each names a position of the list and the element there. -/
def ListingTrue (lists : Bytes → Option RedisList) (key : Bytes) (lines : List ListLine) : Prop :=
  ∀ k value, .index k value ∈ lines → ∃ list, lists (cstr key) = some list ∧ list.elements[k.toNat]? = some value

/-- Redis with these lists: a key that holds no list gives an error. -/
def replies (lists : Bytes → Option RedisList) (key : Bytes) (start stop : Int32) : Option (List Bytes) :=
  (lists key).map fun list => list.lrange start stop

/-- The lines with an index, one for each element selected. -/
theorem mem_handleListGet {lists : Bytes → Option RedisList} {key : Bytes} {k : UInt64} {value : Bytes}
    (hlist : lists (cstr key) = some list) :
    .index k value ∈ handleListGet (replies lists) key start stop ↔
      ∃ i v, (list.lrange start stop)[i]? = some v ∧ UInt64.ofInt start.toInt + UInt64.ofNat i = k ∧ cstr v = value := by
  simp only [handleListGet, replies, hlist, Option.map_some]
  split
  · rename_i hnil
    rw [hnil]
    simp
  · simp only [List.mem_cons, reduceCtorEq, false_or, List.mem_mapIdx, ListLine.index.injEq]
    constructor
    · rintro ⟨i, hi, hk, hv⟩
      exact ⟨i, _, List.getElem?_eq_getElem hi, hk, hv⟩
    · rintro ⟨i, v, hv, hk, hvalue⟩
      obtain ⟨hi, rfl⟩ := List.getElem?_eq_some_iff.1 hv
      exact ⟨i, hi, hk, hvalue⟩

/-- **One line**: element `i` of the selection is shown as it stands at the position printed exactly if the first
bound is not negative and the element contains no NUL. -/
theorem line_true (hv : (list.lrange start stop)[i]? = some v) :
    list.elements[(UInt64.ofInt start.toInt + UInt64.ofNat i).toNat]? = some (cstr v) ↔ 0 ≤ start.toInt ∧ 0 ∉ v := by
  have hmin : -2 ^ 31 ≤ start.toInt := start.le_toInt
  have hmax : start.toInt < 2 ^ 31 := start.toInt_lt
  have hlen := list.length_lt
  rw [printed_index]
  by_cases hstart : 0 ≤ start.toInt
  · have hpos := lrange_getElem? hstart hv
    have hlt := (List.getElem?_eq_some_iff.1 hpos).1
    have hindex : ((start.toInt + i) % 2 ^ 64).toNat = start.toInt.toNat + i := by omega
    rw [hindex, hpos, Option.some.injEq, and_iff_right hstart]
    constructor
    · intro h
      rw [h]
      exact cstr_no_nul v
    · intro h
      exact (cstr_of_no_nul h).symm
  · -- the index printed lies behind the list
    have hi := (List.getElem?_eq_some_iff.1 hv).1
    have hsel : (list.lrange start stop).length ≤ start.toInt.natAbs := lrange_length_neg (by omega)
    rw [List.getElem?_eq_none (by omega)]
    exact iff_of_false nofun fun h => hstart h.1

/-- **The positions printed are true** exactly if nothing is selected, or the first bound is not negative and no
element selected contains a NUL. -/
theorem listing_true (lists : Bytes → Option RedisList) (key : Bytes) (start stop : Int32) :
    ListingTrue lists key (handleListGet (replies lists) key start stop) ↔
      ∀ list, lists (cstr key) = some list →
        list.lrange start stop = [] ∨ 0 ≤ start.toInt ∧ ∀ v ∈ list.lrange start stop, 0 ∉ v := by
  constructor
  · intro h list hlist
    by_cases hnil : list.lrange start stop = []
    · exact .inl hnil
    have hline : ∀ (i : ℕ) (v : Bytes), (list.lrange start stop)[i]? = some v → 0 ≤ start.toInt ∧ 0 ∉ v := by
      intro i v hv
      obtain ⟨list', hlist', hpos⟩ := h _ _ ((mem_handleListGet hlist).2 ⟨i, v, hv, rfl, rfl⟩)
      obtain rfl := Option.some.inj (hlist.symm.trans hlist')
      exact (line_true hv).1 hpos
    refine .inr ⟨?_, fun v hv => ?_⟩
    · obtain ⟨v, rest, hcons⟩ := List.exists_cons_of_ne_nil hnil
      exact (hline 0 v (by rw [hcons]; rfl)).1
    · obtain ⟨i, hi, rfl⟩ := List.getElem_of_mem hv
      exact (hline i _ (List.getElem?_eq_getElem hi)).2
  · intro h k value hmem
    cases hlist : lists (cstr key) with
    | none =>
      simp [handleListGet, replies, hlist] at hmem
    | some list =>
      obtain ⟨i, v, hv, rfl, rfl⟩ := (mem_handleListGet hlist).1 hmem
      have hsel : v ∈ list.lrange start stop := List.mem_of_getElem? hv
      rcases h list hlist with hnil | ⟨hstart, hclean⟩
      · rw [hnil] at hsel
        cases hsel
      · exact ⟨list, rfl, (line_true hv).2 ⟨hstart, hclean v hsel⟩⟩

/-- A list of one element. -/
def oneElement : RedisList := ⟨[ascii "a"], by decide⟩

/-- **The last element**: with both bounds -1 it is printed at index 18446744073709551615. -/
theorem last_element : ListLine.index 18446744073709551615 (ascii "a") ∈
      handleListGet (replies fun _ => some oneElement) (ascii "k") (-1) (-1) ∧
    ¬ ListingTrue (fun _ => some oneElement) (ascii "k")
      (handleListGet (replies fun _ => some oneElement) (ascii "k") (-1) (-1)) := by
  have hone : (fun _ => some oneElement) (cstr (ascii "k")) = some oneElement := rfl
  have hmem : ListLine.index 18446744073709551615 (ascii "a") ∈
      handleListGet (replies fun _ => some oneElement) (ascii "k") (-1) (-1) :=
    (mem_handleListGet hone).2 ⟨0, ascii "a", by decide +kernel, by decide +kernel, by decide +kernel⟩
  refine ⟨hmem, fun h => ?_⟩
  obtain ⟨list, hlist, hpos⟩ := h _ _ hmem
  obtain rfl := Option.some.inj hlist
  revert hpos
  decide +kernel

end SocketAcl
