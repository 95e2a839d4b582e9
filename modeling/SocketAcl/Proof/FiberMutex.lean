import SocketAcl.Spec.FiberMutex
import Mathlib.Algebra.BigOperators.Fin
import Mathlib.Algebra.BigOperators.Group.Finset.Piecewise
import Mathlib.Data.Fintype.BigOperators

/-!
# No lost update

The fiber that holds the mutex is the one between `lock` and `unlock`, what it has read is still
the shared number, and the shared number counts the writes of all fibers (`Counts`).

* `no_lost_update`: when all fibers have returned, the shared number has grown by ten for each.
-/

namespace SocketAcl

namespace FiberMutex

/-- Between `lock` and `unlock`. -/
def Control.inside : Control → Bool
  | .read _ | .sleep _ _ | .write _ _ | .unlock _ => true
  | _ => false

/-- What was read and is not written back yet. -/
def Control.temp : Control → Option Int32
  | .sleep _ temp | .write _ temp => some temp
  | _ => none

/-- How many times the fiber has written. -/
def Control.written : Control → ℕ
  | .lock i | .read i | .sleep i _ | .write i _ => i
  | .unlock i | .rest i => i + 1
  | .returned => 10

variable {ι : Type*} [DecidableEq ι] [Fintype ι] {s t : State ι} {f g : ι} {initial : Int32} {c : Control}

/-- **The invariant.** -/
structure Counts (initial : Int32) (s : State ι) : Prop where
  owner : ∀ f, (s.control f).inside = true ↔ s.owner = some f
  temp : ∀ f temp, (s.control f).temp = some temp → temp = s.sharedResource
  total : s.sharedResource = initial + Int32.ofNat (∑ f, (s.control f).written)

theorem Control.inside_of_temp {temp : Int32} (h : c.temp = some temp) : c.inside = true := by
  cases c with
  | sleep i temp | write i temp => rfl
  | _ => cases h

/-- The end of an iteration holds nothing and has written as often as the iteration. -/
theorem next_fields (i : Fin 10) :
    (Control.next i).inside = false ∧ (Control.next i).temp = none ∧ (Control.next i).written = i + 1 := by
  unfold Control.next
  split
  · exact ⟨rfl, rfl, rfl⟩
  · refine ⟨rfl, rfl, ?_⟩
    change 10 = i.val + 1
    omega

/-- A sum over all fibers, when one of them moves. -/
theorem sum_update (m : Control → ℕ) (control : ι → Control) (f : ι) (c : Control) :
    (∑ g, m (Function.update control f c g)) + m (control f) = (∑ g, m (control g)) + m c := by
  have hnew := Finset.add_sum_erase Finset.univ (fun g => m (Function.update control f c g)) (Finset.mem_univ f)
  have hold := Finset.add_sum_erase Finset.univ (fun g => m (control g)) (Finset.mem_univ f)
  have hsame : ∑ g ∈ Finset.univ.erase f, m (Function.update control f c g) = ∑ g ∈ Finset.univ.erase f, m (control g) :=
    Finset.sum_congr rfl fun g hg => by rw [Function.update_of_ne (Finset.ne_of_mem_erase hg)]
  simp only [Function.update_self] at hnew
  omega

/-- The mutex keeps its owner, when `f` comes to `c`. -/
theorem Counts.owner_update (h : Counts initial s) (o : Option ι)
    (ho : o = if c.inside then some f else if (s.control f).inside then none else s.owner)
    (htaken : c.inside = true → (s.control f).inside = true ∨ s.owner = none) (g : ι) :
    (Function.update s.control f c g).inside = true ↔ o = some g := by
  subst ho
  by_cases hgf : g = f
  · subst hgf
    rw [Function.update_self]
    cases hc : c.inside with
    | true => simp
    | false =>
      cases hin : (s.control g).inside with
      | true => simp
      | false =>
        have hne : s.owner ≠ some g := fun ho => by simp [(h.owner g).2 ho] at hin
        simpa using hne
  · rw [Function.update_of_ne hgf, h.owner g]
    cases hc : c.inside with
    | true =>
      -- nobody else holds it
      have hne : s.owner ≠ some g := by
        intro ho
        rcases htaken hc with hin | hfree
        · rw [(h.owner f).1 hin] at ho
          exact hgf (Option.some.inj ho).symm
        · rw [hfree] at ho
          cases ho
      simpa [hne] using fun hfg : f = g => hgf hfg.symm
    | false =>
      cases hin : (s.control f).inside with
      | true =>
        rw [(h.owner f).1 hin]
        simpa using fun hfg : f = g => hgf hfg.symm
      | false => simp

/-- A move that leaves the shared number alone. -/
theorem Counts.move (h : Counts initial s) {o : Option ι}
    (ho : o = if c.inside then some f else if (s.control f).inside then none else s.owner)
    (htaken : c.inside = true → (s.control f).inside = true ∨ s.owner = none)
    (htemp : ∀ temp, c.temp = some temp → temp = s.sharedResource) (hwritten : c.written = (s.control f).written) :
    Counts initial { s with owner := o, control := Function.update s.control f c } := by
  refine ⟨h.owner_update o ho htaken, fun g temp (hg : (Function.update s.control f c g).temp = some temp) => ?_, ?_⟩
  · by_cases hgf : g = f
    · subst hgf
      rw [Function.update_self] at hg
      exact htemp temp hg
    · rw [Function.update_of_ne hgf] at hg
      exact h.temp g temp hg
  · have hsum := sum_update Control.written s.control f c
    rw [hwritten, Nat.add_right_cancel_iff] at hsum
    simp only [hsum]
    exact h.total

/-- **The write**: what was read is still the shared number, which becomes one more. -/
theorem Counts.write (h : Counts initial s) {i : Fin 10} {temp : Int32} (hf : s.control f = .write i temp) :
    Counts initial { s with sharedResource := temp + 1, control := Function.update s.control f (.unlock i) } := by
  have hin : (s.control f).inside = true := by rw [hf]; rfl
  have howner : s.owner = some f := (h.owner f).1 hin
  refine ⟨?_, fun g temp' (hg : (Function.update s.control f (.unlock i) g).temp = some temp') => ?_, ?_⟩
  · refine h.owner_update s.owner ?_ fun _ => .inl hin
    exact howner
  · -- no other fiber has read
    have hgin := Control.inside_of_temp hg
    by_cases hgf : g = f
    · subst hgf
      rw [Function.update_self] at hg
      cases hg
    · rw [Function.update_of_ne hgf] at hgin
      rw [(h.owner g).1 hgin] at howner
      exact absurd (Option.some.inj howner) hgf
  · have htemp : temp = s.sharedResource := h.temp f temp (by rw [hf]; rfl)
    have hsum := sum_update Control.written s.control f (.unlock i)
    rw [hf] at hsum
    change _ + i.val = _ + (i.val + 1) at hsum
    have hone : ∑ g, (Function.update s.control f (.unlock i) g).written = ∑ g, (s.control g).written + 1 := by
      omega
    simp only [hone, htemp, h.total, Int32.ofNat_add, Int32.add_assoc]
    rfl

/-- **A step keeps the invariant.** -/
theorem counts_step (h : Counts initial s) (hs : step s f = some t) : Counts initial t := by
  unfold step at hs
  split at hs
  case h_1 i hf =>
    split at hs
    · rename_i hfree
      obtain rfl := Option.some.inj hs
      exact h.move rfl (fun _ => .inr hfree) nofun (by rw [hf]; rfl)
    · cases hs
  case h_2 i hf =>
    obtain rfl := Option.some.inj hs
    have hin : (s.control f).inside = true := by rw [hf]; rfl
    exact h.move ((h.owner f).1 hin) (fun _ => .inl hin) (fun _ ht => (Option.some.inj ht).symm) (by rw [hf]; rfl)
  case h_3 i temp hf =>
    obtain rfl := Option.some.inj hs
    have hin : (s.control f).inside = true := by rw [hf]; rfl
    exact h.move ((h.owner f).1 hin) (fun _ => .inl hin) (fun temp' ht => h.temp f temp' (by rw [hf]; exact ht))
      (by rw [hf]; rfl)
  case h_4 i temp hf =>
    obtain rfl := Option.some.inj hs
    exact h.write hf
  case h_5 i hf =>
    obtain rfl := Option.some.inj hs
    exact h.move (by rw [hf]; rfl) nofun nofun (by rw [hf]; rfl)
  case h_6 i hf =>
    obtain rfl := Option.some.inj hs
    obtain ⟨hin, htemp, hwritten⟩ := next_fields i
    refine h.move (by rw [hin, hf]; rfl) (fun hc => ?_) (fun temp ht => ?_) (by rw [hwritten, hf]; rfl)
    · rw [hin] at hc
      cases hc
    · rw [htemp] at ht
      cases ht
  case h_7 => cases hs

/-! ## Everyone can return -/

/-- The steps a fiber has still to make. -/
def Control.remaining : Control → ℕ
  | .lock i => 60 - 6 * i
  | .read i => 59 - 6 * i
  | .sleep i _ => 58 - 6 * i
  | .write i _ => 57 - 6 * i
  | .unlock i => 56 - 6 * i
  | .rest i => 55 - 6 * i
  | .returned => 0

omit [Fintype ι] in
/-- A step brings the fiber closer to its end, and the others stay where they are. -/
theorem step_control (hs : step s f = some t) :
    ∃ c, t.control = Function.update s.control f c ∧ c.remaining < (s.control f).remaining := by
  unfold step at hs
  split at hs
  case h_1 i hf =>
    split at hs
    · obtain rfl := Option.some.inj hs
      refine ⟨_, rfl, ?_⟩
      simp only [hf, Control.remaining]
      omega
    · cases hs
  case h_6 i hf =>
    obtain rfl := Option.some.inj hs
    refine ⟨_, rfl, ?_⟩
    unfold Control.next
    split <;> simp only [hf, Control.remaining] <;> omega
  case h_7 => cases hs
  all_goals
    rename_i hf
    obtain rfl := Option.some.inj hs
    refine ⟨_, rfl, ?_⟩
    simp only [hf, Control.remaining]
    omega

/-- The fiber that holds the mutex can move, and if nobody holds it everyone can. -/
theorem exists_step (h : Counts initial s) (hf : s.control f ≠ .returned) : ∃ g t, step s g = some t := by
  cases ho : s.owner with
  | some g =>
    have hin := (h.owner g).2 ho
    refine ⟨g, ?_⟩
    unfold step
    cases hg : s.control g with
    | read i | sleep i temp | write i temp | unlock i => exact ⟨_, rfl⟩
    | lock i | rest i | returned =>
      rw [hg] at hin
      cases hin
  | none =>
    refine ⟨f, ?_⟩
    unfold step
    cases hc : s.control f with
    | lock i => exact ⟨_, if_pos ho⟩
    | returned => exact absurd hc hf
    | _ => exact ⟨_, rfl⟩

theorem counts_reachable {threads : List ℕ} {s : State (Fiber threads)} (h : (fiberMutex threads initial).Reachable s) :
    Counts initial s := by
  refine h.inv ⟨fun f => ?_, fun f temp htemp => ?_, ?_⟩ fun _ _ _ hC _ hs => counts_step hC hs
  · exact iff_of_false Bool.false_ne_true (Option.some_ne_none f).symm
  · exact absurd htemp.symm (Option.some_ne_none temp)
  · simp [fiberMutex, Control.written]

/-- **No deadlock**: from wherever they stand, all fibers can return. -/
theorem can_return {threads : List ℕ} {s : State (Fiber threads)} (h : (fiberMutex threads initial).Reachable s) :
    ∃ t, (fiberMutex threads initial).Path (fun _ _ => True) s t ∧ ∀ f, t.control f = .returned := by
  refine System.exists_path (I := Counts initial) (fun s => ∑ f, (s.control f).remaining) (fun s hC => ?_)
    (counts_reachable h)
  by_cases hall : ∀ f, s.control f = .returned
  · exact .inl hall
  · obtain ⟨f, hf⟩ := not_forall.1 hall
    obtain ⟨g, t, ht⟩ := exists_step hC hf
    obtain ⟨c, hc, hlt⟩ := step_control ht
    have hsum := sum_update Control.remaining s.control g c
    refine .inr ⟨g, t, trivial, ht, .inr ⟨counts_step hC ht, ?_⟩⟩
    simp only [hc]
    omega

/-! ## What it comes to -/

/-- The fibers are as many as the threads have. -/
theorem card_fiber (threads : List ℕ) : Fintype.card (Fiber threads) = threads.sum := by
  rw [Fintype.card_sigma]
  simp only [Fintype.card_fin]
  exact Fin.sum_univ_getElem threads

/-- **No lost update.** For any threads with any number of fibers each and every interleaving: when all fibers have
returned, the shared number is its initial value and ten for each fiber, in the arithmetic of `int` and, where that
does not overflow, in that of the integers. -/
theorem no_lost_update {threads : List ℕ} {s : State (Fiber threads)} (h : (fiberMutex threads initial).Reachable s)
    (hreturned : ∀ f, s.control f = .returned) :
    s.sharedResource = initial + Int32.ofNat (10 * threads.sum) ∧
      (initial.toInt + 10 * threads.sum < 2 ^ 31 → s.sharedResource.toInt = initial.toInt + 10 * threads.sum) := by
  have htotal := (counts_reachable h).total
  have hsum : ∑ f, (s.control f).written = 10 * threads.sum := by
    simp only [hreturned, Control.written, Finset.sum_const, Finset.card_univ, card_fiber, smul_eq_mul]
    exact Nat.mul_comm _ _
  rw [hsum] at htotal
  refine ⟨htotal, fun hlt => ?_⟩
  have hmin := initial.le_toInt
  have hsize : Int32.size = 4294967296 := rfl
  rw [htotal, Int32.toInt_add, Int32.toInt_ofNat', hsize, Int.add_bmod_bmod, Nat.cast_mul]
  exact Int.bmod_eq_of_le (by omega) (by omega)

/-- Two threads with a fiber each. -/
def fiberA : Fiber [1, 1] := ⟨0, ⟨0, by decide⟩⟩

def fiberB : Fiber [1, 1] := ⟨1, ⟨0, by decide⟩⟩

/-- Ten iterations of both, the one at rest while the other is inside. -/
def takingTurns : List (Fiber [1, 1]) :=
  (List.replicate 10
    [fiberA, fiberA, fiberA, fiberA, fiberA, fiberB, fiberA, fiberB, fiberB, fiberB, fiberB, fiberB]).flatten

/-- Both return, and the shared number is twenty. -/
theorem no_lost_update_two : ∃ s, (fiberMutex [1, 1] 0).Reachable s ∧ (∀ f, s.control f = .returned) ∧
    s.sharedResource = 20 := by
  obtain ⟨s, hs, hP⟩ := System.exists_reachable (S := fiberMutex [1, 1] 0)
    (P := fun s => decide (∀ f, s.control f = .returned)) takingTurns (by decide +kernel)
  exact ⟨s, hs, of_decide_eq_true hP, (no_lost_update hs (of_decide_eq_true hP)).1⟩

end FiberMutex

end SocketAcl
