import SocketAcl.Proof.Fiber
import SocketAcl.Spec.FiberRwlock

/-!
# Readers exclude writers

The counter of a lock is the readers that are in, those whose call is about to return with the lock theirs,
and those that were killed in between, for whom it is never taken back (`Core.count`).

* `Core`: safety; `Live`: a writer that waits, and without kills a reader, waits for somebody.
* `verified`: the operations of the lock, each by itself.
-/

namespace SocketAcl

namespace FiberRwlock

variable {κ ι : Type} [DecidableEq κ] [DecidableEq ι]

def ringOf : Op κ → Option (RwRing κ)
  | .rlock lk => some (.rwaiting lk)
  | .wlock lk => some (.wwaiting lk)
  | _ => none

/-- **Discipline**: a fiber gives back what it has, and does not end before. -/
def Allowed (kills : Bool) (t : Thread (κ → Rwlock ι) (Op κ) ι) : FiberLabel (Op κ) ι → Prop
  | .call (.runlock lk) => ∀ f, t.running = some f → f ∈ (t.obj lk).reading
  | .call (.wunlock lk) => ∀ f, t.running = some f → f ∈ (t.obj lk).writing
  | .exit => ∀ f, t.running = some f → ∀ lk, f ∉ (t.obj lk).reading ∧ f ∉ (t.obj lk).writing
  | .kill _ => kills = true
  | _ => True

/-- How much of a lock is lost at least. -/
structure Loss where
  readers : ℕ
  writer : Bool

/-- **Safety**, of one lock, with the readers and the writers that wait. -/
structure Core (kills : Bool) (loss : Loss) (place : ι → Place (Op κ)) (killed : ι → Bool) (lk : κ) (l : Rwlock ι)
    (rw ww : List ι) : Prop where
  count : l.readers = l.reading.length + l.admitted.length + l.lostReaders
  excl : l.writer = none ∨ l.readers = 0
  free : l.writer = none → l.writing = [] ∧ l.promised = none ∧ l.lostWriter = false
  held : ∀ f, l.writer = some f → l.writing = [f] ∧ l.promised = none ∧ l.lostWriter = false ∨
    l.writing = [] ∧ l.promised = some f ∧ l.lostWriter = false ∨
    l.writing = [] ∧ l.promised = none ∧ l.lostWriter = true
  nodup : l.admitted.Nodup
  admitted : ∀ f ∈ l.admitted, place f = .inside (.rlock lk) ∧ f ∉ rw
  promised : ∀ f, l.promised = some f → place f = .inside (.wlock lk) ∧ f ∉ ww
  rpending : ∀ f, place f = .inside (.rlock lk) → f ∈ rw ∨ f ∈ l.admitted ∨ killed f = true
  wpending : ∀ f, place f = .inside (.wlock lk) → f ∈ ww ∨ l.promised = some f ∨ killed f = true
  alive : ∀ f, f ∈ l.reading ∨ f ∈ l.writing → (place f).alive = true
  order : (l.granted ++ ww).Sublist l.asked
  queue : kills = false → l.granted ++ ww = l.asked
  lost : kills = false → l.lostReaders = 0 ∧ l.lostWriter = false
  floor : loss.readers ≤ l.lostReaders ∧ (loss.writer = true → l.lostWriter = true)

/-- **A writer that waits, waits for somebody**; so does a reader, without kills. -/
structure Live (kills : Bool) (l : Rwlock ι) (rw ww : List ι) : Prop where
  writers : ww ≠ [] → l.writer ≠ none ∨ l.readers ≠ 0
  readers : kills = false → rw ≠ [] → l.writer ≠ none ∨ ww ≠ []

/-- **The invariant.** -/
structure Inv (kills : Bool) (loss : κ → Loss) (place : ι → Place (Op κ)) (killed : ι → Bool) (obj : κ → Rwlock ι)
    (w : RwRing κ → List ι) : Prop where
  core : ∀ lk, Core kills (loss lk) place killed lk (obj lk) (w (.rwaiting lk)) (w (.wwaiting lk))
  live : ∀ lk, Live kills (obj lk) (w (.rwaiting lk)) (w (.wwaiting lk))
  ops : ∀ f op, place f = .inside op → ∃ lk, op = .rlock lk ∨ op = .wlock lk
  nokill : kills = false → ∀ f, killed f = false

section Core

variable {kills : Bool} {loss : Loss} {place : ι → Place (Op κ)} {killed : ι → Bool} {lk : κ} {l : Rwlock ι} {rw ww : List ι}
  {f g : ι} {p : Place (Op κ)}

/-- The operation is not one of this lock's. -/
def Elsewhere (lk : κ) (p : Place (Op κ)) : Prop := p ≠ .inside (.rlock lk) ∧ p ≠ .inside (.wlock lk)

omit [DecidableEq κ] in
/-- A fiber that has nothing to do with the lock goes elsewhere. -/
theorem Core.move (h : Core kills loss place killed lk l rw ww) (hold : Elsewhere lk (place f)) (hnew : Elsewhere lk p)
    (halive : f ∈ l.reading ∨ f ∈ l.writing → p.alive = true) :
    Core kills loss (Function.update place f p) killed lk l rw ww := by
  have hkeep : ∀ {g op}, place g = .inside op → op = .rlock lk ∨ op = .wlock lk →
      Function.update place f p g = .inside op := by
    rintro g op hg hop
    have hgf : g ≠ f := by
      rintro rfl
      rcases hop with rfl | rfl
      · exact hold.1 hg
      · exact hold.2 hg
    rw [Function.update_of_ne hgf]
    exact hg
  have hback : ∀ {g op}, Function.update place f p g = .inside op → op = .rlock lk ∨ op = .wlock lk →
      place g = .inside op := by
    rintro g op hg hop
    have hgf : g ≠ f := by
      rintro rfl
      rw [Function.update_self] at hg
      rcases hop with rfl | rfl
      · exact hnew.1 hg
      · exact hnew.2 hg
    rwa [Function.update_of_ne hgf] at hg
  refine { h with admitted := fun g hg => ?_, promised := fun g hg => ?_, rpending := fun g hg => ?_,
                  wpending := fun g hg => ?_, alive := fun g hg => ?_ }
  · exact (h.admitted g hg).imp_left fun hp => hkeep hp (.inl rfl)
  · exact (h.promised g hg).imp_left fun hp => hkeep hp (.inr rfl)
  · exact h.rpending g (hback hg (.inl rfl))
  · exact h.wpending g (hback hg (.inr rfl))
  · by_cases hgf : g = f
    · subst hgf
      rw [Function.update_self]
      exact halive hg
    · rw [Function.update_of_ne hgf]
      exact h.alive g hg

omit [DecidableEq κ] in
/-- More fibers are killed, and do not wait any longer. -/
theorem Core.kill (h : Core kills loss place killed lk l rw ww) (hk : kills = true) {rw' ww' : List ι}
    (hr : rw' = rw ∨ rw' = rw.erase f) (hw : ww' = ww ∨ ww' = ww.erase f) :
    Core kills loss place (Function.update killed f true) lk l rw' ww' := by
  have hsub : ∀ {a b : List ι}, (a = b ∨ a = b.erase f) → a.Sublist b ∧ ∀ g ∈ b, g ∈ a ∨ g = f := by
    rintro a b (rfl | rfl)
    · exact ⟨.refl _, fun g hg => .inl hg⟩
    · refine ⟨List.erase_sublist, fun g hg => ?_⟩
      by_cases hgf : g = f
      · exact .inr hgf
      · exact .inl ((List.mem_erase_of_ne hgf).2 hg)
  obtain ⟨hrsub, hrmem⟩ := hsub hr
  obtain ⟨hwsub, hwmem⟩ := hsub hw
  have hkilled : ∀ {g}, killed g = true → Function.update killed f true g = true := by
    intro g hg
    by_cases hgf : g = f
    · rw [hgf, Function.update_self]
    · rw [Function.update_of_ne hgf]
      exact hg
  refine { h with admitted := fun g hg => ?_, promised := fun g hg => ?_, rpending := fun g hg => ?_,
                  wpending := fun g hg => ?_, order := ?_, queue := ?_ }
  · exact (h.admitted g hg).imp_right fun hnot hmem => hnot (hrsub.subset hmem)
  · exact (h.promised g hg).imp_right fun hnot hmem => hnot (hwsub.subset hmem)
  · rcases h.rpending g hg with hmem | ha | hg
    · rcases hrmem g hmem with hmem | rfl
      · exact .inl hmem
      · exact .inr (.inr (Function.update_self ..))
    · exact .inr (.inl ha)
    · exact .inr (.inr (hkilled hg))
  · rcases h.wpending g hg with hmem | hp | hg
    · rcases hwmem g hmem with hmem | rfl
      · exact .inl hmem
      · exact .inr (.inr (Function.update_self ..))
    · exact .inr (.inl hp)
    · exact .inr (.inr (hkilled hg))
  · exact ((List.Sublist.refl _).append hwsub).trans h.order
  · rw [hk]
    nofun

omit [DecidableEq κ] in
/-- A fiber that is in no operation of the lock is no longer killed, or not. -/
theorem Core.revive (h : Core kills loss place killed lk l rw ww) (hf : Elsewhere lk (place f)) :
    Core kills loss place (Function.update killed f false) lk l rw ww := by
  refine { h with rpending := fun g hg => ?_, wpending := fun g hg => ?_ }
  · have hgf : g ≠ f := by
      rintro rfl
      exact hf.1 hg
    rw [Function.update_of_ne hgf]
    exact h.rpending g hg
  · have hgf : g ≠ f := by
      rintro rfl
      exact hf.2 hg
    rw [Function.update_of_ne hgf]
    exact h.wpending g hg

omit [DecidableEq κ] [DecidableEq ι] in
/-- **A reader comes in.** -/
theorem Core.read (h : Core kills loss place killed lk l rw ww) (hw : l.writer = none) (hf : (place f).alive = true) :
    Core kills loss place killed lk { l with readers := l.readers + 1, reading := l.reading ++ [f] } rw ww := by
  refine { h with count := ?_, excl := .inl hw, alive := fun g hg => ?_ }
  · simp only [List.length_append, List.length_singleton, h.count]
    omega
  · rcases hg with hg | hg
    · rcases List.mem_append.1 hg with hg | hg
      · exact h.alive g (.inl hg)
      · rw [List.mem_singleton.1 hg]
        exact hf
    · exact h.alive g (.inr hg)

omit [DecidableEq κ] [DecidableEq ι] in
/-- **A writer comes in.** -/
theorem Core.write (h : Core kills loss place killed lk l rw ww) (hw : l.writer = none) (hr : l.readers = 0)
    (hww : ww = []) (hf : (place f).alive = true) :
    Core kills loss place killed lk
      { l with
        writer := some f, writing := l.writing ++ [f], asked := l.asked ++ [f], granted := l.granted ++ [f] } rw ww := by
  obtain ⟨hwriting, hpromised, hlost⟩ := h.free hw
  subst hww
  have horder := h.order
  have hqueue := h.queue
  rw [List.append_nil] at horder hqueue
  refine { h with excl := .inr hr, free := nofun, held := fun g hg => ?_, alive := fun g hg => ?_,
                  order := ?_, queue := fun hk => ?_ }
  · obtain rfl := Option.some.inj hg
    exact .inl ⟨by rw [hwriting]; rfl, hpromised, hlost⟩
  · rw [hwriting] at hg
    rcases hg with hg | hg
    · exact h.alive g (.inl hg)
    · obtain rfl : g = f := by simpa using hg
      exact hf
  · rw [List.append_nil]
    exact horder.append (.refl _)
  · rw [List.append_nil, hqueue hk]

omit [DecidableEq κ] in
/-- **A reader waits.** -/
theorem Core.readWait (h : Core kills loss place killed lk l rw ww) (hf : place f = .user) :
    Core kills loss (Function.update place f (.inside (.rlock lk))) killed lk l (rw ++ [f]) ww := by
  have hne : ∀ {g op}, place g = .inside op → g ≠ f := by
    rintro g op hg rfl
    rw [hf] at hg
    cases hg
  refine { h with admitted := fun g hg => ?_, promised := fun g hg => ?_, rpending := fun g hg => ?_,
                  wpending := fun g hg => ?_, alive := fun g hg => ?_ }
  · obtain ⟨hp, hnot⟩ := h.admitted g hg
    refine ⟨by rw [Function.update_of_ne (hne hp)]; exact hp, fun hmem => ?_⟩
    rcases List.mem_append.1 hmem with hmem | hmem
    · exact hnot hmem
    · exact hne hp (List.mem_singleton.1 hmem)
  · obtain ⟨hp, hnot⟩ := h.promised g hg
    exact ⟨by rw [Function.update_of_ne (hne hp)]; exact hp, hnot⟩
  · by_cases hgf : g = f
    · exact .inl (List.mem_append_right _ (by simp [hgf]))
    · rw [Function.update_of_ne hgf] at hg
      exact (h.rpending g hg).imp_left (List.mem_append_left _)
  · have hgf : g ≠ f := by
      rintro rfl
      rw [Function.update_self] at hg
      cases hg
    rw [Function.update_of_ne hgf] at hg
    exact h.wpending g hg
  · by_cases hgf : g = f
    · rw [hgf, Function.update_self]
      rfl
    · rw [Function.update_of_ne hgf]
      exact h.alive g hg

omit [DecidableEq κ] in
/-- **A writer waits.** -/
theorem Core.writeWait (h : Core kills loss place killed lk l rw ww) (hf : place f = .user) :
    Core kills loss (Function.update place f (.inside (.wlock lk))) killed lk { l with asked := l.asked ++ [f] } rw
      (ww ++ [f]) := by
  have hne : ∀ {g op}, place g = .inside op → g ≠ f := by
    rintro g op hg rfl
    rw [hf] at hg
    cases hg
  refine { h with admitted := fun g hg => ?_, promised := fun g hg => ?_, rpending := fun g hg => ?_,
                  wpending := fun g hg => ?_, alive := fun g hg => ?_, order := ?_, queue := fun hk => ?_ }
  · obtain ⟨hp, hnot⟩ := h.admitted g hg
    exact ⟨by rw [Function.update_of_ne (hne hp)]; exact hp, hnot⟩
  · obtain ⟨hp, hnot⟩ := h.promised g hg
    refine ⟨by rw [Function.update_of_ne (hne hp)]; exact hp, fun hmem => ?_⟩
    rcases List.mem_append.1 hmem with hmem | hmem
    · exact hnot hmem
    · exact hne hp (List.mem_singleton.1 hmem)
  · have hgf : g ≠ f := by
      rintro rfl
      rw [Function.update_self] at hg
      cases hg
    rw [Function.update_of_ne hgf] at hg
    exact h.rpending g hg
  · by_cases hgf : g = f
    · exact .inl (List.mem_append_right _ (by simp [hgf]))
    · rw [Function.update_of_ne hgf] at hg
      exact (h.wpending g hg).imp_left (List.mem_append_left _)
  · by_cases hgf : g = f
    · rw [hgf, Function.update_self]
      rfl
    · rw [Function.update_of_ne hgf]
      exact h.alive g hg
  · rw [← List.append_assoc]
    exact h.order.append (.refl _)
  · rw [← List.append_assoc, h.queue hk]

omit [DecidableEq κ] [DecidableEq ι] in
/-- The writer that is promised the lock is the one that holds it. -/
theorem Core.writer_of_promised (h : Core kills loss place killed lk l rw ww) (hf : l.promised = some f) :
    l.writer = some f ∧ l.writing = [] ∧ l.lostWriter = false := by
  cases hw : l.writer with
  | none =>
    rw [(h.free hw).2.1] at hf
    cases hf
  | some g =>
    rcases h.held g hw with ⟨_, hp, _⟩ | ⟨hwriting, hp, hlost⟩ | ⟨_, hp, _⟩
    · rw [hp] at hf
      cases hf
    · rw [hp] at hf
      exact ⟨hf, hwriting, hlost⟩
    · rw [hp] at hf
      cases hf

omit [DecidableEq κ] [DecidableEq ι] in
theorem Core.writer_of_writing (h : Core kills loss place killed lk l rw ww) (hf : f ∈ l.writing) :
    l.writer = some f ∧ l.writing = [f] ∧ l.promised = none ∧ l.lostWriter = false := by
  cases hw : l.writer with
  | none =>
    rw [(h.free hw).1] at hf
    cases hf
  | some g =>
    rcases h.held g hw with ⟨hwriting, hp, hlost⟩ | ⟨hwriting, _, _⟩ | ⟨hwriting, _, _⟩
    · rw [hwriting, List.mem_singleton] at hf
      rw [hf]
      exact ⟨rfl, hwriting, hp, hlost⟩
    · rw [hwriting] at hf
      cases hf
    · rw [hwriting] at hf
      cases hf

/-- The record when `rlock` goes on behind its switch. -/
def Rwlock.readBack (l : Rwlock ι) (f : ι) (canceled : Bool) : Rwlock ι :=
  { l with
    admitted := l.admitted.erase f
    reading := if canceled then l.reading else l.reading ++ [f]
    lostReaders := if canceled ∧ f ∈ l.admitted then l.lostReaders + 1 else l.lostReaders }

omit [DecidableEq κ] in
/-- **A reader comes back** from the ring. -/
theorem Core.readBack (h : Core kills loss place killed lk l rw ww) (hf : place f = .inside (.rlock lk)) (hrw : f ∉ rw)
    (hk : kills = false → killed f = false) :
    Core kills loss (Function.update place f .user) killed lk (l.readBack f (killed f)) rw ww := by
  have hback : ∀ {g op}, Function.update place f .user g = .inside op → g ≠ f ∧ place g = .inside op := by
    intro g op hg
    have hgf : g ≠ f := by
      rintro rfl
      rw [Function.update_self] at hg
      cases hg
    rw [Function.update_of_ne hgf] at hg
    exact ⟨hgf, hg⟩
  have hmem : ∀ g, g ∈ l.admitted.erase f ↔ g ≠ f ∧ g ∈ l.admitted := fun g => h.nodup.mem_erase_iff
  -- who is neither in the ring nor let in has been killed
  have hcases : f ∈ l.admitted ∨ f ∉ l.admitted ∧ killed f = true := by
    rcases h.rpending f hf with hw | ha | hk
    · exact absurd hw hrw
    · exact .inl ha
    · by_cases ha : f ∈ l.admitted
      · exact .inl ha
      · exact .inr ⟨ha, hk⟩
  refine { h with count := ?_, nodup := h.nodup.erase f, admitted := fun g hg => ?_, promised := fun g hg => ?_,
                  rpending := fun g hg => ?_, wpending := fun g hg => ?_, alive := fun g hg => ?_,
                  lost := fun hkills => ?_, floor := ?_ }
  · have hcount := h.count
    rcases hcases with ha | ⟨ha, hkilled⟩
    · have hpos := List.length_pos_of_mem ha
      have hlen := List.length_erase_of_mem ha
      cases hkilled : killed f with
      | true =>
        simp only [Rwlock.readBack, ha, and_self, if_true]
        omega
      | false =>
        simp only [Rwlock.readBack, Bool.false_eq_true, false_and, if_false, List.length_append,
          List.length_singleton]
        omega
    · simp only [Rwlock.readBack, hkilled, ha, and_false, if_false, if_true, List.erase_of_not_mem ha]
      exact hcount
  · obtain ⟨hgf, hg⟩ := (hmem g).1 hg
    rw [Function.update_of_ne hgf]
    exact h.admitted g hg
  · obtain ⟨hp, hnot⟩ := h.promised g hg
    have hgf : g ≠ f := by
      rintro rfl
      rw [hf] at hp
      cases hp
    rw [Function.update_of_ne hgf]
    exact ⟨hp, hnot⟩
  · obtain ⟨hgf, hg⟩ := hback hg
    rcases h.rpending g hg with hw | ha | hk
    · exact .inl hw
    · exact .inr (.inl ((hmem g).2 ⟨hgf, ha⟩))
    · exact .inr (.inr hk)
  · exact h.wpending g (hback hg).2
  · by_cases hgf : g = f
    · rw [hgf, Function.update_self]
      rfl
    · rw [Function.update_of_ne hgf]
      refine h.alive g (hg.imp_left fun hg => ?_)
      simp only [Rwlock.readBack] at hg
      split at hg
      · exact hg
      · rcases List.mem_append.1 hg with hg | hg
        · exact hg
        · exact absurd (List.mem_singleton.1 hg) hgf
  · simp only [Rwlock.readBack, hk hkills, Bool.false_eq_true, false_and, if_false]
    exact h.lost hkills
  · refine h.floor.imp_left fun hle => ?_
    simp only [Rwlock.readBack]
    split <;> omega

/-- The record when `wlock` goes on behind its switch. -/
def Rwlock.writeBack (l : Rwlock ι) (f : ι) (canceled : Bool) : Rwlock ι :=
  { l with
    promised := if l.promised = some f then none else l.promised
    writing := if canceled then l.writing else l.writing ++ [f]
    lostWriter := l.lostWriter || canceled && l.promised == some f }

omit [DecidableEq κ] in
/-- **A writer comes back** from the ring. -/
theorem Core.writeBack (h : Core kills loss place killed lk l rw ww) (hf : place f = .inside (.wlock lk)) (hww : f ∉ ww)
    (hk : kills = false → killed f = false) :
    Core kills loss (Function.update place f .user) killed lk (l.writeBack f (killed f)) rw ww := by
  have hback : ∀ {g op}, Function.update place f .user g = .inside op → g ≠ f ∧ place g = .inside op := by
    intro g op hg
    have hgf : g ≠ f := by
      rintro rfl
      rw [Function.update_self] at hg
      cases hg
    rw [Function.update_of_ne hgf] at hg
    exact ⟨hgf, hg⟩
  have hadmitted : ∀ g ∈ l.admitted, Function.update place f .user g = .inside (.rlock lk) ∧ g ∉ rw := by
    intro g hg
    obtain ⟨hp, hnot⟩ := h.admitted g hg
    have hgf : g ≠ f := by
      rintro rfl
      rw [hf] at hp
      cases hp
    rw [Function.update_of_ne hgf]
    exact ⟨hp, hnot⟩
  have halive : ∀ g, g ∈ l.reading ∨ g ∈ (l.writeBack f (killed f)).writing →
      (Function.update place f .user g).alive = true := by
    intro g hg
    by_cases hgf : g = f
    · rw [hgf, Function.update_self]
      rfl
    · rw [Function.update_of_ne hgf]
      refine h.alive g (hg.imp_right fun hg => ?_)
      simp only [Rwlock.writeBack] at hg
      split at hg
      · exact hg
      · rcases List.mem_append.1 hg with hg | hg
        · exact hg
        · exact absurd (List.mem_singleton.1 hg) hgf
  by_cases hp : l.promised = some f
  · obtain ⟨hwriter, hwriting, hlost⟩ := h.writer_of_promised hp
    refine { h with free := fun hnone => ?_, held := fun g hg => ?_, admitted := hadmitted, promised := fun g hg => ?_,
                    rpending := fun g hg => h.rpending g (hback hg).2, wpending := fun g hg => ?_, alive := halive,
                    lost := fun hkills => ?_, floor := ?_ }
    · rw [show (l.writeBack f (killed f)).writer = l.writer from rfl, hwriter] at hnone
      cases hnone
    · obtain rfl : f = g := by
        rw [show (l.writeBack f (killed f)).writer = l.writer from rfl, hwriter] at hg
        exact Option.some.inj hg
      cases hkilled : killed f with
      | true => exact .inr (.inr (by simp [Rwlock.writeBack, hp, hwriting]))
      | false => exact .inl (by simp [Rwlock.writeBack, hp, hwriting, hlost])
    · simp only [Rwlock.writeBack, hp, if_true] at hg
      cases hg
    · obtain ⟨hgf, hg⟩ := hback hg
      rcases h.wpending g hg with hw | hpg | hk
      · exact .inl hw
      · rw [hp] at hpg
        exact absurd (Option.some.inj hpg).symm hgf
      · exact .inr (.inr hk)
    · have hsame : (l.writeBack f (killed f)).lostWriter = l.lostWriter := by
        simp [Rwlock.writeBack, hk hkills]
      rw [hsame]
      exact h.lost hkills
    · exact h.floor.imp_right fun hle hw => by simp [Rwlock.writeBack, hle hw]
  · -- it was killed while it waited
    have hkilled : killed f = true := by
      rcases h.wpending f hf with hw | hpf | hk
      · exact absurd hw hww
      · exact absurd hpf hp
      · exact hk
    have hsame : l.writeBack f (killed f) = l := by
      have hne : (l.promised == some f) = false := by simpa using hp
      simp [Rwlock.writeBack, hkilled, hp, hne]
    rw [hsame] at halive ⊢
    refine { h with admitted := hadmitted, promised := fun g hg => ?_,
                    rpending := fun g hg => h.rpending g (hback hg).2,
                    wpending := fun g hg => h.wpending g (hback hg).2, alive := halive }
    have hgf : g ≠ f := by
      rintro rfl
      exact hp hg
    rw [Function.update_of_ne hgf]
    exact h.promised g hg

/-- The record when a reader has left. -/
def Rwlock.leaveRead (l : Rwlock ι) (f : ι) : Rwlock ι :=
  { l with readers := l.readers - 1, reading := l.reading.erase f }

/-- The record when the writer has left. -/
def Rwlock.leaveWrite (l : Rwlock ι) (f : ι) : Rwlock ι := { l with writer := none, writing := l.writing.erase f }

omit [DecidableEq κ] in
/-- **A reader leaves.** -/
theorem Core.leaveRead (h : Core kills loss place killed lk l rw ww) (hf : f ∈ l.reading) :
    l.writer = none ∧
      Core kills loss place killed lk (l.leaveRead f) rw ww := by
  have hpos := List.length_pos_of_mem hf
  have hlen := List.length_erase_of_mem hf
  have hcount := h.count
  have hw : l.writer = none := by
    rcases h.excl with hw | hr
    · exact hw
    · omega
  refine ⟨hw, { h with count := ?_, excl := .inl hw, alive := fun g hg => ?_ }⟩
  · change l.readers - 1 = (l.reading.erase f).length + l.admitted.length + l.lostReaders
    omega
  · exact h.alive g (hg.imp_left List.mem_of_mem_erase)

omit [DecidableEq κ] in
/-- **The writer leaves.** -/
theorem Core.leaveWrite (h : Core kills loss place killed lk l rw ww) (hf : f ∈ l.writing) :
    l.readers = 0 ∧
      Core kills loss place killed lk (l.leaveWrite f) rw ww := by
  obtain ⟨hwriter, hwriting, hp, hlost⟩ := h.writer_of_writing hf
  have hnil : l.writing.erase f = [] := by rw [hwriting]; simp
  have hr : l.readers = 0 := by
    rcases h.excl with hw | hr
    · rw [hwriter] at hw
      cases hw
    · exact hr
  refine ⟨hr, { h with excl := .inl rfl, free := fun _ => ⟨hnil, hp, hlost⟩, held := nofun, alive := fun g hg => ?_ }⟩
  have hg' : g ∈ l.reading ∨ g ∈ l.writing.erase f := hg
  rw [hnil] at hg'
  exact h.alive g (hg'.imp_right nofun)

/-- The record when a reader is let in. -/
def Rwlock.letIn (l : Rwlock ι) (g : ι) : Rwlock ι :=
  { l with readers := l.readers + 1, admitted := l.admitted ++ [g] }

omit [DecidableEq κ] [DecidableEq ι] in
/-- **A reader is let in.** -/
theorem Core.letIn (h : Core kills loss place killed lk l (g :: rw) ww) (hw : l.writer = none) (hnd : (g :: rw).Nodup)
    (hg : place g = .inside (.rlock lk)) :
    Core kills loss place killed lk (l.letIn g) rw ww := by
  refine { h with count := ?_, excl := .inl hw, nodup := ?_, admitted := fun f hf => ?_, rpending := fun f hf => ?_ }
  · change l.readers + 1 = l.reading.length + (l.admitted ++ [g]).length + l.lostReaders
    rw [List.length_append, List.length_singleton, h.count]
    omega
  · refine List.nodup_append.2 ⟨h.nodup, List.nodup_singleton g, fun a ha b hb hab => ?_⟩
    rw [List.mem_singleton.1 hb] at hab
    exact (h.admitted a ha).2 (hab ▸ List.mem_cons_self)
  · rcases List.mem_append.1 hf with hf | hf
    · exact (h.admitted f hf).imp_right fun hnot hmem => hnot (List.mem_cons_of_mem _ hmem)
    · rw [List.mem_singleton.1 hf]
      exact ⟨hg, (List.nodup_cons.1 hnd).1⟩
  · rcases h.rpending f hf with hmem | ha | hk
    · rcases List.mem_cons.1 hmem with rfl | hmem
      · exact .inr (.inl (List.mem_append_right _ (List.mem_singleton.2 rfl)))
      · exact .inl hmem
    · exact .inr (.inl (List.mem_append_left _ ha))
    · exact .inr (.inr hk)

omit [DecidableEq κ] [DecidableEq ι] in
/-- **A writer is let in.** -/
theorem Core.promise (h : Core kills loss place killed lk l rw (g :: ww)) (hw : l.writer = none) (hr : l.readers = 0)
    (hnd : (g :: ww).Nodup) (hg : place g = .inside (.wlock lk)) :
    Core kills loss place killed lk
      { l with writer := some g, promised := some g, granted := l.granted ++ [g] } rw ww := by
  obtain ⟨hwriting, hpromised, hlost⟩ := h.free hw
  refine { h with excl := .inr hr, free := nofun, held := fun f hf => ?_, promised := fun f hf => ?_,
                  wpending := fun f hf => ?_, order := ?_, queue := fun hk => ?_ }
  · obtain rfl := Option.some.inj hf
    exact .inr (.inl ⟨hwriting, rfl, hlost⟩)
  · obtain rfl := Option.some.inj hf
    exact ⟨hg, (List.nodup_cons.1 hnd).1⟩
  · rcases h.wpending f hf with hmem | hp | hk
    · rcases List.mem_cons.1 hmem with rfl | hmem
      · exact .inr (.inl rfl)
      · exact .inl hmem
    · rw [hpromised] at hp
      cases hp
    · exact .inr (.inr hk)
  · have horder := h.order
    rwa [List.append_cons] at horder
  · have hqueue := h.queue hk
    rwa [List.append_cons] at hqueue

end Core

section Calls

variable {kills : Bool} {loss : κ → Loss} {t : Thread (κ → Rwlock ι) (Op κ) ι} {q : Queues (RwRing κ) ι} {f : ι} {lk : κ}
  {place place' : ι → Place (Op κ)} {killed killed' : ι → Bool} {obj : κ → Rwlock ι} {w w' : RwRing κ → List ι}

omit [DecidableEq ι] in
/-- One lock changes, and the others do not. -/
theorem Inv.of_one (h : Inv kills loss place killed obj w) {l : Rwlock ι}
    (hcore : Core kills (loss lk) place' killed' lk l (w' (.rwaiting lk)) (w' (.wwaiting lk)))
    (hlive : Live kills l (w' (.rwaiting lk)) (w' (.wwaiting lk)))
    (hother : ∀ lk', lk' ≠ lk →
      Core kills (loss lk') place' killed' lk' (obj lk') (w (.rwaiting lk')) (w (.wwaiting lk')))
    (hsame : ∀ lk', lk' ≠ lk → w' (.rwaiting lk') = w (.rwaiting lk') ∧ w' (.wwaiting lk') = w (.wwaiting lk'))
    (hops : ∀ f op, place' f = .inside op → ∃ lk, op = .rlock lk ∨ op = .wlock lk)
    (hkilled : kills = false → ∀ f, killed' f = false) :
    Inv kills loss place' killed' (Function.update obj lk l) w' := by
  refine ⟨fun lk' => ?_, fun lk' => ?_, hops, hkilled⟩ <;> by_cases hlk : lk' = lk
  · subst hlk
    rw [Function.update_self]
    exact hcore
  · obtain ⟨hr, hw⟩ := hsame lk' hlk
    rw [Function.update_of_ne hlk, hr, hw]
    exact hother lk' hlk
  · subst hlk
    rw [Function.update_self]
    exact hlive
  · obtain ⟨hr, hw⟩ := hsame lk' hlk
    rw [Function.update_of_ne hlk, hr, hw]
    exact h.live lk'

@[simp] theorem wp_update {g : Rwlock ι → Rwlock ι}
    {Q : Unit → Thread (κ → Rwlock ι) (Op κ) ι → Queues (RwRing κ) ι → Prop} :
    Code.wp queueExec (update lk g) Q t q ↔ Q () { t with obj := Function.update t.obj lk (g (t.obj lk)) } q :=
  Code.wp_modify _

omit [DecidableEq κ] in
theorem ops_update {p : Place (Op κ)} (h : ∀ f op, place f = .inside op → ∃ lk, op = .rlock lk ∨ op = .wlock lk)
    (hp : ∀ op, p = .inside op → ∃ lk, op = .rlock lk ∨ op = .wlock lk) (g : ι) (op : Op κ)
    (hg : Function.update place f p g = .inside op) : ∃ lk, op = .rlock lk ∨ op = .wlock lk := by
  by_cases hgf : g = f
  · rw [hgf, Function.update_self] at hg
    exact hp op hg
  · rw [Function.update_of_ne hgf] at hg
    exact h g op hg

omit [DecidableEq κ] in
theorem elsewhere_user : Elsewhere lk (.user : Place (Op κ)) := ⟨nofun, nofun⟩

omit [DecidableEq κ] in
theorem elsewhere_rlock {lk' : κ} (h : lk' ≠ lk) : Elsewhere lk' (.inside (.rlock lk)) := by
  refine ⟨fun heq => ?_, nofun⟩
  cases heq
  exact h rfl

omit [DecidableEq κ] in
theorem elsewhere_wlock {lk' : κ} (h : lk' ≠ lk) : Elsewhere lk' (.inside (.wlock lk)) := by
  refine ⟨nofun, fun heq => ?_⟩
  cases heq
  exact h rfl

omit [DecidableEq κ] [DecidableEq ι] in
theorem elsewhere_of_user (h : place f = .user) : Elsewhere lk (place f) := by
  rw [h]
  exact elsewhere_user

omit [DecidableEq ι] in
/-- The queues when a fiber waits in a ring of a lock: those of the other locks are the same. -/
theorem put_ring (r r' : RwRing κ) : q.put (some (.ring r)) f (.ring r') =
    if r' = r then q (.ring r) ++ [f] else q (.ring r') := by
  split
  · rename_i hr
    rw [hr, Queues.put_self]
  · rename_i hr
    exact Queues.put_of_ne fun heq => hr (Head.ring.inj heq)

theorem call_rlock (h : Good ringOf (Inv kills loss) t q) (hf : t.running = some f) (huser : t.place f = .user)
    (block : Bool) :
    Code.wp queueExec (rlock lk block) (fun _ => Good ringOf (Inv kills loss)) t q := by
  have hcore := h.inv.core lk
  have hlive := h.inv.live lk
  simp only [rlock, Code.wp_bind, wp_fiberRunning hf, wp_first, Code.wp_get, Code.wp_ite, wp_update, Code.wp_pure,
    List.head?_eq_none_iff]
  split
  · rename_i hin
    obtain ⟨hwriter, hww⟩ := hin
    refine ⟨h.sound, h.inv.of_one ?_ ?_ (fun lk' _ => h.inv.core lk') (fun _ _ => ⟨rfl, rfl⟩) h.inv.ops h.inv.nokill⟩
    · exact hcore.read hwriter (by rw [huser]; rfl)
    · exact ⟨fun hne => absurd hww hne, hlive.readers⟩
  · rename_i hout
    cases block with
    | false =>
      simp only [if_true]
      exact h
    | true =>
      simp only [Bool.true_eq_false, if_false]
      refine Code.wp_mono (wp_fiberWait h.sound hf rfl) ?_
      rintro _ t' q' ⟨hsound, hkeeps⟩
      refine hkeeps.good hsound ?_
      simp only [put_ring, Thread.setPlace]
      -- the lock itself does not change
      rw [← Function.update_eq_self lk t.obj]
      refine h.inv.of_one ?_ ?_ (fun lk' hlk => ?_) (fun lk' hlk => by simp [hlk])
        (ops_update h.inv.ops fun op hop => ?_) h.inv.nokill
      · simpa using hcore.readWait huser
      · simp only [if_true, reduceCtorEq, if_false]
        refine ⟨hlive.writers, fun _ _ => ?_⟩
        by_cases hwriter : (t.obj lk).writer = none
        · exact .inr fun hww => hout ⟨hwriter, hww⟩
        · exact .inl hwriter
      · exact (h.inv.core lk').move (elsewhere_of_user huser) (elsewhere_rlock hlk) fun _ => rfl
      · cases hop
        exact ⟨lk, .inl rfl⟩

theorem call_wlock (h : Good ringOf (Inv kills loss) t q) (hf : t.running = some f) (huser : t.place f = .user)
    (block : Bool) :
    Code.wp queueExec (wlock lk block) (fun _ => Good ringOf (Inv kills loss)) t q := by
  have hcore := h.inv.core lk
  have hlive := h.inv.live lk
  simp only [wlock, Code.wp_bind, wp_fiberRunning hf, Code.wp_get, Code.wp_ite, wp_update, Code.wp_pure]
  split
  · rename_i hin
    obtain ⟨hwriter, hreaders⟩ := hin
    have hww : q (.ring (.wwaiting lk)) = [] := by
      by_contra hne
      rcases hlive.writers hne with hw | hr
      · exact hw hwriter
      · exact hr hreaders
    refine ⟨h.sound, h.inv.of_one ?_ ?_ (fun lk' _ => h.inv.core lk') (fun _ _ => ⟨rfl, rfl⟩) h.inv.ops h.inv.nokill⟩
    · exact hcore.write hwriter hreaders hww (by rw [huser]; rfl)
    · exact ⟨fun _ => .inl (by rintro ⟨⟩), fun _ _ => .inl (by rintro ⟨⟩)⟩
  · rename_i hout
    cases block with
    | false =>
      simp only [if_true]
      exact h
    | true =>
      simp only [Bool.true_eq_false, if_false]
      refine Code.wp_mono (wp_fiberWait (t := { t with
        obj := Function.update t.obj lk ({ t.obj lk with asked := (t.obj lk).asked ++ [f] }) }) h.sound hf rfl) ?_
      rintro _ t' q' ⟨hsound, hkeeps⟩
      refine hkeeps.good hsound ?_
      simp only [put_ring]
      refine h.inv.of_one ?_ ?_ (fun lk' hlk => ?_) (fun lk' hlk => by simp [hlk])
        (ops_update h.inv.ops fun op hop => ?_) h.inv.nokill
      · simpa [Thread.setPlace] using hcore.writeWait huser
      · simp only [if_true, reduceCtorEq, if_false]
        refine ⟨fun _ => ?_, fun _ _ => .inr (by simp)⟩
        by_cases hwriter : (t.obj lk).writer = none
        · exact .inr fun hr => hout ⟨hwriter, hr⟩
        · exact .inl hwriter
      · exact (h.inv.core lk').move (elsewhere_of_user huser) (elsewhere_wlock hlk) fun _ => rfl
      · cases hop
        exact ⟨lk, .inr rfl⟩

theorem resume_rlock (h : Good ringOf (Inv kills loss) t q) (hf : t.running = some f) (hp : t.place f = .inside (.rlock lk)) :
    Code.wp queueExec (rlockResume lk) (fun _ => Good ringOf (Inv kills loss)) t q := by
  obtain ⟨-, -, hnot⟩ := h.sound.current f hf
  have hdrop : q.drop f = q := funext fun r => List.erase_of_not_mem (hnot r)
  have hlive := h.inv.live lk
  have hgood : Good ringOf (Inv kills loss)
      { t.setPlace f .user with obj := Function.update t.obj lk ((t.obj lk).readBack f (t.killed f)) } q := by
    refine ⟨h.sound.goOn hf, h.inv.of_one ?_ ?_ (fun lk' hlk => ?_) (fun _ _ => ⟨rfl, rfl⟩)
      (ops_update h.inv.ops nofun) h.inv.nokill⟩
    · exact (h.inv.core lk).readBack hp (hnot _) fun hk => h.inv.nokill hk f
    · exact ⟨hlive.writers, hlive.readers⟩
    · refine (h.inv.core lk').move ?_ elsewhere_user fun _ => rfl
      rw [hp]
      exact elsewhere_rlock hlk
  simp only [rlockResume, Code.wp_bind, wp_fiberRunning hf, wp_detach, hdrop, Code.wp_get, Code.wp_modify, wp_update,
    Code.wp_ite, Code.wp_pure, ite_self]
  exact hgood

theorem resume_wlock (h : Good ringOf (Inv kills loss) t q) (hf : t.running = some f) (hp : t.place f = .inside (.wlock lk)) :
    Code.wp queueExec (wlockResume lk) (fun _ => Good ringOf (Inv kills loss)) t q := by
  obtain ⟨-, -, hnot⟩ := h.sound.current f hf
  have hdrop : q.drop f = q := funext fun r => List.erase_of_not_mem (hnot r)
  have hlive := h.inv.live lk
  have hgood : Good ringOf (Inv kills loss)
      { t.setPlace f .user with obj := Function.update t.obj lk ((t.obj lk).writeBack f (t.killed f)) } q := by
    refine ⟨h.sound.goOn hf, h.inv.of_one ?_ ?_ (fun lk' hlk => ?_) (fun _ _ => ⟨rfl, rfl⟩)
      (ops_update h.inv.ops nofun) h.inv.nokill⟩
    · exact (h.inv.core lk).writeBack hp (hnot _) fun hk => h.inv.nokill hk f
    · exact ⟨hlive.writers, hlive.readers⟩
    · refine (h.inv.core lk').move ?_ elsewhere_user fun _ => rfl
      rw [hp]
      exact elsewhere_wlock hlk
  simp only [wlockResume, Code.wp_bind, wp_fiberRunning hf, wp_detach, hdrop, Code.wp_get, Code.wp_modify, wp_update,
    Code.wp_ite, Code.wp_pure, ite_self]
  exact hgood

/-- Between the steps of an unlock: everything is in order but that nobody has been woken yet. -/
structure Mid (kills : Bool) (loss : κ → Loss) (lk : κ) (f : ι) (t : Thread (κ → Rwlock ι) (Op κ) ι) (q : Queues (RwRing κ) ι) : Prop where
  sound : t.Sound ringOf q
  running : t.running = some f
  core : ∀ lk, Core kills (loss lk) t.place t.killed lk (t.obj lk) (q (.ring (.rwaiting lk))) (q (.ring (.wwaiting lk)))
  live : ∀ lk', lk' ≠ lk → Live kills (t.obj lk') (q (.ring (.rwaiting lk'))) (q (.ring (.wwaiting lk')))
  ops : ∀ f op, t.place f = .inside op → ∃ lk, op = .rlock lk ∨ op = .wlock lk
  nokill : kills = false → ∀ f, t.killed f = false
  free : (t.obj lk).writer = none

omit [DecidableEq ι] in
theorem Mid.good (h : Mid kills loss lk f t q)
    (hlive : Live kills (t.obj lk) (q (.ring (.rwaiting lk))) (q (.ring (.wwaiting lk)))) :
    Good ringOf (Inv kills loss) t q := by
  refine ⟨h.sound, h.core, fun lk' => ?_, h.ops, h.nokill⟩
  by_cases hlk : lk' = lk
  · rw [hlk]
    exact hlive
  · exact h.live lk' hlk

omit [DecidableEq κ] [DecidableEq ι] in
/-- The first fiber of a lock's ring is in the ring's operation. -/
theorem place_of_first (h : t.Sound ringOf q) (hops : ∀ f op, t.place f = .inside op → ∃ lk, op = .rlock lk ∨ op = .wlock lk)
    {r : RwRing κ} {g : ι} {l : List ι} (hq : q (.ring r) = g :: l) :
    t.place g = .inside (match r with | .rwaiting lk => .rlock lk | .wwaiting lk => .wlock lk) := by
  have hg : g ∈ q (.ring r) := by
    rw [hq]
    exact List.mem_cons_self
  obtain ⟨op, hop, hr⟩ := h.fits (.ring r) g hg
  obtain ⟨lk, rfl | rfl⟩ := hops g op hop <;> cases hr <;> exact hop

/-- **A writer that waits is let in.** -/
theorem wp_letWriterIn (h : Mid kills loss lk f t q) {g : ι} {l : List ι} (hw : q (.ring (.wwaiting lk)) = g :: l)
    (hr : (t.obj lk).readers = 0) :
    Code.wp queueExec (letWriterIn lk g)
      (fun _ t' q' => Good ringOf (Inv kills loss) t' q' ∧ t'.running = some f ∧
        q' (.ring (.rwaiting lk)) = q (.ring (.rwaiting lk))) t q := by
  simp only [letWriterIn, Code.wp_bind, wp_detach_head, wp_update]
  refine Code.wp_mono (wp_wakeFirst (q := q) h.sound hw (.inl rfl)) ?_
  rintro _ t' q' ⟨hsound, rfl, hself, hother⟩
  refine ⟨⟨hsound, fun lk' => ?_, fun lk' => ?_, h.ops, h.nokill⟩, h.running, hother _ (by rintro ⟨⟩)⟩
  · by_cases hlk : lk' = lk
    · subst hlk
      have hcore := h.core lk'
      have hnd := h.sound.nodup (.ring (.wwaiting lk'))
      rw [hw] at hcore hnd
      simp only [Thread.setStatus, Function.update_self, hself, hother (.rwaiting lk') (by rintro ⟨⟩)]
      exact hcore.promise h.free hr hnd (place_of_first h.sound h.ops hw)
    · simp only [Thread.setStatus, Function.update_of_ne hlk]
      rw [hother (.rwaiting lk') (by rintro ⟨⟩), hother (.wwaiting lk') fun heq => hlk (RwRing.wwaiting.inj heq)]
      exact h.core lk'
  · by_cases hlk : lk' = lk
    · subst hlk
      simp only [Thread.setStatus, Function.update_self]
      exact ⟨fun _ => .inl (by rintro ⟨⟩), fun _ _ => .inl (by rintro ⟨⟩)⟩
    · simp only [Thread.setStatus, Function.update_of_ne hlk]
      rw [hother (.rwaiting lk') (by rintro ⟨⟩), hother (.wwaiting lk') fun heq => hlk (RwRing.wwaiting.inj heq)]
      exact h.live lk' hlk

/-- **All readers that wait are let in.** -/
theorem wp_letReadersIn (turns : ℕ) (h : Mid kills loss lk f t q) (hturns : (q (.ring (.rwaiting lk))).length < turns) :
    Code.wp queueExec (letReadersIn lk turns)
      (fun _ t' q' => Mid kills loss lk f t' q' ∧ q' (.ring (.rwaiting lk)) = [] ∧
        q' (.ring (.wwaiting lk)) = q (.ring (.wwaiting lk))) t q := by
  induction turns generalizing t q with
  | zero => omega
  | succ turns ih =>
    simp only [letReadersIn, Code.wp_bind, wp_first]
    cases hr : q (.ring (.rwaiting lk)) with
    | nil => exact (Code.wp_pure _).2 ⟨h, hr, rfl⟩
    | cons g l =>
      simp only [List.head?_cons, Code.wp_bind, wp_detach_head, wp_update]
      refine Code.wp_mono (wp_wakeFirst (q := q) h.sound hr (.inl rfl)) ?_
      rintro _ t' q' ⟨hsound, rfl, hself, hother⟩
      have hmid : Mid kills loss lk f
          (Thread.setStatus { t with obj := Function.update t.obj lk ((t.obj lk).letIn g) } g .ready) q' := by
        refine ⟨hsound, h.running, fun lk' => ?_, fun lk' hlk => ?_, h.ops, h.nokill, ?_⟩
        · by_cases hlk : lk' = lk
          · subst hlk
            have hcore := h.core lk'
            have hnd := h.sound.nodup (.ring (.rwaiting lk'))
            rw [hr] at hcore hnd
            simp only [Thread.setStatus, Function.update_self, hself, hother (.wwaiting lk') (by rintro ⟨⟩)]
            exact hcore.letIn h.free hnd (place_of_first h.sound h.ops hr)
          · simp only [Thread.setStatus, Function.update_of_ne hlk]
            rw [hother (.wwaiting lk') (by rintro ⟨⟩), hother (.rwaiting lk') fun heq => hlk (RwRing.rwaiting.inj heq)]
            exact h.core lk'
        · simp only [Thread.setStatus, Function.update_of_ne hlk]
          rw [hother (.wwaiting lk') (by rintro ⟨⟩), hother (.rwaiting lk') fun heq => hlk (RwRing.rwaiting.inj heq)]
          exact h.live lk' hlk
        · simp only [Thread.setStatus, Function.update_self]
          exact h.free
      have hlen : (q' (.ring (.rwaiting lk))).length < turns := by
        rw [hr, List.length_cons] at hturns
        rw [hself]
        omega
      refine Code.wp_mono (ih hmid hlen) ?_
      rintro n t'' q'' ⟨hmid', hnil, hww⟩
      exact (Code.wp_pure _).2 ⟨hmid', hnil, hww.trans (hother _ (by rintro ⟨⟩))⟩

theorem call_runlock (h : Good ringOf (Inv kills loss) t q) (hf : t.running = some f)
    (hin : f ∈ (t.obj lk).reading) :
    Code.wp queueExec (runlock lk) (fun _ => Good ringOf (Inv kills loss)) t q := by
  obtain ⟨hwriter, hcore⟩ := (h.inv.core lk).leaveRead hin
  have hmid : Mid kills loss lk f { t with obj := Function.update t.obj lk ((t.obj lk).leaveRead f) } q := by
    refine ⟨h.sound, hf, fun lk' => ?_, fun lk' hlk => ?_, h.inv.ops, h.inv.nokill, ?_⟩
    · by_cases hlk : lk' = lk
      · subst hlk
        simp only [Function.update_self]
        exact hcore
      · simp only [Function.update_of_ne hlk]
        exact h.inv.core lk'
    · simp only [Function.update_of_ne hlk]
      exact h.inv.live lk'
    · simp only [Function.update_self]
      exact hwriter
  have hlive : ((t.obj lk).readers - 1 ≠ 0 ∨ q (.ring (.wwaiting lk)) = []) →
      Live kills ((t.obj lk).leaveRead f) (q (.ring (.rwaiting lk))) (q (.ring (.wwaiting lk))) := by
    intro hcase
    refine ⟨fun hne => ?_, (h.inv.live lk).readers⟩
    rcases hcase with hr | hnil
    · exact .inr hr
    · exact absurd hnil hne
  simp only [runlock, Code.wp_bind, wp_fiberRunning hf, wp_update, Code.wp_get, Code.wp_ite, wp_first,
    Function.update_self]
  split
  · rename_i hzero
    cases hw : q (.ring (.wwaiting lk)) with
    | nil =>
      refine (Code.wp_pure _).2 (hmid.good ?_)
      simp only [Function.update_self]
      exact hlive (.inr hw)
    | cons g l =>
      simp only [List.head?_cons, Code.wp_bind]
      refine Code.wp_mono (wp_letWriterIn hmid hw (by simp only [Function.update_self]; exact hzero)) ?_
      rintro _ t₁ q₁ ⟨hgood₁, hf₁, -⟩
      refine Code.wp_mono (wp_fiberYield hgood₁.sound hf₁) ?_
      rintro _ t' q' ⟨hsound, hkeeps⟩
      exact hkeeps.good hsound hgood₁.inv
  · rename_i hne
    refine (Code.wp_pure _).2 (hmid.good ?_)
    simp only [Function.update_self]
    exact hlive (.inl hne)

/-- **A writer unlocks**, and no reader waits any longer. -/
theorem call_wunlock (h : Good ringOf (Inv kills loss) t q) (hf : t.running = some f)
    (hin : f ∈ (t.obj lk).writing) :
    Code.wp queueExec (wunlock lk)
      (fun _ t' q' => Good ringOf (Inv kills loss) t' q' ∧ q' (.ring (.rwaiting lk)) = []) t q := by
  obtain ⟨hzero, hcore⟩ := (h.inv.core lk).leaveWrite hin
  have hwriter := ((h.inv.core lk).writer_of_writing hin).1
  have hmid : Mid kills loss lk f { t with obj := Function.update t.obj lk ((t.obj lk).leaveWrite f) } q := by
    refine ⟨h.sound, hf, fun lk' => ?_, fun lk' hlk => ?_, h.inv.ops, h.inv.nokill, ?_⟩
    · by_cases hlk : lk' = lk
      · subst hlk
        simp only [Function.update_self]
        exact hcore
      · simp only [Function.update_of_ne hlk]
        exact h.inv.core lk'
    · simp only [Function.update_of_ne hlk]
      exact h.inv.live lk'
    · simp only [Function.update_self]
      rfl
  -- whatever has been let in, the writer gives way if there is somebody
  have hyield : ∀ {n : ℕ} {t₁ : Thread (κ → Rwlock ι) (Op κ) ι} {q₁ : Queues (RwRing κ) ι},
      Good ringOf (Inv kills loss) t₁ q₁ → t₁.running = some f → q₁ (.ring (.rwaiting lk)) = [] →
      if 0 < n then Code.wp queueExec fiberYield
        (fun _ t' q' => Good ringOf (Inv kills loss) t' q' ∧ q' (.ring (.rwaiting lk)) = []) t₁ q₁
      else Good ringOf (Inv kills loss) t₁ q₁ ∧ q₁ (.ring (.rwaiting lk)) = [] := by
    intro n t₁ q₁ hgood hf₁ hnil
    split
    · refine Code.wp_mono (wp_fiberYield hgood.sound hf₁) ?_
      rintro _ t' q' ⟨hsound, hkeeps⟩
      exact ⟨hkeeps.good hsound hgood.inv, (hkeeps.rings _).trans hnil⟩
    · exact ⟨hgood, hnil⟩
  simp only [wunlock, Code.wp_bind, wp_fiberRunning hf, Code.wp_get, Code.wp_ite, hwriter, reduceCtorEq, if_false,
    Code.wp_pure, wp_update, Function.update_self, wp_size, Int.toNat_natCast]
  rw [if_neg (not_not.2 hzero)]
  refine Code.wp_mono (wp_letReadersIn _ hmid (Nat.lt_succ_self _)) ?_
  rintro n t₁ q₁ ⟨hmid₁, hnil, hww⟩
  split
  · rename_i hr
    cases hw : q₁ (.ring (.wwaiting lk)) with
    | nil =>
      simp only [wp_first, hw, List.head?_nil]
      refine (Code.wp_bind _ _).2 ((Code.wp_pure n).2 ?_)
      simp only [Code.wp_ite, Code.wp_pure]
      exact hyield (hmid₁.good ⟨fun hne => absurd hw hne, fun _ hne => absurd hnil hne⟩) hmid₁.running hnil
    | cons g l =>
      simp only [wp_first, hw, List.head?_cons, Code.wp_bind, Code.wp_pure]
      refine Code.wp_mono (wp_letWriterIn hmid₁ hw hr) ?_
      rintro _ t₂ q₂ ⟨hgood₂, hf₂, hrw⟩
      simp only [Code.wp_ite, Code.wp_pure]
      exact hyield hgood₂ hf₂ (hrw.trans hnil)
  · rename_i hr
    exact hyield (hmid₁.good ⟨fun _ => .inr hr, fun _ hne => absurd hnil hne⟩) hmid₁.running hnil

/-- **The operations, each by itself.** -/
theorem verified : Verified (code κ ι) ringOf (Inv kills loss) (Allowed kills) where
  call t q f op h hf huser hallowed := by
    cases op with
    | rlock lk => exact (Code.wp_discard _).2 (call_rlock h hf huser true)
    | tryrlock lk => exact (Code.wp_discard _).2 (call_rlock h hf huser false)
    | wlock lk => exact (Code.wp_discard _).2 (call_wlock h hf huser true)
    | trywlock lk => exact (Code.wp_discard _).2 (call_wlock h hf huser false)
    | runlock lk => exact call_runlock h hf (hallowed f hf)
    | wunlock lk => exact Code.wp_mono (call_wunlock h hf (hallowed f hf)) fun _ _ _ hgood => hgood.1
  resume t q f op h hf hp := by
    obtain ⟨lk, rfl | rfl⟩ := h.inv.ops f op hp
    · exact (Code.wp_discard _).2 (resume_rlock h hf hp)
    · exact (Code.wp_discard _).2 (resume_wlock h hf hp)
  exit t f w h hf huser hallowed := by
    refine ⟨fun lk => (h.core lk).move (elsewhere_of_user huser) ⟨nofun, nofun⟩ fun hin => ?_, h.live,
      ops_update h.ops nofun, h.nokill⟩
    obtain ⟨hr, hw⟩ := hallowed f hf lk
    rcases hin with hin | hin
    · exact absurd hin hr
    · exact absurd hin hw
  born place killed obj w f h hf := by
    have helse : ∀ lk, Elsewhere lk (place f) := by
      intro lk
      rcases hf with hf | hf <;> rw [hf] <;> exact ⟨nofun, nofun⟩
    refine ⟨fun lk => ?_, h.live, ops_update h.ops nofun, fun hk g => ?_⟩
    · have hmoved := (h.core lk).move (f := f) (p := .user) (helse lk) elsewhere_user fun _ => rfl
      exact hmoved.revive (by rw [Function.update_self]; exact elsewhere_user)
    · by_cases hgf : g = f
      · rw [hgf, Function.update_self]
      · rw [Function.update_of_ne hgf]
        exact h.nokill hk g
  kill t f w h hallowed := by
    have hkills : kills = true := hallowed
    subst hkills
    refine ⟨⟨fun lk => (h.core lk).kill rfl (.inl rfl) (.inl rfl), h.live, h.ops, nofun⟩,
      ⟨fun lk => (h.core lk).kill rfl (.inr rfl) (.inr rfl), fun lk => ⟨fun hne => ?_, nofun⟩, h.ops, nofun⟩⟩
    refine (h.live lk).writers fun hnil => hne ?_
    rw [hnil]
    rfl

omit [DecidableEq κ] [DecidableEq ι] in
theorem inv_initial : Inv (κ := κ) (ι := ι) kills (fun _ => ⟨0, false⟩) (fun _ => .unborn) (fun _ => false)
    (fun _ => .create) fun _ => [] := by
  refine ⟨fun _ => ⟨rfl, .inl rfl, fun _ => ⟨rfl, rfl, rfl⟩, nofun, .nil, nofun, nofun, nofun, nofun, fun f hf => ?_,
    .refl _, fun _ => rfl, fun _ => ⟨rfl, rfl⟩, ⟨le_refl _, nofun⟩⟩, fun _ => ⟨fun h => absurd rfl h, fun _ h => absurd rfl h⟩,
    nofun, fun _ _ => rfl⟩
  rcases hf with hf | hf <;> cases hf

omit [DecidableEq κ] [DecidableEq ι] in
/-- Everything is in order, with the losses there are. -/
theorem Inv.raise {killed : ι → Bool} (h : Inv kills loss place killed obj w) :
    Inv kills (fun lk => ⟨(obj lk).lostReaders, (obj lk).lostWriter⟩) place killed obj w :=
  ⟨fun lk => { h.core lk with floor := ⟨le_refl _, fun h => h⟩ }, h.live, h.ops, h.nokill⟩

omit [DecidableEq κ] [DecidableEq ι] in
/-- Writers exclude each other and the readers. -/
theorem Core.exclusive {loss : Loss} {l : Rwlock ι} {rw ww : List ι} (h : Core kills loss place killed lk l rw ww) :
    l.writing = [] ∨ ∃ f, l.writing = [f] ∧ l.writer = some f ∧ l.reading = [] := by
  cases hw : l.writing with
  | nil => exact .inl rfl
  | cons f l' =>
    obtain ⟨hwriter, hwriting, -⟩ := h.writer_of_writing (f := f) (by rw [hw]; exact List.mem_cons_self)
    refine .inr ⟨f, hw.symm.trans hwriting, hwriter, ?_⟩
    have hcount := h.count
    rcases h.excl with hnone | hzero
    · rw [hwriter] at hnone
      cases hnone
    · exact List.length_eq_zero_iff.1 (by omega)

/-- **Readers and writers.** In every state of a thread whose fibers give back what they have: nothing has
failed and the rings hold queues. A writer that is in is alone in; the counter is the readers that are in, that
have been let in, and that were killed in between. A writer that waits has somebody to wait for, and without
kills so has a reader, be it a writer that waits itself; who has been let in runs or is ready. Writers come in
in the order in which they asked, without kills all that are in front of those that wait. -/
theorem rwlock_safe {s : Option (Thread (κ → Rwlock ι) (Op κ) ι × Memory (Node (Head (RwRing κ)) ι))}
    (h : (fiberRwlock κ ι).Reach (Obeys (Allowed kills)) s) :
    ∃ t m q, s = some (t, m) ∧ Rings m q ∧ ∀ lk,
      ((t.obj lk).writing = [] ∨
        ∃ f, (t.obj lk).writing = [f] ∧ (t.obj lk).writer = some f ∧ (t.obj lk).reading = []) ∧
      (t.obj lk).readers =
        (t.obj lk).reading.length + (t.obj lk).admitted.length + (t.obj lk).lostReaders ∧
      (q (.ring (.wwaiting lk)) ≠ [] → (t.obj lk).writer ≠ none ∨ (t.obj lk).readers ≠ 0) ∧
      (kills = false → q (.ring (.rwaiting lk)) ≠ [] → (t.obj lk).writer ≠ none ∨ q (.ring (.wwaiting lk)) ≠ []) ∧
      (∀ f, f ∈ (t.obj lk).admitted ∨ (t.obj lk).promised = some f → t.running = some f ∨ f ∈ q .ready) ∧
      ((t.obj lk).granted ++ q (.ring (.wwaiting lk))).Sublist (t.obj lk).asked ∧
      (kills = false → (t.obj lk).granted ++ q (.ring (.wwaiting lk)) = (t.obj lk).asked ∧
        (t.obj lk).lostReaders = 0 ∧ (t.obj lk).lostWriter = false) := by
  obtain ⟨t, m, q, rfl, hrings, hgood⟩ := verified.reach inv_initial h
  refine ⟨t, m, q, rfl, hrings, fun lk => ?_⟩
  have hcore := hgood.inv.core lk
  refine ⟨hcore.exclusive, hcore.count, (hgood.inv.live lk).writers, (hgood.inv.live lk).readers, fun f hf => ?_,
    hcore.order, fun hk => ⟨hcore.queue hk, hcore.lost hk⟩⟩
  rcases hf with hf | hf
  · obtain ⟨hp, hnot⟩ := hcore.admitted f hf
    rcases hgood.sound.inside f _ hp with hrun | hready | ⟨r, hr, hring⟩
    · exact .inl hrun
    · exact .inr hready
    · cases hr
      exact absurd hring hnot
  · obtain ⟨hp, hnot⟩ := hcore.promised f hf
    rcases hgood.sound.inside f _ hp with hrun | hready | ⟨r, hr, hring⟩
    · exact .inl hrun
    · exact .inr hready
    · cases hr
      exact absurd hring hnot

/-- **A reader waits for one writer at most**, among fibers that give back what they have: whenever a writer
has unlocked, no reader waits any longer. -/
theorem wunlock_admits_readers {s s' : Option (Thread (κ → Rwlock ι) (Op κ) ι × Memory (Node (Head (RwRing κ)) ι))}
    (h : (fiberRwlock κ ι).Reach (Obeys (Allowed kills)) s)
    (hobeys : Obeys (Allowed kills) s (.call (.wunlock lk)))
    (hs : (fiberRwlock κ ι).step s (.call (.wunlock lk)) = some s') :
    ∃ t' m' q', s' = some (t', m') ∧ Rings m' q' ∧ q' (.ring (.rwaiting lk)) = [] := by
  obtain ⟨t, m, q, rfl, hrings, hgood⟩ := verified.reach inv_initial h
  have hcode : t.enabled (.call (.wunlock lk)) = true → Code.wp queueExec ((code κ ι).exec (.call (.wunlock lk)))
      (fun _ t' q' => Good ringOf (Inv kills fun _ => ⟨0, false⟩) t' q' ∧ q' (.ring (.rwaiting lk)) = []) t q := by
    intro henabled
    simp only [Thread.enabled, Option.any_eq_true] at henabled
    obtain ⟨f, hf, -⟩ := henabled
    exact call_wunlock hgood hf (hobeys t m rfl f hf)
  obtain ⟨t', m', q', rfl, hrings', -, hnil⟩ := step_of_wp
    (P := fun t' q' => Good ringOf (Inv kills fun _ => ⟨0, false⟩) t' q' ∧ q' (.ring (.rwaiting lk)) = [])
    hrings hcode hs
  exact ⟨t', m', q', rfl, hrings', hnil⟩

/-- **A lock lost to a killed fiber stays lost.** Once a reader that had been let in was told that it was not,
no writer is in ever after; once that happened to a writer, nobody is. That is so as long as fibers give back
only what they have: one `runlock` too many lets a writer in. -/
theorem lost_for_good {s s' : Option (Thread (κ → Rwlock ι) (Op κ) ι × Memory (Node (Head (RwRing κ)) ι))}
    {t : Thread (κ → Rwlock ι) (Op κ) ι} {m : Memory (Node (Head (RwRing κ)) ι)}
    (h : (fiberRwlock κ ι).Reach (Obeys (Allowed kills)) s) (hs : s = some (t, m))
    (hpath : (fiberRwlock κ ι).Path (Obeys (Allowed kills)) s s') :
    ∃ t' m', s' = some (t', m') ∧
      (0 < (t.obj lk).lostReaders → (t'.obj lk).writing = [] ∧ (t'.obj lk).promised = none) ∧
      ((t.obj lk).lostWriter = true → (t'.obj lk).writing = [] ∧ (t'.obj lk).reading = [] ∧
        (t'.obj lk).admitted = [] ∧ (t'.obj lk).promised = none) := by
  obtain ⟨t₁, m₁, q, rfl, hrings, hgood⟩ := verified.reach inv_initial h
  obtain ⟨rfl, rfl⟩ := Prod.mk.inj (Option.some.inj hs)
  have hraised : Orderly ringOf (Inv kills fun lk => ⟨(t₁.obj lk).lostReaders, (t₁.obj lk).lostWriter⟩)
      (some (t₁, m₁)) := ⟨t₁, m₁, q, rfl, hrings, hgood.sound, hgood.inv.raise⟩
  obtain ⟨t', m', q', rfl, -, hgood'⟩ := verified.path hraised hpath
  have hcore := hgood'.inv.core lk
  have hcount := hcore.count
  obtain ⟨hfloor, hfloorW⟩ := hcore.floor
  refine ⟨t', m', rfl, fun hlost => ?_, fun hlost => ?_⟩
  · have hwriter : (t'.obj lk).writer = none := by
      rcases hcore.excl with hw | hr
      · exact hw
      · simp only at hfloor
        omega
    exact ⟨(hcore.free hwriter).1, (hcore.free hwriter).2.1⟩
  · have hlost' : (t'.obj lk).lostWriter = true := hfloorW hlost
    cases hwriter : (t'.obj lk).writer with
    | none =>
      rw [(hcore.free hwriter).2.2] at hlost'
      cases hlost'
    | some f =>
      have hzero : (t'.obj lk).readers = 0 := by
        rcases hcore.excl with hw | hr
        · rw [hwriter] at hw
          cases hw
        · exact hr
      have hreading : (t'.obj lk).reading = [] := List.length_eq_zero_iff.1 (by omega)
      have hadmitted : (t'.obj lk).admitted = [] := List.length_eq_zero_iff.1 (by omega)
      rcases hcore.held f hwriter with ⟨_, _, hl⟩ | ⟨_, _, hl⟩ | ⟨hwriting, hp, _⟩
      · rw [hl] at hlost'
        cases hlost'
      · rw [hl] at hlost'
        cases hlost'
      · exact ⟨hwriting, hreading, hadmitted, hp⟩

end Calls

/-! ## Runs -/

/-- The states of three fibers and a lock. -/
abbrev Three :=
  Option (Thread (Unit → Rwlock (Fin 3)) (Op Unit) (Fin 3) × Memory (Node (Head (RwRing Unit)) (Fin 3)))

/-- The first writes, the second waits to read. -/
def readerWaits : List (FiberLabel (Op Unit) (Fin 3)) :=
  [.create 0, .create 1, .create 2, .schedule, .call (.wlock ()), .yield, .call (.rlock ()), .yield]

/-- The reader is let in, and killed before it runs. -/
def readerKilled : List (FiberLabel (Op Unit) (Fin 3)) :=
  readerWaits ++ [.call (.wunlock ()), .kill 1, .yield, .resume]

/-- The test that the labels of these runs keep the discipline. -/
def keepsDiscipline (kills : Bool) (s : Three) (e : FiberLabel (Op Unit) (Fin 3)) : Bool :=
  match s, e with
  | some (t, _), .call (.wunlock lk) => t.running.all fun f => (t.obj lk).writing.contains f
  | some (t, _), .call (.runlock lk) => t.running.all fun f => (t.obj lk).reading.contains f
  | _, .kill _ => kills
  | _, .exit => false
  | _, _ => true

theorem obeys_of_keeps {kills : Bool} {s : Three} {e : FiberLabel (Op Unit) (Fin 3)}
    (h : keepsDiscipline kills s e = true) : Obeys (Allowed kills) s e := by
  rintro t m rfl
  cases e with
  | call op =>
    cases op with
    | wunlock lk =>
      intro f hf
      simpa [keepsDiscipline, hf] using h
    | runlock lk =>
      intro f hf
      simpa [keepsDiscipline, hf] using h
    | _ => trivial
  | exit => cases h
  | kill f => exact h
  | _ => trivial

theorem rwlock_safe_readerWaits :
    ∃ (t : Thread (Unit → Rwlock (Fin 3)) (Op Unit) (Fin 3)) (q : Queues (RwRing Unit) (Fin 3)),
      (t.obj ()).writing = [0] ∧ (t.obj ()).reading = [] ∧
        (t.obj ()).granted ++ q (.ring (.wwaiting ())) = (t.obj ()).asked := by
  obtain ⟨s, hreach, hs⟩ := System.exists_reach (S := fiberRwlock Unit (Fin 3)) (C := Obeys (Allowed false))
    (T := keepsDiscipline false)
    (P := fun s => s.any fun result => (result.1.obj ()).writing == [0] && (result.1.obj ()).reading == [])
    readerWaits (fun _ _ _ h _ => obeys_of_keeps h) (by decide +kernel)
  obtain ⟨t, m, q, rfl, -, hall⟩ := rwlock_safe hreach
  simp only [Option.any_some, Bool.and_eq_true, beq_iff_eq] at hs
  obtain ⟨-, -, -, -, -, -, hqueue⟩ := hall ()
  exact ⟨t, q, hs.1, hs.2, (hqueue rfl).1⟩

theorem wunlock_admits_readers_readerWaits :
    ∃ (t : Thread (Unit → Rwlock (Fin 3)) (Op Unit) (Fin 3)) (m : Memory (Node (Head (RwRing Unit)) (Fin 3)))
      (q : Queues (RwRing Unit) (Fin 3)),
      Rings m q ∧ (t.obj ()).admitted = [1] ∧ q (.ring (.rwaiting ())) = [] := by
  obtain ⟨s, hreach, hs⟩ := System.exists_reach (S := fiberRwlock Unit (Fin 3)) (C := Obeys (Allowed false))
    (T := keepsDiscipline false)
    (P := fun s => keepsDiscipline false s (.call (.wunlock ())) &&
      ((fiberRwlock Unit (Fin 3)).step s (.call (.wunlock ()))).any fun s' =>
        s'.any fun result => (result.1.obj ()).admitted == [1])
    readerWaits (fun _ _ _ h _ => obeys_of_keeps h) (by decide +kernel)
  simp only [Bool.and_eq_true, Option.any_eq_true] at hs
  obtain ⟨hkeeps, s', hstep, result, rfl, hadmitted⟩ := hs
  obtain ⟨t, m, q, ht, hrings, hnil⟩ := wunlock_admits_readers hreach (obeys_of_keeps hkeeps) hstep
  obtain rfl := Option.some.inj ht
  exact ⟨t, m, q, hrings, by simpa using hadmitted, hnil⟩

/-- The first writer has unlocked, and tries in vain to write once more. -/
theorem lost_for_good_readerKilled :
    ∃ t t' : Thread (Unit → Rwlock (Fin 3)) (Op Unit) (Fin 3),
      (t.obj ()).lostReaders = 1 ∧ t'.running = some 0 ∧ (t'.obj ()).writing = [] := by
  obtain ⟨s, hreach, hs⟩ := System.exists_reach (S := fiberRwlock Unit (Fin 3)) (C := Obeys (Allowed true))
    (T := keepsDiscipline true)
    (P := fun s => s.any (fun result => (result.1.obj ()).lostReaders == 1) &&
      (fiberRwlock Unit (Fin 3)).passes (keepsDiscipline true) (fun s' => s'.any fun result => result.1.running == some 0)
        s [.yield, .call (.trywlock ())])
    readerKilled (fun _ _ _ h _ => obeys_of_keeps h) (by decide +kernel)
  simp only [Bool.and_eq_true, Option.any_eq_true] at hs
  obtain ⟨⟨result, hresult, hlost⟩, hpasses⟩ := hs
  obtain ⟨s', hpath, hs'⟩ := System.Path.passes (C := Obeys (Allowed true)) (fun _ _ _ h _ => obeys_of_keeps h) hpasses
  obtain ⟨t', m', rfl, hreaders, -⟩ := lost_for_good hreach hresult hpath
  simp only [Option.any_some, beq_iff_eq] at hs' hlost
  exact ⟨result.1, t', hlost, hs', (hreaders (by omega)).1⟩

end FiberRwlock

end SocketAcl
