import SocketAcl.Spec.Echo

/-!
# The echo protocol in step

Both servers give back the bytes they read, so the two streams hold what was typed and not
printed yet (`Carries`). `echo_in_step`: the texts printed are the lines typed exactly if each
read of the client returns one line whole.
-/

namespace SocketAcl

namespace Echo

/-- The labels of the runs considered: lines that are neither empty nor `0` and hold no NUL, and no socket
call that fails. -/
def Label.Allowed : Label → Prop
  | .getline message ok => message ≠ [] ∧ message ≠ ascii "0" ∧ 0 ∉ message ∧ ok = true
  | .clientRead _ => True
  | .clientFail => False
  | .serverRead _ => True
  | .serverFail => False
  | .serverWrite ok => ok = true

/-- **In step**: the texts printed so far are the first lines typed. -/
def InStep (s : State) : Prop := s.printed <+: s.typed

instance (s : State) : Decidable (InStep s) := inferInstanceAs (Decidable (_ <+: _))

/-- A read of the client returns the line it waits for, all of it and nothing else. -/
def WholeLine (s : State) : Label → Prop
  | .clientRead n => s.typed.getLast?.map List.length = some n
  | _ => True

instance (s : State) : ∀ l, Decidable (WholeLine s l)
  | .clientRead _ => inferInstanceAs (Decidable (_ = _))
  | .getline _ _ | .clientFail | .serverRead _ | .serverFail | .serverWrite _ => inferInstanceAs (Decidable True)

instance : DecidablePred Label.Allowed
  | .getline _ _ => inferInstanceAs (Decidable (_ ∧ _ ∧ _ ∧ _))
  | .clientRead _ | .serverRead _ => inferInstanceAs (Decidable True)
  | .clientFail | .serverFail => inferInstanceAs (Decidable False)
  | .serverWrite _ => inferInstanceAs (Decidable (_ = _))

/-- What the server has read and is about to write back. -/
def State.echoing (s : State) : Bytes :=
  match s.server with
  | .write ret => s.serverBuf.take ret
  | _ => []

/-- **The invariant of the two streams.** -/
structure Carries (s : State) : Prop where
  /-- what was printed, what is under way and what the server has not read are what was typed -/
  bytes : s.printed.flatten ++ s.toClient ++ s.echoing ++ s.toServer = s.typed.flatten
  clean : 0 ∉ s.typed.flatten
  /-- the client takes turns -/
  turn : s.typed.length = s.printed.length + if s.client = .read then 1 else 0

variable {kind : Server} {s t : State} {l : Label} {data buf : Bytes}

theorem received_take : (received data buf).take data.length = data := by
  unfold received memcpy
  simp

/-- What is printed is what was read, up to its first NUL. -/
theorem cstr_received (h : 0 ∉ data) : cstr (received data buf) = data := by
  have hmem : received data buf = data ++ 0 :: (data ++ buf.drop data.length).drop (data.length + 1) := by
    unfold received memcpy
    simp
  rw [hmem, cstr_append_nul h]

theorem Carries.toClient_clean (h : Carries s) : 0 ∉ s.toClient := by
  intro h0
  apply h.clean
  rw [← h.bytes]
  simp [h0]

theorem carries_init (clientBuf serverBuf : Bytes) : Carries (.init clientBuf serverBuf) :=
  ⟨rfl, List.not_mem_nil, rfl⟩

theorem carries_step (h : Carries s) (hl : l.Allowed) (hs : step kind s l = some t) : Carries t := by
  obtain ⟨hbytes, hclean, hturn⟩ := h
  cases l with
  | getline message ok =>
    obtain ⟨hne, hquit, h0, rfl⟩ := hl
    simp only [step, if_neg hquit, if_neg hne, if_true] at hs
    split at hs
    · rename_i hc
      obtain rfl := Option.some.inj hs
      refine ⟨?_, ?_, ?_⟩
      · rw [List.flatten_append, ← hbytes]
        simp [State.echoing]
      · simp only [List.flatten_append, List.mem_append, not_or, List.flatten_singleton]
        exact ⟨hclean, h0⟩
      · rw [hc] at hturn
        simpa using hturn
    · cases hs
  | clientRead n =>
    simp only [step] at hs
    split at hs
    · rename_i hc
      obtain ⟨hread, hpos, -, hn⟩ := hc
      obtain rfl := Option.some.inj hs
      have hdata : 0 ∉ s.toClient.take n := fun h0 =>
        Carries.toClient_clean ⟨hbytes, hclean, hturn⟩ (List.mem_of_mem_take h0)
      refine ⟨?_, hclean, ?_⟩
      · rw [← hbytes]
        simp only [cstr_received hdata, State.echoing, List.flatten_append, List.flatten_singleton,
          List.append_assoc]
        rw [← List.append_assoc (List.take n s.toClient), List.take_append_drop]
      · rw [hread] at hturn
        simpa using hturn
    · cases hs
  | clientFail => exact hl.elim
  | serverRead n =>
    simp only [step] at hs
    split at hs
    · rename_i hc
      obtain ⟨hread, hpos, -, hn⟩ := hc
      obtain rfl := Option.some.inj hs
      have hlen : (s.toServer.take n).length = n := by
        rw [List.length_take]
        omega
      have htake : (received (s.toServer.take n) s.serverBuf).take (s.toServer.take n).length = s.toServer.take n :=
        received_take
      rw [hlen] at htake
      refine ⟨?_, hclean, hturn⟩
      rw [← hbytes]
      simp only [State.echoing, hread, htake, List.append_nil]
      rw [List.append_assoc, List.take_append_drop]
    · cases hs
  | serverFail => exact hl.elim
  | serverWrite ok =>
    obtain rfl : ok = true := hl
    simp only [step] at hs
    split at hs
    · rename_i ret hserver
      obtain rfl := Option.some.inj hs
      refine ⟨?_, hclean, hturn⟩
      rw [← hbytes]
      simp only [State.echoing, hserver, List.append_assoc, List.nil_append]
    · cases hs

/-- The line the client waits for is the one typed last, and all before it was printed. -/
theorem typed_of_read (hC : Carries s) (hI : InStep s) (hread : s.client = .read) :
    ∃ line, s.typed = s.printed ++ [line] := by
  obtain ⟨rest, hrest⟩ := hI
  have hturn := hC.turn
  rw [← hrest, List.length_append, if_pos hread] at hturn
  obtain ⟨line, rfl⟩ := List.length_eq_one_iff.1 (by omega : rest.length = 1)
  exact ⟨line, hrest.symm⟩

/-- **One step**: the texts stay in step exactly if what the client reads is the line. -/
theorem inStep_step (hC : Carries s) (hI : InStep s) (hl : l.Allowed) (hs : step kind s l = some t) :
    InStep t ↔ WholeLine s l := by
  cases l with
  | getline message ok =>
    obtain ⟨hne, hquit, h0, rfl⟩ := hl
    simp only [step, if_neg hquit, if_neg hne, if_true] at hs
    split at hs
    · obtain rfl := Option.some.inj hs
      exact iff_of_true (hI.trans (List.prefix_append _ _)) trivial
    · cases hs
  | clientRead n =>
    simp only [step] at hs
    split at hs
    · rename_i hc
      obtain ⟨hread, hpos, -, hn⟩ := hc
      obtain rfl := Option.some.inj hs
      have hdata : 0 ∉ s.toClient.take n := fun h0 => hC.toClient_clean (List.mem_of_mem_take h0)
      have hlen : (s.toClient.take n).length = n := by
        rw [List.length_take]
        omega
      obtain ⟨line, hline⟩ := typed_of_read hC hI hread
      -- the bytes under way are those of the line
      have hbytes := hC.bytes
      rw [hline, List.flatten_append, List.append_assoc, List.append_assoc, List.append_cancel_left_eq,
        List.flatten_singleton] at hbytes
      have hpiece : n = line.length ↔ s.toClient.take n = line := by
        constructor
        · intro h
          have htake := congrArg (List.take n) hbytes
          rwa [List.take_append_of_le_length hn, h, List.take_length, ← h] at htake
        · intro h
          rw [← h, hlen]
      simp only [InStep, WholeLine, cstr_received hdata, hline, List.getLast?_append, List.getLast?_singleton,
        Option.some_or, Option.map_some, Option.some.injEq, List.prefix_append_right_inj]
      rw [eq_comm (b := n), hpiece, List.cons_prefix_cons, and_iff_left List.nil_prefix]
    · cases hs
  | clientFail => exact hl.elim
  | serverRead n =>
    simp only [step] at hs
    split at hs
    · obtain rfl := Option.some.inj hs
      exact iff_of_true hI trivial
    · cases hs
  | serverFail => exact hl.elim
  | serverWrite ok =>
    obtain rfl : ok = true := hl
    simp only [step] at hs
    split at hs
    · obtain rfl := Option.some.inj hs
      exact iff_of_true hI trivial
    · cases hs

/-- Nothing is taken back that was typed or printed. -/
theorem grows (hs : step kind s l = some t) : s.printed <+: t.printed ∧ s.typed <+: t.typed := by
  cases l with
  | getline message ok =>
    simp only [step] at hs
    split at hs
    · split at hs
      · obtain rfl := Option.some.inj hs
        exact ⟨List.prefix_rfl, List.prefix_rfl⟩
      · split at hs
        · obtain rfl := Option.some.inj hs
          exact ⟨List.prefix_rfl, List.prefix_rfl⟩
        · split at hs
          · obtain rfl := Option.some.inj hs
            exact ⟨List.prefix_rfl, List.prefix_append _ _⟩
          · obtain rfl := Option.some.inj hs
            exact ⟨List.prefix_rfl, List.prefix_rfl⟩
    · cases hs
  | clientRead n =>
    simp only [step] at hs
    split at hs
    · obtain rfl := Option.some.inj hs
      exact ⟨List.prefix_append _ _, List.prefix_rfl⟩
    · cases hs
  | clientFail | serverRead n | serverFail =>
    simp only [step] at hs
    split at hs
    · obtain rfl := Option.some.inj hs
      exact ⟨List.prefix_rfl, List.prefix_rfl⟩
    · cases hs
  | serverWrite ok =>
    simp only [step] at hs
    split at hs
    · split at hs
      · obtain rfl := Option.some.inj hs
        exact ⟨List.prefix_rfl, List.prefix_rfl⟩
      · cases kind <;> obtain rfl := Option.some.inj hs <;> exact ⟨List.prefix_rfl, List.prefix_rfl⟩
    · cases hs

/-- Texts that are out of step stay so. -/
theorem inStep_back (hC : Carries s) (hs : step kind s l = some t) (hI : InStep t) : InStep s := by
  obtain ⟨hprinted, htyped⟩ := grows hs
  have hlen : s.printed.length ≤ s.typed.length := by
    rw [hC.turn]
    exact Nat.le_add_right _ _
  exact List.prefix_of_prefix_length_le (hprinted.trans hI) htyped hlen

/-- **The echo protocol in step.** In every session in which no socket call fails, the texts printed are the
lines typed exactly if each read of the client returns one line whole. -/
theorem echo_in_step (kind : Server) (clientBuf serverBuf : Bytes) {labels : List Label} {t : State}
    (hlabels : ∀ l ∈ labels, l.Allowed)
    (h : (echo kind clientBuf serverBuf).run (.init clientBuf serverBuf) labels = some t) :
    InStep t ↔ (echo kind clientBuf serverBuf).AllSteps WholeLine (.init clientBuf serverBuf) labels :=
  System.run_iff_allSteps (S := echo kind clientBuf serverBuf) (I := Carries) (A := Label.Allowed) (Q := InStep)
    (fun _ _ _ hC hl hs => carries_step hC hl hs) (fun _ _ _ hC hI hl hs => inStep_step hC hI hl hs)
    (fun _ _ _ hC _ hs hI => inStep_back hC hs hI) hlabels (carries_init clientBuf serverBuf) List.nil_prefix h

/-- The line `hi`, echoed at once. -/
def sayHi : List Label := [.getline (ascii "hi") true, .serverRead 2, .serverWrite true, .clientRead 2]

/-- It is printed as it was typed. -/
theorem echo_in_step_hi : ∃ t, (echo .coroutine [] []).run (.init [] []) sayHi = some t ∧
    t.printed = [ascii "hi"] ∧ InStep t := by
  have hrun : (echo .coroutine [] []).passes (fun s l => decide (WholeLine s l))
      (fun t => decide (t.printed = [ascii "hi"])) (.init [] []) sayHi = true := by decide +kernel
  obtain ⟨hall, t, ht, hP⟩ := System.allSteps_of_passes (C := WholeLine) (fun _ _ => of_decide_eq_true) hrun
  exact ⟨t, ht, of_decide_eq_true hP, (echo_in_step .coroutine [] [] (by decide +kernel) ht).2 hall⟩

/-- A line of 256 letters, read and written back at once. -/
def longLine : List Label :=
  [.getline (List.replicate 256 0x61) true, .serverRead 256, .serverWrite true, .clientRead 255]

/-- **A line too long**: the client's read takes the first 255 of its 256 bytes. -/
theorem line_cut : (∀ l ∈ longLine, l.Allowed) ∧ ∀ kind, ∃ t, (echo kind [] []).run (.init [] []) longLine = some t ∧
    ¬ InStep t := by
  refine ⟨by decide +kernel, fun kind => ?_⟩
  have hrun : (echo kind [] []).passes (fun _ _ => true) (fun t => decide (¬ InStep t)) (.init [] []) longLine = true := by
    cases kind <;> decide +kernel
  obtain ⟨-, t, ht, hP⟩ := System.allSteps_of_passes (C := fun _ _ => True) (fun _ _ _ => trivial) hrun
  exact ⟨t, ht, of_decide_eq_true hP⟩

end Echo

end SocketAcl
