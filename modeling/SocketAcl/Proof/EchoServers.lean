import SocketAcl.Lib.Framing
import SocketAcl.Proof.Echo

/-!
# The echo servers give back what they read

A handler gives back the stream however the reads cut it (`handleClient_output`), and where every
write goes through both do the same (`clientFiber_eq`). Each read is followed by a NUL at the index
of its length (`handleClient_stores`), which lies behind `buf` if the read filled it.

* `servers_faithful`: the servers keep to `buf` exactly if no read returns all of its 256 bytes.
* `serve_run`: the handlers do what the labels of `echo` say.
-/

namespace SocketAcl

namespace Echo

variable {reads : List (Bytes × Bool)} {buf : Bytes} {i : ℕ}

theorem handleClient_cons {data : Bytes} (h : data ≠ []) (ok : Bool) :
    handleClient ((data, ok) :: reads) buf =
      ⟨List.range data.length ++ data.length :: (handleClient reads (received data buf)).stores,
        (if ok then data else []) ++ (handleClient reads (received data buf)).output⟩ := by
  have hne : data.length ≠ 0 := fun h0 => h (List.eq_nil_of_length_eq_zero h0)
  rw [handleClient]
  simp only [if_neg hne, received_take]

theorem clientFiber_cons {data : Bytes} (h : data ≠ []) (ok : Bool) :
    clientFiber ((data, ok) :: reads) buf =
      if ok then ⟨List.range data.length ++ data.length :: (clientFiber reads (received data buf)).stores,
        data ++ (clientFiber reads (received data buf)).output⟩
      else ⟨List.range data.length ++ [data.length], []⟩ := by
  have hne : data.length ≠ 0 := fun h0 => h (List.eq_nil_of_length_eq_zero h0)
  rw [clientFiber]
  simp only [if_neg hne, received_take]

/-- Each read is stored from the front, with a NUL behind it. -/
theorem handleClient_stores (h : ∀ r ∈ reads, r.1 ≠ []) :
    i ∈ (handleClient reads buf).stores ↔ ∃ r ∈ reads, i ≤ r.1.length := by
  induction reads generalizing buf with
  | nil =>
    rw [handleClient]
    simp
  | cons r reads ih =>
    obtain ⟨data, ok⟩ := r
    rw [handleClient_cons (h _ List.mem_cons_self)]
    simp only [List.mem_append, List.mem_range, List.mem_cons, ih fun r hr => h r (List.mem_cons_of_mem _ hr),
      exists_eq_or_imp]
    rw [← or_assoc, ← Nat.le_iff_lt_or_eq]

/-- What is written to the socket is what was read, whatever the reads. -/
theorem handleClient_output (h : ∀ r ∈ reads, r.1 ≠ []) (hok : ∀ r ∈ reads, r.2 = true) :
    (handleClient reads buf).output = (reads.map Prod.fst).flatten := by
  induction reads generalizing buf with
  | nil => rfl
  | cons r reads ih =>
    obtain ⟨data, ok⟩ := r
    obtain rfl : ok = true := hok _ List.mem_cons_self
    rw [handleClient_cons (h _ List.mem_cons_self), List.map_cons, List.flatten_cons,
      ← ih (fun r hr => h r (List.mem_cons_of_mem _ hr)) fun r hr => hok r (List.mem_cons_of_mem _ hr)]
    rfl

/-- **The two servers agree** where every write goes through. -/
theorem clientFiber_eq (h : ∀ r ∈ reads, r.1 ≠ []) (hok : ∀ r ∈ reads, r.2 = true) :
    clientFiber reads buf = handleClient reads buf := by
  induction reads generalizing buf with
  | nil => rfl
  | cons r reads ih =>
    obtain ⟨data, ok⟩ := r
    obtain rfl : ok = true := hok _ List.mem_cons_self
    have hdata : data ≠ [] := h _ List.mem_cons_self
    rw [handleClient_cons hdata, clientFiber_cons hdata, if_pos rfl,
      ih (fun r hr => h r (List.mem_cons_of_mem _ hr)) fun r hr => hok r (List.mem_cons_of_mem _ hr)]
    rfl

/-- The fiber stores nowhere else than the thread. -/
theorem clientFiber_stores (h : ∀ r ∈ reads, r.1 ≠ []) (hi : i ∈ (clientFiber reads buf).stores) :
    i ∈ (handleClient reads buf).stores := by
  induction reads generalizing buf with
  | nil => exact hi
  | cons r reads ih =>
    obtain ⟨data, ok⟩ := r
    have hdata : data ≠ [] := h _ List.mem_cons_self
    rw [clientFiber_cons hdata] at hi
    rw [handleClient_cons hdata]
    cases ok with
    | false =>
      simp only [Bool.false_eq_true, if_false, List.mem_append, List.mem_range, List.mem_cons, List.not_mem_nil,
        or_false] at hi
      simp only [List.mem_append, List.mem_range, List.mem_cons]
      omega
    | true =>
      simp only [if_true, List.mem_append, List.mem_cons] at hi ⊢
      exact hi.imp_right (Or.imp_right (ih fun r hr => h r (List.mem_cons_of_mem _ hr)))

theorem serve_stores (kind : Server) (h : ∀ r ∈ reads, r.1 ≠ []) (hi : i ∈ (serve kind reads buf).stores) :
    ∃ r ∈ reads, i ≤ r.1.length := by
  cases kind with
  | thread => exact (handleClient_stores h).1 hi
  | coroutine => exact (handleClient_stores h).1 (clientFiber_stores h hi)

theorem serve_output (kind : Server) (h : ∀ r ∈ reads, r.1 ≠ []) (hok : ∀ r ∈ reads, r.2 = true) :
    (serve kind reads buf).output = (reads.map Prod.fst).flatten := by
  cases kind with
  | thread => exact handleClient_output h hok
  | coroutine =>
    rw [serve, clientFiber_eq h hok]
    exact handleClient_output h hok

/-- **Faithful and in bounds**: what the claim on the two servers asks of reads that return `pieces`. The stack
holds `stack kind` from `buf` on. -/
structure Faithful (stack : Server → Bytes) (stream : Bytes) (pieces : List Bytes) : Prop where
  /-- whatever the writes return, `buf` is written at the indices 0 to 255 -/
  bounds : ∀ kind oks, oks.length = pieces.length → ∀ i ∈ (serve kind (pieces.zip oks) (stack kind)).stores, i < 256
  /-- where every write goes through, the stream is given back -/
  whole : ∀ kind, (serve kind (pieces.map (·, true)) (stack kind)).output = stream
  agree : ∀ kind kind', (serve kind (pieces.map (·, true)) (stack kind)).output =
    (serve kind' (pieces.map (·, true)) (stack kind')).output

/-- **The servers keep to `buf`** exactly if no read returns as much as `buf` holds. -/
theorem servers_faithful (stack : Server → Bytes) {stream : Bytes} {ns : List ℕ} (h : Cuts 256 stream.length ns) :
    Faithful stack stream (ns.splitLengths stream) ↔ ∀ n ∈ ns, n < 256 := by
  have hmap : (ns.splitLengths stream).map List.length = ns := List.map_splitLengths_length _ _ h.sum.le
  have hlen : ∀ data ∈ ns.splitLengths stream, data.length ∈ ns := fun data hdata => by
    rw [← hmap]
    exact List.mem_map_of_mem hdata
  have hne : ∀ data ∈ ns.splitLengths stream, data ≠ [] := by
    rintro data hdata rfl
    exact absurd (h.pos _ (hlen _ hdata)) (Nat.lt_irrefl 0)
  have hwhole : ∀ kind, (serve kind ((ns.splitLengths stream).map (·, true)) (stack kind)).output = stream := by
    intro kind
    rw [serve_output kind]
    · rw [List.map_map]
      exact (congrArg _ (List.map_id _)).trans (List.flatten_splitLengths _ _ h.sum.ge)
    · intro r hr
      obtain ⟨data, hdata, rfl⟩ := List.mem_map.1 hr
      exact hne data hdata
    · intro r hr
      obtain ⟨data, -, rfl⟩ := List.mem_map.1 hr
      rfl
  constructor
  · intro hF n hn
    rw [← hmap] at hn
    obtain ⟨data, hdata, rfl⟩ := List.mem_map.1 hn
    -- the thread reads every piece
    have hzip : (ns.splitLengths stream).zip ((ns.splitLengths stream).map fun _ => true) =
        (ns.splitLengths stream).map (·, true) := by
      simpa using List.zip_map' (f := id) (g := fun _ => true) (l := ns.splitLengths stream)
    have hF := hF.bounds .thread ((ns.splitLengths stream).map fun _ => true) (List.length_map _)
    rw [hzip] at hF
    refine hF _ ((handleClient_stores fun r hr => ?_).2 ⟨_, List.mem_map_of_mem hdata, Nat.le_refl _⟩)
    obtain ⟨data', hdata', rfl⟩ := List.mem_map.1 hr
    exact hne data' hdata'
  · intro hlt
    refine ⟨fun kind oks _ i hi => ?_, hwhole, fun kind kind' => (hwhole kind).trans (hwhole kind').symm⟩
    obtain ⟨r, hr, hi⟩ := serve_stores kind (fun r hr => hne _ (List.of_mem_zip hr).1) hi
    exact Nat.lt_of_le_of_lt hi (hlt _ (hlen _ (List.of_mem_zip hr).1))

/-- The word `hi` in one read. -/
theorem servers_faithful_hi : Faithful (fun _ => []) (ascii "hi") [ascii "hi"] := by
  have hcuts : Cuts 256 (ascii "hi").length [2] := ⟨by decide, by decide, by decide⟩
  exact (servers_faithful (fun _ => []) hcuts).2 (by decide)

/-- **A full buffer**: one read of 256 bytes, and either server writes to `buf[256]`. -/
theorem full_buffer : Cuts 256 (List.replicate 256 (0x61 : UInt8)).length [256] ∧
    (∀ kind, 256 ∈ (serve kind [(List.replicate 256 0x61, true)] []).stores) ∧
    ∀ stack, ¬ Faithful stack (List.replicate 256 0x61) [List.replicate 256 0x61] := by
  have hstore : ∀ kind stack, 256 ∈ (serve kind [(List.replicate 256 0x61, true)] stack).stores := by
    intro kind stack
    have hread : ∀ r ∈ [(List.replicate 256 (0x61 : UInt8), true)], r.1 ≠ [] ∧ r.2 = true := by
      intro r hr
      obtain rfl := List.mem_singleton.1 hr
      exact ⟨List.cons_ne_nil _ _, rfl⟩
    have hmem : _ ∈ (handleClient [(List.replicate 256 0x61, true)] stack).stores :=
      (handleClient_stores fun r hr => (hread r hr).1).2 ⟨_, List.mem_singleton_self _, Nat.le_refl _⟩
    rw [List.length_replicate] at hmem
    cases kind with
    | thread => exact hmem
    | coroutine =>
      rw [serve, clientFiber_eq (fun r hr => (hread r hr).1) fun r hr => (hread r hr).2]
      exact hmem
  refine ⟨⟨by decide, by decide, List.length_replicate.symm⟩, fun kind => hstore kind _, fun stack hF => ?_⟩
  exact Nat.lt_irrefl 256 (hF.bounds .thread [true] rfl 256 (hstore .thread _))

/-! ## The labels of `echo` -/

/-- A read and the write behind it. -/
def readWrite (r : Bytes × Bool) : List Label := [.serverRead r.1.length, .serverWrite r.2]

/-- One read and the write behind it. -/
theorem readWrite_run (kind : Server) {data more clientBuf serverBuf : Bytes} (hne : data ≠ []) (hsize : data.length ≤ 256)
    {s : State} (hs : s.server = .read) (hmore : s.toServer = data ++ more) :
    ∃ t, (echo kind clientBuf serverBuf).run s (readWrite (data, true)) = some t ∧ t.server = .read ∧
      t.toServer = more ∧ t.serverBuf = received data s.serverBuf ∧ t.toClient = s.toClient ++ data := by
  have hread : (echo kind clientBuf serverBuf).step s (.serverRead data.length) = some { s with
      server := .write data.length
      serverBuf := received data s.serverBuf
      toServer := more } := by
    simp only [echo, step, hmore, List.take_left, List.drop_left]
    refine if_pos ⟨hs, List.length_pos_iff.2 hne, hsize, ?_⟩
    rw [List.length_append]
    exact Nat.le_add_right _ _
  refine ⟨_, System.run_trans (System.run_single hread) (System.run_single rfl), rfl, rfl, rfl, ?_⟩
  simp only [received_take]

/-- **The handlers do what the labels say**: with the reads under way and every write going through, the server
gives `toClient` what its handler gives. -/
theorem serve_run (kind : Server) (hne : ∀ r ∈ reads, r.1 ≠ []) (hsize : ∀ r ∈ reads, r.1.length ≤ 256)
    (hok : ∀ r ∈ reads, r.2 = true) {clientBuf serverBuf : Bytes} {s : State} (hs : s.server = .read) {more : Bytes}
    (hmore : s.toServer = (reads.map Prod.fst).flatten ++ more) :
    ∃ t, (echo kind clientBuf serverBuf).run s (reads.flatMap readWrite) = some t ∧ t.server = .read ∧
      t.toServer = more ∧ t.toClient = s.toClient ++ (serve kind reads s.serverBuf).output := by
  induction reads generalizing s with
  | nil =>
    refine ⟨s, rfl, hs, by simpa using hmore, ?_⟩
    cases kind <;> exact (List.append_nil _).symm
  | cons r reads ih =>
    obtain ⟨data, ok⟩ := r
    obtain rfl : ok = true := hok _ List.mem_cons_self
    have hne' : ∀ r ∈ reads, r.1 ≠ [] := fun r hr => hne r (List.mem_cons_of_mem _ hr)
    have hok' : ∀ r ∈ reads, r.2 = true := fun r hr => hok r (List.mem_cons_of_mem _ hr)
    rw [List.map_cons, List.flatten_cons, List.append_assoc] at hmore
    obtain ⟨t₁, hrun, hserver, hto, hbuf, hclient⟩ :=
      readWrite_run kind (hne _ List.mem_cons_self) (hsize _ List.mem_cons_self) hs hmore
    obtain ⟨t, ht, hserver', hto', hclient'⟩ :=
      ih hne' (fun r hr => hsize r (List.mem_cons_of_mem _ hr)) hok' hserver hto
    refine ⟨t, System.run_trans hrun ht, hserver', hto', ?_⟩
    rw [hclient', hclient, serve_output kind hne' hok', serve_output kind hne hok, List.map_cons, List.flatten_cons,
      List.append_assoc]

end Echo

end SocketAcl
