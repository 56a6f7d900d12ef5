import IrohExperiments.H3.SendStream

/-!
# Requests to an axum router

`handle_request` reads the whole body of a request, calls the router with it, and sends the frames of
the response.  It has a loop for each direction.  The first one goes on while `recv_data` returns data, so
an error ends the body just like its end does.  The second one logs an error of the response and goes on
to the next frame, so the stream is finished as if nothing was missing.

`handleRequest` is what happens to the router and the stream, as a list of events, and `Whole` says of the
events that neither side is presented a part as the whole.  `whole_iff` says for which outcomes of
all the calls this holds.
-/

namespace IrohExperiments.H3

/-! ## Sources -/

/-- What a read of a source turns out as.  A list of outcomes is what the reads return one after the
other; where it ends, the last read waits. -/
inductive Read (α : Type) where
  | Item (a : α)
  | End
  | Error

namespace Read

variable {α : Type}

/-- All items, if the source comes to its end without an error. -/
def complete : List (Read α) → Option (List α)
  | [] => none
  | .Item a :: reads => (complete reads).map (a :: ·)
  | .End :: _ => some []
  | .Error :: _ => none

/-- The items before the end, whatever errors there are. -/
def items : List (Read α) → List α
  | [] => []
  | .Item a :: reads => a :: items reads
  | .End :: _ => []
  | .Error :: reads => items reads

theorem items_of_complete {reads : List (Read α)} {as : List α} (h : complete reads = some as) :
    items reads = as := by
  induction reads generalizing as with
  | nil => cases h
  | cons read reads ih =>
      cases read with
      | Item a =>
          obtain ⟨as', has', rfl⟩ := Option.map_eq_some_iff.mp h
          rw [items, ih has']
      | End =>
          cases h
          rfl
      | Error => cases h

end Read

/-! ## The handler -/

/-- A frame of a response body. -/
inductive Frame (τ : Type) where
  | Data (data : List UInt8)
  | Trailers (trailers : τ)

/-- A request.  Version, uri, method and headers are passed on as they are, and are the type `ρ` here. -/
structure Request (ρ : Type) where
  parts : ρ
  body : List UInt8

/-- A response, with what the reads of its body return. -/
structure Response (σ τ : Type) where
  parts : σ
  body : List (Read (Frame τ))

/-- What the router and the stream see. -/
inductive Event (ρ σ τ : Type) where
  | Call (req : Request ρ)
  | SendResponse (parts : σ)
  | Send (frame : Frame τ)
  | Finish
  /-- An `unwrap` of the result of a send. -/
  | Panic

section Handler

variable {ρ σ τ : Type}

/-- The first loop.  `none` if `recv_data` never returns. -/
def readBody : List (Read (Buf UInt8)) → Option (List UInt8)
  | [] => none
  | .Item data :: reads => (readBody reads).map (data.chunk ++ ·)
  | .End :: _ => some []
  | .Error :: _ => some []

/-- The second loop, and `finish`.  A frame that cannot be read is logged. -/
def sendBody : List (Read (Frame τ)) → List (Except StreamError Unit) → List (Event ρ σ τ)
  | [], _ => []
  | .Item _ :: _, [] => []
  | .Item frame :: reads, .ok () :: sends => .Send frame :: sendBody reads sends
  | .Item _ :: _, .error _ :: _ => [.Panic]
  | .End :: _, _ => [.Finish]
  | .Error :: reads, sends => sendBody reads sends

/-- `handle_request`, with the outcomes of the reads of the request and of the sends; where the latter
end, the last send waits. -/
def handleRequest (parts : ρ) (recv : List (Read (Buf UInt8))) (router : Request ρ → Response σ τ)
    (sends : List (Except StreamError Unit)) : List (Event ρ σ τ) :=
  match readBody recv with
  | none => []
  | some body =>
      let res := router ⟨parts, body⟩
      .Call ⟨parts, body⟩ ::
        match sends with
        | [] => []
        | .error _ :: _ => [.Panic]
        | .ok () :: sends => .SendResponse res.parts :: sendBody res.body sends

/-- The frames that were sent. -/
def sentFrames (events : List (Event ρ σ τ)) : List (Frame τ) :=
  events.filterMap fun
    | .Send frame => some frame
    | _ => none

/-- **A part is never presented as the whole.**  The router is called with the bytes of a body that came
to its end, and the stream is finished when the body of the response came to its end and each frame of it
was sent. -/
structure Whole (recv : List (Read (Buf UInt8))) (router : Request ρ → Response σ τ)
    (events : List (Event ρ σ τ)) : Prop where
  called : ∀ req, .Call req ∈ events →
    ∃ bufs, Read.complete recv = some bufs ∧ req.body = bufs.flatMap Buf.bytes
  finished : .Finish ∈ events → ∃ req frames, .Call req ∈ events ∧
    Read.complete (router req).body = some frames ∧ sentFrames events = frames

/-! ## The loops -/

/-- **The first loop** ends if and only if the reads do, in whatever way. -/
theorem isSome_readBody_iff (recv : List (Read (Buf UInt8))) :
    (readBody recv).isSome ↔ .End ∈ recv ∨ .Error ∈ recv := by
  induction recv with
  | nil => simp [readBody]
  | cons read recv ih => cases read <;> simp [readBody, ih]

theorem readBody_of_complete {recv : List (Read (Buf UInt8))} {bufs : List (Buf UInt8)}
    (h : Read.complete recv = some bufs) : readBody recv = some (bufs.flatMap Buf.chunk) := by
  induction recv generalizing bufs with
  | nil => cases h
  | cons read recv ih =>
      cases read with
      | Item data =>
          obtain ⟨bufs', hbufs', rfl⟩ := Option.map_eq_some_iff.mp h
          rw [readBody, ih hbufs']
          rfl
      | End =>
          cases h
          rfl
      | Error => cases h

theorem flatMap_chunk_length_le (bufs : List (Buf UInt8)) :
    (bufs.flatMap Buf.chunk).length ≤ (bufs.flatMap Buf.bytes).length := by
  induction bufs with
  | nil => exact Nat.le_refl 0
  | cons b bufs ih =>
      rw [List.flatMap_cons, List.flatMap_cons, List.length_append, List.length_append]
      exact Nat.add_le_add b.chunk_prefix.length_le ih

/-- The first chunks are all the bytes if and only if no buffer has bytes in another chunk. -/
theorem flatMap_chunk_eq_iff (bufs : List (Buf UInt8)) :
    bufs.flatMap Buf.chunk = bufs.flatMap Buf.bytes ↔ ∀ b ∈ bufs, b.chunk = b.bytes := by
  induction bufs with
  | nil => simp
  | cons b bufs ih =>
      rw [List.flatMap_cons, List.flatMap_cons, List.forall_mem_cons]
      refine Iff.trans ⟨fun h => ?_, fun h => ?_⟩ (and_congr_right fun _ => ih)
      · -- neither the chunk nor the rest can be longer than the bytes
        have hlength := congrArg List.length h
        rw [List.length_append, List.length_append] at hlength
        have hrest := flatMap_chunk_length_le bufs
        have hfirst := b.chunk_prefix.length_le
        exact List.append_inj h (by omega)
      · rw [h.1, h.2]

/-- All of the first `n` sends succeed. -/
def AllSent (sends : List (Except StreamError Unit)) (n : ℕ) : Prop :=
  n ≤ sends.length ∧ ∀ s ∈ sends.take n, s = .ok ()

theorem allSent_cons (s : Except StreamError Unit) (sends : List (Except StreamError Unit)) (n : ℕ) :
    AllSent (s :: sends) (n + 1) ↔ s = .ok () ∧ AllSent sends n := by
  rw [AllSent, AllSent, List.length_cons, List.take_succ_cons, List.forall_mem_cons,
    Nat.add_le_add_iff_right, and_left_comm]

/-- **The second loop** comes to `finish` if and only if the body comes to its end and everything that
could be read was sent. -/
theorem finish_mem_sendBody_iff (reads : List (Read (Frame τ)))
    (sends : List (Except StreamError Unit)) :
    .Finish ∈ (sendBody reads sends : List (Event ρ σ τ))
      ↔ .End ∈ reads ∧ AllSent sends (Read.items reads).length := by
  induction reads generalizing sends with
  | nil => simp [sendBody]
  | cons read reads ih =>
      cases read with
      | Item frame =>
          rw [Read.items, List.length_cons]
          rcases sends with _ | ⟨_ | _, sends⟩
          · simp [sendBody, AllSent]
          · simp [sendBody, allSent_cons]
          · simp [sendBody, allSent_cons, ih]
      | End => simp [sendBody, Read.items, AllSent]
      | Error => simp [sendBody, Read.items, ih]

theorem sentFrames_sendBody {reads : List (Read (Frame τ))} {sends : List (Except StreamError Unit)}
    (h : .Finish ∈ (sendBody reads sends : List (Event ρ σ τ))) :
    sentFrames (sendBody reads sends : List (Event ρ σ τ)) = Read.items reads := by
  induction reads generalizing sends with
  | nil => cases h
  | cons read reads ih =>
      cases read with
      | Item frame =>
          rcases sends with _ | ⟨_ | _, sends⟩
          · cases h
          · simp [sendBody] at h
          · rw [sendBody, List.mem_cons] at h
            rw [Read.items, ← ih (h.resolve_left nofun), sendBody]
            rfl
      | End => rfl
      | Error => exact ih h

/-! ## The handler as a whole -/

variable {parts : ρ} {recv : List (Read (Buf UInt8))} {router : Request ρ → Response σ τ}
  {sends : List (Except StreamError Unit)}

theorem not_call_mem_sendBody (req : Request ρ) (reads : List (Read (Frame τ)))
    (sends : List (Except StreamError Unit)) :
    .Call req ∉ (sendBody reads sends : List (Event ρ σ τ)) := by
  induction reads generalizing sends with
  | nil => exact List.not_mem_nil
  | cons read reads ih =>
      cases read with
      | Item frame => rcases sends with _ | ⟨_ | _, sends⟩ <;> simp [sendBody, ih]
      | End => simp [sendBody]
      | Error => exact ih sends

/-- The router is called with what the first loop has read. -/
theorem call_mem_iff {body : List UInt8} (hbody : readBody recv = some body) (req : Request ρ) :
    .Call req ∈ handleRequest parts recv router sends ↔ req = ⟨parts, body⟩ := by
  rw [handleRequest, hbody]
  rcases sends with _ | ⟨_ | _, sends⟩ <;> simp [not_call_mem_sendBody]

theorem finish_mem_iff {body : List UInt8} (hbody : readBody recv = some body) :
    .Finish ∈ handleRequest parts recv router sends ↔
      .End ∈ (router ⟨parts, body⟩).body ∧
        AllSent sends ((Read.items (router ⟨parts, body⟩).body).length + 1) := by
  rw [handleRequest, hbody]
  rcases sends with _ | ⟨_ | _, sends⟩
  · simp [AllSent]
  · simp [allSent_cons]
  · simp [allSent_cons, finish_mem_sendBody_iff]

theorem sentFrames_handleRequest {body : List UInt8} (hbody : readBody recv = some body)
    (h : .Finish ∈ handleRequest parts recv router sends) :
    sentFrames (handleRequest parts recv router sends)
      = Read.items (router ⟨parts, body⟩).body := by
  rw [handleRequest, hbody] at h ⊢
  rcases sends with _ | ⟨_ | _, sends⟩
  · simp at h
  · simp at h
  · refine sentFrames_sendBody (ρ := ρ) (σ := σ) ?_
    simpa using h

/-- **When neither side is presented a part as the whole.**  If and only if, when the reads of the
request come to an end, then it is without an error and each buffer has one chunk, and when the body of
the response comes to its end and all the sends succeed, then no read of it fails. -/
theorem whole_iff (parts : ρ) (recv : List (Read (Buf UInt8))) (router : Request ρ → Response σ τ)
    (sends : List (Except StreamError Unit)) :
    Whole recv router (handleRequest parts recv router sends) ↔
      (.End ∈ recv ∨ .Error ∈ recv → ∃ bufs, Read.complete recv = some bufs ∧
        (∀ b ∈ bufs, b.chunk = b.bytes) ∧
        ∀ res, router ⟨parts, bufs.flatMap Buf.bytes⟩ = res → .End ∈ res.body →
          AllSent sends ((Read.items res.body).length + 1) →
            ∃ frames, Read.complete res.body = some frames) := by
  rw [← isSome_readBody_iff]
  cases hbody : readBody recv with
  | none =>
      have hnil : handleRequest parts recv router sends = [] := by rw [handleRequest, hbody]
      rw [hnil]
      exact iff_of_true ⟨nofun, nofun⟩ nofun
  | some body =>
      have hcall : ∀ req, .Call req ∈ handleRequest parts recv router sends ↔ req = ⟨parts, body⟩ :=
        call_mem_iff hbody
      have hfinish : .Finish ∈ handleRequest parts recv router sends ↔ _ := finish_mem_iff hbody
      constructor
      · rintro h -
        obtain ⟨bufs, hbufs, hbytes⟩ := h.called _ ((hcall _).mpr rfl)
        have hchunks := readBody_of_complete hbufs
        rw [hbody, Option.some.injEq] at hchunks
        refine ⟨bufs, hbufs, (flatMap_chunk_eq_iff bufs).mp (hchunks.symm.trans hbytes), ?_⟩
        rintro res rfl hend hsent
        rw [← show body = bufs.flatMap Buf.bytes from hbytes] at hend hsent ⊢
        obtain ⟨req, frames, hreq, hframes, _⟩ := h.finished (hfinish.mpr ⟨hend, hsent⟩)
        rw [(hcall req).mp hreq] at hframes
        exact ⟨frames, hframes⟩
      · intro h
        obtain ⟨bufs, hbufs, hwhole, hresponse⟩ := h rfl
        have hbytes : body = bufs.flatMap Buf.bytes := by
          rw [← (flatMap_chunk_eq_iff bufs).mpr hwhole, ← Option.some.injEq, ← hbody]
          exact readBody_of_complete hbufs
        refine ⟨fun req hreq => ⟨bufs, hbufs, ?_⟩, fun hfin => ?_⟩
        · rw [(hcall req).mp hreq]
          exact hbytes
        · obtain ⟨hend, hsent⟩ := hfinish.mp hfin
          obtain ⟨frames, hframes⟩ := hresponse _ rfl (hbytes ▸ hend) (hbytes ▸ hsent)
          rw [← hbytes] at hframes
          refine ⟨⟨parts, body⟩, frames, (hcall _).mpr rfl, hframes, ?_⟩
          rw [sentFrames_handleRequest hbody hfin, Read.items_of_complete hframes]

/-- A router that echoes the body of a request, and whose response body fails after that. -/
def echoThenFail (req : Request Unit) : Response Unit Unit :=
  ⟨(), [.Item (.Data req.body), .Error, .End]⟩

/-- **A part that is presented as the whole**, in both directions.  The router is called with the first
byte of a request that then fails, and the stream is finished after a response that failed. -/
theorem truncated_presented_as_whole :
    (¬ Whole [.Item ⟨[[1]]⟩, .Error] (fun _ : Request Unit => (⟨(), [.End]⟩ : Response Unit Unit))
      (handleRequest () [.Item ⟨[[1]]⟩, .Error] (fun _ => ⟨(), [.End]⟩) [.ok ()])) ∧
    ¬ Whole [.Item ⟨[[1]]⟩, .End] echoThenFail
      (handleRequest () [.Item ⟨[[1]]⟩, .End] echoThenFail [.ok (), .ok ()]) := by
  constructor
  · intro h
    obtain ⟨bufs, hbufs, _⟩ := h.called ⟨(), [1]⟩ List.mem_cons_self
    cases hbufs
  · intro h
    have hfinish : .Finish ∈ handleRequest () [.Item ⟨[[1]]⟩, .End] echoThenFail [.ok (), .ok ()] := by
      simp [handleRequest, readBody, sendBody, echoThenFail]
    obtain ⟨req, frames, _, hframes, _⟩ := h.finished hfinish
    cases hframes

end Handler

end IrohExperiments.H3
