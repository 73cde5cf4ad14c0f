import NexusLOB.Codec.Streams
import NexusLOB.KeyValue.MapSemantics
import NexusLOB.Net.ClientServer

/-!
# A text client's session

`ClientServer::handleClient` appends what `recv` returns to a buffer, takes the lines out of it and
answers each that is not empty. The lines do not depend on how the bytes arrive, and what a client
of the key-value store reads back is one line for each of its lines, in order: what the map that
the requests run on says, or that the line is no command.
-/

namespace NexusLOB.Net

open Codec Lob
open Kv (ClientResponse KVStateMachine Store)

/-- The state behind a server's callbacks and all that was written to the client. -/
structure Session (σ : Type) where
  state : σ
  sent : Bytes := []

namespace ClientServer

/-- `'\n'`. -/
def newline : UInt8 := 0x0a

/-- `'\r'`. -/
def carriageReturn : UInt8 := 0x0d

/-! ## The session -/

/-- The line in front of the buffer and what is behind it. -/
def readLine : Reader Bytes := fun buffer =>
  match buffer.idxOf? newline with
  | none => none
  | some pos => some (buffer.take pos, buffer.drop (pos + 1))

def formatResponse (resp : ClientResponse) : Bytes :=
  if !resp.ok then
    if resp.err = text "not leader" then
      text "NOTLEADER " ++ text (toString resp.leaderHint) ++ [newline]
    else text "ERR " ++ resp.err ++ [newline]
  else if resp.found then text "OK " ++ resp.value ++ [newline]
  else text "OK" ++ [newline]

/-- A trailing carriage return is not part of the line. -/
def strip (line : Bytes) : Bytes :=
  if line.getLast? = some carriageReturn then line.dropLast else line

/-- `proposalHandler_`, over the state it works on. A call that does not return has no result. -/
abbrev Handler (σ : Type) := σ → ClientRequest → Option (ClientResponse × σ)

/-- The body of the inner loop. -/
def handleLine {σ : Type} (handler : Option (Handler σ)) (x : Session σ) (line : Bytes) :
    Option (Session σ) :=
  let line := strip line
  if line = [] then some x
  else
    match parseCommand line with
    | none => some { x with sent := x.sent ++ (text "ERR invalid command" ++ [newline]) }
    | some req =>
      match handler with
      | none =>
        let resp : ClientResponse := { ok := false, err := text "no handler" }
        some { x with sent := x.sent ++ formatResponse resp }
      | some handler => (handler x.state req).map fun r =>
          { state := r.2, sent := x.sent ++ formatResponse r.1 }

/-- The buffer and the session after the chunks that `recv` returned. -/
def handleClient {σ : Type} (handler : Option (Handler σ)) (state : σ) (chunks : List Bytes) :
    Option (Bytes × Session σ) :=
  chunks.foldlM (feed readLine (handleLine handler)) ([], { state := state })

/-! ## Lines -/

def writeLine (line : Bytes) : Bytes := line ++ [newline]

theorem readLine_append {line : Bytes} (h : newline ∉ line) (rest : Bytes) :
    readLine (line ++ newline :: rest) = some (line, rest) := by
  have hpos : (line ++ newline :: rest).idxOf? newline = some line.length := by
    induction line with
    | nil => rfl
    | cons b line ih =>
      rw [List.mem_cons, not_or] at h
      rw [List.cons_append, List.idxOf?_cons, if_neg (by simpa using Ne.symm h.1), ih h.2]
      rfl
  simp [readLine, hpos]

theorem eq_of_readLine {buffer line rest : Bytes} (h : readLine buffer = some (line, rest)) :
    newline ∉ line ∧ buffer = line ++ newline :: rest := by
  induction buffer generalizing line with
  | nil => cases h
  | cons b buffer ih =>
    by_cases hb : b = newline
    · subst hb
      cases h
      exact ⟨List.not_mem_nil, rfl⟩
    · simp only [readLine, List.idxOf?_cons, beq_iff_eq, hb, if_false] at h
      cases hpos : buffer.idxOf? newline with
      | none =>
        rw [hpos] at h
        cases h
      | some pos =>
        rw [hpos] at h
        simp only [Option.map_some, Option.some.injEq, Prod.mk.injEq, List.take_succ_cons,
          List.drop_succ_cons] at h
        obtain ⟨rfl, rfl⟩ := h
        have hrest : readLine buffer = some (buffer.take pos, buffer.drop (pos + 1)) := by
          rw [readLine, hpos]
        obtain ⟨hno, heq⟩ := ih hrest
        refine ⟨?_, ?_⟩
        · rw [List.mem_cons, not_or]
          exact ⟨Ne.symm hb, hno⟩
        · rw [List.cons_append, ← heq]

/-- Lines are records that end in a newline. -/
theorem lineRecords : Records writeLine readLine fun line => newline ∉ line where
  read_eq_some_iff {buffer line rest} := by
    rw [writeLine, List.append_assoc]
    exact ⟨eq_of_readLine, fun ⟨hno, heq⟩ => heq ▸ readLine_append hno rest⟩
  write_ne_nil line := by simp [writeLine]

/-! ## Words -/

section Words

variable {s word rest : Bytes}

theorem nextWord_spec (h : nextWord s = some (word, rest)) :
    newline ∉ word ∧ word.length ≤ s.length ∧ rest.length ≤ s.length := by
  simp only [nextWord, Option.ite_none_left_eq_some, Option.some.injEq, Prod.mk.injEq] at h
  obtain ⟨-, rfl, rfl⟩ := h
  have hdrop : (s.dropWhile isSpace).length ≤ s.length := (List.dropWhile_suffix _).length_le
  refine ⟨fun hmem => ?_, ?_, ?_⟩
  · have hword := List.mem_takeWhile_imp hmem
    exact absurd hword (by decide)
  · exact (List.takeWhile_prefix _).length_le.trans hdrop
  · exact (List.dropWhile_suffix _).length_le.trans hdrop

theorem parseCommand_spec {line : Bytes} {req : ClientRequest} (h : parseCommand line = some req) :
    req.key.length ≤ line.length ∧ req.value.length ≤ line.length ∧ newline ∉ req.value := by
  unfold parseCommand at h
  obtain ⟨⟨cmd, l₁⟩, hcmd, h⟩ := Option.bind_eq_some_iff.mp h
  have h₁ := (nextWord_spec hcmd).2.2
  dsimp only at h
  split_ifs at h
  · obtain ⟨⟨key, l₂⟩, hkey, h⟩ := Option.bind_eq_some_iff.mp h
    obtain ⟨⟨value, l₃⟩, hvalue, h⟩ := Option.bind_eq_some_iff.mp h
    cases h
    obtain ⟨-, hk, hl₂⟩ := nextWord_spec hkey
    obtain ⟨hno, hv, -⟩ := nextWord_spec hvalue
    exact ⟨hk.trans h₁, hv.trans (hl₂.trans h₁), hno⟩
  · obtain ⟨⟨key, l₂⟩, hkey, h⟩ := Option.bind_eq_some_iff.mp h
    cases h
    exact ⟨(nextWord_spec hkey).2.1.trans h₁, Nat.zero_le _, List.not_mem_nil⟩
  · obtain ⟨⟨key, l₂⟩, hkey, h⟩ := Option.bind_eq_some_iff.mp h
    cases h
    exact ⟨(nextWord_spec hkey).2.1.trans h₁, Nat.zero_le _, List.not_mem_nil⟩

theorem length_strip (line : Bytes) : (strip line).length ≤ line.length := by
  unfold strip
  split_ifs
  · rw [List.length_dropLast]
    exact Nat.sub_le _ _
  · exact Nat.le_refl _

end Words

/-! ## What a client of the key-value store reads -/

/-- What the lines ask for. -/
def requests (lines : List Bytes) : List ClientRequest :=
  lines.filterMap fun line => parseCommand (strip line)

theorem requests_cons_none {line : Bytes} (h : parseCommand (strip line) = none)
    (lines : List Bytes) : requests (line :: lines) = requests lines :=
  List.filterMap_cons_none h

theorem requests_cons_some {line : Bytes} {req : ClientRequest}
    (h : parseCommand (strip line) = some req) (lines : List Bytes) :
    requests (line :: lines) = req :: requests lines :=
  List.filterMap_cons_some h

/-- What a request of the map is answered with. -/
def responseLine (resp : ClientResponse) : Bytes :=
  if resp.found then text "OK " ++ resp.value else text "OK"

/-- The answers to the lines, by the map: one for each line that is not empty. -/
def replies (s : Store) : List Bytes → List Bytes
  | [] => []
  | line :: lines =>
    if strip line = [] then replies s lines
    else
      match parseCommand (strip line) with
      | none => text "ERR invalid command" :: replies s lines
      | some req => responseLine (s.respond req) :: replies (s.update req) lines

/-- The stored values are short and of one line. -/
def Plain (s : Store) : Prop := ∀ key v, s key = some v → v.length < 2 ^ 32 ∧ newline ∉ v

section Session

variable {s : Store} {req : ClientRequest}

theorem Plain.update (h : Plain s) (hlen : req.value.length < 2 ^ 32) (hno : newline ∉ req.value) :
    Plain (s.update req) := by
  intro key v hv
  by_cases hkey : key = req.key
  · subst hkey
    unfold Store.update at hv
    cases hop : req.op with
    | set =>
      simp only [hop, Function.update_self, Option.some.injEq] at hv
      exact hv ▸ ⟨hlen, hno⟩
    | get =>
      simp only [hop] at hv
      exact h _ v hv
    | del =>
      simp only [hop, Function.update_self, reduceCtorEq] at hv
  · rw [Store.update_of_ne hkey] at hv
    exact h key v hv

theorem newline_not_mem_responseLine (h : Plain s) (req : ClientRequest) :
    newline ∉ responseLine (s.respond req) := by
  unfold responseLine Store.respond
  cases hfind : s req.key with
  | none =>
    simp only [Option.isSome_none, Bool.false_eq_true, if_false]
    decide
  | some v =>
    simp only [Option.isSome_some, if_true, Option.getD_some, List.mem_append, not_or]
    exact ⟨by decide, (h req.key v hfind).2⟩

theorem newline_not_mem_replies (h : Plain s) {lines : List Bytes}
    (hlen : ∀ line ∈ lines, line.length < 2 ^ 32) : ∀ reply ∈ replies s lines, newline ∉ reply := by
  induction lines generalizing s with
  | nil => exact fun _ hr => nomatch hr
  | cons line lines ih =>
    obtain ⟨hline, hlines⟩ := List.forall_mem_cons.mp hlen
    rw [replies]
    split_ifs
    · exact ih h hlines
    · split
      · exact List.forall_mem_cons.mpr ⟨by decide, ih h hlines⟩
      · rename_i req hreq
        obtain ⟨-, hvalue, hno⟩ := parseCommand_spec hreq
        have hshort := Nat.lt_of_le_of_lt (hvalue.trans (length_strip line)) hline
        exact List.forall_mem_cons.mpr
          ⟨newline_not_mem_responseLine h req, ih (h.update hshort hno) hlines⟩

theorem formatResponse_respond (s : Store) (req : ClientRequest) :
    formatResponse (s.respond req) = writeLine (responseLine (s.respond req)) := by
  have hok : (!(s.respond req).ok) = false := rfl
  unfold formatResponse responseLine writeLine
  rw [hok, if_neg Bool.false_ne_true]
  split_ifs <;> rfl

/-- The lines one after the other on a machine. -/
theorem foldlM_handleLine {lines : List Bytes} (hlen : ∀ line ∈ lines, line.length < 2 ^ 32)
    {m : KVStateMachine} (hm : Plain m.view) (hdel : m.view.DelsBound (requests lines))
    (sent : Bytes) : ∃ m', m'.view = (Store.run m.view (requests lines)).2 ∧
      lines.foldlM (handleLine (some KVStateMachine.serve)) { state := m, sent := sent } =
        some { state := m', sent := sent ++ (replies m.view lines).flatMap writeLine } := by
  induction lines generalizing m sent with
  | nil => exact ⟨m, rfl, by rw [replies, List.flatMap_nil, List.append_nil]; rfl⟩
  | cons line lines ih =>
    obtain ⟨hline, hlines⟩ := List.forall_mem_cons.mp hlen
    rw [List.foldlM_cons, replies]
    by_cases hempty : strip line = []
    · -- an empty line is passed over, and asks for nothing
      have hnone : parseCommand (strip line) = none := by
        rw [hempty]
        rfl
      rw [requests_cons_none hnone] at hdel ⊢
      rw [if_pos hempty]
      simp only [handleLine, hempty, if_true, bind, Option.bind_some]
      exact ih hlines hm hdel sent
    · rw [if_neg hempty]
      cases hparse : parseCommand (strip line) with
      | none =>
        rw [requests_cons_none hparse] at hdel ⊢
        obtain ⟨m', hview, hrun⟩ := ih hlines hm hdel
          (sent ++ (text "ERR invalid command" ++ [newline]))
        refine ⟨m', hview, ?_⟩
        simp only [handleLine, hempty, if_false, hparse, bind, Option.bind_some]
        rw [hrun, List.flatMap_cons, List.append_assoc sent, writeLine]
      | some req =>
        obtain ⟨hkey, hvalue, hno⟩ := parseCommand_spec hparse
        have hshort : ∀ {x : Nat}, x ≤ (strip line).length → x < 2 ^ 32 := fun hx =>
          Nat.lt_of_le_of_lt (hx.trans (length_strip line)) hline
        rw [requests_cons_some hparse] at hdel ⊢
        obtain ⟨m₁, hserve, hview₁⟩ :=
          KVStateMachine.serve_of_bound (hshort hkey) (hshort hvalue) hdel.1
        have hresp : Kv.KVCodec.decodeResult (KVStateMachine.writeResult (m.view req.key)) =
            m.view.respond req :=
          (KVStateMachine.decodeResult_writeResult_iff _).mpr fun v hv => (hm req.key v hv).1
        rw [hresp] at hserve
        obtain ⟨m', hview, hrun⟩ := ih hlines
          (by rw [hview₁]; exact hm.update (hshort hvalue) hno)
          (by rw [hview₁]; exact hdel.2)
          (sent ++ formatResponse (m.view.respond req))
        rw [hview₁] at hview hrun
        refine ⟨m', hview, ?_⟩
        simp only [handleLine, hempty, if_false, hparse, hserve, Option.map_some, bind,
          Option.bind_some]
        rw [hrun, List.flatMap_cons, List.append_assoc sent, formatResponse_respond]

end Session

/-- **A text session of the key-value store.** However a client's bytes are cut into pieces, it
reads back one line for each of its lines that is not empty: what the map answers to the request,
or that there is none. At the end the machine holds what the map holds. -/
theorem kv_text_session {m : KVStateMachine} (hm : Plain m.view) (chunks : List Bytes)
    (hlen : ∀ line ∈ records readLine chunks.flatten, line.length < 2 ^ 32)
    (hdel : m.view.DelsBound (requests (records readLine chunks.flatten))) :
    ∃ rest x, handleClient (some KVStateMachine.serve) m chunks = some (rest, x) ∧
      records readLine x.sent = replies m.view (records readLine chunks.flatten) ∧
      x.state.view = (Store.run m.view (requests (records readLine chunks.flatten))).2 := by
  obtain ⟨m', hview, hrun⟩ := foldlM_handleLine hlen hm hdel []
  have hlines : (handleClient (some KVStateMachine.serve) m chunks).map Prod.snd =
      (records readLine chunks.flatten).foldlM (handleLine (some KVStateMachine.serve))
        { state := m } := lineRecords.feed_records chunks _
  rw [hrun] at hlines
  obtain ⟨⟨rest, x⟩, hsession, rfl⟩ := Option.map_eq_some_iff.mp hlines
  refine ⟨rest, _, hsession, ?_, hview⟩
  have hread := lineRecords.records_append (newline_not_mem_replies hm hlen) []
  rw [List.append_nil] at hread
  exact hread.trans (List.append_nil _)

/-- Three commands, an empty line and a line that is none, cut in the middle of words. -/
def pieces : List Bytes :=
  [text "SET x 5", [carriageReturn], [newline] ++ text "GE", text "T x" ++ [newline, newline],
    text "PUT y" ++ [newline] ++ text "DEL x", [newline] ++ text "GET"]

theorem kv_text_session_pieces :
    (handleClient (some KVStateMachine.serve) {} pieces).map
          (fun r => (r.1, records readLine r.2.sent)) =
        some (text "GET", [text "OK", text "OK 5", text "ERR invalid command", text "OK 5"]) ∧
      ∃ rest x, handleClient (some KVStateMachine.serve) {} pieces = some (rest, x) ∧
        records readLine x.sent =
          replies (KVStateMachine.view {}) (records readLine pieces.flatten) ∧
        x.state.view = (Store.run (KVStateMachine.view {})
          (requests (records readLine pieces.flatten))).2 := by
  refine ⟨by decide +kernel, kv_text_session ?_ pieces (by decide +kernel) ?_⟩
  · intro key v hv
    cases hv
  · have hreqs : requests (records readLine pieces.flatten) =
        [⟨.set, text "x", text "5"⟩, ⟨.get, text "x", []⟩, ⟨.del, text "x", []⟩] := by
      decide +kernel
    rw [hreqs]
    simp [Store.DelsBound, Store.update]

end ClientServer

end NexusLOB.Net
