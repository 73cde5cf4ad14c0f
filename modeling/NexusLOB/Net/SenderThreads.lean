import NexusLOB.Net.RaftTransport

/-!
# What the sender threads leave on the connections

With one message for each connection every connection gets its frame as a whole. With two messages
for one connection some schedule of the threads tears a frame apart, also if both messages are the
same: no frame repeats a single byte, because the length in front would have to count itself.
-/

namespace NexusLOB.Net

open Codec Concurrency Raft

/-! ## Frames are not uniform -/

/-- All bytes are the same. -/
def Uniform (b : UInt8) (bs : Bytes) : Prop := ∀ a ∈ bs, a = b

theorem uniform_append {b : UInt8} {xs ys : Bytes} :
    Uniform b (xs ++ ys) ↔ Uniform b xs ∧ Uniform b ys := List.forall_mem_append

theorem Uniform.appendU32 {b : UInt8} {v : Nat} (h : Uniform b (appendU32 v)) :
    v % 256 = b.toNat := by
  have hmem : UInt8.ofNat (UInt32.ofNat v).toNat ∈ Net.appendU32 v := List.mem_cons_self
  have hb := congrArg UInt8.toNat (h _ hmem)
  rw [UInt8.toNat_ofNat', UInt32.toNat_ofNat', Nat.mod_mod_of_dvd v (by decide)] at hb
  exact hb

/-- A uniform byte string behind its length. -/
theorem Uniform.appendData {b : UInt8} {data : Bytes} (h : Uniform b (appendData data)) :
    data.length % 256 = b.toNat :=
  (uniform_append.mp h).1.appendU32

theorem length_appendU64 (v : Nat) : (appendU64 v).length = 8 := length_putU64 _

theorem length_appendU32 (v : Nat) : (appendU32 v).length = 4 := length_putU32 _

theorem length_appendData (data : Bytes) : (appendData data).length = data.length + 4 := by
  rw [appendData, List.length_append, length_appendU32, Nat.add_comm]

theorem Uniform.appendEntry {b : UInt8} {e : Entry} (h : Uniform b (appendEntry e)) :
    (Net.appendEntry e).length % 256 = (21 + b.toNat) % 256 := by
  have hdata := (uniform_append.mp h).2.appendData
  simp only [Net.appendEntry, List.length_append, length_appendU64, length_appendData,
    List.length_singleton]
  omega

/-- Every entry of a uniform row takes as many bytes as the others, up to a multiple of 256. -/
theorem Uniform.entries {b : UInt8} {es : List Entry} (h : Uniform b (es.flatMap Net.appendEntry)) :
    (es.flatMap Net.appendEntry).length % 256 = es.length * (21 + b.toNat) % 256 := by
  induction es with
  | nil => simp
  | cons e es ih =>
    rw [List.flatMap_cons] at h ⊢
    obtain ⟨he, hes⟩ := uniform_append.mp h
    rw [List.length_append, Nat.add_mod, he.appendEntry, ih hes, ← Nat.add_mod, List.length_cons,
      Nat.add_one_mul, Nat.add_comm]

theorem length_messageBody (m : Message) :
    (messageBody m).length = 86 + (m.entries.flatMap appendEntry).length +
      m.snapshot.data.length + m.context.length := by
  simp only [messageBody, List.length_append, List.length_singleton, length_appendU64,
    length_appendU32, length_appendData]
  omega

/-- A frame has at least two different bytes. -/
theorem not_uniform_serializeMessage (m : Message) (b : UInt8) :
    ¬ Uniform b (serializeMessage m) := by
  intro h
  have htotal := h.appendData
  have hbody := (uniform_append.mp h).2
  simp only [messageBody, uniform_append] at hbody
  obtain ⟨⟨⟨⟨⟨⟨⟨⟨-, hreject⟩, -⟩, hcount⟩, hentries⟩, -⟩, -⟩, hsnapshot⟩, hcontext⟩ := hbody
  have hn := hcount.appendU32
  have he := hentries.entries
  have hs := hsnapshot.appendData
  have hc := hcontext.appendData
  rw [length_messageBody] at htotal
  -- the byte is that of the flag; either value gives a length that does not end in it
  have hflag := hreject _ List.mem_cons_self
  split at hflag
  · have hb : b.toNat = 1 := by
      rw [← hflag]
      rfl
    rw [hb] at htotal hn he hs hc
    omega
  · have hb : b.toNat = 0 := by
      rw [← hflag]
      rfl
    rw [hb] at htotal hn he hs hc
    omega

theorem exists_ne_mem_serializeMessage (m : Message) :
    ∃ a ∈ serializeMessage m, ∃ b ∈ serializeMessage m, a ≠ b := by
  have hne : serializeMessage m ≠ [] := List.cons_ne_nil _ _
  obtain ⟨b, rest, hcons⟩ := List.exists_cons_of_ne_nil hne
  have hb : b ∈ serializeMessage m := hcons ▸ List.mem_cons_self
  by_contra hall
  apply not_uniform_serializeMessage m b
  intro a ha
  by_contra hab
  exact hall ⟨a, ha, b, hb, hab⟩

/-! ## Order on the connections -/

/-- The frames for a connection in the order of the `Ready`. -/
def framesOn (rd : Ready) (c : Conn) : Bytes :=
  (rd.messages.filter fun m => decide (conn m = c)).flatMap serializeMessage

theorem words_senders {up : Conn → Bool} {rd : Ready} {c : Conn} (hc : up c = true) :
    Writers.words (senders up rd).writers c = framesOn rd c := by
  rw [Writers.words, senders, framesOn, List.filter_map, List.flatMap_map, List.filter_filter]
  congr 1
  apply List.filter_congr
  intro m _
  by_cases hm : conn m = c
  · simp [hm, hc]
  · simp [hm]

/-- For every `Ready` and all connections that are up: whatever the schedule of the sender threads
and the sizes of their writes, every connection gets the frames of its messages in order and whole,
exactly if no two of the messages go out on one connection. -/
theorem frames_in_order_iff (up : Conn → Bool) (rd : Ready) :
    (∀ schedule, ((senders up rd).run schedule).Done → ∀ c, up c = true →
      ((senders up rd).run schedule).output c = framesOn rd c) ↔
      ((rd.messages.filter fun m => up (conn m)).map conn).Nodup := by
  have hkeys : (senders up rd).writers.map Writer.key =
      (rd.messages.filter fun m => up (conn m)).map conn := by
    rw [senders, List.map_map]
    rfl
  rw [← hkeys]
  constructor
  · intro h
    by_contra hshared
    have hletters : ∀ x ∈ (senders up rd).writers, ∃ a ∈ x.rest, ∃ b ∈ x.rest, a ≠ b := by
      intro x hx
      obtain ⟨m, -, rfl⟩ := List.mem_map.mp hx
      exact exists_ne_mem_serializeMessage m
    obtain ⟨schedule, hdone, x, hx, hne⟩ := Writers.exists_disorder hletters hshared
    obtain ⟨m, hm, rfl⟩ := List.mem_map.mp hx
    have hup : up (conn m) = true := (List.mem_filter.mp hm).2
    apply hne
    rw [words_senders hup]
    exact h schedule hdone (conn m) hup
  · intro hnodup schedule hdone c hc
    rw [← words_senders hc]
    exact Writers.output_of_nodup hnodup hdone c

/-- Two empty appends to peer 2. -/
def twoAppends : Ready :=
  { messages := [{ type := .msgApp, receiver := 2, sender := 1, term := 1 },
      { type := .msgApp, receiver := 2, sender := 1, term := 1, commit := 1 }] }

/-- The second thread writes the length of its frame before the first one writes. The receiver
finds a length where the body should be. -/
theorem frames_torn :
    ((senders (fun _ => true) twoAppends).run [(1, 4), (0, 90), (1, 86)]).Done ∧
      (((senders (fun _ => true) twoAppends).run [(1, 4), (0, 90), (1, 86)]).output (2, 0)).take 8 =
        [86, 0, 0, 0, 86, 0, 0, 0] ∧
      ((senders (fun _ => true) twoAppends).run [(1, 4), (0, 90), (1, 86)]).output (2, 0) ≠
        framesOn twoAppends (2, 0) := by
  decide

end NexusLOB.Net
