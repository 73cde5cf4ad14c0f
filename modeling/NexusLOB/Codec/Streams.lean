import NexusLOB.Codec.Records

/-!
# Records out of a growing buffer

A receiving loop appends what arrives to a buffer, takes whole records from its front and acts on
them, and keeps the rest. How the stream was cut into pieces does not matter: the actions are those
for the records of the whole stream, one after the other. An action may end the loop for good.
-/

namespace NexusLOB.Codec

variable {α σ : Type}

/-- Act on the records at the front of a buffer, at most `fuel` of them. -/
def consume (read : Reader α) (act : σ → α → Option σ) :
    Nat → List UInt8 → σ → Option (List UInt8 × σ)
  | 0, buf, s => some (buf, s)
  | fuel + 1, buf, s =>
    match read buf with
    | none => some (buf, s)
    | some (a, rest) => (act s a).bind fun s => consume read act fuel rest s

/-- One piece of the stream arrives. A record has at least one byte. -/
def feed (read : Reader α) (act : σ → α → Option σ) (x : List UInt8 × σ) (chunk : List UInt8) :
    Option (List UInt8 × σ) :=
  consume read act (x.1 ++ chunk).length (x.1 ++ chunk) x.2

namespace Records

variable {write : α → List UInt8} {read : Reader α} {Valid : α → Prop} {act : σ → α → Option σ}

theorem read_nil (h : Records write read Valid) : read [] = none := by
  cases hread : read [] with
  | none => rfl
  | some r =>
    obtain ⟨-, hnil⟩ := h.read_eq_some_iff.mp hread
    exact absurd (List.append_eq_nil_iff.mp hnil.symm).1 (h.write_ne_nil r.1)

theorem read_append (h : Records write read Valid) {bs rest : List UInt8} {a : α}
    (hread : read bs = some (a, rest)) (more : List UInt8) :
    read (bs ++ more) = some (a, rest ++ more) := by
  obtain ⟨ha, rfl⟩ := h.read_eq_some_iff.mp hread
  rw [List.append_assoc]
  exact h.read_write ha _

theorem valid_of_mem_readAll (h : Records write read Valid) {n : Nat} {bs : List UInt8} {a : α}
    (ha : a ∈ readAll read n bs) : Valid a := by
  induction n generalizing bs with
  | zero => cases ha
  | succ n ih =>
    rw [readAll] at ha
    cases hread : read bs with
    | none =>
      rw [hread] at ha
      cases ha
    | some r =>
      rw [hread] at ha
      rcases List.mem_cons.mp ha with rfl | hrest
      · exact (h.read_eq_some_iff.mp hread).1
      · exact ih hrest

/-- More fuel than the buffer has bytes changes nothing. -/
theorem consume_congr (h : Records write read Valid) {n m : Nat} {buf : List UInt8} (s : σ)
    (hn : buf.length ≤ n) (hm : buf.length ≤ m) :
    consume read act n buf s = consume read act m buf s := by
  induction n generalizing m buf s with
  | zero =>
    obtain rfl := List.length_eq_zero_iff.mp (Nat.le_zero.mp hn)
    cases m with
    | zero => rfl
    | succ m => rw [consume, consume, h.read_nil]
  | succ n ih =>
    cases hread : read buf with
    | none =>
      cases m with
      | zero => rw [consume, consume, hread]
      | succ m => rw [consume, consume, hread]
    | some r =>
      obtain ⟨a, rest⟩ := r
      have hlt := h.read_shorter hread
      cases m with
      | zero => omega
      | succ m =>
        rw [consume, consume, hread]
        dsimp only
        congr 1
        funext s'
        exact ih s' (by omega) (by omega)

/-- Nothing whole is left over. -/
theorem consume_rest (h : Records write read Valid) {n : Nat} {buf rest : List UInt8} {s s' : σ}
    (hn : buf.length ≤ n) (hc : consume read act n buf s = some (rest, s')) : read rest = none := by
  induction n generalizing buf s with
  | zero =>
    obtain rfl := List.length_eq_zero_iff.mp (Nat.le_zero.mp hn)
    cases hc
    exact h.read_nil
  | succ n ih =>
    rw [consume] at hc
    cases hread : read buf with
    | none =>
      rw [hread] at hc
      cases hc
      exact hread
    | some r =>
      obtain ⟨a, buf'⟩ := r
      have hlt := h.read_shorter hread
      rw [hread] at hc
      obtain ⟨s₁, -, hc⟩ := Option.bind_eq_some_iff.mp hc
      exact ih (by omega) hc

/-- What comes later is consumed after what is there. -/
theorem consume_append (h : Records write read Valid) {n : Nat} {buf : List UInt8} (s : σ)
    (hn : buf.length ≤ n) (more : List UInt8) :
    consume read act (buf ++ more).length (buf ++ more) s =
      (consume read act n buf s).bind fun x => feed read act x more := by
  induction n generalizing buf s with
  | zero =>
    obtain rfl := List.length_eq_zero_iff.mp (Nat.le_zero.mp hn)
    rfl
  | succ n ih =>
    rw [consume]
    cases hread : read buf with
    | none => rfl
    | some r =>
      obtain ⟨a, rest⟩ := r
      have hlt := h.read_shorter hread
      cases hlen : (buf ++ more).length with
      | zero =>
        rw [List.length_append] at hlen
        omega
      | succ k =>
        rw [List.length_append] at hlen
        rw [consume, h.read_append hread]
        dsimp only
        rw [Option.bind_assoc]
        congr 1
        funext s'
        rw [← ih s' (by omega)]
        exact h.consume_congr s' (by rw [List.length_append]; omega) le_rfl

/-- **Pieces do not matter.** -/
theorem feed_chunks (h : Records write read Valid) (chunks : List (List UInt8))
    {buf : List UInt8} (hbuf : read buf = none) (s : σ) :
    chunks.foldlM (feed read act) (buf, s) =
      consume read act (buf ++ chunks.flatten).length (buf ++ chunks.flatten) s := by
  induction chunks generalizing buf s with
  | nil =>
    rw [List.flatten_nil, List.append_nil]
    change some (buf, s) = _
    cases buf.length with
    | zero => rfl
    | succ n => rw [consume, hbuf]
  | cons chunk chunks ih =>
    rw [List.foldlM_cons, List.flatten_cons, ← List.append_assoc, h.consume_append s le_rfl]
    change (feed read act (buf, s) chunk).bind _ = _
    cases hfeed : feed read act (buf, s) chunk with
    | none =>
      have hnone : consume read act (buf ++ chunk).length (buf ++ chunk) s = none := hfeed
      rw [hnone]
      rfl
    | some x =>
      obtain ⟨rest, s'⟩ := x
      have hsome : consume read act (buf ++ chunk).length (buf ++ chunk) s =
          some (rest, s') := hfeed
      rw [hsome]
      exact ih (h.consume_rest le_rfl hsome) s'

/-- The actions are those for the records of the buffer. -/
theorem consume_records (h : Records write read Valid) {n : Nat} {buf : List UInt8} (s : σ)
    (hn : buf.length ≤ n) :
    (consume read act n buf s).map Prod.snd = (records read buf).foldlM act s := by
  induction n generalizing buf s with
  | zero =>
    obtain rfl := List.length_eq_zero_iff.mp (Nat.le_zero.mp hn)
    rfl
  | succ n ih =>
    rw [consume]
    cases hread : read buf with
    | none =>
      rw [records_of_torn hread]
      rfl
    | some r =>
      obtain ⟨a, rest⟩ := r
      have hlt := h.read_shorter hread
      rw [h.records_of_read hread, List.foldlM_cons]
      dsimp only
      rw [Option.map_bind]
      change _ = (act s a).bind _
      congr 1
      funext s'
      exact ih s' (by omega)

/-- From an empty buffer, the actions are those for the records of all pieces together. -/
theorem feed_records (h : Records write read Valid) (chunks : List (List UInt8)) (s : σ) :
    (chunks.foldlM (feed read act) ([], s)).map Prod.snd =
      (records read chunks.flatten).foldlM act s := by
  rw [h.feed_chunks chunks h.read_nil, List.nil_append]
  exact h.consume_records s le_rfl

end Records

end NexusLOB.Codec
