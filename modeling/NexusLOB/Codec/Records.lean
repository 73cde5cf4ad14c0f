import NexusLOB.Codec.LittleEndian

/-!
# Files of records

A file is a row of records, each written by `write` and read back from the front by `read`. A record
that is cut short is not read. A byte prefix of such a file is a row of whole records and the torn
beginning of at most one more, and reading it gives the whole ones.
-/

namespace NexusLOB.Codec

variable {α : Type}

/-- Read records until one cannot be read, at most `fuel` of them. -/
def readAll (read : Reader α) : Nat → List UInt8 → List α
  | 0, _ => []
  | fuel + 1, bs =>
    match read bs with
    | none => []
    | some (a, rest) => a :: readAll read fuel rest

/-- The records at the front of a byte string. A record has at least one byte. -/
def records (read : Reader α) (bs : List UInt8) : List α := readAll read bs.length bs

/-- Counted records are read back, whatever follows them. -/
theorem readAll_flatMap {write : α → List UInt8} {read : Reader α} {as : List α}
    (hread : ∀ a ∈ as, ∀ rest, read (write a ++ rest) = some (a, rest)) (rest : List UInt8) :
    readAll read as.length (as.flatMap write ++ rest) = as := by
  induction as with
  | nil => rfl
  | cons a as ih =>
    obtain ⟨ha, has⟩ := List.forall_mem_cons.mp hread
    rw [List.length_cons, List.flatMap_cons, List.append_assoc, readAll, ha]
    dsimp only
    rw [ih has]

/-- The records that lie in the first `n` bytes as a whole. -/
def whole (write : α → List UInt8) : List α → Nat → List α
  | [], _ => []
  | a :: as, n =>
    if (write a).length ≤ n then a :: whole write as (n - (write a).length) else []

theorem whole_map {β : Type} (write : β → List UInt8) (f : α → β) (as : List α) (n : Nat) :
    whole write (as.map f) n = (whole (fun a => write (f a)) as n).map f := by
  induction as generalizing n with
  | nil => rfl
  | cons a as ih =>
    rw [List.map_cons, whole, whole]
    split
    · rw [ih, List.map_cons]
    · rfl

theorem mem_of_mem_whole {write : α → List UInt8} {as : List α} {n : Nat} {a : α}
    (h : a ∈ whole write as n) : a ∈ as := by
  induction as generalizing n with
  | nil => exact h
  | cons b as ih =>
    rw [whole] at h
    split at h
    · rcases List.mem_cons.mp h with rfl | h
      · exact List.mem_cons_self
      · exact List.mem_cons_of_mem _ (ih h)
    · cases h

/-- A record is read exactly where one that was written stands in front. -/
structure Records (write : α → List UInt8) (read : Reader α) (Valid : α → Prop) : Prop where
  read_eq_some_iff : ∀ {bs a rest}, read bs = some (a, rest) ↔ Valid a ∧ bs = write a ++ rest
  write_ne_nil : ∀ a, write a ≠ []

namespace Records

variable {write : α → List UInt8} {read : Reader α} {Valid : α → Prop}

theorem read_write (h : Records write read Valid) {a : α} (ha : Valid a) (rest : List UInt8) :
    read (write a ++ rest) = some (a, rest) :=
  h.read_eq_some_iff.mpr ⟨ha, rfl⟩

theorem read_shorter (h : Records write read Valid) {bs rest : List UInt8} {a : α}
    (hread : read bs = some (a, rest)) : rest.length < bs.length := by
  obtain ⟨-, rfl⟩ := h.read_eq_some_iff.mp hread
  have hpos := List.length_pos_iff.mpr (h.write_ne_nil a)
  rw [List.length_append]
  omega

/-- A record that is cut short is not read. -/
theorem read_torn (h : Records write read Valid) {a : α} (ha : Valid a) {torn : List UInt8}
    (htorn : torn <+: write a) (hne : torn ≠ write a) : read torn = none := by
  cases hread : read torn with
  | none => rfl
  | some r =>
    obtain ⟨b, rest⟩ := r
    obtain ⟨hb, rfl⟩ := h.read_eq_some_iff.mp hread
    obtain ⟨more, hmore⟩ := htorn
    have hboth : some (b, rest ++ more) = some (a, []) := by
      rw [← h.read_write hb, ← h.read_write ha, ← List.append_assoc, hmore, List.append_nil]
    obtain ⟨rfl, hnil⟩ := Prod.mk.inj (Option.some.inj hboth)
    obtain ⟨rfl, -⟩ := List.append_eq_nil_iff.mp hnil
    exact absurd (List.append_nil _) hne

/-- A record that is only read with more behind it takes some of that. -/
theorem read_spans (h : Records write read Valid) {torn more rest : List UInt8} {a : α}
    (htorn : read torn = none) (hread : read (torn ++ more) = some (a, rest)) :
    rest.length < more.length := by
  obtain ⟨ha, he⟩ := h.read_eq_some_iff.mp hread
  by_contra hle
  obtain ⟨front, rfl⟩ : more <:+ rest := by
    apply List.suffix_of_suffix_length_le (List.suffix_append torn more) ?_ (by omega)
    rw [he]
    exact List.suffix_append _ _
  rw [← List.append_assoc] at he
  rw [List.append_cancel_right he, h.read_write ha] at htorn
  cases htorn

/-- With fuel for every byte, how much more there is does not matter. -/
theorem readAll_congr (h : Records write read Valid) {n m : Nat} {bs : List UInt8}
    (hn : bs.length ≤ n) (hm : bs.length ≤ m) : readAll read n bs = readAll read m bs := by
  induction n generalizing m bs with
  | zero =>
    obtain rfl := List.length_eq_zero_iff.mp (Nat.le_zero.mp hn)
    cases m with
    | zero => rfl
    | succ m =>
      rw [readAll, readAll]
      cases hread : read [] with
      | none => rfl
      | some r => exact absurd (h.read_shorter hread) (Nat.not_lt_zero _)
  | succ n ih =>
    cases hread : read bs with
    | none =>
      cases m with
      | zero => rw [readAll, readAll, hread]
      | succ m => rw [readAll, readAll, hread]
    | some r =>
      obtain ⟨a, rest⟩ := r
      have hlt := h.read_shorter hread
      cases m with
      | zero => omega
      | succ m =>
        rw [readAll, readAll, hread]
        dsimp only
        rw [ih (by omega : rest.length ≤ n) (by omega : rest.length ≤ m)]

theorem records_of_read (h : Records write read Valid) {bs rest : List UInt8} {a : α}
    (hread : read bs = some (a, rest)) : records read bs = a :: records read rest := by
  have hlt := h.read_shorter hread
  rw [records]
  cases hlen : bs.length with
  | zero => omega
  | succ n =>
    rw [readAll, hread]
    dsimp only
    rw [h.readAll_congr (by omega : rest.length ≤ n) le_rfl]
    rfl

theorem records_of_torn {bs : List UInt8} (hread : read bs = none) : records read bs = [] := by
  rw [records]
  cases bs.length with
  | zero => rfl
  | succ n => rw [readAll, hread]

/-- Whole records are read, whatever follows them. -/
theorem records_append (h : Records write read Valid) {as : List α} (hvalid : ∀ a ∈ as, Valid a)
    (rest : List UInt8) : records read (as.flatMap write ++ rest) = as ++ records read rest := by
  induction as with
  | nil => rfl
  | cons a as ih =>
    obtain ⟨ha, has⟩ := List.forall_mem_cons.mp hvalid
    rw [List.flatMap_cons, List.append_assoc, h.records_of_read (h.read_write ha _), ih has,
      List.cons_append]

/-- The beginning of a record that was cut short, or nothing. -/
def Torn (write : α → List UInt8) (torn : List UInt8) (next : List α) : Prop :=
  torn = [] ∨ ∃ a rest, next = a :: rest ∧ torn <+: write a ∧ torn ≠ write a

theorem records_torn (h : Records write read Valid) {torn : List UInt8} {next : List α}
    (hvalid : ∀ a ∈ next, Valid a) (htorn : Torn write torn next) : records read torn = [] := by
  rcases htorn with rfl | ⟨a, rest, rfl, hprefix, hne⟩
  · rfl
  · exact records_of_torn (h.read_torn (hvalid a List.mem_cons_self) hprefix hne)

/-- A byte prefix of a file of records. -/
theorem isPrefix_split {as : List α} {bs : List UInt8} (h : bs <+: as.flatMap write) :
    ∃ next torn, as = whole write as bs.length ++ next ∧
      bs = (whole write as bs.length).flatMap write ++ torn ∧ Torn write torn next := by
  induction as generalizing bs with
  | nil =>
    refine ⟨[], [], rfl, ?_, Or.inl rfl⟩
    exact List.prefix_nil.mp h
  | cons a as ih =>
    rw [List.flatMap_cons] at h
    by_cases hle : (write a).length ≤ bs.length
    · obtain ⟨rest, rfl⟩ := List.prefix_of_prefix_length_le (List.prefix_append _ _) h hle
      have hrest : (write a ++ rest).length - (write a).length = rest.length := by simp
      obtain ⟨next, torn, has, hbs, htorn⟩ := ih ((List.prefix_append_right_inj _).mp h)
      refine ⟨next, torn, ?_, ?_, htorn⟩
      · rw [whole, if_pos hle, hrest, List.cons_append, ← has]
      · rw [whole, if_pos hle, hrest, List.flatMap_cons, List.append_assoc, ← hbs]
    · -- the first record is cut short already
      refine ⟨a :: as, bs, ?_, ?_, Or.inr ⟨a, as, rfl, ?_, ?_⟩⟩
      · rw [whole, if_neg hle, List.nil_append]
      · rw [whole, if_neg hle, List.flatMap_nil, List.nil_append]
      · exact List.prefix_of_prefix_length_le h (List.prefix_append _ _) (by omega)
      · rintro rfl
        exact hle le_rfl

theorem records_isPrefix (h : Records write read Valid) {as : List α} (hvalid : ∀ a ∈ as, Valid a)
    {bs : List UInt8} (hbs : bs <+: as.flatMap write) :
    records read bs = whole write as bs.length := by
  obtain ⟨next, torn, has, hsplit, htorn⟩ := isPrefix_split hbs
  have hboth := hvalid
  rw [has, List.forall_mem_append] at hboth
  rw [hsplit, h.records_append hboth.1, h.records_torn hboth.2 htorn, List.append_nil, ← hsplit]

/-- Records are among the whole ones exactly if all their bytes are there. -/
theorem isPrefix_whole_iff {as bs : List α} {n : Nat} :
    as <+: whole write (as ++ bs) n ↔ (as.flatMap write).length ≤ n := by
  induction as generalizing n with
  | nil => simp
  | cons a as ih =>
    rw [List.cons_append, whole, List.flatMap_cons, List.length_append]
    split
    · rw [List.prefix_cons_inj, ih]
      omega
    · rw [List.prefix_nil]
      constructor
      · intro h
        cases h
      · intro h
        omega

end Records

end NexusLOB.Codec
