import Mathlib.Data.List.Nodup

/-!
# Writers without a lock

Several writers put a word each on a shared stream, a piece at a time. Nothing keeps a writer from
falling between two pieces of another one. If no two writers share a stream, every stream ends up
with its word, whatever the schedule. If two do, and no word repeats a single letter, some schedule
leaves something else on their stream than the words one after the other.
-/

namespace NexusLOB.Concurrency

/-- A writer and what it has still to write. -/
structure Writer (K α : Type) where
  key : K
  rest : List α
  deriving DecidableEq, Repr

/-- The writers, and what has been written so far, piece by piece. -/
structure Writers (K α : Type) where
  writers : List (Writer K α)
  written : List (K × List α) := []
  deriving DecidableEq, Repr

namespace Writers

variable {K α : Type}

/-- Writer `i` writes its next `n` letters. -/
def write (w : Writers K α) (i n : Nat) : Writers K α :=
  match w.writers[i]? with
  | none => w
  | some x =>
    { writers := w.writers.set i { x with rest := x.rest.drop n }
      written := w.written ++ [(x.key, x.rest.take n)] }

/-- A schedule says who writes next, and how much. -/
def run (w : Writers K α) (schedule : List (Nat × Nat)) : Writers K α :=
  schedule.foldl (fun w turn => w.write turn.1 turn.2) w

def Done (w : Writers K α) : Prop := ∀ x ∈ w.writers, x.rest = []

instance [DecidableEq α] (w : Writers K α) : Decidable w.Done :=
  inferInstanceAs (Decidable (∀ x ∈ w.writers, x.rest = []))

theorem write_split (w : Writers K α) (i n : Nat) :
    w.write i n = w ∨ ∃ pre x post, w.writers = pre ++ x :: post ∧
      w.write i n =
        { writers := pre ++ { x with rest := x.rest.drop n } :: post
          written := w.written ++ [(x.key, x.rest.take n)] } := by
  rw [write]
  cases hi : w.writers[i]? with
  | none => exact Or.inl rfl
  | some x =>
    obtain ⟨hlt, hx⟩ := List.getElem?_eq_some_iff.mp hi
    refine Or.inr ⟨w.writers.take i, x, w.writers.drop (i + 1), ?_, ?_⟩
    · rw [← hx, ← List.drop_eq_getElem_cons hlt, List.take_append_drop]
    · dsimp only
      rw [List.set_eq_take_append_cons_drop, if_pos hlt]

theorem write_at (pre post : List (Writer K α)) (x : Writer K α) (written : List (K × List α))
    (n : Nat) :
    (Writers.mk (pre ++ x :: post) written).write pre.length n =
      Writers.mk (pre ++ { x with rest := x.rest.drop n } :: post)
        (written ++ [(x.key, x.rest.take n)]) := by
  have hget : (pre ++ x :: post)[pre.length]? = some x := by
    rw [List.getElem?_append_right (Nat.le_refl _), Nat.sub_self, List.getElem?_cons_zero]
  rw [write, hget]
  dsimp only
  rw [List.set_append_right _ _ (Nat.le_refl _), Nat.sub_self, List.set_cons_zero]

/-- Some schedule leads from one state to the other. -/
def Reaches (w w' : Writers K α) : Prop := ∃ schedule, w.run schedule = w'

theorem Reaches.trans {w₁ w₂ w₃ : Writers K α} (h : Reaches w₁ w₂) (h' : Reaches w₂ w₃) :
    Reaches w₁ w₃ := by
  obtain ⟨schedule, rfl⟩ := h
  obtain ⟨more, rfl⟩ := h'
  exact ⟨schedule ++ more, List.foldl_append⟩

theorem reaches_write (w : Writers K α) (i n : Nat) : Reaches w (w.write i n) := ⟨[(i, n)], rfl⟩

/-- A writer that has written all. -/
def finished (x : Writer K α) : Writer K α := { x with rest := [] }

/-- Whole words, as pieces. -/
def pieces (xs : List (Writer K α)) : List (K × List α) := xs.map fun x => (x.key, x.rest)

/-- Writers in the middle of the row write their words, one after the other. -/
theorem reaches_flush (pre mid post : List (Writer K α)) (written : List (K × List α)) :
    Reaches (Writers.mk (pre ++ (mid ++ post)) written)
      (Writers.mk (pre ++ (mid.map finished ++ post)) (written ++ pieces mid)) := by
  induction mid generalizing pre written with
  | nil =>
    refine ⟨[], ?_⟩
    rw [pieces, List.map_nil, List.map_nil, List.append_nil]
    rfl
  | cons x mid ih =>
    have hfirst := reaches_write (Writers.mk (pre ++ x :: (mid ++ post)) written) pre.length
      x.rest.length
    have hrest := ih (pre ++ [finished x]) (written ++ [(x.key, x.rest)])
    rw [write_at, List.drop_length, List.take_length] at hfirst
    simp only [List.append_assoc, List.singleton_append] at hrest
    exact hfirst.trans hrest

/-- A letter that commutes with a word is its only letter. -/
theorem eq_of_cons_eq_concat {b : α} {u : List α} (h : b :: u = u ++ [b]) : ∀ a ∈ u, a = b := by
  induction u with
  | nil => exact fun a ha => absurd ha List.not_mem_nil
  | cons c u ih =>
    obtain ⟨rfl, hu⟩ := List.cons.inj h
    exact List.forall_mem_cons.mpr ⟨rfl, ih hu⟩

/-! ## Words on streams -/

/-- What is on a stream. -/
def output [DecidableEq K] (w : Writers K α) (k : K) : List α :=
  (w.written.filter fun p => decide (p.1 = k)).flatMap Prod.snd

/-- The words of the writers of a stream, one after the other. -/
def words [DecidableEq K] (xs : List (Writer K α)) (k : K) : List α :=
  (xs.filter fun x => decide (x.key = k)).flatMap Writer.rest

variable [DecidableEq K] {xs ys : List (Writer K α)} {x y : Writer K α} {k : K}

@[simp] theorem words_append (xs ys : List (Writer K α)) (k : K) :
    words (xs ++ ys) k = words xs k ++ words ys k := by
  rw [words, List.filter_append, List.flatMap_append]
  rfl

theorem words_cons (x : Writer K α) (xs : List (Writer K α)) (k : K) :
    words (x :: xs) k = (if x.key = k then x.rest else []) ++ words xs k := by
  rw [words, List.filter_cons]
  split
  · next h => rw [if_pos (of_decide_eq_true h), List.flatMap_cons, words]
  · next h => rw [if_neg (fun heq => h (decide_eq_true heq)), List.nil_append, words]

theorem words_eq_nil (h : k ∉ xs.map Writer.key) : words xs k = [] := by
  rw [words, List.filter_eq_nil_iff.mpr, List.flatMap_nil]
  intro x hx heq
  exact h (of_decide_eq_true heq ▸ List.mem_map_of_mem hx)

theorem words_of_done (h : ∀ x ∈ xs, x.rest = []) (k : K) : words xs k = [] := by
  rw [words, List.flatMap_eq_nil_iff]
  intro x hx
  exact h x (List.mem_of_mem_filter hx)

/-! ## Separate streams -/

theorem output_concat (ws : List (Writer K α)) (written : List (K × List α)) (p : K × List α)
    (k : K) :
    (Writers.mk ws (written ++ [p])).output k =
      (Writers.mk ws written).output k ++ if p.1 = k then p.2 else [] := by
  rw [output, output, List.filter_append, List.flatMap_append, List.filter_singleton]
  split
  · next h => rw [decide_eq_true h, cond_true, List.flatMap_singleton]
  · next h => rw [decide_eq_false h, cond_false, List.flatMap_nil]

/-- On every stream stands a part of its word, and the rest is still to come. -/
structure Separate (xs : List (Writer K α)) (w : Writers K α) : Prop where
  keys : w.writers.map Writer.key = xs.map Writer.key
  output : ∀ k, w.output k ++ words w.writers k = words xs k

theorem Separate.write (hnodup : (xs.map Writer.key).Nodup) {w : Writers K α}
    (h : Separate xs w) (i n : Nat) : Separate xs (w.write i n) := by
  rcases w.write_split i n with hsame | ⟨pre, x, post, hw, hwrite⟩
  · rwa [hsame]
  · have hkeys := h.keys
    rw [hw, List.map_append, List.map_cons] at hkeys
    rw [hwrite]
    refine ⟨?_, ?_⟩
    · rw [List.map_append, List.map_cons]
      exact hkeys
    · intro k
      have hout := h.output k
      rw [hw, words_append, words_cons] at hout
      rw [output_concat, words_append, words_cons, ← hout]
      dsimp only
      by_cases hk : x.key = k
      · -- no other writer has this stream
        rw [← hkeys, hk] at hnodup
        have hpre : words pre k = [] := by
          apply words_eq_nil
          intro hmem
          exact List.disjoint_of_nodup_append hnodup hmem List.mem_cons_self
        rw [if_pos hk, if_pos hk, if_pos hk, hpre, List.nil_append, List.nil_append,
          List.append_assoc, ← List.append_assoc (x.rest.take n), List.take_append_drop]
        rfl
      · rw [if_neg hk, if_neg hk, if_neg hk, List.append_nil]
        rfl

theorem Separate.run (hnodup : (xs.map Writer.key).Nodup) {w : Writers K α} (h : Separate xs w)
    (schedule : List (Nat × Nat)) : Separate xs (w.run schedule) := by
  induction schedule generalizing w with
  | nil => exact h
  | cons turn schedule ih => exact ih (h.write hnodup turn.1 turn.2)

/-- Writers of different streams end up with their words there. -/
theorem output_of_nodup (hnodup : (xs.map Writer.key).Nodup) {schedule : List (Nat × Nat)}
    (hdone : ((Writers.mk xs []).run schedule).Done) (k : K) :
    ((Writers.mk xs []).run schedule).output k = words xs k := by
  have hstart : Separate xs (Writers.mk xs []) := ⟨rfl, fun _ => rfl⟩
  have hend := (hstart.run hnodup schedule).output k
  rwa [words_of_done hdone, List.append_nil] at hend

/-! ## Shared streams -/

theorem output_pieces (ws mid : List (Writer K α)) (written : List (K × List α)) (k : K) :
    (Writers.mk ws (written ++ pieces mid)).output k =
      (Writers.mk ws written).output k ++ words mid k := by
  induction mid generalizing written with
  | nil => rw [pieces, List.map_nil, List.append_nil, words, List.filter_nil, List.flatMap_nil,
      List.append_nil]
  | cons x mid ih =>
    rw [pieces, List.map_cons, List.append_cons, ← pieces, ih, output_concat, words_cons,
      List.append_assoc]

/-- The later of two writers begins, and the earlier one and all between overtake it. -/
theorem exists_overtaking (xs ys zs : List (Writer K α)) (x y : Writer K α) {b : α} {t : List α}
    (hy : y.rest = b :: t) :
    ∃ schedule, ((Writers.mk (xs ++ (x :: ys ++ y :: zs)) []).run schedule).Done ∧
      ∀ k, ((Writers.mk (xs ++ (x :: ys ++ y :: zs)) []).run schedule).output k =
        words xs k ++ (if y.key = k then [b] else []) ++ words (x :: ys) k ++
          words ({ y with rest := t } :: zs) k := by
  have hfirst := reaches_flush [] xs (x :: ys ++ y :: zs) []
  have hbegin := reaches_write (Writers.mk ((xs.map finished ++ (x :: ys)) ++ y :: zs) (pieces xs))
    (xs.map finished ++ (x :: ys)).length 1
  rw [write_at, hy, List.drop_one, List.tail_cons, List.take_one, List.head?_cons,
    Option.toList_some, List.append_assoc, List.append_assoc] at hbegin
  have hsecond := reaches_flush (xs.map finished) (x :: ys) ({ y with rest := t } :: zs)
    (pieces xs ++ [(y.key, [b])])
  have hthird := reaches_flush (xs.map finished ++ (x :: ys).map finished)
    ({ y with rest := t } :: zs) [] (pieces xs ++ [(y.key, [b])] ++ pieces (x :: ys))
  rw [List.append_nil, List.append_nil, List.append_assoc] at hthird
  obtain ⟨schedule, hrun⟩ := ((hfirst.trans hbegin).trans hsecond).trans hthird
  rw [List.nil_append] at hrun
  refine ⟨schedule, ?_, ?_⟩
  · rw [hrun]
    intro z hz
    rw [← List.map_append, ← List.map_append] at hz
    obtain ⟨z', -, rfl⟩ := List.mem_map.mp hz
    rfl
  · intro k
    rw [hrun, output_pieces, output_pieces, output_concat]
    have hstart : (Writers.mk (xs.map finished ++ (x :: ys).map finished ++
        ({ y with rest := t } :: zs).map finished) (pieces xs)).output k = words xs k :=
      output_pieces _ xs [] k
    rw [hstart]

/-- Some two writers of one stream, if they are not all different. -/
theorem exists_shared (h : ¬ (xs.map Writer.key).Nodup) :
    ∃ pre x ys y post, xs = pre ++ (x :: ys ++ y :: post) ∧ x.key = y.key := by
  induction xs with
  | nil => exact absurd List.nodup_nil h
  | cons x xs ih =>
    by_cases hx : x.key ∈ xs.map Writer.key
    · obtain ⟨y, hy, hkey⟩ := List.mem_map.mp hx
      obtain ⟨ys, post, rfl⟩ := List.append_of_mem hy
      exact ⟨[], x, ys, y, post, rfl, hkey.symm⟩
    · have hrest : ¬ (xs.map Writer.key).Nodup := fun hn => h (List.nodup_cons.mpr ⟨hx, hn⟩)
      obtain ⟨pre, x', ys, y, post, rfl, hkey⟩ := ih hrest
      exact ⟨x :: pre, x', ys, y, post, rfl, hkey⟩

/-- Two writers of one stream can leave something else there than their words in order, unless a
word is one letter over and over. -/
theorem exists_disorder (hletters : ∀ x ∈ xs, ∃ a ∈ x.rest, ∃ b ∈ x.rest, a ≠ b)
    (h : ¬ (xs.map Writer.key).Nodup) :
    ∃ schedule, ((Writers.mk xs []).run schedule).Done ∧
      ∃ x ∈ xs, ((Writers.mk xs []).run schedule).output x.key ≠ words xs x.key := by
  obtain ⟨pre, x, ys, y, post, rfl, hkey⟩ := exists_shared h
  have hxmem : x ∈ pre ++ (x :: ys ++ y :: post) := by simp
  have hymem : y ∈ pre ++ (x :: ys ++ y :: post) := by simp
  obtain ⟨c, hc, -⟩ := hletters y hymem
  obtain ⟨b, t, hy⟩ := List.exists_cons_of_ne_nil (List.ne_nil_of_mem hc)
  obtain ⟨schedule, hdone, hout⟩ := exists_overtaking pre ys post x y hy
  refine ⟨schedule, hdone, x, hxmem, ?_⟩
  intro heq
  rw [hout, words_append, words_append, if_pos hkey.symm, words_cons y, words_cons _ post,
    if_pos hkey.symm, if_pos hkey.symm, hy] at heq
  -- the first letter of the later word then commutes with what lies between
  have hcommute : b :: words (x :: ys) x.key = words (x :: ys) x.key ++ [b] := by
    simp only [List.append_assoc, List.cons_append, List.nil_append] at heq
    have hcancel := List.append_cancel_left heq
    rw [← List.cons_append, List.append_cons] at hcancel
    exact List.append_cancel_right hcancel
  obtain ⟨a, ha, a', ha', hne⟩ := hletters x hxmem
  have hall := eq_of_cons_eq_concat hcommute
  rw [words_cons, if_pos rfl] at hall
  exact hne ((hall a (List.mem_append_left _ ha)).trans
    (hall a' (List.mem_append_left _ ha')).symm)

end Writers

end NexusLOB.Concurrency
