import Mathlib.Data.List.Nodup
import Mathlib.Logic.Function.Basic

/-!
# Linked chains

Singly linked lists given by a successor function on addresses. `Chain next p qs` says that the
links from `p` lead through exactly `qs` to a null link. The lemmas follow a chain, put an address
into it and take one out by redirecting one link.
-/

namespace NexusLOB.Collections

variable {P : Type}

/-- The links from `p` lead through `qs` and end. -/
def Chain (next : P → Option P) : P → List P → Prop
  | p, [] => next p = none
  | p, q :: qs => next p = some q ∧ Chain next q qs

/-- The last address of `p :: qs`. -/
def tip : P → List P → P
  | p, [] => p
  | _, q :: qs => tip q qs

/-- Follow the links while the next address is `below`. -/
def walk (next : P → Option P) (below : P → Bool) : Nat → P → P
  | 0, p => p
  | fuel + 1, p =>
    match next p with
    | none => p
    | some q => if below q then walk next below fuel q else p

/-- The addresses after `p`. -/
def traverse (next : P → Option P) : Nat → P → List P
  | 0, _ => []
  | fuel + 1, p =>
    match next p with
    | none => []
    | some q => q :: traverse next fuel q

/-- `walk` with links and comparisons that are read one by one: `none` if a read fails or the links
lead on for longer than `fuel`. -/
def walkChecked (read : P → Option (Option P)) (below : P → Option Bool) : Nat → P → Option P
  | 0, _ => none
  | fuel + 1, p => (read p).bind fun link =>
    match link with
    | none => some p
    | some q => (below q).bind fun b => if b then walkChecked read below fuel q else some p

/-- `traverse` with checked reads. -/
def traverseChecked (read : P → Option (Option P)) : Nat → P → Option (List P)
  | 0, _ => none
  | fuel + 1, p => (read p).bind fun link =>
    match link with
    | none => some []
    | some q => (traverseChecked read fuel q).map (q :: ·)

section Chain

variable {next next' : P → Option P} {p x : P} {qs as bs : List P}

theorem tip_mem (p : P) (qs : List P) : tip p qs ∈ p :: qs := by
  induction qs generalizing p with
  | nil => exact List.mem_cons_self
  | cons q qs ih => exact List.mem_cons_of_mem _ (ih q)

theorem tip_append_cons (p : P) (as : List P) (x : P) (bs : List P) :
    tip p (as ++ x :: bs) = tip x bs := by
  induction as generalizing p with
  | nil => rfl
  | cons a as ih => exact ih a

theorem Chain.congr (h : Chain next p qs) (heq : ∀ q ∈ p :: qs, next' q = next q) :
    Chain next' p qs := by
  induction qs generalizing p with
  | nil => exact (heq p List.mem_cons_self).trans h
  | cons q qs ih =>
    refine ⟨(heq p List.mem_cons_self).trans h.1, ih h.2 ?_⟩
    intro q' hq'
    exact heq q' (List.mem_cons_of_mem _ hq')

theorem Chain.tip (h : Chain next p (as ++ bs)) : Chain next (tip p as) bs := by
  induction as generalizing p with
  | nil => exact h
  | cons a as ih => exact ih h.2

theorem Chain.next_eq (h : Chain next p qs) : next p = qs.head? := by
  cases qs with
  | nil => exact h
  | cons q qs => exact h.1

/-- Walking stops at the last address that is below. -/
theorem Chain.walk_eq (h : Chain next p (as ++ bs)) {below : P → Bool}
    (has : ∀ a ∈ as, below a = true) (hbs : ∀ b ∈ bs.head?, below b = false) {fuel : Nat}
    (hfuel : as.length < fuel) : walk next below fuel p = Collections.tip p as := by
  induction as generalizing p fuel with
  | nil =>
    match fuel, hfuel with
    | fuel + 1, _ =>
      unfold walk
      rw [h.next_eq]
      cases bs with
      | nil => rfl
      | cons b bs =>
        have hb : below b = false := hbs b rfl
        simp [hb, Collections.tip]
  | cons a as ih =>
    match fuel, hfuel with
    | fuel + 1, hfuel =>
      unfold walk
      rw [h.1]
      simp only [has a List.mem_cons_self, if_true]
      exact ih h.2 (fun b hb => has b (List.mem_cons_of_mem _ hb)) (Nat.lt_of_succ_lt_succ hfuel)

theorem Chain.traverse_eq (h : Chain next p qs) {fuel : Nat} (hfuel : qs.length ≤ fuel) :
    traverse next fuel p = qs := by
  induction qs generalizing p fuel with
  | nil =>
    cases fuel with
    | zero => rfl
    | succ fuel =>
      unfold traverse
      rw [show next p = none from h]
  | cons q qs ih =>
    match fuel, hfuel with
    | fuel + 1, hfuel =>
      unfold traverse
      rw [h.1]
      exact congrArg (q :: ·) (ih h.2 (Nat.le_of_succ_le_succ hfuel))

theorem Chain.walkChecked_eq (h : Chain next p (as ++ bs)) {read : P → Option (Option P)}
    {below : P → Option Bool} (hread : ∀ q ∈ p :: as, read q = some (next q))
    (has : ∀ a ∈ as, below a = some true) (hbs : ∀ b ∈ bs.head?, below b = some false) {fuel : Nat}
    (hfuel : as.length < fuel) :
    walkChecked read below fuel p = some (Collections.tip p as) := by
  induction as generalizing p fuel with
  | nil =>
    match fuel, hfuel with
    | fuel + 1, _ =>
      rw [walkChecked, hread p List.mem_cons_self, h.next_eq]
      cases bs with
      | nil => rfl
      | cons b bs =>
        have hb : below b = some false := hbs b rfl
        simp [hb, Collections.tip]
  | cons a as ih =>
    match fuel, hfuel with
    | fuel + 1, hfuel =>
      rw [walkChecked, hread p List.mem_cons_self, h.1]
      simp only [Option.bind_some, has a List.mem_cons_self, if_true]
      exact ih h.2 (fun q hq => hread q (List.mem_cons_of_mem _ hq))
        (fun b hb => has b (List.mem_cons_of_mem _ hb)) (Nat.lt_of_succ_lt_succ hfuel)

theorem Chain.traverseChecked_eq (h : Chain next p qs) {read : P → Option (Option P)}
    (hread : ∀ q ∈ p :: qs, read q = some (next q)) {fuel : Nat} (hfuel : qs.length < fuel) :
    traverseChecked read fuel p = some qs := by
  induction qs generalizing p fuel with
  | nil =>
    match fuel, hfuel with
    | fuel + 1, _ =>
      rw [traverseChecked, hread p List.mem_cons_self, h.next_eq]
      rfl
  | cons q qs ih =>
    match fuel, hfuel with
    | fuel + 1, hfuel =>
      have hrest := ih h.2 (fun q' hq' => hread q' (List.mem_cons_of_mem _ hq'))
        (Nat.lt_of_succ_lt_succ hfuel)
      rw [traverseChecked, hread p List.mem_cons_self, h.1]
      simp only [Option.bind_some, hrest, Option.map_some]

/-- Continue from another address with the same successor. -/
theorem Chain.relink (h : Chain next p qs) (hx : next' x = next p)
    (hkeep : ∀ q ∈ qs, next' q = next q) : Chain next' x qs := by
  cases qs with
  | nil => exact hx.trans h
  | cons q qs => exact ⟨hx.trans h.1, h.2.congr hkeep⟩

/-- Only the last address of `p :: as` gets another successor. -/
theorem Chain.graft {cs : List P} (h : Chain next p (as ++ bs)) (hnodup : (p :: as).Nodup)
    (helse : ∀ q ∈ p :: as, q ≠ Collections.tip p as → next' q = next q)
    (hcs : Chain next' (Collections.tip p as) cs) : Chain next' p (as ++ cs) := by
  induction as generalizing p with
  | nil => exact hcs
  | cons a as ih =>
    rw [List.nodup_cons] at hnodup
    have hne : p ≠ Collections.tip a as := by
      rintro heq
      refine hnodup.1 ?_
      rw [heq]
      exact tip_mem a as
    refine ⟨?_, ih h.2 hnodup.2 (fun q hq => helse q (List.mem_cons_of_mem _ hq)) hcs⟩
    rw [helse p List.mem_cons_self hne]
    exact h.1

theorem ne_tip_of_nodup (hnodup : (p :: as ++ bs).Nodup) {q : P} (hq : q ∈ bs) : q ≠ tip p as := by
  rintro rfl
  exact (List.nodup_append.mp hnodup).2.2 _ (tip_mem p as) _ hq rfl

/-- Put `x` after the last address of `p :: as`. -/
theorem Chain.insert (h : Chain next p (as ++ bs)) (hnodup : (p :: (as ++ bs)).Nodup)
    (htip : next' (Collections.tip p as) = some x)
    (hnew : next' x = next (Collections.tip p as))
    (helse : ∀ q ∈ p :: (as ++ bs), q ≠ Collections.tip p as → next' q = next q) :
    Chain next' p (as ++ x :: bs) := by
  have hx : Chain next' x bs := h.tip.relink hnew fun q hq =>
    helse q (List.mem_cons_of_mem _ (List.mem_append_right _ hq)) (ne_tip_of_nodup hnodup hq)
  refine h.graft (List.nodup_append.mp hnodup).1 (fun q hq => helse q ?_) ⟨htip, hx⟩
  exact List.mem_append_left bs hq

/-- Take the address after `p :: as` out. -/
theorem Chain.remove (h : Chain next p (as ++ x :: bs)) (hnodup : (p :: (as ++ x :: bs)).Nodup)
    (htip : next' (Collections.tip p as) = next x)
    (helse : ∀ q ∈ p :: (as ++ bs), q ≠ Collections.tip p as → next' q = next q) :
    Chain next' p (as ++ bs) := by
  have hrest : Chain next' (Collections.tip p as) bs := h.tip.2.relink htip fun q hq =>
    helse q (List.mem_cons_of_mem _ (List.mem_append_right _ hq))
      (ne_tip_of_nodup hnodup (List.mem_cons_of_mem x hq))
  refine h.graft (List.nodup_append.mp hnodup).1 (fun q hq => helse q ?_) hrest
  exact List.mem_append_left bs hq

end Chain

end NexusLOB.Collections
