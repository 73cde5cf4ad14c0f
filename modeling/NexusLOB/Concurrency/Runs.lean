import Mathlib.Data.Nat.Find

/-!
# Runs

The states that a list of actions leads through. A property that each action keeps exactly under a
condition of its own holds in all of them exactly if every action meets its condition. Two values
that are read one after the other are those of one moment if no change of the first is followed by
one of the second in between, and only then if neither takes a value again.
-/

namespace NexusLOB.Concurrency

variable {S A : Type} (step : S → A → S)

/-- The states of a run, the first one included. -/
def states : S → List A → List S
  | s, [] => [s]
  | s, a :: acts => s :: states (step s a) acts

/-- Every action of the run meets its condition in the state it starts from. -/
def EachStep (Good : S → A → Prop) : S → List A → Prop
  | _, [] => True
  | s, a :: acts => Good s a ∧ EachStep Good (step s a) acts

variable {step} {Inv P : S → Prop} {Good : S → A → Prop}

theorem forall_mem_states_iff (hinv : ∀ s a, Inv s → Inv (step s a))
    (hstep : ∀ s a, Inv s → P s → (P (step s a) ↔ Good s a)) {s : S} (hs : Inv s) (hp : P s)
    (acts : List A) : (∀ t ∈ states step s acts, P t) ↔ EachStep step Good s acts := by
  induction acts generalizing s with
  | nil =>
    rw [states, List.forall_mem_singleton]
    exact iff_of_true hp trivial
  | cons a acts ih =>
    rw [states, List.forall_mem_cons, EachStep, ← hstep s a hs hp]
    constructor
    · rintro ⟨-, hrest⟩
      -- the state after the first action is the first of the rest
      have hnext : P (step s a) := by
        apply hrest
        cases acts <;> exact List.mem_cons_self
      exact ⟨hnext, (ih (hinv s a hs) hnext).mp hrest⟩
    · rintro ⟨hnext, hrest⟩
      exact ⟨hp, (ih (hinv s a hs) hnext).mpr hrest⟩

/-! ## The state after some of the actions -/

section StateAt

variable (step : S → A → S)

def stateAt (s : S) (acts : List A) (k : Nat) : S := (acts.take k).foldl step s

variable {step} {s : S} {acts : List A} {j k : Nat}

theorem stateAt_succ {a : A} (h : acts[k]? = some a) :
    stateAt step s acts (k + 1) = step (stateAt step s acts k) a := by
  rw [stateAt, List.take_add_one, h, List.foldl_append]
  rfl

theorem stateAt_succ_of_le (h : acts.length ≤ k) :
    stateAt step s acts (k + 1) = stateAt step s acts k := by
  rw [stateAt, stateAt, List.take_of_length_le h, List.take_of_length_le (Nat.le_succ_of_le h)]

theorem stateAt_length : stateAt step s acts acts.length = acts.foldl step s := by
  rw [stateAt, List.take_length]

theorem stateAt_append (h : k ≤ acts.length) (more : List A) :
    stateAt step s (acts ++ more) k = stateAt step s acts k := by
  rw [stateAt, List.take_append_of_le_length h]
  rfl

/-- What every action keeps holds from then on. -/
theorem stateAt_mono {P : S → Prop} (hstep : ∀ s a, P s → P (step s a)) (hjk : j ≤ k)
    (h : P (stateAt step s acts j)) : P (stateAt step s acts k) := by
  induction k, hjk using Nat.le_induction with
  | base => exact h
  | succ k hjk ih =>
    cases hk : acts[k]? with
    | none =>
      rw [stateAt_succ_of_le (List.getElem?_eq_none_iff.mp hk)]
      exact ih
    | some a =>
      rw [stateAt_succ hk]
      exact hstep _ a ih

end StateAt

/-! ## Two values read one after the other -/

section TwoReads

variable {α β : Type} {f : Nat → α} {g : Nat → β} {a b : Nat}

theorem eq_of_forall_keeps (hab : a ≤ b) (h : ∀ p, a ≤ p → p < b → f (p + 1) = f p) : f b = f a := by
  induction b, hab using Nat.le_induction with
  | base => rfl
  | succ b hab ih =>
    rw [h b hab (Nat.lt_succ_self b)]
    exact ih fun p hap hpb => h p hap (Nat.lt_succ_of_lt hpb)

/-- No change of `f` is followed by, or is, a change of `g`: then `f` still has its first value when
`g` already has its last. -/
theorem exists_common_of_ordered (hab : a ≤ b)
    (h : ∀ p q, a ≤ p → p ≤ q → q < b → f (p + 1) = f p ∨ g (q + 1) = g q) :
    ∃ k, a ≤ k ∧ k ≤ b ∧ f k = f a ∧ g k = g b := by
  by_cases hf : ∀ p, a ≤ p → p < b → f (p + 1) = f p
  · exact ⟨b, hab, Nat.le_refl b, eq_of_forall_keeps hab hf, rfl⟩
  · -- the moment of the first change of `f`
    have hchange : ∃ p, a ≤ p ∧ p < b ∧ f (p + 1) ≠ f p := by
      push Not at hf
      exact hf
    classical
    obtain ⟨hap, hpb, hne⟩ := Nat.find_spec hchange
    refine ⟨Nat.find hchange, hap, Nat.le_of_lt hpb, ?_, ?_⟩
    · refine eq_of_forall_keeps hap fun p hp hlt => ?_
      by_contra hp'
      exact Nat.find_min hchange hlt ⟨hp, Nat.lt_trans hlt hpb, hp'⟩
    · refine (eq_of_forall_keeps (Nat.le_of_lt hpb) fun q hq hqb => ?_).symm
      exact (h _ q hap hq hqb).resolve_left hne

/-- A value that is left is not taken again while `W` holds. -/
def NoReturn (W : Nat → Prop) (f : Nat → α) : Prop :=
  ∀ x y z, W x → W z → x ≤ y → y ≤ z → f z = f x → f y = f x

/-- The other way round, if no value is taken again. -/
theorem ordered_of_common {W : Nat → Prop} {k : Nat} (hf : NoReturn W f) (hg : NoReturn W g)
    (ha : W a) (hb : W b) (hk : W k) (hfk : f k = f a) (hgk : g k = g b) :
    ∀ p q, a ≤ p → p ≤ q → q < b → f (p + 1) = f p ∨ g (q + 1) = g q := by
  intro p q hap hpq hqb
  rcases Nat.lt_or_ge p k with hlt | hge
  · left
    rw [hf a (p + 1) k ha hk (by omega) (by omega) hfk, hf a p k ha hk hap (by omega) hfk]
  · right
    rw [hg k (q + 1) b hk hb (by omega) (by omega) hgk.symm,
      hg k q b hk hb (by omega) (by omega) hgk.symm]

end TwoReads

end NexusLOB.Concurrency
