import Mathlib.Tactic.SplitIfs

/-!
# A mutex and a condition variable

Threads that wait with `cv.wait(lock, pred)`. Each takes the mutex and checks its predicate; it
leaves if the predicate holds and otherwise blocks, which gives the mutex back. A notification
wakes one blocked thread, which then takes the mutex and checks again. Checking and blocking are
two steps, and a notification needs no mutex, so it can fall between them.
-/

namespace NexusLOB.Concurrency

theorem getElem?_concat {α : Type} (l : List α) (x : α) (k : Nat) :
    (l ++ [x])[k]? = if k = l.length then some x else l[k]? := by
  split_ifs with hk
  · rw [hk, List.getElem?_concat_length]
  · rcases Nat.lt_or_gt_of_ne hk with hlt | hgt
    · rw [List.getElem?_append_left hlt]
    · rw [List.getElem?_eq_none (by rw [List.length_append]; exact hgt),
        List.getElem?_eq_none (Nat.le_of_lt hgt)]

/-- Where a thread stands. -/
inductive Phase
  /-- Before it takes the mutex for the first time. -/
  | arriving
  /-- It has the mutex and will check. -/
  | holding
  /-- It has checked in vain, still has the mutex and will block. -/
  | decided
  | blocked
  /-- A notification has reached it, and it has to take the mutex again. -/
  | woken
  | returned
  deriving DecidableEq, Repr

structure Monitor where
  holder : Option Nat := none
  /-- A thread is its place in this list. -/
  threads : List Phase := []
  deriving DecidableEq, Repr

namespace Monitor

/-- A new thread comes. -/
def enter (m : Monitor) : Monitor := { m with threads := m.threads ++ [.arriving] }

def lock (m : Monitor) (k : Nat) : Monitor :=
  if m.holder = none ∧ (m.threads[k]? = some .arriving ∨ m.threads[k]? = some .woken) then
    { holder := some k, threads := m.threads.set k .holding }
  else m

def check (m : Monitor) (k : Nat) (pred : Bool) : Monitor :=
  if m.threads[k]? = some .holding then
    if pred then { holder := none, threads := m.threads.set k .returned }
    else { m with threads := m.threads.set k .decided }
  else m

def block (m : Monitor) (k : Nat) : Monitor :=
  if m.threads[k]? = some .decided then
    { holder := none, threads := m.threads.set k .blocked }
  else m

/-- The notification reaches thread `w`. -/
def notifyOne (m : Monitor) (w : Nat) : Monitor :=
  if m.threads[w]? = some .blocked then { m with threads := m.threads.set w .woken } else m

/-- Thread `k` has found its predicate false and has not blocked yet. -/
def Decided (m : Monitor) (k : Nat) : Prop := m.threads[k]? = some .decided

def Blocked (m : Monitor) (k : Nat) : Prop := m.threads[k]? = some .blocked

instance (m : Monitor) (k : Nat) : Decidable (m.Decided k) :=
  inferInstanceAs (Decidable (_ = _))

instance (m : Monitor) (k : Nat) : Decidable (m.Blocked k) :=
  inferInstanceAs (Decidable (_ = _))

/-- A notification can reach any blocked thread; without one it is lost. -/
def mayWake (m : Monitor) (w : Nat) : Bool :=
  decide (m.Blocked w) || m.threads.all (· != .blocked)

/-! ## Who is blocked -/

/-- A thread that changes its phase and is not blocked before or after. -/
theorem getElem?_set_blocked_iff {threads : List Phase} {j : Nat} {p : Phase}
    (hold : threads[j]? ≠ some .blocked) (hp : p ≠ .blocked) (k : Nat) :
    (threads.set j p)[k]? = some .blocked ↔ threads[k]? = some .blocked := by
  by_cases hk : j = k
  · subst hk
    refine iff_of_false ?_ hold
    intro hset
    rw [List.getElem?_set, if_pos rfl] at hset
    split_ifs at hset
    exact hp (Option.some.inj hset)
  · rw [List.getElem?_set_ne hk]

variable (m : Monitor)

theorem blocked_enter (k : Nat) : m.enter.Blocked k ↔ m.Blocked k := by
  unfold Blocked enter
  rw [getElem?_concat]
  split_ifs with hk
  · rw [hk, List.getElem?_eq_none (Nat.le_refl _)]
    exact iff_of_false (by decide) (by decide)
  · rfl

theorem blocked_lock (j k : Nat) : (m.lock j).Blocked k ↔ m.Blocked k := by
  unfold Blocked lock
  split_ifs with h
  · refine getElem?_set_blocked_iff ?_ (by decide) k
    rcases h.2 with hj | hj <;> rw [hj] <;> decide
  · rfl

theorem blocked_check (j : Nat) (pred : Bool) (k : Nat) :
    (m.check j pred).Blocked k ↔ m.Blocked k := by
  unfold Blocked check
  split_ifs with hj
  · exact getElem?_set_blocked_iff (by rw [hj]; decide) (by decide) k
  · exact getElem?_set_blocked_iff (by rw [hj]; decide) (by decide) k
  · rfl

theorem blocked_block (j k : Nat) :
    (m.block j).Blocked k ↔ m.Blocked k ∨ k = j ∧ m.Decided j := by
  unfold Blocked Decided block
  split_ifs with hj
  · by_cases hk : k = j
    · subst hk
      rw [List.getElem?_set_self (List.getElem?_eq_some_iff.mp hj).1]
      exact iff_of_true rfl (Or.inr ⟨rfl, hj⟩)
    · rw [List.getElem?_set_ne (Ne.symm hk)]
      exact (or_iff_left fun h => hk h.1).symm
  · exact (or_iff_left fun h => hj h.2).symm

/-- While a thread is blocked, a notification is not lost. -/
theorem blocked_of_mayWake {m : Monitor} {w k : Nat} (hw : m.mayWake w = true)
    (hk : m.Blocked k) : m.Blocked w := by
  rw [mayWake, Bool.or_eq_true, decide_eq_true_iff] at hw
  refine hw.resolve_right ?_
  intro hall
  have hne := List.all_eq_true.mp hall _ (List.mem_of_getElem? hk)
  exact absurd hne (by decide)

theorem blocked_notifyOne (w k : Nat) : (m.notifyOne w).Blocked k ↔ m.Blocked k ∧ k ≠ w := by
  unfold Blocked notifyOne
  split_ifs with hw
  · by_cases hk : k = w
    · subst hk
      rw [List.getElem?_set_self (List.getElem?_eq_some_iff.mp hw).1]
      exact iff_of_false (by decide) (fun h => h.2 rfl)
    · rw [List.getElem?_set_ne (Ne.symm hk)]
      exact (and_iff_left hk).symm
  · refine (and_iff_left_of_imp ?_).symm
    rintro hk rfl
    exact hw hk

end Monitor

end NexusLOB.Concurrency
