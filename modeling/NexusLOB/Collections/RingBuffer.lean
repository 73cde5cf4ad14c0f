import Mathlib.Data.List.Basic

/-!
# Ring buffers

A list of slots of which `count` are in use, from `head` on and around the end. `window` is the
queue that they hold. Writing to the slot behind the last one used appends to the queue.
-/

namespace NexusLOB.Collections.RingBuffer

variable {α : Type}

/-- A position that may have run past the end once. -/
def wrap (len i : Nat) : Nat := if i ≥ len then i - len else i

theorem wrap_lt {len i : Nat} (h : i < 2 * len) : wrap len i < len := by
  unfold wrap
  split_ifs <;> omega

theorem wrap_wrap_succ {len head i : Nat} (hh : head < len) (hi : i < len) :
    wrap len (wrap len (head + 1) + i) = wrap len (head + (i + 1)) := by
  unfold wrap
  split_ifs <;> omega

theorem wrap_ne {len i j : Nat} (head : Nat) (hij : i < j) (hj : j < len) :
    wrap len (head + j) ≠ wrap len (head + i) := by
  unfold wrap
  split_ifs <;> omega

/-- The queue in the slots. -/
def window (buffer : List α) (d : α) : Nat → Nat → List α
  | _, 0 => []
  | head, count + 1 => buffer.getD head d :: window buffer d (wrap buffer.length (head + 1)) count

theorem length_window (buffer : List α) (d : α) (head count : Nat) :
    (window buffer d head count).length = count := by
  induction count generalizing head with
  | zero => rfl
  | succ count ih => rw [window, List.length_cons, ih]

theorem getElem?_window {buffer : List α} (d : α) {head count i : Nat}
    (hh : head < buffer.length) (hc : count ≤ buffer.length) (hi : i < count) :
    (window buffer d head count)[i]? = some (buffer.getD (wrap buffer.length (head + i)) d) := by
  induction count generalizing head i with
  | zero => omega
  | succ count ih =>
    cases i with
    | zero =>
      have hwrap : wrap buffer.length (head + 0) = head := if_neg (by omega)
      rw [hwrap]
      rfl
    | succ i =>
      rw [window, List.getElem?_cons_succ, ih (wrap_lt (by omega)) (by omega) (by omega),
        wrap_wrap_succ hh (by omega)]

/-- Writing behind the last used slot. -/
theorem window_set {buffer : List α} (d : α) {head count : Nat} (hh : head < buffer.length)
    (hc : count < buffer.length) (x : α) :
    window (buffer.set (wrap buffer.length (head + count)) x) d head (count + 1) =
      window buffer d head count ++ [x] := by
  have hlen : (buffer.set (wrap buffer.length (head + count)) x).length = buffer.length :=
    List.length_set
  apply List.ext_getElem?
  intro i
  rcases Nat.lt_or_ge i (count + 1) with hi | hi
  · rw [getElem?_window d (by omega) (by omega) hi, hlen, List.getD_eq_getElem?_getD]
    rcases Nat.lt_or_ge i count with hlt | hge
    · rw [List.getElem?_set_ne (wrap_ne head hlt hc), List.getElem?_append_left
        (by rw [length_window]; exact hlt), getElem?_window d hh (by omega) hlt,
        List.getD_eq_getElem?_getD]
    · obtain rfl : i = count := by omega
      rw [List.getElem?_set_self (wrap_lt (by omega)), List.getElem?_append_right
        (Nat.le_of_eq (length_window _ _ _ _)), length_window, Nat.sub_self]
      rfl
  · rw [List.getElem?_eq_none (by rw [length_window]; exact hi), List.getElem?_eq_none
      (by rw [List.length_append, length_window]; exact hi)]

end NexusLOB.Collections.RingBuffer
