import NexusLOB.Collections.RingBuffer
import NexusLOB.Raft.Progress

/-!
# The in-flight window is a queue

`Inflights` keeps the indexes of unacknowledged appends in a ring buffer. Whatever is added, freed
and reset, the slots in use hold a queue: `add` appends to it, `freeTo` drops the front up to the
first index above its argument, and `reset` empties it. The head is in range whenever there are
slots at all, so no access leaves the buffer.
-/

namespace NexusLOB.Raft

open Collections

namespace Inflights

/-- The indexes in the window, oldest first. -/
def pending (f : Inflights) : List Nat := RingBuffer.window f.buffer_ 0 f.head_ f.count_

structure Ok (f : Inflights) : Prop where
  count_le : f.count_ ≤ f.buffer_.length
  head_lt : 0 < f.buffer_.length → f.head_ < f.buffer_.length

variable {f : Inflights}

theorem length_pending (f : Inflights) : f.pending.length = f.count_ :=
  RingBuffer.length_window _ _ _ _

theorem full_iff : f.full = true ↔ f.pending.length = f.buffer_.length := by
  rw [full, beq_iff_eq, length_pending]

theorem ok_reset (f : Inflights) : f.reset.Ok := ⟨Nat.zero_le _, fun h => h⟩

theorem pending_reset (f : Inflights) : f.reset.pending = [] := rfl

theorem Ok.add (h : f.Ok) (hroom : f.full = false) (i : Nat) :
    ∃ f', f.add i = some f' ∧ f'.Ok ∧ f'.buffer_.length = f.buffer_.length ∧
      f'.pending = f.pending ++ [i] := by
  have hlt : f.count_ < f.buffer_.length := by
    have hne : f.count_ ≠ f.buffer_.length := by
      intro heq
      rw [full, beq_eq_false_iff_ne] at hroom
      exact hroom heq
    have := h.count_le
    omega
  have hhead := h.head_lt (by omega)
  refine ⟨_, if_neg (by rw [hroom]; decide), ⟨?_, ?_⟩, List.length_set, ?_⟩
  · rw [List.length_set]
    exact hlt
  · rw [List.length_set]
    exact h.head_lt
  · exact RingBuffer.window_set 0 hhead hlt i

/-- The loop of `freeTo`: it stops at the first index above the target. -/
theorem freeLoop_spec (buffer : List Nat) (target left : Nat) {idx : Nat} (i : Nat)
    (hidx : idx < buffer.length) : ∃ k idx', k ≤ left ∧ idx' < buffer.length ∧
      freeLoop buffer target left i idx = (i + k, idx') ∧
      RingBuffer.window buffer 0 idx' (left - k) =
        (RingBuffer.window buffer 0 idx left).dropWhile fun x => decide (x ≤ target) := by
  induction left generalizing i idx with
  | zero => exact ⟨0, idx, Nat.le_refl 0, hidx, rfl, rfl⟩
  | succ left ih =>
    rw [freeLoop, RingBuffer.window]
    by_cases hgt : target < buffer.getD idx 0
    · refine ⟨0, idx, Nat.zero_le _, hidx, if_pos hgt, ?_⟩
      rw [List.dropWhile_cons_of_neg (by rw [decide_eq_true_iff]; omega)]
      rfl
    · have hwrap : RingBuffer.wrap buffer.length (idx + 1) < buffer.length :=
        RingBuffer.wrap_lt (by omega)
      obtain ⟨k, idx', hk, hidx', hloop, hwin⟩ := ih (i + 1) hwrap
      refine ⟨k + 1, idx', by omega, hidx', ?_, ?_⟩
      · rw [if_neg hgt]
        refine hloop.trans ?_
        rw [Nat.add_right_comm, Nat.add_assoc]
      · rw [List.dropWhile_cons_of_pos (by rw [decide_eq_true_iff]; omega), ← hwin]
        congr 1
        omega

theorem Ok.freeTo (h : f.Ok) (target : Nat) :
    (f.freeTo target).Ok ∧ (f.freeTo target).buffer_.length = f.buffer_.length ∧
      (f.freeTo target).pending = f.pending.dropWhile fun x => decide (x ≤ target) := by
  unfold Inflights.freeTo
  by_cases h0 : f.count_ = 0
  · rw [if_pos h0]
    refine ⟨h, rfl, ?_⟩
    rw [List.length_eq_zero_iff.mp ((length_pending f).trans h0)]
    rfl
  · have hpos : 0 < f.buffer_.length := by
      have := h.count_le
      omega
    obtain ⟨k, idx, hk, hidx, hloop, hwin⟩ :=
      freeLoop_spec f.buffer_ target f.count_ 0 (h.head_lt hpos)
    rw [if_neg h0, hloop, Nat.zero_add]
    dsimp only
    refine ⟨⟨?_, fun _ => ?_⟩, rfl, ?_⟩
    · have := h.count_le
      dsimp only
      omega
    · dsimp only
      split_ifs
      · exact hpos
      · exact hidx
    · refine Eq.trans ?_ hwin
      unfold pending
      dsimp only
      split_ifs with hz
      · rw [hz]
        rfl
      · rfl

/-! ## Accesses -/

/-- `add` without a result where it would write outside the buffer. -/
def addChecked (f : Inflights) (index : Nat) : Option Inflights :=
  if f.full then none
  else
    let next := f.head_ + f.count_
    let next := if next ≥ f.buffer_.length then next - f.buffer_.length else next
    if next < f.buffer_.length then
      some { f with buffer_ := f.buffer_.set next index, count_ := f.count_ + 1 }
    else none

/-- The loop of `freeTo` without a result where it would read outside the buffer. -/
def freeLoopChecked (buffer : List Nat) (target : Nat) : Nat → Nat → Nat → Option (Nat × Nat)
  | 0, i, idx => some (i, idx)
  | left + 1, i, idx =>
    match buffer[idx]? with
    | none => none
    | some index =>
      if target < index then some (i, idx)
      else
        let idx := idx + 1
        let idx := if idx ≥ buffer.length then idx - buffer.length else idx
        freeLoopChecked buffer target left (i + 1) idx

def freeToChecked (f : Inflights) (target : Nat) : Option Inflights :=
  if f.count_ = 0 then some f
  else
    (freeLoopChecked f.buffer_ target f.count_ 0 f.head_).map fun (i, idx) =>
      let count := f.count_ - i
      { f with count_ := count, head_ := if count = 0 then 0 else idx }

theorem Ok.addChecked_eq (h : f.Ok) (index : Nat) : f.addChecked index = f.add index := by
  unfold addChecked Inflights.add
  by_cases hfull : f.full = true
  · rw [if_pos hfull, if_pos hfull]
  · rw [if_neg hfull, if_neg hfull]
    have hne : f.count_ ≠ f.buffer_.length := by
      intro heq
      exact hfull (beq_iff_eq.mpr heq)
    have hcount := h.count_le
    have hhead := h.head_lt (by omega)
    exact if_pos (RingBuffer.wrap_lt (by omega))

theorem freeLoopChecked_eq (buffer : List Nat) (target left : Nat) {idx : Nat} (i : Nat)
    (hidx : idx < buffer.length) :
    freeLoopChecked buffer target left i idx = some (freeLoop buffer target left i idx) := by
  induction left generalizing i idx with
  | zero => rfl
  | succ left ih =>
    have hget : buffer[idx]? = some (buffer.getD idx 0) := by
      rw [List.getD_eq_getElem?_getD, List.getElem?_eq_getElem hidx]
      rfl
    rw [freeLoopChecked, freeLoop, hget]
    by_cases hgt : target < buffer.getD idx 0
    · rw [if_pos hgt]
      exact if_pos hgt
    · rw [if_neg hgt]
      exact (if_neg hgt).trans (ih (i + 1) (RingBuffer.wrap_lt (by omega)))

theorem Ok.freeToChecked_eq (h : f.Ok) (target : Nat) :
    f.freeToChecked target = some (f.freeTo target) := by
  unfold freeToChecked Inflights.freeTo
  by_cases h0 : f.count_ = 0
  · rw [if_pos h0, if_pos h0]
  · have hcount := h.count_le
    rw [if_neg h0, if_neg h0, freeLoopChecked_eq _ _ _ _ (h.head_lt (by omega))]
    rfl

/-! ## Runs -/

inductive Op
  | add (index : Nat)
  | freeTo (target : Nat)
  | reset
  deriving DecidableEq, Repr

/-- An operation with its accesses checked. -/
def perform (f : Inflights) : Op → Option Inflights
  | .add index => f.addChecked index
  | .freeTo target => f.freeToChecked target
  | .reset => some f.reset

def run : Inflights → List Op → Option Inflights
  | f, [] => some f
  | f, op :: ops => (f.perform op).bind fun f => f.run ops

/-- What an operation does to a queue. -/
def Op.onQueue (q : List Nat) : Op → List Nat
  | .add index => q ++ [index]
  | .freeTo target => q.dropWhile fun index => decide (index ≤ target)
  | .reset => []

/-- Nothing is added to a queue that is full. -/
def Admits (capacity : Nat) : List Nat → List Op → Prop
  | _, [] => True
  | q, op :: ops =>
    ((∃ index, op = .add index) → q.length < capacity) ∧ Admits capacity (op.onQueue q) ops

theorem ok_new (capacity : Nat) : (new capacity).Ok :=
  ⟨Nat.zero_le _, fun h => h⟩

theorem Ok.perform (h : f.Ok) {op : Op}
    (hroom : (∃ index, op = .add index) → f.pending.length < f.buffer_.length) :
    ∃ f', f.perform op = some f' ∧ f'.Ok ∧ f'.buffer_.length = f.buffer_.length ∧
      f'.pending = op.onQueue f.pending := by
  cases op with
  | add index =>
    have hlt := hroom ⟨index, rfl⟩
    have hfull : f.full = false := by
      rw [Bool.eq_false_iff, Ne, full_iff]
      omega
    obtain ⟨f', hf', hrest⟩ := h.add hfull index
    exact ⟨f', (h.addChecked_eq index).trans hf', hrest⟩
  | freeTo target => exact ⟨_, h.freeToChecked_eq target, h.freeTo target⟩
  | reset => exact ⟨_, rfl, ok_reset f, rfl, pending_reset f⟩

theorem Ok.run (h : f.Ok) {ops : List Op} (hops : Admits f.buffer_.length f.pending ops) :
    ∃ f', f.run ops = some f' ∧ f'.buffer_.length = f.buffer_.length ∧
      f'.pending = ops.foldl Op.onQueue f.pending := by
  induction ops generalizing f with
  | nil => exact ⟨f, rfl, rfl, rfl⟩
  | cons op ops ih =>
    obtain ⟨hroom, hops⟩ := hops
    obtain ⟨f₁, hf₁, hok, hlen, hpending⟩ := h.perform hroom
    rw [← hlen, ← hpending] at hops
    obtain ⟨f', hf', hlen', hpending'⟩ := ih hok hops
    refine ⟨f', ?_, hlen'.trans hlen, ?_⟩
    · rw [Inflights.run, hf₁, Option.bind_some, hf']
    · rw [hpending', hpending, List.foldl_cons]

/-- After any operations, of which none adds to a full window, the window holds what they leave in a
queue, its count is the length of the queue, it is full exactly if the queue has as many elements
as there are slots, and no access was outside the buffer. -/
theorem inflights_is_queue (capacity : Nat) {ops : List Op} (hops : Admits capacity [] ops) :
    ∃ f, (new capacity).run ops = some f ∧ f.pending = ops.foldl Op.onQueue [] ∧
      f.count = (ops.foldl Op.onQueue []).length ∧
      (f.full = true ↔ (ops.foldl Op.onQueue []).length = capacity) := by
  have hlen : (new capacity).buffer_.length = capacity := List.length_replicate
  have hops' : Admits (new capacity).buffer_.length (new capacity).pending ops := by
    rw [hlen]
    exact hops
  obtain ⟨f, hf, hlen', hpending⟩ := (ok_new capacity).run hops'
  refine ⟨f, hf, hpending, ?_, ?_⟩
  · rw [count, ← length_pending, hpending]
    rfl
  · rw [full_iff, hpending, hlen', hlen]
    rfl

/-- A window of two slots that wraps around: the third index lies in the first slot. -/
theorem inflights_is_queue_wrapped :
    Admits 2 [] [.add 1, .add 2, .freeTo 1, .add 3] ∧
      ∃ f, (new 2).run [.add 1, .add 2, .freeTo 1, .add 3] = some f ∧ f.buffer_ = [3, 2] ∧
        f.pending = [2, 3] ∧ f.full = true := by
  have hops : Admits 2 [] [.add 1, .add 2, .freeTo 1, .add 3] :=
    ⟨fun _ => by decide, fun _ => by decide, by rintro ⟨_, ⟨⟩⟩, fun _ => by decide, trivial⟩
  obtain ⟨f, hf, hpending, -, hfull⟩ := inflights_is_queue 2 hops
  refine ⟨hops, f, hf, ?_, hpending, hfull.mpr rfl⟩
  cases hf
  rfl

end Inflights

end NexusLOB.Raft
