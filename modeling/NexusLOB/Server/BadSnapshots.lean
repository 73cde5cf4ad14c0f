import NexusLOB.Book.PartialRestore
import NexusLOB.KeyValue.Snapshot

/-!
# Restoring from a bad snapshot

Both state machines read a snapshot into the state they serve from. A snapshot that ends early or is
malformed is noticed only when some of it has been loaded, and nothing is put back.
-/

namespace NexusLOB.App

open Codec Collections Lob Kv

/-- A restore loads the state that the data describes or, where it describes none, changes
nothing. -/
def AllOrNothing {S : Type} (Describes : S → Prop) (before after : S) : Prop :=
  (∃ s, Describes s ∧ after = s) ∨ (¬ ∃ s, Describes s) ∧ after = before

/-- Where the states that are described are loaded, only the others are left to look at. -/
theorem allOrNothing_iff {S : Type} {Describes : S → Prop} {before after : S}
    (hloads : ∀ s, Describes s → after = s) :
    AllOrNothing Describes before after ↔ (∃ s, Describes s) ∨ after = before := by
  constructor
  · rintro (⟨s, hs, -⟩ | ⟨-, hsame⟩)
    · exact Or.inl ⟨s, hs⟩
    · exact Or.inr hsame
  · intro h
    by_cases hs : ∃ s, Describes s
    · obtain ⟨s, hs⟩ := hs
      exact Or.inl ⟨s, hs, hloads s hs⟩
    · exact Or.inr ⟨hs, h.resolve_left hs⟩

section Machines

variable {L : Side → Type} [∀ s, Levels (L s)] [LawfulLevels L]

theorem lob_allOrNothing_iff (m : LOBStateMachine L) (data : Lob.Bytes) (coins : Nat → Coins) :
    AllOrNothing (Lob.Describes data) m.state (m.restore data coins).state ↔
      (∃ s, Lob.Describes data s) ∨ m.state.Has (leading data) := by
  rw [allOrNothing_iff, m.state_restore, State.write_eq_self_iff]
  rintro s ⟨img, hfits, rfl, rfl⟩
  rw [m.state_restore, leading_bytes hfits]
  rfl

theorem kv_allOrNothing_iff (m : KVStateMachine) (data : Lob.Bytes) :
    AllOrNothing (Kv.Describes data) m.view (m.restore data).view ↔
      (∃ s, Kv.Describes data s) ∨ m.view = Store.ofEntries (leadingEntries data) := by
  rw [allOrNothing_iff, m.view_restore, eq_comm (b := m.view)]
  rintro s ⟨entries, hsnapshot, rfl⟩
  rw [m.view_restore, hsnapshot.leadingEntries_eq]

/-- A restore is all or nothing exactly for whole snapshots and for machines that already hold
what stands in front of the data. -/
theorem bad_snapshot_ignored_iff :
    (∀ (m : LOBStateMachine L) (data : Lob.Bytes) (coins : Nat → Coins),
      AllOrNothing (Lob.Describes data) m.state (m.restore data coins).state ↔
        (∃ s, Lob.Describes data s) ∨ m.state.Has (leading data)) ∧
    ∀ (m : KVStateMachine) (data : Lob.Bytes),
      AllOrNothing (Kv.Describes data) m.view (m.restore data).view ↔
        (∃ s, Kv.Describes data s) ∨ m.view = Store.ofEntries (leadingEntries data) :=
  ⟨lob_allOrNothing_iff, kv_allOrNothing_iff⟩

end Machines

/-- A book snapshot that ends before its only order empties the book, and no bytes at all empty the
key-value store. -/
theorem bad_snapshot_empties :
    (let data := putU64 2 ++ (putStr [76] ++ putU32 1)
     let m : LOBStateMachine MapLevels :=
      { book_ := ((Book.new [76]).newOrder 7 .buy 100 5 1 []).2, nextSeq_ := 2 }
     ¬ AllOrNothing (Lob.Describes data) m.state (m.restore data fun _ => []).state ∧
      (m.book_.getOrder 7).isSome ∧ ((m.restore data fun _ => []).book_.getOrder 7).isNone) ∧
    let m : KVStateMachine := { map_ := OrderedMap.empty.insert [107] [118] }
    ¬ AllOrNothing (Kv.Describes []) m.view (m.restore []).view ∧
      m.view [107] = some [118] ∧ (m.restore []).view [107] = none := by
  constructor
  · intro data m
    have hbefore : (m.book_.getOrder 7).isSome := by decide +kernel
    have hafter : ((m.restore data fun _ => []).book_.getOrder 7).isNone := by decide +kernel
    refine ⟨?_, hbefore, hafter⟩
    rintro (⟨s, ⟨img, hfits, hdata, -⟩, -⟩ | ⟨-, hsame⟩)
    · -- an image with these bytes counts one order and lists none
      have hlead := leading_bytes hfits
      rw [← hdata] at hlead
      obtain ⟨nextSeq, symbol, orders⟩ := img
      have hread : leading data = some (2, some ([76], [])) := by decide +kernel
      rw [hread] at hlead
      cases hlead
      revert hdata
      decide +kernel
    · have hsome := congrFun (congrArg State.orders hsame) 7
      change (m.restore data fun _ => []).book_.getOrder 7 = m.book_.getOrder 7 at hsome
      rw [← hsome, Option.isNone_iff_eq_none.mp hafter] at hbefore
      cases hbefore
  · intro m
    have hbefore : m.view [107] = some [118] := by decide +kernel
    have hafter : (m.restore []).view [107] = none := by decide +kernel
    refine ⟨?_, hbefore, hafter⟩
    rintro (⟨s, ⟨entries, hsnapshot, -⟩, -⟩ | ⟨-, hsame⟩)
    · have hlength := congrArg List.length hsnapshot.bytes
      rw [KVStateMachine.serializeMap, List.length_append, length_putU32, List.length_nil] at hlength
      omega
    · rw [hsame, hbefore] at hafter
      cases hafter

end NexusLOB.App
