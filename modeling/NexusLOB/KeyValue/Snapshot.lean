import NexusLOB.Codec.Records
import NexusLOB.KeyValue.MapSemantics

/-!
# Snapshots of the key-value store

`serializeMap` writes the entries in the order the hash map goes through them. `deserializeMap`
clears the map before it reads anything and puts each entry into it as soon as it is read, so what
a restore leaves is the map of the entries that stand whole in front of the data.
-/

namespace NexusLOB.Kv

open Codec Collections Lob Protocol

namespace KVStateMachine

def putEntry (kv : Bytes × Bytes) : Bytes := writeStr kv.1 ++ writeStr kv.2

/-- The bytes of a map that is gone through in the order of `entries`. -/
def serializeMap (entries : List (Bytes × Bytes)) : Bytes :=
  putU32 (UInt32.ofNat entries.length) ++ entries.flatMap putEntry

/-- The loop of `deserializeMap` over the entries that are left. -/
def deserializeEntries :
    Nat → Bytes → OrderedMap Bytes Bytes less → OrderedMap Bytes Bytes less
  | 0, _, map => map
  | n + 1, data, map =>
    match readStr data with
    | none => map
    | some (k, data) =>
      match readStr data with
      | none => map
      | some (v, data) => deserializeEntries n data (map.insert k v)

def deserializeMap (m : KVStateMachine) (data : Bytes) : KVStateMachine :=
  let m := { m with map_ := .empty }
  match getU32 data with
  | none => m
  | some (count, data) => { m with map_ := deserializeEntries count.toNat data m.map_ }

def restore (m : KVStateMachine) (data : Bytes) : KVStateMachine := m.deserializeMap data

end KVStateMachine

/-! ## What the bytes say -/

def getEntry : Reader (Bytes × Bytes) := fun data => do
  let (k, data) ← readStr data
  let (v, data) ← readStr data
  return ((k, v), data)

/-- The entries that stand whole in front of the data, as many as its count at most. -/
def leadingEntries (data : Bytes) : List (Bytes × Bytes) :=
  match getU32 data with
  | none => []
  | some (count, data) => readAll getEntry count.toNat data

namespace Store

/-- A store with entries put into it one after the other. -/
def put (s : Store) (entries : List (Bytes × Bytes)) : Store :=
  entries.foldl (fun s kv => Function.update s kv.1 (some kv.2)) s

/-- The map with these entries, of which a later one replaces an earlier one. -/
def ofEntries (entries : List (Bytes × Bytes)) : Store := put (fun _ => none) entries

end Store

/-- The data is a snapshot of these entries, down to the last byte. -/
structure IsSnapshot (data : Bytes) (entries : List (Bytes × Bytes)) : Prop where
  count : entries.length < 2 ^ 32
  fits : ∀ kv ∈ entries, kv.1.length < 2 ^ 32 ∧ kv.2.length < 2 ^ 32
  bytes : data = KVStateMachine.serializeMap entries

/-- The data is a snapshot of this map. -/
def Describes (data : Bytes) (s : Store) : Prop :=
  ∃ entries, IsSnapshot data entries ∧ s = Store.ofEntries entries

theorem getEntry_putEntry {kv : Bytes × Bytes}
    (hfits : kv.1.length < 2 ^ 32 ∧ kv.2.length < 2 ^ 32) (rest : Bytes) :
    getEntry (KVStateMachine.putEntry kv ++ rest) = some (kv, rest) := by
  obtain ⟨hkey, hvalue⟩ := hfits
  simp only [getEntry, KVStateMachine.putEntry, KVStateMachine.writeStr, readStr, List.append_assoc,
    getStr_putStr hkey, getStr_putStr hvalue, bind, Option.bind_some, pure]

theorem IsSnapshot.leadingEntries_eq {data : Bytes} {entries : List (Bytes × Bytes)}
    (h : IsSnapshot data entries) : leadingEntries data = entries := by
  have hcount : (UInt32.ofNat entries.length).toNat = entries.length :=
    UInt32.toNat_ofNat_of_lt' h.count
  have hread := readAll_flatMap (fun kv hkv rest => getEntry_putEntry (h.fits kv hkv) rest) []
  rw [List.append_nil] at hread
  rw [h.bytes, leadingEntries, KVStateMachine.serializeMap, getU32_putU32]
  dsimp only
  rw [hcount, hread]

/-! ## What a restore leaves -/

theorem find?_deserializeEntries (n : Nat) (data : Bytes) (map : OrderedMap Bytes Bytes less) :
    (KVStateMachine.deserializeEntries n data map).find? =
      Store.put map.find? (readAll getEntry n data) := by
  induction n generalizing data map with
  | zero => rfl
  | succ n ih =>
    rw [KVStateMachine.deserializeEntries, readAll, getEntry]
    cases hk : readStr data with
    | none => rfl
    | some r =>
      obtain ⟨k, data⟩ := r
      cases hv : readStr data with
      | none =>
        simp only [bind, Option.bind_some, Option.bind_none, hv]
        rfl
      | some r =>
        obtain ⟨v, data⟩ := r
        simp only [bind, Option.bind_some, hv, pure]
        rw [ih, OrderedMap.find?_insert_eq]
        rfl

/-- The map holds the entries in front of the data and nothing else, also where more should
follow. -/
theorem KVStateMachine.view_restore (m : KVStateMachine) (data : Bytes) :
    (m.restore data).view = Store.ofEntries (leadingEntries data) := by
  unfold KVStateMachine.restore KVStateMachine.deserializeMap leadingEntries
  cases getU32 data with
  | none => rfl
  | some r => exact find?_deserializeEntries r.1.toNat r.2 .empty

/-! ## The round trip -/

/-- With distinct keys the order of the entries does not matter. -/
theorem Store.put_eq_some_iff {entries : List (Bytes × Bytes)}
    (hkeys : (entries.map Prod.fst).Nodup) (s : Store) (k v : Bytes) :
    s.put entries k = some v ↔
      (k, v) ∈ entries ∨ k ∉ entries.map Prod.fst ∧ s k = some v := by
  induction entries generalizing s with
  | nil =>
    rw [List.map_nil]
    simp [put]
  | cons kv entries ih =>
    obtain ⟨hnew, hkeys⟩ := List.nodup_cons.mp hkeys
    have hput : s.put (kv :: entries) = put (Function.update s kv.1 (some kv.2)) entries := rfl
    rw [hput, ih hkeys, List.map_cons, List.mem_cons, List.mem_cons]
    by_cases hk : k = kv.1
    · subst hk
      have hold : (kv.1, v) ∉ entries := fun hmem => hnew (List.mem_map.mpr ⟨_, hmem, rfl⟩)
      rw [Function.update_self, Option.some_inj]
      constructor
      · rintro (hmem | ⟨-, rfl⟩)
        · exact absurd hmem hold
        · exact Or.inl (Or.inl rfl)
      · rintro ((heq | hmem) | ⟨hne, -⟩)
        · exact Or.inr ⟨hnew, (congrArg Prod.snd heq).symm⟩
        · exact absurd hmem hold
        · exact absurd (Or.inl rfl) hne
    · have hne : (k, v) ≠ kv := fun heq => hk (congrArg Prod.fst heq)
      rw [Function.update_of_ne hk, or_iff_right hne, or_iff_right hk]

/-- What is gone through once in any order is the map. -/
theorem view_eq_ofEntries {m : KVStateMachine} {entries : List (Bytes × Bytes)}
    (horder : entries.Perm m.map_.bindings) : Store.ofEntries entries = m.view := by
  have hkeys : (entries.map Prod.fst).Nodup :=
    (horder.map Prod.fst).nodup_iff.mpr m.map_.keys_nodup
  funext k
  apply Option.ext
  intro v
  rw [Store.ofEntries, Store.put_eq_some_iff hkeys, horder.mem_iff, KVStateMachine.view,
    OrderedMap.find?_eq_some_iff]
  simp

/-- Restoring a snapshot, written in any order, gives the machine it was taken of, whatever was
there before; so no later command can tell the two apart. -/
theorem kv_snapshot_round_trip {m : KVStateMachine} {entries : List (Bytes × Bytes)}
    (horder : entries.Perm m.map_.bindings) (hcount : m.map_.size < 2 ^ 32)
    (hfits : ∀ k v, m.view k = some v → k.length < 2 ^ 32 ∧ v.length < 2 ^ 32)
    (m' : KVStateMachine) :
    m'.restore (KVStateMachine.serializeMap entries) = m ∧
      ∀ commands, (m'.restore (KVStateMachine.serializeMap entries)).applyAll commands =
        m.applyAll commands := by
  have hsnapshot : IsSnapshot (KVStateMachine.serializeMap entries) entries := by
    refine ⟨?_, ?_, rfl⟩
    · rw [horder.length_eq]
      exact hcount
    · rintro ⟨k, v⟩ hkv
      exact hfits k v ((OrderedMap.find?_eq_some_iff _).mpr (horder.mem_iff.mp hkv))
  have hview : (m'.restore (KVStateMachine.serializeMap entries)).view = m.view := by
    rw [m'.view_restore, hsnapshot.leadingEntries_eq, view_eq_ofEntries horder]
  have hsame : m'.restore (KVStateMachine.serializeMap entries) = m := by
    generalize m'.restore (KVStateMachine.serializeMap entries) = restored at hview ⊢
    obtain ⟨map⟩ := m
    obtain ⟨map'⟩ := restored
    exact congrArg KVStateMachine.mk (OrderedMap.eq_of_find?_eq hview)
  refine ⟨hsame, ?_⟩
  intro commands
  rw [hsame]

/-- Two keys, one of them empty, written in the other order. -/
theorem kv_snapshot_round_trip_reversed :
    let m : KVStateMachine := { map_ := (OrderedMap.empty.insert [] [118]).insert [107] [] }
    m.map_.bindings = [([], [118]), ([107], [])] ∧
      ∀ m' : KVStateMachine, m'.restore (KVStateMachine.serializeMap [([107], []), ([], [118])]) = m := by
  intro m
  have hbindings : m.map_.bindings = [([], [118]), ([107], [])] := by decide
  refine ⟨hbindings, fun m' => (kv_snapshot_round_trip ?_ ?_ ?_ m').1⟩
  · rw [hbindings]
    exact List.Perm.swap _ _ _
  · rw [OrderedMap.size, hbindings]
    exact Nat.lt_of_lt_of_le (by decide : 2 < 2 ^ 2) (Nat.pow_le_pow_right (by decide) (by decide))
  · intro k v hv
    rw [KVStateMachine.view, OrderedMap.find?_eq_some_iff, hbindings] at hv
    have hone : 1 < 2 ^ 32 := Nat.one_lt_two_pow (by decide)
    rcases List.mem_cons.mp hv with heq | hv
    · cases heq
      exact ⟨Nat.lt_trans Nat.zero_lt_one hone, hone⟩
    · cases List.mem_singleton.mp hv
      exact ⟨hone, Nat.lt_trans Nat.zero_lt_one hone⟩

end NexusLOB.Kv
