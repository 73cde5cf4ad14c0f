import NexusLOB.Net.MessageFormat
import NexusLOB.Raft.Persisting
import NexusLOB.Storage.HardStateFile
import NexusLOB.Storage.LogMirror

/-!
# A node and the files it leaves

The raft library works on a store that survives the process. The process really has a vector in
memory and two files: `appendNoSync` changes the vector and `log.bin`, `saveHardState` rewrites
`hardstate.bin`, and after a crash the constructor reads both files again. Whatever messages come
and wherever between two steps of the loop the process dies, the node that is built from the files
is the node that the surviving store would give, as long as terms and indices fit eight bytes and
payloads four gigabytes.
-/

namespace NexusLOB.App

open Raft Net.Wire
open Storage (writeHardState loadHardState)

/-! ## Words -/

/-- `static_cast<raft::EntryType>(t)` for the bytes that are written. -/
def entryType (t : UInt8) : EntryType :=
  if t = 1 then .confChange else if t = 2 then .confChangeV2 else .normal

def toEntry (e : Storage.Entry) : Entry :=
  { term := e.term.toNat, index := e.index.toNat, type := entryType e.type, data := e.data }

/-- The fields of a record have room for the entry. -/
structure EntryFits (e : Entry) : Prop where
  term : e.term < 2 ^ 64
  index : e.index < 2 ^ 64
  data : e.data.length < 2 ^ 32

instance (e : Entry) : Decidable (EntryFits e) :=
  decidable_of_iff (e.term < 2 ^ 64 ∧ e.index < 2 ^ 64 ∧ e.data.length < 2 ^ 32)
    ⟨fun h => ⟨h.1, h.2.1, h.2.2⟩, fun h => ⟨h.term, h.index, h.data⟩⟩

theorem index_ofEntry {e : Entry} (h : EntryFits e) : (ofEntry e).index.toNat = e.index :=
  UInt64.toNat_ofNat_of_lt' h.index

theorem toEntry_ofEntry {e : Entry} (h : EntryFits e) : toEntry (ofEntry e) = e := by
  have htype : entryType (Net.entryTypeByte e.type) = e.type := by
    cases e.type <;> rfl
  have hterm : (UInt64.ofNat e.term).toNat = e.term := UInt64.toNat_ofNat_of_lt' h.term
  have hindex : (UInt64.ofNat e.index).toNat = e.index := UInt64.toNat_ofNat_of_lt' h.index
  simp only [toEntry, ofEntry, htype, hterm, hindex]

theorem map_toEntry_map_ofEntry {log : List Entry} (h : ∀ e ∈ log, EntryFits e) :
    (log.map ofEntry).map toEntry = log := by
  rw [List.map_map]
  refine (List.map_congr_left fun e he => ?_).trans (List.map_id log)
  exact toEntry_ofEntry (h e he)

def ofHardState (hs : HardState) : Storage.HardState :=
  { term := UInt64.ofNat hs.term, vote := UInt64.ofNat hs.vote, commit := UInt64.ofNat hs.commit }

def toHardState (hs : Storage.HardState) : HardState :=
  { term := hs.term.toNat, vote := hs.vote.toNat, commit := hs.commit.toNat }

/-- The fields of the file have room for the hard state. -/
structure HardStateFits (hs : HardState) : Prop where
  term : hs.term < 2 ^ 64
  vote : hs.vote < 2 ^ 64
  commit : hs.commit < 2 ^ 64

instance (hs : HardState) : Decidable (HardStateFits hs) :=
  decidable_of_iff (hs.term < 2 ^ 64 ∧ hs.vote < 2 ^ 64 ∧ hs.commit < 2 ^ 64)
    ⟨fun h => ⟨h.1, h.2.1, h.2.2⟩, fun h => ⟨h.term, h.vote, h.commit⟩⟩

theorem toHardState_ofHardState {hs : HardState} (h : HardStateFits hs) :
    toHardState (ofHardState hs) = hs := by
  have hterm : (UInt64.ofNat hs.term).toNat = hs.term := UInt64.toNat_ofNat_of_lt' h.term
  have hvote : (UInt64.ofNat hs.vote).toNat = hs.vote := UInt64.toNat_ofNat_of_lt' h.vote
  have hcommit : (UInt64.ofNat hs.commit).toNat = hs.commit := UInt64.toNat_ofNat_of_lt' h.commit
  simp only [toHardState, ofHardState, hterm, hvote, hcommit]

theorem loadHardState_written {hs : HardState} (h : HardStateFits hs) :
    toHardState (loadHardState (some (writeHardState (ofHardState hs)))) = hs := by
  rw [loadHardState, Storage.readHardState_writeHardState, toHardState_ofHardState h]

theorem numbered_of_index {first : Nat} {es : List Storage.Entry}
    (h : ∀ j e, es[j]? = some e → e.index.toNat = first + j) : Storage.Numbered first es := by
  induction es generalizing first with
  | nil => trivial
  | cons e es ih =>
    refine ⟨h 0 e rfl, ih fun j e' he' => ?_⟩
    have := h (j + 1) e' he'
    omega

/-! ## A process on a directory -/

/-- A node with what its store has in memory and on disk. The configuration file is only read. -/
structure Host where
  peer : Peer
  wal : Storage.WriteAheadLog
  hardStateBin : Option Bytes
  confState : ConfState

namespace Host

/-- The store that the constructor builds from the files. -/
def opened (logBin : Bytes) (hardStateBin : Option Bytes) (cs : ConfState) : WriteAheadLog :=
  { entries_ := (Storage.WriteAheadLog.start logBin).entries_.map toEntry
    hardState_ := toHardState (loadHardState hardStateBin)
    confState_ := cs }

/-- A process that starts on the files. -/
def boot (c : Config) (logBin : Bytes) (hardStateBin : Option Bytes) (cs : ConfState)
    (draw : Nat) : Host :=
  { peer := Peer.start c (opened logBin hardStateBin cs) draw
    wal := Storage.WriteAheadLog.start logBin
    hardStateBin := hardStateBin
    confState := cs }

/-- One event of the loop, with what it writes. A restart has nothing but the files. -/
def handle (h : Host) (ev : Event) : Host :=
  match ev, h.peer.ready with
  | .persistEntries, some (.persistEntries, rd) =>
    { h with
      peer := (h.peer.handle ev).1
      wal := h.wal.appendNoSync (rd.entries.map ofEntry) }
  | .persistHardState, some (.persistHardState, rd) =>
    { h with
      peer := (h.peer.handle ev).1
      hardStateBin :=
        if rd.hardState.term ≠ 0 ∨ rd.hardState.commit ≠ 0 then
          some (writeHardState (ofHardState rd.hardState))
        else h.hardStateBin }
  | .restart draw, _ => boot h.peer.config h.wal.logBin h.hardStateBin h.confState draw
  | _, _ => { h with peer := (h.peer.handle ev).1 }

def exec (h : Host) (evs : List Event) : Host := evs.foldl handle h

end Host

/-- What the event writes has room in its fields. -/
def Writable (p : Peer) : Event → Prop
  | .persistEntries => ∀ r ∈ p.ready, r.1 = .persistEntries → ∀ e ∈ r.2.entries, EntryFits e
  | .persistHardState => ∀ r ∈ p.ready, r.1 = .persistHardState → HardStateFits r.2.hardState
  | _ => True

instance (p : Peer) (ev : Event) : Decidable (Writable p ev) :=
  match ev with
  | .persistEntries => inferInstanceAs (Decidable (∀ r ∈ p.ready, _ → ∀ e ∈ r.2.entries, _))
  | .persistHardState => inferInstanceAs (Decidable (∀ r ∈ p.ready, _ → _))
  | .tick _ | .step _ _ | .propose _ | .readIndex _ | .poll | .send | .advance | .restart _ =>
    isTrue trivial

/-- A log opened on the file shows what the log showed. -/
theorem shows_start_logBin {w : Storage.WriteAheadLog} {log : List Storage.Entry}
    (h : w.Shows log) : (Storage.WriteAheadLog.start w.logBin).Shows log where
  mirrored := by
    refine ⟨?_, ?_, ?_, rfl⟩
    · rw [h.reopened]
      exact h.mirrored.fits
    · rw [h.reopened]
      exact h.mirrored.length
    · rw [h.reopened]
      exact h.mirrored.logBin
  entries := h.reopened.trans h.entries
  numbered := h.numbered

/-! ## The files hold the store -/

/-- The store of the raft library, the vector and the files say the same. -/
structure Host.Faithful (h : Host) : Prop where
  inStep : InStep h.peer
  log : ∃ log, h.peer.storage.entries_ = {} :: log ∧ (∀ e ∈ log, EntryFits e) ∧
    h.wal.Shows (log.map ofEntry)
  hardState : toHardState (loadHardState h.hardStateBin) = h.peer.storage.hardState_
  confState : h.peer.storage.confState_ = h.confState
  snapTerm : h.peer.storage.snapTerm_ = 0

namespace Host

variable {h : Host}

theorem Faithful.opened (hf : h.Faithful) :
    Host.opened h.wal.logBin h.hardStateBin h.confState = h.peer.storage := by
  obtain ⟨log, hentries, hfits, hshows⟩ := hf.log
  have hsnap : h.peer.storage.snapIndex_ = 0 := hf.inStep.sound.wf.snapIndex
  have hvec : (Storage.WriteAheadLog.start h.wal.logBin).entries_.map toEntry =
      h.peer.storage.entries_ := by
    rw [hshows.reopened, hshows.entries, List.map_cons, map_toEntry_map_ofEntry hfits, hentries]
    rfl
  have hterm := hf.snapTerm
  rw [Host.opened, hvec, hf.hardState, ← hf.confState]
  generalize h.peer.storage = w at hsnap hterm ⊢
  cases w
  dsimp only at hsnap hterm
  rw [hsnap, hterm]

theorem faithful_boot (c : Config) (cs : ConfState) (draw : Nat) :
    (boot c [] none cs draw).Faithful where
  inStep := inStep_start c (plain_fresh cs) draw
  log := ⟨[], rfl, nofun, Storage.WriteAheadLog.shows_start⟩
  hardState := rfl
  confState := rfl
  snapTerm := rfl

/-- A step that writes nothing. -/
theorem Faithful.keep (hf : h.Faithful) {p : Peer} (hin : InStep p)
    (hsto : p.storage = h.peer.storage) : Faithful { h with peer := p } where
  inStep := hin
  log := hsto ▸ hf.log
  hardState := hsto ▸ hf.hardState
  confState := hsto ▸ hf.confState
  snapTerm := hsto ▸ hf.snapTerm

/-- The entries of a `Ready` are numbered from where the window starts. -/
theorem Faithful.entries_index (hf : h.Faithful) {rd : Ready}
    (hready : h.peer.ready = some (.persistEntries, rd)) {j : Nat} {e : Entry}
    (he : rd.entries[j]? = some e) :
    e.index = h.peer.node.log_.unstable_.offset_ + j ∧
      1 ≤ h.peer.node.log_.unstable_.offset_ := by
  have hwf : h.peer.node.log_.WF := hf.inStep.sound.wf
  have hun := Consensus.getElem?_eq_some_of_isPrefix (hf.inStep.pending hready).entries he
  refine ⟨hwf.unstable_index hun, hwf.offset_pos ?_⟩
  intro hnil
  rw [hnil] at hun
  cases hun

theorem Faithful.follows (hf : h.Faithful) {rd : Ready}
    (hready : h.peer.ready = some (.persistEntries, rd)) (hfits : ∀ e ∈ rd.entries, EntryFits e) :
    h.wal.Follows (rd.entries.map ofEntry) := by
  obtain ⟨log, hentries, -, hshows⟩ := hf.log
  have hwf : h.peer.node.log_.WF := hf.inStep.sound.wf
  have hstored : h.peer.node.log_.storage_.stored = log := by
    change h.peer.storage.entries_.drop 1 = log
    rw [hentries]
    rfl
  have hwindow := hwf.window
  rw [hstored] at hwindow
  refine ⟨?_, fun e he => ?_⟩
  · by_cases hnil : rd.entries = []
    · rw [hnil]
      exact ⟨1, Nat.le_refl 1, Nat.le_add_left 1 _, trivial⟩
    · refine ⟨h.peer.node.log_.unstable_.offset_, ?_, ?_, numbered_of_index fun j e he => ?_⟩
      · have hhead := List.getElem?_eq_getElem (List.length_pos_of_ne_nil hnil)
        exact (hf.entries_index hready hhead).2
      · rw [hshows.lastIndex, List.length_map]
        exact hwindow
      · rw [List.getElem?_map] at he
        obtain ⟨e', he', rfl⟩ := Option.map_eq_some_iff.mp he
        rw [index_ofEntry (hfits e' (List.mem_of_getElem? he'))]
        exact (hf.entries_index hready he').1
  · obtain ⟨e', he', rfl⟩ := List.mem_map.mp he
    exact (hfits e' he').data

/-- What a batch of a `Ready` does to the vector. -/
theorem Faithful.entries_appendNoSync (hf : h.Faithful) {rd : Ready}
    (hready : h.peer.ready = some (.persistEntries, rd)) (hfits : ∀ e ∈ rd.entries, EntryFits e)
    {log : List Entry} (hentries : h.peer.storage.entries_ = {} :: log) :
    ∃ log', (h.peer.storage.appendNoSync rd.entries).entries_ = {} :: log' ∧
      log'.map ofEntry = Storage.overwrite (log.map ofEntry) (rd.entries.map ofEntry) ∧
      ∀ e ∈ log', e ∈ log ∨ e ∈ rd.entries := by
  cases hents : rd.entries with
  | nil => exact ⟨log, hentries, rfl, fun e he => Or.inl he⟩
  | cons e es =>
    obtain ⟨hidx, hpos⟩ := hf.entries_index hready (j := 0) (e := e) (by rw [hents]; rfl)
    obtain ⟨k, hk⟩ : ∃ k, e.index = k + 1 := ⟨e.index - 1, by omega⟩
    have hword : (ofEntry e).index.toNat = e.index :=
      index_ofEntry (hfits e (by rw [hents]; exact List.mem_cons_self))
    have hkept : (if e.index ≤ h.peer.storage.lastIndex then
        h.peer.storage.entries_.take e.index else h.peer.storage.entries_) =
          {} :: log.take k := by
      rw [WriteAheadLog.lastIndex, hentries, List.length_cons, Nat.add_sub_cancel, hk]
      split_ifs with hle
      · rfl
      · rw [List.take_of_length_le (by omega)]
    refine ⟨log.take k ++ e :: es, ?_, ?_, ?_⟩
    · simp only [WriteAheadLog.appendNoSync, hkept]
      rfl
    · rw [List.map_cons, Storage.overwrite, hword, hk, Nat.add_sub_cancel, List.map_append,
        List.map_take, List.map_cons]
    · intro e' he'
      rcases List.mem_append.mp he' with he' | he'
      · exact Or.inl (List.mem_of_mem_take he')
      · exact Or.inr he'

theorem Faithful.persistEntries (hf : h.Faithful) {rd : Ready}
    (hready : h.peer.ready = some (.persistEntries, rd)) (hfits : ∀ e ∈ rd.entries, EntryFits e) :
    (h.handle .persistEntries).Faithful := by
  have hin := hf.inStep.handle_lawful (show Event.Lawful .persistEntries from trivial)
  have hsto : (h.peer.handle .persistEntries).1.storage =
      h.peer.storage.appendNoSync rd.entries := by
    simp only [Peer.handle, hready]
    rfl
  have hsame : (h.peer.storage.appendNoSync rd.entries).hardState_ = h.peer.storage.hardState_ ∧
      (h.peer.storage.appendNoSync rd.entries).confState_ = h.peer.storage.confState_ ∧
      (h.peer.storage.appendNoSync rd.entries).snapTerm_ = h.peer.storage.snapTerm_ := by
    cases rd.entries with
    | nil => exact ⟨rfl, rfl, rfl⟩
    | cons e es => exact ⟨rfl, rfl, rfl⟩
  have hhandle : h.handle .persistEntries =
      { h with
        peer := (h.peer.handle .persistEntries).1
        wal := h.wal.appendNoSync (rd.entries.map ofEntry) } := by
    simp only [Host.handle, hready]
  obtain ⟨log, hentries, hlog, hshows⟩ := hf.log
  obtain ⟨log', hentries', hmap, hmem⟩ := hf.entries_appendNoSync hready hfits hentries
  rw [hhandle]
  refine ⟨hin, ⟨log', ?_, ?_, ?_⟩, ?_, ?_, ?_⟩
  · rw [hsto]
    exact hentries'
  · intro e he
    rcases hmem e he with he | he
    · exact hlog e he
    · exact hfits e he
  · rw [hmap]
    exact hshows.appendNoSync (hf.follows hready hfits)
  · rw [hsto, hsame.1]
    exact hf.hardState
  · rw [hsto, hsame.2.1]
    exact hf.confState
  · rw [hsto, hsame.2.2]
    exact hf.snapTerm

theorem Faithful.persistHardState (hf : h.Faithful) {rd : Ready}
    (hready : h.peer.ready = some (.persistHardState, rd)) (hfits : HardStateFits rd.hardState) :
    (h.handle .persistHardState).Faithful := by
  have hin := hf.inStep.handle_lawful (show Event.Lawful .persistHardState from trivial)
  have hpeer : (h.peer.handle .persistHardState).1 =
      { h.peer.saveHardState rd.hardState with ready := some (.send, rd) } := by
    simp only [Peer.handle, hready]
  have hhandle : h.handle .persistHardState =
      { h with
        peer := (h.peer.handle .persistHardState).1
        hardStateBin :=
          if rd.hardState.term ≠ 0 ∨ rd.hardState.commit ≠ 0 then
            some (writeHardState (ofHardState rd.hardState))
          else h.hardStateBin } := by
    simp only [Host.handle, hready]
  rw [hhandle]
  rw [hpeer] at hin ⊢
  unfold Peer.saveHardState at hin ⊢
  split_ifs at hin ⊢
  · exact ⟨hin, hf.log, loadHardState_written hfits, hf.confState, hf.snapTerm⟩
  · exact hf.keep hin rfl

/-- Every event keeps the files faithful, and the node is the one on the surviving store. -/
theorem Faithful.handle (hf : h.Faithful) {ev : Event} (hev : ev.Lawful)
    (hw : Writable h.peer ev) :
    (h.handle ev).Faithful ∧ (h.handle ev).peer = (h.peer.handle ev).1 := by
  have hin := hf.inStep.handle_lawful hev
  have hquiet : ev ≠ .persistEntries → ev ≠ .persistHardState →
      h.handle ev = { h with peer := (h.peer.handle ev).1 } →
      (h.handle ev).Faithful ∧ (h.handle ev).peer = (h.peer.handle ev).1 := by
    intro he hs heq
    rw [heq]
    exact ⟨hf.keep hin (handle_storage hf.inStep he hs), rfl⟩
  have hstay : (h.peer.handle ev).1 = h.peer →
      h.handle ev = { h with peer := (h.peer.handle ev).1 } →
      (h.handle ev).Faithful ∧ (h.handle ev).peer = (h.peer.handle ev).1 := by
    intro hsame heq
    rw [heq, hsame]
    exact ⟨hf, rfl⟩
  cases ev with
  | persistEntries =>
    rcases hready : h.peer.ready with _ | ⟨_ | _ | _ | _, rd⟩
    case some.persistEntries =>
      exact ⟨hf.persistEntries hready (hw _ hready rfl), by simp only [Host.handle, hready]⟩
    all_goals exact hstay (by simp only [Peer.handle, hready]) (by simp only [Host.handle, hready])
  | persistHardState =>
    rcases hready : h.peer.ready with _ | ⟨_ | _ | _ | _, rd⟩
    case some.persistHardState =>
      exact ⟨hf.persistHardState hready (hw _ hready rfl), by simp only [Host.handle, hready]⟩
    all_goals exact hstay (by simp only [Peer.handle, hready]) (by simp only [Host.handle, hready])
  | restart draw =>
    have hpeer : (h.handle (.restart draw)).peer = (h.peer.handle (.restart draw)).1 := by
      change Peer.start h.peer.config (Host.opened _ _ _) draw = _
      rw [hf.opened]
      rfl
    refine ⟨?_, hpeer⟩
    have hsto := handle_storage hf.inStep
      (show Event.restart draw ≠ .persistEntries from nofun) nofun
    obtain ⟨log, hentries, hlog, hshows⟩ := hf.log
    refine ⟨hpeer ▸ hin, ⟨log, ?_, hlog, shows_start_logBin hshows⟩, ?_, ?_, ?_⟩
    · rw [hpeer, hsto]
      exact hentries
    · rw [hpeer, hsto]
      exact hf.hardState
    · rw [hpeer, hsto]
      exact hf.confState
    · rw [hpeer, hsto]
      exact hf.snapTerm
  | tick | step | propose | readIndex | poll | send | advance => exact hquiet nofun nofun rfl

theorem confState_exec (h : Host) (evs : List Event) :
    (h.exec evs).confState = h.confState := by
  induction evs generalizing h with
  | nil => rfl
  | cons ev evs ih =>
    refine (ih _).trans ?_
    unfold Host.handle
    split
    all_goals rfl

theorem Faithful.run (hf : h.Faithful) {evs : List Event} (hevs : ∀ ev ∈ evs, ev.Lawful)
    (hw : h.peer.Along Writable evs) :
    (h.exec evs).Faithful ∧ (h.exec evs).peer = h.peer.exec evs := by
  induction evs generalizing h with
  | nil => exact ⟨hf, rfl⟩
  | cons ev evs ih =>
    obtain ⟨hf', hpeer⟩ := hf.handle (hevs ev List.mem_cons_self) hw.1
    obtain ⟨hrun, hsame⟩ := ih hf' (fun ev' hev' => hevs ev' (List.mem_cons_of_mem _ hev'))
      (hpeer ▸ hw.2)
    refine ⟨hrun, hsame.trans ?_⟩
    rw [hpeer]
    rfl

end Host

end NexusLOB.App
