import NexusLOB.KeyValue.KVStateMachine

/-!
# The key-value store is a map

What a finite map does on the same requests, and when the state machine does it too. The two agree
request by request, with one exception: a `DEL` of a key that is not bound erases the end iterator,
and no state or response of the run is defined from there on.

The values a machine stores came through a command, so they fit the length word of a result: a
machine in which one does not is none that commands lead to.
-/

namespace NexusLOB.Kv

open Codec Collections Lob Protocol

/-! ## The map -/

/-- A map by its lookup function. -/
abbrev Store := Bytes → Option Bytes

namespace Store

/-- Every request reports what its key was bound to before it. -/
def respond (s : Store) (req : ClientRequest) : ClientResponse :=
  { found := (s req.key).isSome, value := (s req.key).getD [] }

def update (s : Store) (req : ClientRequest) : Store :=
  match req.op with
  | .set => Function.update s req.key (some req.value)
  | .get => s
  | .del => Function.update s req.key none

def run (s : Store) : List ClientRequest → List ClientResponse × Store
  | [] => ([], s)
  | req :: reqs => (s.respond req :: ((s.update req).run reqs).1, ((s.update req).run reqs).2)

/-- Every `DEL` finds its key bound when its turn comes. -/
def DelsBound (s : Store) : List ClientRequest → Prop
  | [] => True
  | req :: reqs => (req.op = .del → s req.key ≠ none) ∧ (s.update req).DelsBound reqs

/-- What the key is bound to fits the length word of a result. -/
def Fits (s : Store) (key : Bytes) : Prop := ∀ v, s key = some v → v.length < 2 ^ 32

variable {s : Store} {req : ClientRequest}

theorem update_of_ne {key : Bytes} (h : key ≠ req.key) : s.update req key = s key := by
  unfold update
  cases req.op with
  | set => exact Function.update_of_ne h _ _
  | get => rfl
  | del => exact Function.update_of_ne h _ _

theorem fits_update_self (hvalue : req.value.length < 2 ^ 32) (hkey : s.Fits req.key) :
    (s.update req).Fits req.key := by
  intro v hv
  unfold update at hv
  cases hop : req.op with
  | set =>
    rw [hop] at hv
    simp only [Function.update_self, Option.some.injEq] at hv
    rwa [← hv]
  | get =>
    rw [hop] at hv
    exact hkey v hv
  | del =>
    rw [hop] at hv
    simp only [Function.update_self, reduceCtorEq] at hv

/-- A request with a short value changes nothing about which keys fit, once its own does. -/
theorem fits_update_iff (hvalue : req.value.length < 2 ^ 32) (hkey : s.Fits req.key)
    (key : Bytes) : (s.update req).Fits key ↔ s.Fits key := by
  by_cases h : key = req.key
  · rw [h]
    exact iff_of_true (fits_update_self hvalue hkey) hkey
  · rw [Fits, update_of_ne h]
    rfl

end Store

namespace KVStateMachine

variable {m m' : KVStateMachine} {req : ClientRequest}

/-- The map the machine holds. -/
def view (m : KVStateMachine) : Store := m.map_.find?

/-! ## Stored values -/

theorem length_val_of_decode {data key val : Bytes} {op : UInt8}
    (h : decode data = some (op, key, val)) : val.length < 2 ^ 32 := by
  unfold decode at h
  obtain ⟨⟨op', data₁⟩, _, h⟩ := Option.bind_eq_some_iff.mp h
  obtain ⟨⟨key', data₂⟩, _, h⟩ := Option.bind_eq_some_iff.mp h
  dsimp only at h
  split at h
  · obtain ⟨⟨val', data₃⟩, hval, h⟩ := Option.bind_eq_some_iff.mp h
    cases h
    exact length_lt_of_getStr hval
  · cases h
    exact Nat.two_pow_pos 32

/-- Whatever the bytes are, the store stays as it is or takes a request with a short value. -/
theorem view_apply {data result : Bytes} (h : m.apply data = some (result, m')) :
    m'.view = m.view ∨ ∃ req : ClientRequest, req.value.length < 2 ^ 32 ∧
      m'.view = m.view.update req := by
  unfold apply at h
  split at h
  · cases h
    exact Or.inl rfl
  · next op key val hdecode =>
    have hval := length_val_of_decode hdecode
    dsimp only at h
    split at h
    · cases h
      exact Or.inr ⟨{ op := .set, key := key, value := val }, hval,
        OrderedMap.find?_insert_eq m.map_ key val⟩
    · split at h
      · cases h
        exact Or.inl rfl
      · split at h
        · split at h
          · cases h
            exact Or.inr ⟨{ op := .del, key := key, value := val }, hval,
              OrderedMap.find?_erase_eq m.map_ key⟩
          · cases h
        · cases h
          exact Or.inl rfl

/-- The machines that commands lead to from the empty store. -/
inductive Reached : KVStateMachine → Prop
  | start : Reached {}
  | apply {m m' : KVStateMachine} {data result : Bytes} :
      Reached m → m.apply data = some (result, m') → Reached m'

theorem Reached.fits (h : Reached m) (key : Bytes) : m.view.Fits key := by
  induction h generalizing key with
  | start =>
    intro v hv
    cases hv
  | apply hreached happly ih =>
    rcases view_apply happly with hview | ⟨req, hvalue, hview⟩
    · rw [hview]
      exact ih key
    · rw [hview]
      exact (Store.fits_update_iff hvalue (ih req.key) key).mpr (ih key)

/-! ## One request -/

/-- A request other than a `DEL` of an unbound key. -/
theorem serve_of_bound (hkey : req.key.length < 2 ^ 32) (hvalue : req.value.length < 2 ^ 32)
    (hdel : req.op = .del → m.view req.key ≠ none) :
    ∃ m', m.serve req = some (KVCodec.decodeResult (writeResult (m.view req.key)), m') ∧
      m'.view = m.view.update req := by
  unfold serve KVCodec.encode Store.update
  cases hop : req.op with
  | set =>
    refine ⟨{ m with map_ := m.map_.insert req.key req.value }, ?_,
      OrderedMap.find?_insert_eq m.map_ req.key req.value⟩
    simp only [apply, decode_encodeSet hkey hvalue, if_true, Option.map_some, view]
  | get =>
    refine ⟨m, ?_, rfl⟩
    simp only [apply, decode_encodeGet hkey, if_neg (by decide : opGet ≠ opSet), if_true,
      Option.map_some, view]
  | del =>
    have hbound : (m.map_.find? req.key).isSome = true :=
      Option.isSome_iff_ne_none.mpr (hdel hop)
    refine ⟨{ m with map_ := m.map_.erase req.key }, ?_,
      OrderedMap.find?_erase_eq m.map_ req.key⟩
    simp only [apply, decode_encodeDel hkey, if_neg (by decide : opDel ≠ opSet),
      if_neg (by decide : opDel ≠ opGet), if_true, hbound, Option.map_some, view]

theorem serve_del_unbound (hkey : req.key.length < 2 ^ 32) (hop : req.op = .del)
    (hnone : m.view req.key = none) : m.serve req = none := by
  have hfind : m.map_.find? req.key = none := hnone
  simp only [serve, KVCodec.encode, hop, apply, decode_encodeDel hkey,
    if_neg (by decide : opDel ≠ opSet), if_neg (by decide : opDel ≠ opGet), if_true, hfind,
    Option.isSome_none, Bool.false_eq_true, if_false, Option.map_none]

/-! ## A run -/

/-- The requests are served, with the responses of the map and its bindings at the end. -/
def FollowsMap (m : KVStateMachine) (reqs : List ClientRequest) : Prop :=
  ∃ m', m.serveAll reqs = some ((Store.run m.view reqs).1, m') ∧
    m'.view = (Store.run m.view reqs).2

theorem followsMap_cons_iff {reqs : List ClientRequest} {resp : ClientResponse}
    (hserve : m.serve req = some (resp, m')) (hview : m'.view = m.view.update req) :
    m.FollowsMap (req :: reqs) ↔ resp = m.view.respond req ∧ m'.FollowsMap reqs := by
  unfold FollowsMap
  simp only [serveAll, hserve, bind, Option.bind_some, pure, Store.run, ← hview]
  constructor
  · rintro ⟨m'', hrun, hend⟩
    obtain ⟨⟨resps, m₂⟩, hrest, heq⟩ := Option.bind_eq_some_iff.mp hrun
    obtain ⟨hresps, rfl⟩ := Prod.mk.inj (Option.some.inj heq)
    obtain ⟨hresp, rfl⟩ := List.cons.inj hresps
    exact ⟨hresp, m₂, hrest, hend⟩
  · rintro ⟨rfl, m'', hrest, hend⟩
    refine ⟨m'', ?_, hend⟩
    rw [hrest, Option.bind_some]

/-- The machine does what the map does as long as no `DEL` meets an unbound key and what is stored
under the requested keys fits a result. -/
theorem followsMap_iff (m : KVStateMachine) (reqs : List ClientRequest)
    (hlen : ∀ req ∈ reqs, req.key.length < 2 ^ 32 ∧ req.value.length < 2 ^ 32) :
    m.FollowsMap reqs ↔ m.view.DelsBound reqs ∧ ∀ req ∈ reqs, m.view.Fits req.key := by
  induction reqs generalizing m with
  | nil => exact iff_of_true ⟨m, rfl, rfl⟩ ⟨trivial, List.forall_mem_nil _⟩
  | cons req reqs ih =>
    obtain ⟨hkey, hvalue⟩ := hlen req List.mem_cons_self
    by_cases hdel : req.op = .del → m.view req.key ≠ none
    · obtain ⟨m', hserve, hview⟩ := serve_of_bound hkey hvalue hdel
      have htail := ih m' fun r hr => hlen r (List.mem_cons_of_mem req hr)
      rw [followsMap_cons_iff hserve hview, htail, hview, Store.respond,
        decodeResult_writeResult_iff, Store.DelsBound, and_iff_right hdel, List.forall_mem_cons]
      constructor
      · rintro ⟨hfits, hdels, hrest⟩
        exact ⟨hdels, hfits, fun r hr =>
          (Store.fits_update_iff hvalue hfits r.key).mp (hrest r hr)⟩
      · rintro ⟨hdels, hfits, hrest⟩
        exact ⟨hfits, hdels, fun r hr =>
          (Store.fits_update_iff hvalue hfits r.key).mpr (hrest r hr)⟩
    · -- the run ends at the erased end iterator
      obtain ⟨hop, hnone⟩ := Classical.not_imp.mp hdel
      have hserve : m.serve req = none := serve_del_unbound hkey hop (not_not.mp hnone)
      refine iff_of_false ?_ fun h => hdel h.1.1
      rintro ⟨m', hrun, -⟩
      rw [serveAll, hserve] at hrun
      cases hrun

/-- In a machine that commands led to, only the `DEL`s matter. -/
theorem Reached.followsMap_iff_delsBound (h : Reached m) {reqs : List ClientRequest}
    (hlen : ∀ req ∈ reqs, req.key.length < 2 ^ 32 ∧ req.value.length < 2 ^ 32) :
    m.FollowsMap reqs ↔ m.view.DelsBound reqs := by
  rw [followsMap_iff m reqs hlen]
  exact and_iff_left fun req _ => h.fits req.key

theorem kv_commands_follow_map_iff (m : KVStateMachine) (reqs : List ClientRequest)
    (hlen : ∀ req ∈ reqs, req.key.length < 2 ^ 32 ∧ req.value.length < 2 ^ 32) :
    (m.FollowsMap reqs ∧ ∀ data, decode data = none → m.apply data = some ([], m)) ↔
      m.view.DelsBound reqs ∧ ∀ req ∈ reqs, m.view.Fits req.key := by
  rw [followsMap_iff m reqs hlen]
  exact and_iff_left fun _ => m.apply_of_undecodable

/-- `SET x 5`, `GET x`, `DEL x` on the empty store. -/
theorem kv_commands_follow_map_iff_set_get_del :
    FollowsMap {} [⟨.set, [0x78], [0x35]⟩, ⟨.get, [0x78], []⟩, ⟨.del, [0x78], []⟩] ∧
      ∀ data, decode data = none → apply {} data = some ([], {}) := by
  refine (kv_commands_follow_map_iff {} _ ?_).mpr ⟨?_, ?_⟩
  · decide
  · simp [Store.DelsBound, Store.update]
  · intro req _ v hv
    cases hv

/-- `DEL x` on the empty store erases the end iterator. -/
theorem del_of_unbound_key_undefined : apply {} (KVCodec.encode ⟨.del, [0x78], []⟩) = none := by
  decide

end KVStateMachine

end NexusLOB.Kv
