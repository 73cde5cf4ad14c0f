import NexusLOB.Protocol.KVCodec

/-!
# The key-value state machine

`KVStateMachine::apply` decodes a command and runs it on a hash map, of which no iteration order is
used here. `DEL` erases through the iterator its lookup returned, also where that is the end
iterator; the standard leaves this undefined, and `apply` has no result there.
-/

namespace NexusLOB.Kv

open Codec Collections Lob Protocol

structure KVStateMachine where
  map_ : OrderedMap Bytes Bytes less := .empty
  deriving DecidableEq, Repr

namespace KVStateMachine

def writeStr (s : Bytes) : Bytes := putStr s

/-- Opcode, key and value. Only a `SET` has a value, and bytes after the command are ignored. -/
def decode (data : Bytes) : Option (UInt8 × Bytes × Bytes) := do
  let (op, data) ← getU8 data
  let (key, data) ← readStr data
  if op = opSet then
    let (val, _) ← readStr data
    return (op, key, val)
  else
    return (op, key, [])

/-- `[existed:1][valLen:4][val]`, of what the lookup found. -/
def writeResult (it : Option Bytes) : Bytes :=
  (if it.isSome then 1 else 0) :: writeStr (it.getD [])

def apply (m : KVStateMachine) (data : Bytes) : Option (Bytes × KVStateMachine) :=
  match decode data with
  | none => some ([], m)
  | some (op, key, val) =>
    let it := m.map_.find? key
    if op = opSet then some (writeResult it, { m with map_ := m.map_.insert key val })
    else if op = opGet then some (writeResult it, m)
    else if op = opDel then
      if it.isSome then some (writeResult it, { m with map_ := m.map_.erase key }) else none
    else some ([], m)

/-- Commands one after the other, with the results. -/
def applyAll (m : KVStateMachine) : List Bytes → Option (List Bytes × KVStateMachine)
  | [] => some ([], m)
  | data :: commands => do
    let (result, m) ← m.apply data
    let (results, m) ← m.applyAll commands
    return (result :: results, m)

/-- A request as its client sees it: the command applied, and the response read off the result. -/
def serve (m : KVStateMachine) (req : ClientRequest) : Option (ClientResponse × KVStateMachine) :=
  (m.apply (KVCodec.encode req)).map fun r => (KVCodec.decodeResult r.1, r.2)

def serveAll (m : KVStateMachine) :
    List ClientRequest → Option (List ClientResponse × KVStateMachine)
  | [] => some ([], m)
  | req :: reqs => do
    let (resp, m) ← m.serve req
    let (resps, m) ← m.serveAll reqs
    return (resp :: resps, m)

/-! ## Commands and results as bytes -/

theorem decode_encodeSet {key value : Bytes} (hkey : key.length < 2 ^ 32)
    (hvalue : value.length < 2 ^ 32) :
    decode (encodeSet key value) = some (opSet, key, value) := by
  simp only [encodeSet, decode, appendStr, readStr, getU8_cons, bind, Option.bind_some,
    getStr_putStr hkey, getStr_putStr_nil hvalue, if_true, pure]

theorem decode_encodeGet {key : Bytes} (hkey : key.length < 2 ^ 32) :
    decode (encodeGet key) = some (opGet, key, []) := by
  simp only [encodeGet, decode, appendStr, readStr, getU8_cons, bind, Option.bind_some,
    getStr_putStr_nil hkey, if_neg (by decide : opGet ≠ opSet), pure]

theorem decode_encodeDel {key : Bytes} (hkey : key.length < 2 ^ 32) :
    decode (encodeDel key) = some (opDel, key, []) := by
  simp only [encodeDel, decode, appendStr, readStr, getU8_cons, bind, Option.bind_some,
    getStr_putStr_nil hkey, if_neg (by decide : opDel ≠ opSet), pure]

/-- The client reads back what the lookup found, unless the value has outgrown its length word. -/
theorem decodeResult_writeResult_iff (it : Option Bytes) :
    KVCodec.decodeResult (writeResult it) = { found := it.isSome, value := it.getD [] } ↔
      ∀ v, it = some v → v.length < 2 ^ 32 := by
  constructor
  · rintro hresp v rfl
    have hvalue := congrArg ClientResponse.value hresp
    have hlen := KVCodec.length_value_decodeResult (writeResult (some v))
    rwa [hvalue] at hlen
  · intro hlen
    have hread : readStr (writeStr (it.getD [])) = some (it.getD [], []) := by
      refine getStr_putStr_nil ?_
      cases it with
      | none => exact Nat.two_pow_pos 32
      | some v => exact hlen v rfl
    simp only [KVCodec.decodeResult, decodeApplyResult, writeResult, getU8_cons, hread]
    cases it with
    | none => rfl
    | some v => rfl

/-- Bytes that are no command change nothing. -/
theorem apply_of_undecodable (m : KVStateMachine) {data : Bytes} (h : decode data = none) :
    m.apply data = some ([], m) := by
  rw [apply, h]

end KVStateMachine

end NexusLOB.Kv
