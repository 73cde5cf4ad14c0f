import NexusLOB.Protocol.LOBCodec
import NexusLOB.Raft.Types

/-!
# Key-value commands as bytes

A command is an opcode and one or two strings, each with its length in front. The state machine
answers with whether the key was bound and the value it was bound to. `KVCodec` writes the command
of a client's request and reads the response off the result.
-/

namespace NexusLOB.Kv

open Codec Lob

namespace Protocol

def opSet : UInt8 := 0x01

def opGet : UInt8 := 0x02

def opDel : UInt8 := 0x03

def appendStr (s : Bytes) : Bytes := putStr s

def readStr : Reader Bytes := getStr

def encodeSet (key value : Bytes) : Bytes := opSet :: (appendStr key ++ appendStr value)

def encodeGet (key : Bytes) : Bytes := opGet :: appendStr key

def encodeDel (key : Bytes) : Bytes := opDel :: appendStr key

/-- Whether the result was read to its end, with `found` and `value` as the call leaves them:
`found` is set before the value is read. -/
def decodeApplyResult (bytes : Bytes) (found : Bool) (value : Bytes) : Bool × Bool × Bytes :=
  match getU8 bytes with
  | none => (false, found, value)
  | some (f, bytes) =>
    match readStr bytes with
    | none => (false, f != 0, value)
    | some (value, _) => (true, f != 0, value)

end Protocol

open Protocol

structure ClientResponse where
  ok : Bool := true
  err : Bytes := []
  found : Bool := false
  value : Bytes := []
  leaderHint : Raft.NodeId := 0
  deriving DecidableEq, Repr

namespace KVCodec

def encode (req : ClientRequest) : Bytes :=
  match req.op with
  | .set => encodeSet req.key req.value
  | .get => encodeGet req.key
  | .del => encodeDel req.key

def decodeResult (result : Bytes) : ClientResponse :=
  let r := decodeApplyResult result false []
  { ok := true, found := r.2.1, value := r.2.2 }

/-- A value that is read fits its length word. -/
theorem length_value_decodeResult (result : Bytes) :
    (decodeResult result).value.length < 2 ^ 32 := by
  change (decodeApplyResult result false []).2.2.length < 2 ^ 32
  unfold decodeApplyResult
  split
  · exact Nat.two_pow_pos 32
  · split
    · exact Nat.two_pow_pos 32
    · next hread => exact length_lt_of_getStr hread

end KVCodec

end NexusLOB.Kv
