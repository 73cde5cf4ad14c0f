import NexusLOB.Protocol.KVCodec

/-!
# Results as client responses

The bytes that applying a command returns do not say which command it was. `LOBCodec::decodeResult`
tries the format of a NEW first and takes them for a flag otherwise. A flag alone is too short for
the first format, and a NEW is read in it whatever its count of fills wraps to.
-/

namespace NexusLOB.Lob

open Codec OrderProtocol

/-! ## The codec -/

/-- `std::to_string`. -/
def toText (v : Int64) : Bytes :=
  let digits := (Nat.toDigits 10 v.toInt.natAbs).map fun c => UInt8.ofNat c.toNat
  if v < 0 then 0x2d :: digits else digits

/-- `"F <quantity>@<price> "`. -/
def fillText (f : Fill) : Bytes :=
  [0x46, 0x20] ++ toText f.quantity ++ [0x40] ++ toText f.price ++ [0x20]

/-- The fills, and `"REST <remaining>"` if something rests. -/
def summaryText (fills : List Fill) (rested : Bool) (remaining : Int64) : Bytes :=
  fills.flatMap fillText ++
    if rested then [0x52, 0x45, 0x53, 0x54, 0x20] ++ toText remaining else []

def LOBCodec.decodeResult (result : Bytes) : Kv.ClientResponse :=
  if result = [] then { ok := false }
  else
    match decodeNewResult result with
    | some (fills, rested, remaining) =>
      { ok := true, found := !fills.isEmpty, value := summaryText fills rested remaining }
    | none =>
      match decodeSimpleResult result with
      | some ok => { ok := ok }
      | none => { ok := false }

/-! ## The two formats apart -/

theorem getI64_isSome {bs : Bytes} (h : 8 ≤ bs.length) : ∃ v rest, getI64 bs = some (v, rest) := by
  have hword : getU64 bs = some (UInt64.ofNat (leValue (bs.take 8)), bs.drop 8) := by
    rw [getU64, getBytes, if_pos h]
    rfl
  rw [getI64, hword]
  exact ⟨_, _, rfl⟩

/-- A NEW result is read, also where the fills are more than their count can say. -/
theorem decodeNewResult_encodeNewResult_ne_none (fills : List Fill) (rested : Bool)
    (remainingQty : Int64) :
    decodeNewResult (encodeNewResult fills rested remainingQty) ≠ none := by
  obtain ⟨n, hn⟩ : ∃ n, n = (UInt32.ofNat fills.length).toNat := ⟨_, rfl⟩
  have hle : n ≤ fills.length := by
    rw [hn, UInt32.toNat_ofNat']
    exact Nat.mod_le _ _
  have hsplit := decodeNewResult_split (fills.take n) (fills.drop n) rested remainingQty (by
    rw [List.take_append_drop, ← hn, List.length_take_of_le hle])
  rw [List.take_append_drop] at hsplit
  -- behind the fills that are counted there are nine bytes at least
  obtain ⟨r, data, hdata⟩ : ∃ r data, (fills.drop n).flatMap putFill ++
      ((if rested then 1 else 0) :: putI64 remainingQty) = r :: data := by
    refine List.exists_cons_of_ne_nil ?_
    exact List.append_ne_nil_of_right_ne_nil _ (List.cons_ne_nil _ _)
  have hlong : 8 ≤ data.length := by
    have hlen := congrArg List.length hdata
    rw [List.length_append, List.length_cons, List.length_cons, length_putI64] at hlen
    omega
  obtain ⟨v, rest, hv⟩ := getI64_isSome hlong
  rw [hsplit, hdata, getU8_cons]
  simp only [bind, Option.bind_some, hv, pure]
  exact Option.some_ne_none _

theorem decodeNewResult_encodeSimpleResult (ok : Bool) :
    decodeNewResult (encodeSimpleResult ok) = none := by
  cases ok <;> rfl

theorem LOBCodec.ok_decodeResult_new (fills : List Fill) (rested : Bool) (remainingQty : Int64) :
    (decodeResult (encodeNewResult fills rested remainingQty)).ok = true := by
  have hne : encodeNewResult fills rested remainingQty ≠ [] := List.cons_ne_nil _ _
  obtain ⟨r, hr⟩ := Option.ne_none_iff_exists'.mp
    (decodeNewResult_encodeNewResult_ne_none fills rested remainingQty)
  rw [decodeResult, if_neg hne, hr]

theorem LOBCodec.ok_decodeResult_simple (ok : Bool) :
    (decodeResult (encodeSimpleResult ok)).ok = ok := by
  cases ok <;> rfl

end NexusLOB.Lob
