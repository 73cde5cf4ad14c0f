import NexusLOB.Codec.Buffer
import NexusLOB.Protocol.OrderProtocol

/-!
# The six order commands

The encoders allocate a buffer and fill it at a moving offset, which gives the fields one after the
other. A decoder accepts exactly the byte strings that begin with an encoding of its own command, and
then it returns the fields of that encoding. What there is to say about encodings, their prefixes and
the other decoders follows from this.
-/

namespace NexusLOB.Lob.OrderProtocol

open Codec

/-! ## The encoders as the source has them -/

namespace InPlace

def encodeShardedNew (symbol : Bytes) (orderId : UInt64) (side : Side) (price quantity : Int64) :
    Bytes :=
  (((((((Buffer.alloc (1 + 4 + symbol.length + 8 + 1 + 8 + 8)).putU8 opShardedNew).putStr
    symbol).putU64 orderId).putU8 (sideByte side)).putI64 price).putI64 quantity).buf

def encodeShardedCancel (symbol : Bytes) (orderId : UInt64) : Bytes :=
  ((((Buffer.alloc (1 + 4 + symbol.length + 8)).putU8 opShardedCxl).putStr symbol).putU64
    orderId).buf

def encodeShardedModify (symbol : Bytes) (orderId : UInt64) (newPrice newQuantity : Int64) :
    Bytes :=
  ((((((Buffer.alloc (1 + 4 + symbol.length + 8 + 8 + 8)).putU8 opShardedMod).putStr
    symbol).putU64 orderId).putI64 newPrice).putI64 newQuantity).buf

def encodeNew (orderId : UInt64) (side : Side) (price quantity : Int64) : Bytes :=
  ((((((Buffer.alloc (1 + 8 + 1 + 8 + 8)).putU8 opNew).putU64 orderId).putU8
    (sideByte side)).putI64 price).putI64 quantity).buf

def encodeCancel (orderId : UInt64) : Bytes :=
  (((Buffer.alloc (1 + 8)).putU8 opCxl).putU64 orderId).buf

def encodeModify (orderId : UInt64) (newPrice newQuantity : Int64) : Bytes :=
  (((((Buffer.alloc (1 + 8 + 8 + 8)).putU8 opMod).putU64 orderId).putI64 newPrice).putI64
    newQuantity).buf

theorem encodeShardedNew_eq (symbol : Bytes) (orderId : UInt64) (side : Side)
    (price quantity : Int64) :
    encodeShardedNew symbol orderId side price quantity =
      OrderProtocol.encodeShardedNew symbol orderId side price quantity := by
  refine (Buffer.buf_foldl_put [[opShardedNew], putU32 (UInt32.ofNat symbol.length), symbol,
    putU64 orderId, [sideByte side], putI64 price, putI64 quantity] ?_).trans ?_
  · simp
    omega
  · simp [OrderProtocol.encodeShardedNew, putStr]

theorem encodeShardedCancel_eq (symbol : Bytes) (orderId : UInt64) :
    encodeShardedCancel symbol orderId = OrderProtocol.encodeShardedCancel symbol orderId := by
  refine (Buffer.buf_foldl_put [[opShardedCxl], putU32 (UInt32.ofNat symbol.length), symbol,
    putU64 orderId] ?_).trans ?_
  · simp
    omega
  · simp [OrderProtocol.encodeShardedCancel, putStr]

theorem encodeShardedModify_eq (symbol : Bytes) (orderId : UInt64) (newPrice newQuantity : Int64) :
    encodeShardedModify symbol orderId newPrice newQuantity =
      OrderProtocol.encodeShardedModify symbol orderId newPrice newQuantity := by
  refine (Buffer.buf_foldl_put [[opShardedMod], putU32 (UInt32.ofNat symbol.length), symbol,
    putU64 orderId, putI64 newPrice, putI64 newQuantity] ?_).trans ?_
  · simp
    omega
  · simp [OrderProtocol.encodeShardedModify, putStr]

theorem encodeNew_eq (orderId : UInt64) (side : Side) (price quantity : Int64) :
    encodeNew orderId side price quantity =
      OrderProtocol.encodeNew orderId side price quantity := by
  refine (Buffer.buf_foldl_put [[opNew], putU64 orderId, [sideByte side], putI64 price,
    putI64 quantity] ?_).trans ?_
  · simp
  · simp [OrderProtocol.encodeNew]

theorem encodeCancel_eq (orderId : UInt64) :
    encodeCancel orderId = OrderProtocol.encodeCancel orderId := by
  refine (Buffer.buf_foldl_put [[opCxl], putU64 orderId] ?_).trans ?_
  · simp
  · simp [OrderProtocol.encodeCancel]

theorem encodeModify_eq (orderId : UInt64) (newPrice newQuantity : Int64) :
    encodeModify orderId newPrice newQuantity =
      OrderProtocol.encodeModify orderId newPrice newQuantity := by
  refine (Buffer.buf_foldl_put [[opMod], putU64 orderId, putI64 newPrice, putI64 newQuantity]
    ?_).trans ?_
  · simp
  · simp [OrderProtocol.encodeModify]

end InPlace

/-! ## What the decoders accept -/

theorem sideOf_eq_some_iff {s : UInt8} {side : Side} :
    sideOf s = some side ↔ s = sideByte side := by
  constructor
  · intro h
    unfold sideOf at h
    split at h
    · cases h
    · next hle =>
      split at h
      · next hzero =>
        cases h
        exact hzero
      · next hzero =>
        cases h
        have hne : s.toNat ≠ 0 := fun h0 => hzero (UInt8.toNat_inj.mp h0)
        have hle : s.toNat ≤ 1 := UInt8.le_iff_toNat_le.mp (UInt8.not_lt.mp hle)
        apply UInt8.toNat_inj.mp
        change s.toNat = 1
        omega
  · rintro rfl
    exact sideOf_sideByte side

theorem isPrefix_iff {front data : Bytes} : front <+: data ↔ ∃ rest, data = front ++ rest := by
  simp only [List.IsPrefix, eq_comm]

theorem decodeNew_eq_some_iff {data : Bytes} {orderId : UInt64} {side : Side}
    {price quantity : Int64} :
    decodeNew data = some (orderId, side, price, quantity) ↔
      encodeNew orderId side price quantity <+: data := by
  rw [isPrefix_iff]
  simp [decodeNew, encodeNew, Option.bind_eq_some_iff, sideOf_eq_some_iff]

theorem decodeCancel_eq_some_iff {data : Bytes} {orderId : UInt64} :
    decodeCancel data = some orderId ↔ encodeCancel orderId <+: data := by
  rw [isPrefix_iff]
  simp [decodeCancel, encodeCancel, Option.bind_eq_some_iff]

theorem decodeModify_eq_some_iff {data : Bytes} {orderId : UInt64} {newPrice newQuantity : Int64} :
    decodeModify data = some (orderId, newPrice, newQuantity) ↔
      encodeModify orderId newPrice newQuantity <+: data := by
  rw [isPrefix_iff]
  simp [decodeModify, encodeModify, Option.bind_eq_some_iff]

theorem decodeShardedNew_eq_some_iff {data symbol : Bytes} {orderId : UInt64} {side : Side}
    {price quantity : Int64} :
    decodeShardedNew data = some (symbol, orderId, side, price, quantity) ↔
      symbol.length < 2 ^ 32 ∧ encodeShardedNew symbol orderId side price quantity <+: data := by
  rw [isPrefix_iff, and_comm]
  simp [decodeShardedNew, encodeShardedNew, Option.bind_eq_some_iff, sideOf_eq_some_iff]

theorem decodeShardedCancel_eq_some_iff {data symbol : Bytes} {orderId : UInt64} :
    decodeShardedCancel data = some (symbol, orderId) ↔
      symbol.length < 2 ^ 32 ∧ encodeShardedCancel symbol orderId <+: data := by
  rw [isPrefix_iff, and_comm]
  simp [decodeShardedCancel, encodeShardedCancel, Option.bind_eq_some_iff]

theorem decodeShardedModify_eq_some_iff {data symbol : Bytes} {orderId : UInt64}
    {newPrice newQuantity : Int64} :
    decodeShardedModify data = some (symbol, orderId, newPrice, newQuantity) ↔
      symbol.length < 2 ^ 32 ∧ encodeShardedModify symbol orderId newPrice newQuantity <+: data := by
  rw [isPrefix_iff, and_comm]
  simp [decodeShardedModify, encodeShardedModify, Option.bind_eq_some_iff]

/-! ## Commands and their decoders -/

inductive Kind where
  | new
  | cancel
  | modify
  | shardedNew
  | shardedCancel
  | shardedModify
  deriving DecidableEq, Repr

/-- A command with the fields of its encoder. -/
inductive Command where
  | new (orderId : UInt64) (side : Side) (price quantity : Int64)
  | cancel (orderId : UInt64)
  | modify (orderId : UInt64) (newPrice newQuantity : Int64)
  | shardedNew (symbol : Bytes) (orderId : UInt64) (side : Side) (price quantity : Int64)
  | shardedCancel (symbol : Bytes) (orderId : UInt64)
  | shardedModify (symbol : Bytes) (orderId : UInt64) (newPrice newQuantity : Int64)
  deriving DecidableEq, Repr

namespace Command

def kind : Command → Kind
  | new .. => .new
  | cancel .. => .cancel
  | modify .. => .modify
  | shardedNew .. => .shardedNew
  | shardedCancel .. => .shardedCancel
  | shardedModify .. => .shardedModify

def encode : Command → Bytes
  | new orderId side price quantity => InPlace.encodeNew orderId side price quantity
  | cancel orderId => InPlace.encodeCancel orderId
  | modify orderId newPrice newQuantity => InPlace.encodeModify orderId newPrice newQuantity
  | shardedNew symbol orderId side price quantity =>
    InPlace.encodeShardedNew symbol orderId side price quantity
  | shardedCancel symbol orderId => InPlace.encodeShardedCancel symbol orderId
  | shardedModify symbol orderId newPrice newQuantity =>
    InPlace.encodeShardedModify symbol orderId newPrice newQuantity

/-- The length of the symbol fits its field. -/
def Fits : Command → Prop
  | new .. | cancel .. | modify .. => True
  | shardedNew symbol .. | shardedCancel symbol .. | shardedModify symbol .. =>
    symbol.length < 2 ^ 32

end Command

/-- The decoder of a kind of command, with the fields it returns. -/
def decodeAs (k : Kind) (data : Bytes) : Option Command :=
  match k with
  | .new => (decodeNew data).map fun f => .new f.1 f.2.1 f.2.2.1 f.2.2.2
  | .cancel => (decodeCancel data).map .cancel
  | .modify => (decodeModify data).map fun f => .modify f.1 f.2.1 f.2.2
  | .shardedNew =>
    (decodeShardedNew data).map fun f => .shardedNew f.1 f.2.1 f.2.2.1 f.2.2.2.1 f.2.2.2.2
  | .shardedCancel => (decodeShardedCancel data).map fun f => .shardedCancel f.1 f.2
  | .shardedModify =>
    (decodeShardedModify data).map fun f => .shardedModify f.1 f.2.1 f.2.2.1 f.2.2.2

/-- A decoder accepts what begins with an encoding of its command. -/
theorem decodeAs_eq_some_iff {k : Kind} {data : Bytes} {c : Command} :
    decodeAs k data = some c ↔ c.kind = k ∧ c.Fits ∧ c.encode <+: data := by
  cases k <;> cases c <;>
    simp [decodeAs, Command.kind, Command.Fits, Command.encode, InPlace.encodeNew_eq,
      InPlace.encodeCancel_eq, InPlace.encodeModify_eq, InPlace.encodeShardedNew_eq,
      InPlace.encodeShardedCancel_eq, InPlace.encodeShardedModify_eq, decodeNew_eq_some_iff,
      decodeCancel_eq_some_iff, decodeModify_eq_some_iff, decodeShardedNew_eq_some_iff,
      decodeShardedCancel_eq_some_iff, decodeShardedModify_eq_some_iff]

def Kind.opcode : Kind → UInt8
  | .new => opNew
  | .cancel => opCxl
  | .modify => opMod
  | .shardedNew => opShardedNew
  | .shardedCancel => opShardedCxl
  | .shardedModify => opShardedMod

theorem Kind.opcode_inj {k k' : Kind} (h : k.opcode = k'.opcode) : k = k' := by
  cases k <;> cases k' <;> first | rfl | exact absurd h (by decide)

theorem Command.head?_encode (c : Command) : c.encode.head? = some c.kind.opcode := by
  cases c with
  | new => rw [encode, InPlace.encodeNew_eq]; rfl
  | cancel => rw [encode, InPlace.encodeCancel_eq]; rfl
  | modify => rw [encode, InPlace.encodeModify_eq]; rfl
  | shardedNew => rw [encode, InPlace.encodeShardedNew_eq]; rfl
  | shardedCancel => rw [encode, InPlace.encodeShardedCancel_eq]; rfl
  | shardedModify => rw [encode, InPlace.encodeShardedModify_eq]; rfl

/-- Encodings that begin alike are of one kind. -/
theorem Command.kind_eq_of_isPrefix {c c' : Command} (h : c'.encode <+: c.encode) :
    c'.kind = c.kind := by
  obtain ⟨rest, hrest⟩ := h
  have hhead := c.head?_encode
  rw [← hrest, List.head?_append_of_ne_nil, c'.head?_encode] at hhead
  · exact Kind.opcode_inj (Option.some.inj hhead)
  · intro hnil
    have hnone := c'.head?_encode
    rw [hnil] at hnone
    cases hnone

theorem decodeAs_of_ne {c : Command} {k : Kind} (hk : k ≠ c.kind) : decodeAs k c.encode = none := by
  rw [Option.eq_none_iff_forall_ne_some]
  intro c' hread
  obtain ⟨hkind, -, hfront⟩ := decodeAs_eq_some_iff.mp hread
  exact hk (hkind.symm.trans (Command.kind_eq_of_isPrefix hfront))

section
variable {c : Command} (hc : c.Fits)
include hc

theorem decodeAs_encode : decodeAs c.kind c.encode = some c :=
  decodeAs_eq_some_iff.mpr ⟨rfl, hc, List.prefix_refl _⟩

/-- A command whose encoding another one begins with is that one. -/
theorem Command.eq_of_isPrefix {c' : Command} (hc' : c'.Fits) (h : c'.encode <+: c.encode) :
    c' = c := by
  have hread := decodeAs_eq_some_iff.mpr ⟨kind_eq_of_isPrefix h, hc', h⟩
  rw [decodeAs_encode hc] at hread
  exact (Option.some.inj hread).symm

theorem decodeAs_torn {data : Bytes} (hdata : data <+: c.encode) (hne : data ≠ c.encode)
    (k : Kind) : decodeAs k data = none := by
  rw [Option.eq_none_iff_forall_ne_some]
  intro c' hread
  obtain ⟨-, hc', hfront⟩ := decodeAs_eq_some_iff.mp hread
  obtain rfl := Command.eq_of_isPrefix hc hc' (hfront.trans hdata)
  exact hne (hdata.eq_of_length_le hfront.length_le)

/-- Every decoder inverts its encoder, rejects what is cut short and what another encoder made, and
what it accepts begins with the encoding of the fields it returns. -/
theorem order_command_codec :
    decodeAs c.kind c.encode = some c ∧
      (∀ data, data <+: c.encode → data ≠ c.encode → decodeAs c.kind data = none) ∧
      (∀ k, k ≠ c.kind → decodeAs k c.encode = none) ∧
      ∀ k data c', decodeAs k data = some c' → c'.kind = k ∧ c'.encode <+: data := by
  refine ⟨decodeAs_encode hc, ?_, fun k hk => decodeAs_of_ne hk, ?_⟩
  · intro data hdata hne
    exact decodeAs_torn hc hdata hne c.kind
  · intro k data c' hread
    obtain ⟨hkind, -, hfront⟩ := decodeAs_eq_some_iff.mp hread
    exact ⟨hkind, hfront⟩

end

/-- An order with a symbol of two bytes. -/
theorem order_command_codec_sharded :
    (Command.shardedNew [66, 84] 7 .sell (-3) 5).Fits ∧
      decodeAs .shardedNew (Command.shardedNew [66, 84] 7 .sell (-3) 5).encode =
        some (.shardedNew [66, 84] 7 .sell (-3) 5) := by
  have hfits : (Command.shardedNew [66, 84] 7 .sell (-3) 5).Fits := by
    rw [Command.Fits]
    decide
  exact ⟨hfits, (order_command_codec hfits).1⟩

end NexusLOB.Lob.OrderProtocol
