import Mathlib.Algebra.Ring.Nat

/-!
# Little-endian words in byte strings

Fixed-width words as bytes, least significant byte first, and readers that take a word or a number
of bytes off the front of a byte string. A reader that does not find enough bytes fails. Each
writer has its reader as a left inverse in front of whatever follows.
-/

namespace NexusLOB.Codec

/-- The `n` low bytes of a number. -/
def leBytes : Nat → Nat → List UInt8
  | 0, _ => []
  | n + 1, v => UInt8.ofNat v :: leBytes n (v / 256)

/-- The number with the given bytes. -/
def leValue : List UInt8 → Nat
  | [] => 0
  | b :: bs => b.toNat + 256 * leValue bs

@[simp] theorem length_leBytes (n v : Nat) : (leBytes n v).length = n := by
  induction n generalizing v with
  | zero => rfl
  | succ n ih => rw [leBytes, List.length_cons, ih]

theorem leValue_leBytes (n v : Nat) : leValue (leBytes n v) = v % 256 ^ n := by
  induction n generalizing v with
  | zero => rw [leBytes, leValue, pow_zero, Nat.mod_one]
  | succ n ih =>
    rw [leBytes, leValue, ih, UInt8.toNat_ofNat', pow_succ' 256 n]
    exact Nat.mod_mul.symm

theorem leValue_leBytes_of_lt {n v : Nat} (h : v < 256 ^ n) : leValue (leBytes n v) = v := by
  rw [leValue_leBytes, Nat.mod_eq_of_lt h]

theorem leValue_lt (bs : List UInt8) : leValue bs < 256 ^ bs.length := by
  induction bs with
  | nil => exact Nat.one_pos
  | cons b bs ih =>
    have hb : b.toNat < 256 := b.toNat_lt
    rw [leValue, List.length_cons, pow_succ]
    omega

theorem leBytes_leValue (bs : List UInt8) : leBytes bs.length (leValue bs) = bs := by
  induction bs with
  | nil => rfl
  | cons b bs ih =>
    have hb : b.toNat < 256 := b.toNat_lt
    rw [List.length_cons, leBytes, leValue]
    congr 1
    · refine UInt8.toNat_inj.mp ?_
      rw [UInt8.toNat_ofNat', Nat.add_mul_mod_self_left, Nat.mod_eq_of_lt hb]
    · rw [Nat.add_mul_div_left _ _ (by decide), Nat.div_eq_of_lt hb, Nat.zero_add, ih]

theorem leValue_append_zeros (bs : List UInt8) (n : Nat) :
    leValue (bs ++ List.replicate n 0) = leValue bs := by
  induction bs with
  | nil =>
    induction n with
    | zero => rfl
    | succ n ih =>
      change (0 : UInt8).toNat + 256 * leValue ([] ++ List.replicate n 0) = 0
      rw [ih]
      rfl
  | cons b bs ih => rw [List.cons_append, leValue, leValue, ih]

/-! ## Readers -/

/-- A value and the bytes that are left, or nothing. -/
abbrev Reader (α : Type) := List UInt8 → Option (α × List UInt8)

/-- The next `n` bytes. -/
def getBytes (n : Nat) : Reader (List UInt8) := fun bs =>
  if n ≤ bs.length then some (bs.take n, bs.drop n) else none

def getU8 : Reader UInt8
  | [] => none
  | b :: bs => some (b, bs)

def getU32 : Reader UInt32 := fun bs =>
  (getBytes 4 bs).map fun r => (UInt32.ofNat (leValue r.1), r.2)

def getU64 : Reader UInt64 := fun bs =>
  (getBytes 8 bs).map fun r => (UInt64.ofNat (leValue r.1), r.2)

def getI64 : Reader Int64 := fun bs => (getU64 bs).map fun r => (r.1.toInt64, r.2)

def putU32 (v : UInt32) : List UInt8 := leBytes 4 v.toNat

def putU64 (v : UInt64) : List UInt8 := leBytes 8 v.toNat

def putI64 (v : Int64) : List UInt8 := putU64 v.toUInt64

@[simp] theorem length_putU32 (v : UInt32) : (putU32 v).length = 4 := length_leBytes 4 _

@[simp] theorem length_putU64 (v : UInt64) : (putU64 v).length = 8 := length_leBytes 8 _

@[simp] theorem length_putI64 (v : Int64) : (putI64 v).length = 8 := length_putU64 _

@[simp] theorem getU8_cons (b : UInt8) (rest : List UInt8) : getU8 (b :: rest) = some (b, rest) :=
  rfl

theorem getBytes_append {n : Nat} {bs : List UInt8} (h : bs.length = n) (rest : List UInt8) :
    getBytes n (bs ++ rest) = some (bs, rest) := by
  have hle : n ≤ (bs ++ rest).length := by
    rw [List.length_append]
    omega
  rw [getBytes, if_pos hle, List.take_left' h, List.drop_left' h]

@[simp] theorem getU32_putU32 (v : UInt32) (rest : List UInt8) :
    getU32 (putU32 v ++ rest) = some (v, rest) := by
  rw [getU32, getBytes_append (length_putU32 v), Option.map_some, putU32,
    leValue_leBytes_of_lt v.toNat_lt, UInt32.ofNat_toNat]

@[simp] theorem getU64_putU64 (v : UInt64) (rest : List UInt8) :
    getU64 (putU64 v ++ rest) = some (v, rest) := by
  rw [getU64, getBytes_append (length_putU64 v), Option.map_some, putU64,
    leValue_leBytes_of_lt v.toNat_lt, UInt64.ofNat_toNat]

@[simp] theorem getI64_putI64 (v : Int64) (rest : List UInt8) :
    getI64 (putI64 v ++ rest) = some (v, rest) := by
  rw [getI64, putI64, getU64_putU64, Option.map_some]
  rfl

/-- What is read is what is written for the value, in front of the rest. -/
theorem eq_of_getBytes {n : Nat} {bs x rest : List UInt8} (h : getBytes n bs = some (x, rest)) :
    x.length = n ∧ bs = x ++ rest := by
  unfold getBytes at h
  split at h
  · next hle =>
    cases h
    exact ⟨List.length_take_of_le hle, (List.take_append_drop n bs).symm⟩
  · cases h

theorem eq_of_getU8 {b : UInt8} {bs rest : List UInt8} (h : getU8 bs = some (b, rest)) :
    bs = b :: rest := by
  cases bs with
  | nil => cases h
  | cons b bs =>
    cases h
    rfl

theorem eq_of_getU32 {v : UInt32} {bs rest : List UInt8} (h : getU32 bs = some (v, rest)) :
    bs = putU32 v ++ rest := by
  obtain ⟨⟨x, rest'⟩, hx, he⟩ := Option.map_eq_some_iff.mp h
  obtain ⟨rfl, rfl⟩ := Prod.mk.inj he
  obtain ⟨hlen, rfl⟩ := eq_of_getBytes hx
  have hlt : leValue x < 2 ^ 32 := by
    have hval := leValue_lt x
    rwa [hlen] at hval
  rw [putU32, UInt32.toNat_ofNat', Nat.mod_eq_of_lt hlt, ← hlen, leBytes_leValue]

theorem eq_of_getU64 {v : UInt64} {bs rest : List UInt8} (h : getU64 bs = some (v, rest)) :
    bs = putU64 v ++ rest := by
  obtain ⟨⟨x, rest'⟩, hx, he⟩ := Option.map_eq_some_iff.mp h
  obtain ⟨rfl, rfl⟩ := Prod.mk.inj he
  obtain ⟨hlen, rfl⟩ := eq_of_getBytes hx
  have hlt : leValue x < 2 ^ 64 := by
    have hval := leValue_lt x
    rwa [hlen] at hval
  rw [putU64, UInt64.toNat_ofNat', Nat.mod_eq_of_lt hlt, ← hlen, leBytes_leValue]

@[simp] theorem getU8_eq_some_iff {b : UInt8} {bs rest : List UInt8} :
    getU8 bs = some (b, rest) ↔ bs = b :: rest := by
  refine ⟨eq_of_getU8, ?_⟩
  rintro rfl
  rfl

@[simp] theorem getU64_eq_some_iff {v : UInt64} {bs rest : List UInt8} :
    getU64 bs = some (v, rest) ↔ bs = putU64 v ++ rest := by
  refine ⟨eq_of_getU64, ?_⟩
  rintro rfl
  exact getU64_putU64 v rest

@[simp] theorem getI64_eq_some_iff {v : Int64} {bs rest : List UInt8} :
    getI64 bs = some (v, rest) ↔ bs = putI64 v ++ rest := by
  constructor
  · intro h
    obtain ⟨⟨u, rest'⟩, hu, he⟩ := Option.map_eq_some_iff.mp h
    obtain ⟨rfl, rfl⟩ := Prod.mk.inj he
    exact eq_of_getU64 hu
  · rintro rfl
    exact getI64_putI64 v rest

/-! ## Strings with their length in front -/

/-- The length as a 32-bit word, which drops what is above it, and the bytes. -/
def putStr (s : List UInt8) : List UInt8 := putU32 (UInt32.ofNat s.length) ++ s

theorem length_putStr (s : List UInt8) : (putStr s).length = s.length + 4 := by
  rw [putStr, List.length_append, length_putU32, Nat.add_comm]

def getStr : Reader (List UInt8) := fun bs => do
  let (len, bs) ← getU32 bs
  getBytes len.toNat bs

theorem getStr_putStr {s : List UInt8} (h : s.length < 2 ^ 32) (rest : List UInt8) :
    getStr (putStr s ++ rest) = some (s, rest) := by
  have hlen : s.length = (UInt32.ofNat s.length).toNat := (UInt32.toNat_ofNat_of_lt' h).symm
  rw [putStr, List.append_assoc, getStr, getU32_putU32]
  exact getBytes_append hlen rest

theorem getStr_putStr_nil {s : List UInt8} (h : s.length < 2 ^ 32) :
    getStr (putStr s) = some (s, []) := by
  have hread := getStr_putStr h []
  rwa [List.append_nil] at hread

/-- A string that is read fits its length word. -/
theorem length_lt_of_getStr {s bs rest : List UInt8} (h : getStr bs = some (s, rest)) :
    s.length < 2 ^ 32 := by
  obtain ⟨⟨len, bs'⟩, _, hs⟩ := Option.bind_eq_some_iff.mp h
  rw [(eq_of_getBytes hs).1]
  exact len.toNat_lt

@[simp] theorem getStr_eq_some_iff {s bs rest : List UInt8} :
    getStr bs = some (s, rest) ↔ s.length < 2 ^ 32 ∧ bs = putStr s ++ rest := by
  constructor
  · intro h
    refine ⟨length_lt_of_getStr h, ?_⟩
    obtain ⟨⟨len, bs'⟩, hlen, hs⟩ := Option.bind_eq_some_iff.mp h
    obtain ⟨hlength, hbs'⟩ := eq_of_getBytes hs
    rw [eq_of_getU32 hlen, hbs', putStr, hlength, UInt32.ofNat_toNat, List.append_assoc]
  · rintro ⟨hlen, rfl⟩
    exact getStr_putStr hlen rest

/-- Readers in a row, as `StateT` runs them. -/
theorem bind_apply {α β : Type} (r : Reader α) (f : α → Reader β) (bs : List UInt8) :
    bind (m := StateT (List UInt8) Option) r f bs = (r bs).bind fun x => f x.1 x.2 := rfl

/-- A step whose value is known. -/
theorem bind_of_eq_some {α β : Type} {r : Reader α} {f : α → Reader β} {bs rest : List UInt8}
    {a : α} (h : r bs = some (a, rest)) :
    bind (m := StateT (List UInt8) Option) r f bs = f a rest := by
  rw [bind_apply, h, Option.bind_some]

/-! ## Readers and what follows -/

/-- What a reader has read it reads again with more behind it. -/
def Stable {α : Type} (r : Reader α) : Prop :=
  ∀ bs a rest, r bs = some (a, rest) → ∀ more, r (bs ++ more) = some (a, rest ++ more)

namespace Stable

variable {α β : Type} {r : Reader α}

theorem pure (a : α) : Stable (Pure.pure (f := StateT (List UInt8) Option) a) := by
  intro bs b rest h more
  cases h
  rfl

theorem bind {f : α → Reader β} (hr : Stable r) (hf : ∀ a, Stable (f a)) :
    Stable (Bind.bind (m := StateT (List UInt8) Option) r f) := by
  intro bs b rest h more
  rw [bind_apply] at h ⊢
  obtain ⟨⟨a, rest'⟩, ha, hb⟩ := Option.bind_eq_some_iff.mp h
  rw [hr _ _ _ ha more, Option.bind_some]
  exact hf a _ _ _ hb more

theorem getBytes (n : Nat) : Stable (Codec.getBytes n) := by
  intro bs x rest h more
  obtain ⟨hlen, rfl⟩ := eq_of_getBytes h
  rw [List.append_assoc, getBytes_append hlen]

theorem getU8 : Stable Codec.getU8 := by
  intro bs b rest h more
  rw [eq_of_getU8 h]
  rfl

theorem getU32 : Stable Codec.getU32 := by
  intro bs v rest h more
  rw [eq_of_getU32 h, List.append_assoc, getU32_putU32]

theorem getU64 : Stable Codec.getU64 := by
  intro bs v rest h more
  rw [eq_of_getU64 h, List.append_assoc, getU64_putU64]

/-- Nothing that is cut short is read. -/
theorem eq_none {w p : List UInt8} {a : α} (hr : Stable r) (hw : r w = some (a, []))
    (hp : p <+: w) (hne : p ≠ w) : r p = none := by
  cases hread : r p with
  | none => rfl
  | some x =>
    obtain ⟨b, rest⟩ := x
    obtain ⟨more, rfl⟩ := hp
    have hboth := hw.symm.trans (hr _ _ _ hread more)
    obtain ⟨-, hnil⟩ := Prod.mk.inj (Option.some.inj hboth)
    obtain ⟨-, rfl⟩ := List.append_eq_nil_iff.mp hnil.symm
    exact absurd (List.append_nil p).symm hne

end Stable

end NexusLOB.Codec
