import Mathlib.Data.List.Pairwise
import Mathlib.Data.List.Nodup
import Mathlib.Data.List.Sort

/-!
# Ordered maps with a comparator

A finite map kept as a list of bindings sorted by a comparator, the way an ordered
associative container of a template library presents itself: lookup, assignment, removal
and iteration in comparator order. Two keys denote the same binding when neither compares
below the other, so a strict weak order is enough.

The raw operations (`Assoc.*`) act on plain lists of bindings and compute on closed input.
`OrderedMap` packages such a list with its sortedness, so an unsorted map cannot be built.
-/

namespace NexusLOB.Collections

/-- A comparator that is a strict weak order. -/
class StrictWeak {K : Type} (cmp : K → K → Bool) : Prop where
  irrefl (a : K) : cmp a a = false
  trans {a b c : K} : cmp a b = true → cmp b c = true → cmp a c = true
  cotrans {a c : K} (b : K) : cmp a c = true → cmp a b = true ∨ cmp b c = true

/-- A strict weak order in which incomparable keys are equal. -/
class StrictTotal {K : Type} (cmp : K → K → Bool) : Prop extends StrictWeak cmp where
  connected {a b : K} : cmp a b = false → cmp b a = false → a = b

/-- Neither key compares below the other. -/
def equiv {K : Type} (cmp : K → K → Bool) (a b : K) : Bool := !cmp a b && !cmp b a

section Order

variable {K : Type} {cmp : K → K → Bool}

theorem equiv_iff {a b : K} : equiv cmp a b = true ↔ cmp a b = false ∧ cmp b a = false := by
  simp [equiv]

theorem equiv_refl [StrictWeak cmp] (a : K) : equiv cmp a a = true := by
  simp [equiv, StrictWeak.irrefl]

theorem cmp_asymm [StrictWeak cmp] {a b : K} (h : cmp a b = true) : cmp b a = false := by
  by_contra hne
  have hba : cmp b a = true := by simpa using hne
  have hself : cmp a a = true := StrictWeak.trans h hba
  have hirr : cmp a a = false := StrictWeak.irrefl a
  rw [hirr] at hself
  cases hself

/-- A key that is not below `b` is not below anything `b` compares equal to. -/
theorem cmp_congr_left [StrictWeak cmp] {a b c : K} (h : equiv cmp a b = true) :
    cmp a c = cmp b c := by
  rw [equiv_iff] at h
  cases hac : cmp a c with
  | true =>
    rcases StrictWeak.cotrans b hac with h' | h'
    · rw [h.1] at h'; cases h'
    · exact h'.symm
  | false =>
    cases hbc : cmp b c with
    | false => rfl
    | true =>
      rcases StrictWeak.cotrans a hbc with h' | h'
      · rw [h.2] at h'; cases h'
      · rw [hac] at h'; cases h'

theorem cmp_congr_right [StrictWeak cmp] {a b c : K} (h : equiv cmp a b = true) :
    cmp c a = cmp c b := by
  rw [equiv_iff] at h
  cases hca : cmp c a with
  | true =>
    rcases StrictWeak.cotrans b hca with h' | h'
    · exact h'.symm
    · rw [h.2] at h'; cases h'
  | false =>
    cases hcb : cmp c b with
    | false => rfl
    | true =>
      rcases StrictWeak.cotrans a hcb with h' | h'
      · rw [hca] at h'; cases h'
      · rw [h.1] at h'; cases h'

theorem equiv_eq [StrictTotal cmp] {a b : K} : equiv cmp a b = true ↔ a = b := by
  constructor
  · intro h
    rw [equiv_iff] at h
    exact StrictTotal.connected h.1 h.2
  · rintro rfl
    exact equiv_refl a

theorem cmp_or_of_ne [StrictTotal cmp] {a b : K} (h : a ≠ b) :
    cmp a b = true ∨ cmp b a = true := by
  by_contra hn
  push Not at hn
  have h₁ : cmp a b = false := by simpa using hn.1
  have h₂ : cmp b a = false := by simpa using hn.2
  exact h (StrictTotal.connected h₁ h₂)

end Order

/-! ## Raw operations on sorted bindings -/

namespace Assoc

variable {K V : Type}

/-- The value bound to `k`. -/
def find? (cmp : K → K → Bool) (k : K) : List (K × V) → Option V
  | [] => none
  | (k', v) :: rest =>
    if cmp k' k then find? cmp k rest else if cmp k k' then none else some v

/-- Bind `k` to `v`, in place when `k` is bound already (the stored key is kept). -/
def insert (cmp : K → K → Bool) (k : K) (v : V) : List (K × V) → List (K × V)
  | [] => [(k, v)]
  | (k', v') :: rest =>
    if cmp k' k then (k', v') :: insert cmp k v rest
    else if cmp k k' then (k, v) :: (k', v') :: rest
    else (k', v) :: rest

/-- Drop the binding of `k`. -/
def erase (cmp : K → K → Bool) (k : K) : List (K × V) → List (K × V)
  | [] => []
  | (k', v') :: rest =>
    if cmp k' k then (k', v') :: erase cmp k rest
    else if cmp k k' then (k', v') :: rest
    else rest

/-- Change the value bound to `k`, if there is one. -/
def modify (cmp : K → K → Bool) (k : K) (f : V → V) : List (K × V) → List (K × V)
  | [] => []
  | (k', v') :: rest =>
    if cmp k' k then (k', v') :: modify cmp k f rest
    else if cmp k k' then (k', v') :: rest
    else (k', f v') :: rest

/-- Strictly increasing keys. -/
def Sorted (cmp : K → K → Bool) (l : List (K × V)) : Prop :=
  l.Pairwise (fun a b => cmp a.1 b.1 = true)

variable {cmp : K → K → Bool}

theorem mem_insert {k : K} {v : V} {l : List (K × V)} {p : K × V}
    (h : p ∈ insert cmp k v l) : p.1 = k ∨ ∃ q ∈ l, q.1 = p.1 := by
  induction l with
  | nil =>
    simp only [insert, List.mem_singleton] at h
    exact Or.inl (by rw [h])
  | cons b rest ih =>
    obtain ⟨k', v'⟩ := b
    simp only [insert] at h
    split at h
    · rcases List.mem_cons.mp h with rfl | h
      · exact Or.inr ⟨_, List.mem_cons_self, rfl⟩
      · rcases ih h with h | ⟨q, hq, he⟩
        · exact Or.inl h
        · exact Or.inr ⟨q, List.mem_cons_of_mem _ hq, he⟩
    · split at h
      · rcases List.mem_cons.mp h with rfl | h
        · exact Or.inl rfl
        · exact Or.inr ⟨p, h, rfl⟩
      · rcases List.mem_cons.mp h with rfl | h
        · exact Or.inr ⟨_, List.mem_cons_self, rfl⟩
        · exact Or.inr ⟨p, List.mem_cons_of_mem _ h, rfl⟩

theorem length_insert (k : K) (v : V) (l : List (K × V)) : (insert cmp k v l).length =
    if (find? cmp k l).isSome then l.length else l.length + 1 := by
  induction l with
  | nil => rfl
  | cons b rest ih =>
    obtain ⟨k', v'⟩ := b
    rw [insert, find?]
    split_ifs with h₁ h₂ h₃ h₄ <;> simp_all

theorem erase_sublist (k : K) (l : List (K × V)) : (erase cmp k l).Sublist l := by
  induction l with
  | nil => exact List.Sublist.slnil
  | cons b rest ih =>
    obtain ⟨k', v'⟩ := b
    simp only [erase]
    split
    · exact ih.cons_cons _
    · split
      · exact List.Sublist.refl _
      · exact List.sublist_cons_self _ _

theorem modify_keys (k : K) (f : V → V) (l : List (K × V)) :
    (modify cmp k f l).map Prod.fst = l.map Prod.fst := by
  induction l with
  | nil => rfl
  | cons b rest ih =>
    obtain ⟨k', v'⟩ := b
    simp only [modify]
    split
    · simp [ih]
    · split <;> simp

theorem sorted_insert [StrictWeak cmp] {k : K} {v : V} {l : List (K × V)}
    (h : Sorted cmp l) : Sorted cmp (insert cmp k v l) := by
  induction l with
  | nil => simp [insert, Sorted]
  | cons b rest ih =>
    obtain ⟨k', v'⟩ := b
    have hhead : ∀ q ∈ rest, cmp k' q.1 = true := fun q hq => List.rel_of_pairwise_cons h hq
    simp only [insert]
    split
    · rename_i hlt
      refine List.Pairwise.cons (fun q hq => ?_) (ih h.of_cons)
      rcases mem_insert hq with he | ⟨r, hr, he⟩
      · rw [he]; exact hlt
      · rw [← he]; exact hhead r hr
    · split
      · rename_i hlt
        refine List.Pairwise.cons (fun q hq => ?_) h
        rcases List.mem_cons.mp hq with rfl | hq
        · exact hlt
        · exact StrictWeak.trans hlt (hhead q hq)
      · exact List.Pairwise.cons hhead h.of_cons

theorem sorted_erase {k : K} {l : List (K × V)} (h : Sorted cmp l) :
    Sorted cmp (erase cmp k l) :=
  h.sublist (erase_sublist k l)

theorem sorted_iff_keys {l : List (K × V)} :
    Sorted cmp l ↔ (l.map Prod.fst).Pairwise (fun a b => cmp a b = true) := by
  rw [List.pairwise_map]
  rfl

theorem sorted_modify {k : K} {f : V → V} {l : List (K × V)} (h : Sorted cmp l) :
    Sorted cmp (modify cmp k f l) := by
  rw [sorted_iff_keys, modify_keys, ← sorted_iff_keys]
  exact h

/-- Lookup in a sorted list finds every binding it holds. -/
theorem find?_of_mem [StrictWeak cmp] {k : K} {v : V} {l : List (K × V)} (h : Sorted cmp l)
    (hm : (k, v) ∈ l) : find? cmp k l = some v := by
  induction l with
  | nil => cases hm
  | cons b rest ih =>
    obtain ⟨k', v'⟩ := b
    rcases List.mem_cons.mp hm with he | hm
    · cases he
      simp [find?, StrictWeak.irrefl]
    · have hlt : cmp k' k = true := List.rel_of_pairwise_cons h hm
      simp [find?, hlt, ih h.of_cons hm]

theorem mem_of_find? {k : K} {v : V} {l : List (K × V)} (h : find? cmp k l = some v) :
    ∃ k', (k', v) ∈ l ∧ equiv cmp k' k = true := by
  induction l with
  | nil => cases h
  | cons b rest ih =>
    obtain ⟨k', v'⟩ := b
    simp only [find?] at h
    split at h
    · obtain ⟨k₂, hm, he⟩ := ih h
      exact ⟨k₂, List.mem_cons_of_mem _ hm, he⟩
    · split at h
      · cases h
      · rename_i h₁ h₂
        cases h
        exact ⟨k', List.mem_cons_self, equiv_iff.mpr ⟨by simpa using h₁, by simpa using h₂⟩⟩

theorem find?_insert_self [StrictWeak cmp] (k : K) (v : V) (l : List (K × V)) :
    find? cmp k (insert cmp k v l) = some v := by
  induction l with
  | nil => simp [insert, find?, StrictWeak.irrefl]
  | cons b rest ih =>
    obtain ⟨k', v'⟩ := b
    simp only [insert]
    split
    · rename_i hlt
      simp [find?, hlt, ih]
    · split
      · simp [find?, StrictWeak.irrefl]
      · rename_i h₁ h₂
        simp [find?, h₁, h₂]

theorem find?_insert_of_not_equiv [StrictWeak cmp] {k k₂ : K} (v : V) {l : List (K × V)}
    (h : equiv cmp k k₂ = false) :
    find? cmp k₂ (insert cmp k v l) = find? cmp k₂ l := by
  have hor : cmp k k₂ = true ∨ cmp k₂ k = true := by
    simp only [equiv, Bool.and_eq_false_iff, Bool.not_eq_false'] at h
    exact h
  induction l with
  | nil => rcases hor with h₁ | h₁ <;> simp [insert, find?, h₁, cmp_asymm h₁]
  | cons b rest ih =>
    obtain ⟨k', v'⟩ := b
    simp only [insert]
    split
    · simp only [find?, ih]
    · rename_i hk'
      split
      · rename_i hkk'
        rcases hor with h₁ | h₁
        · simp [find?, h₁]
        · have h₂ : cmp k₂ k' = true := StrictWeak.trans h₁ hkk'
          simp [find?, h₁, cmp_asymm h₁, h₂, cmp_asymm h₂]
      · rename_i hkk'
        -- `k` and `k'` are the same binding, so `k₂` is another one
        have he : equiv cmp k k' = true :=
          equiv_iff.mpr ⟨by simpa using hkk', by simpa using hk'⟩
        rcases hor with h₁ | h₁
        · have h₂ : cmp k' k₂ = true := (cmp_congr_left he).symm.trans h₁
          simp [find?, h₂]
        · have h₂ : cmp k₂ k' = true := (cmp_congr_right he).symm.trans h₁
          simp [find?, h₂, cmp_asymm h₂]

theorem find?_modify_self [StrictWeak cmp] (k : K) (f : V → V) (l : List (K × V)) :
    find? cmp k (modify cmp k f l) = (find? cmp k l).map f := by
  induction l with
  | nil => rfl
  | cons b rest ih =>
    obtain ⟨k', v'⟩ := b
    by_cases h₁ : cmp k' k = true
    · simp [modify, find?, h₁, ih]
    · by_cases h₂ : cmp k k' = true <;> simp [modify, find?, h₁, h₂]

theorem find?_modify_of_not_equiv [StrictWeak cmp] {k k₂ : K} (f : V → V) {l : List (K × V)}
    (h : equiv cmp k k₂ = false) :
    find? cmp k₂ (modify cmp k f l) = find? cmp k₂ l := by
  induction l with
  | nil => rfl
  | cons b rest ih =>
    obtain ⟨k', v'⟩ := b
    simp only [modify]
    split
    · simp only [find?, ih]
    · split
      · rfl
      · rename_i h₁ h₂
        have he : equiv cmp k k' = true :=
          equiv_iff.mpr ⟨by simpa using h₂, by simpa using h₁⟩
        have hne : ¬ equiv cmp k' k₂ = true := by
          intro h'
          rw [equiv_iff] at h'
          rw [equiv, cmp_congr_left he, cmp_congr_right he] at h
          simp [h'.1, h'.2] at h
        by_cases hlt : cmp k' k₂ = true
        · simp [find?, hlt]
        · by_cases hgt : cmp k₂ k' = true
          · simp [find?, hlt, hgt]
          · exact absurd (equiv_iff.mpr ⟨by simpa using hlt, by simpa using hgt⟩) hne

theorem find?_eq_none_of_lt [StrictWeak cmp] {k : K} {l : List (K × V)}
    (h : ∀ q ∈ l, cmp k q.1 = true) : find? cmp k l = none := by
  cases l with
  | nil => rfl
  | cons b rest =>
    have hlt := h b List.mem_cons_self
    simp [find?, hlt, cmp_asymm hlt]

theorem find?_erase_self [StrictWeak cmp] {k : K} {l : List (K × V)} (h : Sorted cmp l) :
    find? cmp k (erase cmp k l) = none := by
  induction l with
  | nil => rfl
  | cons b rest ih =>
    obtain ⟨k', v'⟩ := b
    have hhead : ∀ q ∈ rest, cmp k' q.1 = true := fun q hq => List.rel_of_pairwise_cons h hq
    by_cases h₁ : cmp k' k = true
    · simp [erase, find?, h₁, ih h.of_cons]
    · by_cases h₂ : cmp k k' = true
      · simp [erase, find?, h₁, h₂]
      · have he : equiv cmp k' k = true :=
          equiv_iff.mpr ⟨by simpa using h₁, by simpa using h₂⟩
        simp only [erase, h₁, h₂, if_false, Bool.false_eq_true]
        exact find?_eq_none_of_lt fun q hq => (cmp_congr_left he).symm.trans (hhead q hq)

theorem find?_erase_of_not_equiv [StrictWeak cmp] {k k₂ : K} {l : List (K × V)}
    (hs : Sorted cmp l) (h : equiv cmp k k₂ = false) :
    find? cmp k₂ (erase cmp k l) = find? cmp k₂ l := by
  induction l with
  | nil => rfl
  | cons b rest ih =>
    obtain ⟨k', v'⟩ := b
    have hhead : ∀ q ∈ rest, cmp k' q.1 = true := fun q hq => List.rel_of_pairwise_cons hs hq
    by_cases h₁ : cmp k' k = true
    · simp only [erase, h₁, if_true, find?, ih hs.of_cons]
    · by_cases h₂ : cmp k k' = true
      · simp [erase, h₁, h₂]
      · have he : equiv cmp k k' = true :=
          equiv_iff.mpr ⟨by simpa using h₂, by simpa using h₁⟩
        simp only [erase, h₁, h₂, if_false, Bool.false_eq_true, find?]
        rw [equiv, cmp_congr_left he, cmp_congr_right he] at h
        by_cases h₃ : cmp k' k₂ = true
        · simp [h₃]
        · have h₄ : cmp k₂ k' = true := by simpa [h₃] using h
          simp only [h₃, h₄, if_true, if_false, Bool.false_eq_true]
          exact find?_eq_none_of_lt fun q hq => StrictWeak.trans h₄ (hhead q hq)

/-! ### Around a split

The bindings before a key and those from it on. -/

section Split

variable {k : K} {v : V} {lo hi : List (K × V)}

theorem find?_append (hlo : ∀ b ∈ lo, cmp b.1 k = true) :
    find? cmp k (lo ++ hi) = find? cmp k hi := by
  induction lo with
  | nil => rfl
  | cons b lo ih =>
    simp only [List.cons_append, find?, hlo b List.mem_cons_self, if_true]
    exact ih fun b' hb' => hlo b' (List.mem_cons_of_mem _ hb')

theorem insert_append (hlo : ∀ b ∈ lo, cmp b.1 k = true) :
    insert cmp k v (lo ++ hi) = lo ++ insert cmp k v hi := by
  induction lo with
  | nil => rfl
  | cons b lo ih =>
    simp only [List.cons_append, insert, hlo b List.mem_cons_self, if_true]
    exact congrArg _ (ih fun b' hb' => hlo b' (List.mem_cons_of_mem _ hb'))

theorem erase_append (hlo : ∀ b ∈ lo, cmp b.1 k = true) :
    erase cmp k (lo ++ hi) = lo ++ erase cmp k hi := by
  induction lo with
  | nil => rfl
  | cons b lo ih =>
    simp only [List.cons_append, erase, hlo b List.mem_cons_self, if_true]
    exact congrArg _ (ih fun b' hb' => hlo b' (List.mem_cons_of_mem _ hb'))

theorem modify_append {f : V → V} (hlo : ∀ b ∈ lo, cmp b.1 k = true) :
    modify cmp k f (lo ++ hi) = lo ++ modify cmp k f hi := by
  induction lo with
  | nil => rfl
  | cons b lo ih =>
    simp only [List.cons_append, modify, hlo b List.mem_cons_self, if_true]
    exact congrArg _ (ih fun b' hb' => hlo b' (List.mem_cons_of_mem _ hb'))

end Split

end Assoc

/-! ## The packaged map -/

/-- Bindings in comparator order. -/
@[ext]
structure OrderedMap (K V : Type) (cmp : K → K → Bool) where
  bindings : List (K × V)
  sorted : Assoc.Sorted cmp bindings

namespace OrderedMap

variable {K V : Type} {cmp : K → K → Bool}

instance [DecidableEq K] [DecidableEq V] : DecidableEq (OrderedMap K V cmp) := fun a b =>
  decidable_of_iff (a.bindings = b.bindings) OrderedMap.ext_iff.symm

instance [Repr K] [Repr V] : Repr (OrderedMap K V cmp) := ⟨fun m n => reprPrec m.bindings n⟩

def empty : OrderedMap K V cmp := ⟨[], List.Pairwise.nil⟩

def size (m : OrderedMap K V cmp) : Nat := m.bindings.length

def keys (m : OrderedMap K V cmp) : List K := m.bindings.map Prod.fst

/-- The first binding in comparator order. -/
def begin? (m : OrderedMap K V cmp) : Option (K × V) := m.bindings.head?

def find? (m : OrderedMap K V cmp) (k : K) : Option V := Assoc.find? cmp k m.bindings

def contains (m : OrderedMap K V cmp) (k : K) : Bool := (m.find? k).isSome

def insert [StrictWeak cmp] (m : OrderedMap K V cmp) (k : K) (v : V) : OrderedMap K V cmp :=
  ⟨Assoc.insert cmp k v m.bindings, Assoc.sorted_insert m.sorted⟩

def erase (m : OrderedMap K V cmp) (k : K) : OrderedMap K V cmp :=
  ⟨Assoc.erase cmp k m.bindings, Assoc.sorted_erase m.sorted⟩

def modify (m : OrderedMap K V cmp) (k : K) (f : V → V) : OrderedMap K V cmp :=
  ⟨Assoc.modify cmp k f m.bindings, Assoc.sorted_modify m.sorted⟩

/-- Change every value. -/
def mapValues (m : OrderedMap K V cmp) (f : V → V) : OrderedMap K V cmp :=
  ⟨m.bindings.map fun b => (b.1, f b.2), by
    have hs := m.sorted
    rw [Assoc.sorted_iff_keys] at hs ⊢
    rwa [List.map_map]⟩

@[simp] theorem find?_empty (k : K) : (empty : OrderedMap K V cmp).find? k = none := rfl

@[simp] theorem find?_mapValues (m : OrderedMap K V cmp) (f : V → V) (k : K) :
    (m.mapValues f).find? k = (m.find? k).map f := by
  change Assoc.find? cmp k (m.bindings.map fun b => (b.1, f b.2)) =
    (Assoc.find? cmp k m.bindings).map f
  induction m.bindings with
  | nil => rfl
  | cons b l ih =>
    simp only [List.map_cons, Assoc.find?, ih]
    split_ifs <;> rfl

theorem size_insert [StrictWeak cmp] (m : OrderedMap K V cmp) (k : K) (v : V) :
    (m.insert k v).size = if m.contains k then m.size else m.size + 1 := Assoc.length_insert k v _

theorem size_erase_le (m : OrderedMap K V cmp) (k : K) : (m.erase k).size ≤ m.size :=
  (Assoc.erase_sublist k _).length_le

@[simp] theorem keys_modify (m : OrderedMap K V cmp) (k : K) (f : V → V) :
    (m.modify k f).keys = m.keys := Assoc.modify_keys k f m.bindings

@[simp] theorem find?_insert_self [StrictWeak cmp] (m : OrderedMap K V cmp) (k : K) (v : V) :
    (m.insert k v).find? k = some v := Assoc.find?_insert_self k v m.bindings

@[simp] theorem find?_modify_self [StrictWeak cmp] (m : OrderedMap K V cmp) (k : K)
    (f : V → V) : (m.modify k f).find? k = (m.find? k).map f :=
  Assoc.find?_modify_self k f m.bindings

@[simp] theorem find?_erase_self [StrictWeak cmp] (m : OrderedMap K V cmp) (k : K) :
    (m.erase k).find? k = none := Assoc.find?_erase_self m.sorted

section Total

variable [StrictTotal cmp]

theorem not_equiv_of_ne {k k₂ : K} (h : k ≠ k₂) : equiv cmp k k₂ = false := by
  cases he : equiv cmp k k₂ with
  | false => rfl
  | true => exact absurd (equiv_eq.mp he) h

theorem find?_insert_of_ne (m : OrderedMap K V cmp) {k k₂ : K} (v : V) (h : k ≠ k₂) :
    (m.insert k v).find? k₂ = m.find? k₂ :=
  Assoc.find?_insert_of_not_equiv v (not_equiv_of_ne h)

theorem find?_modify_of_ne (m : OrderedMap K V cmp) {k k₂ : K} (f : V → V) (h : k ≠ k₂) :
    (m.modify k f).find? k₂ = m.find? k₂ :=
  Assoc.find?_modify_of_not_equiv f (not_equiv_of_ne h)

theorem find?_erase_of_ne (m : OrderedMap K V cmp) {k k₂ : K} (h : k ≠ k₂) :
    (m.erase k).find? k₂ = m.find? k₂ :=
  Assoc.find?_erase_of_not_equiv m.sorted (not_equiv_of_ne h)

/-- Lookup after an assignment, as a function of the key. -/
theorem find?_insert_eq [DecidableEq K] (m : OrderedMap K V cmp) (k : K) (v : V) :
    (m.insert k v).find? = Function.update m.find? k (some v) := by
  funext k₂
  by_cases hk : k₂ = k
  · rw [hk, find?_insert_self, Function.update_self]
  · rw [find?_insert_of_ne m v (Ne.symm hk), Function.update_of_ne hk]

theorem find?_erase_eq [DecidableEq K] (m : OrderedMap K V cmp) (k : K) :
    (m.erase k).find? = Function.update m.find? k none := by
  funext k₂
  by_cases hk : k₂ = k
  · rw [hk, find?_erase_self, Function.update_self]
  · rw [find?_erase_of_ne m (Ne.symm hk), Function.update_of_ne hk]

theorem find?_eq_some_iff (m : OrderedMap K V cmp) {k : K} {v : V} :
    m.find? k = some v ↔ (k, v) ∈ m.bindings := by
  constructor
  · intro h
    obtain ⟨k', hm, he⟩ := Assoc.mem_of_find? h
    rwa [equiv_eq.mp he] at hm
  · exact Assoc.find?_of_mem m.sorted

/-- Lookup determines the bindings. -/
theorem bindings_eq_of_find? {m : OrderedMap K V cmp} {l : List (K × V)} (hl : Assoc.Sorted cmp l)
    (h : ∀ k v, m.find? k = some v ↔ (k, v) ∈ l) : m.bindings = l := by
  have : Std.Irrefl fun a b : K × V => cmp a.1 b.1 = true :=
    ⟨fun a => by simp [StrictWeak.irrefl]⟩
  have : Std.Antisymm fun a b : K × V => cmp a.1 b.1 = true :=
    ⟨fun a b hab hba => by rw [cmp_asymm hab] at hba; cases hba⟩
  refine List.Pairwise.eq_of_mem_iff m.sorted hl ?_
  rintro ⟨k, v⟩
  rw [← find?_eq_some_iff, h]

theorem eq_of_find?_eq {m m' : OrderedMap K V cmp} (h : m.find? = m'.find?) : m = m' := by
  refine OrderedMap.ext (bindings_eq_of_find? m'.sorted ?_)
  intro k v
  rw [h, find?_eq_some_iff]

theorem mem_keys_iff (m : OrderedMap K V cmp) {k : K} :
    k ∈ m.keys ↔ ∃ v, m.find? k = some v := by
  simp only [keys, List.mem_map, Prod.exists, exists_and_right, exists_eq_right,
    find?_eq_some_iff]

end Total

/-- The first binding replaced. -/
theorem bindings_modify_head [StrictWeak cmp] {m : OrderedMap K V cmp} {k : K} {v : V}
    {rest : List (K × V)} (h : m.bindings = (k, v) :: rest) (f : V → V) :
    (m.modify k f).bindings = (k, f v) :: rest := by
  simp [modify, h, Assoc.modify, StrictWeak.irrefl]

/-- The first binding dropped. -/
theorem bindings_erase_head [StrictWeak cmp] {m : OrderedMap K V cmp} {k : K} {v : V}
    {rest : List (K × V)} (h : m.bindings = (k, v) :: rest) : (m.erase k).bindings = rest := by
  simp [erase, h, Assoc.erase, StrictWeak.irrefl]

theorem find?_head [StrictWeak cmp] {m : OrderedMap K V cmp} {k : K} {v : V}
    {rest : List (K × V)} (h : m.bindings = (k, v) :: rest) : m.find? k = some v := by
  simp [find?, h, Assoc.find?, StrictWeak.irrefl]

theorem keys_nodup [StrictWeak cmp] (m : OrderedMap K V cmp) : m.keys.Nodup := by
  have h := Assoc.sorted_iff_keys.mp m.sorted
  refine List.Pairwise.imp ?_ h
  intro a b hab he
  subst he
  have hirr : cmp a a = false := StrictWeak.irrefl a
  rw [hirr] at hab
  cases hab

end OrderedMap

/-! ## Comparators -/

section Comparators

variable {K : Type} [LT K] [DecidableRel ((· < ·) : K → K → Prop)]

/-- The default comparator of an ordered container. -/
def less (a b : K) : Bool := decide (a < b)

/-- The reversed comparator. -/
def greater (a b : K) : Bool := decide (b < a)

variable [LE K] [Std.IsLinearOrder K] [Std.LawfulOrderLT K]

instance : StrictTotal (less (K := K)) where
  irrefl a := by simp [less, Std.lt_irrefl]
  trans h₁ h₂ := by
    simp only [less, decide_eq_true_eq] at *
    exact Std.lt_trans h₁ h₂
  cotrans {a c} b h := by
    simp only [less, decide_eq_true_eq] at *
    by_cases hab : a < b
    · exact Or.inl hab
    · exact Or.inr (Std.lt_of_le_of_lt (Std.not_lt.mp hab) h)
  connected h₁ h₂ := by
    simp only [less, decide_eq_false_iff_not] at *
    exact Std.le_antisymm (Std.not_lt.mp h₂) (Std.not_lt.mp h₁)

instance : StrictTotal (greater (K := K)) where
  irrefl a := by simp [greater, Std.lt_irrefl]
  trans h₁ h₂ := by
    simp only [greater, decide_eq_true_eq] at *
    exact Std.lt_trans h₂ h₁
  cotrans {a c} b h := by
    simp only [greater, decide_eq_true_eq] at *
    by_cases hab : b < a
    · exact Or.inl hab
    · exact Or.inr (Std.lt_of_lt_of_le h (Std.not_lt.mp hab))
  connected h₁ h₂ := by
    simp only [greater, decide_eq_false_iff_not] at *
    exact Std.le_antisymm (Std.not_lt.mp h₁) (Std.not_lt.mp h₂)

end Comparators

end NexusLOB.Collections
