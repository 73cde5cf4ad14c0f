import Mathlib.Data.List.Basic
import Mathlib.Data.List.Infix

/-!
# Logs written by term leaders

A log is a list of entries, read with indices from 1. Every entry carries the term of the leader
that wrote it, and every term has at most one leader, whose log only grows while it leads. A log
is *rooted* in the leaders' logs when each of its prefixes is a prefix of the log of the leader
that wrote the prefix's last entry. Two rooted logs with the same term at an index agree up to
that index: this is the log matching property, and it needs no history beyond the leaders' logs.
-/

namespace NexusLOB.Consensus

variable {E : Type} {τ : E → Nat}

/-- The term at a 1-based index, 0 at index 0 and beyond the end. -/
def termAt (τ : E → Nat) (l : List E) : Nat → Nat
  | 0 => 0
  | i + 1 => (l[i]?.map τ).getD 0

@[simp] theorem termAt_zero (l : List E) : termAt τ l 0 = 0 := rfl

theorem termAt_of_gt {l : List E} {i : Nat} (h : l.length < i) : termAt τ l i = 0 := by
  cases i with
  | zero => rfl
  | succ i => simp [termAt, List.getElem?_eq_none (by omega : l.length ≤ i)]

theorem termAt_eq_getElem {l : List E} {i : Nat} (h : i < l.length) :
    termAt τ l (i + 1) = τ l[i] := by
  simp [termAt, List.getElem?_eq_getElem h]

theorem termAt_ne_zero_iff {l : List E} (hpos : ∀ e ∈ l, τ e ≠ 0) {i : Nat} :
    termAt τ l i ≠ 0 ↔ 1 ≤ i ∧ i ≤ l.length := by
  constructor
  · intro h
    refine ⟨?_, ?_⟩
    · by_contra h0
      have : i = 0 := by omega
      exact h (by rw [this]; rfl)
    · by_contra hgt
      exact h (termAt_of_gt (by omega))
  · rintro ⟨h1, h2⟩
    obtain ⟨j, rfl⟩ : ∃ j, i = j + 1 := ⟨i - 1, by omega⟩
    rw [termAt_eq_getElem (by omega)]
    exact hpos _ (List.getElem_mem _)

theorem le_length_of_termAt_ne_zero {l : List E} {i : Nat} (h : termAt τ l i ≠ 0) :
    i ≤ l.length := by
  by_contra hgt
  exact h (termAt_of_gt (by omega))

theorem termAt_take {l : List E} {i n : Nat} (h : i ≤ n) : termAt τ (l.take n) i = termAt τ l i := by
  cases i with
  | zero => rfl
  | succ i =>
    simp only [termAt, List.getElem?_take]
    rw [if_pos (by omega)]

theorem termAt_eq_of_isPrefix {l l' : List E} (h : l <+: l') {i : Nat} (hi : i ≤ l.length) :
    termAt τ l i = termAt τ l' i := by
  obtain ⟨t, rfl⟩ := h
  cases i with
  | zero => rfl
  | succ i => simp [termAt, List.getElem?_append_left (by omega : i < l.length)]

theorem termAt_append_right {l l' : List E} {i : Nat} (h : 1 ≤ i) :
    termAt τ (l ++ l') (l.length + i) = termAt τ l' i := by
  obtain ⟨j, rfl⟩ : ∃ j, i = j + 1 := ⟨i - 1, by omega⟩
  rw [← Nat.add_assoc]
  simp only [termAt]
  rw [List.getElem?_append_right (Nat.le_add_right _ _), Nat.add_sub_cancel_left]

theorem exists_mem_termAt (τ : E → Nat) {l : List E} {i : Nat} (h1 : 1 ≤ i) (h2 : i ≤ l.length) :
    ∃ e ∈ l, termAt τ l i = τ e := by
  obtain ⟨j, rfl⟩ : ∃ j, i = j + 1 := ⟨i - 1, by omega⟩
  exact ⟨l[j], List.getElem_mem _, termAt_eq_getElem (by omega)⟩

/-- The term of the last entry, 0 for the empty log. -/
def lastTerm (τ : E → Nat) (l : List E) : Nat := termAt τ l l.length

/-! ## Prefixes -/

theorem take_prefix_of_le {l : List E} {m n : Nat} (h : m ≤ n) : l.take m <+: l.take n := by
  have := List.take_prefix m (l.take n)
  rwa [List.take_take, Nat.min_eq_left h] at this

/-- Two prefixes of one list, the first no longer than the second. -/
theorem isPrefix_of_isPrefix {p q l : List E} (hp : p <+: l) (hq : q <+: l) (h : p.length ≤ q.length) :
    p <+: q :=
  List.prefix_of_prefix_length_le hp hq h

theorem take_length_of_isPrefix {p l : List E} (h : p <+: l) : l.take p.length = p := by
  obtain ⟨t, rfl⟩ := h
  simp

theorem take_prefix_take {p l : List E} (h : p <+: l) (n : Nat) : p.take n <+: l.take n := by
  obtain ⟨t, rfl⟩ := h
  rw [List.take_append]
  exact List.prefix_append _ _

/-- Taking no more than a prefix holds reads the prefix. -/
theorem take_eq_of_isPrefix {p l : List E} (h : p <+: l) {n : Nat} (hn : n ≤ p.length) :
    p.take n = l.take n := by
  obtain ⟨t, rfl⟩ := h
  rw [List.take_append_of_le_length hn]

/-- A prefix reads like the list inside its length. -/
theorem getElem?_eq_of_isPrefix {p l : List E} (h : p <+: l) {i : Nat} (hi : i < p.length) :
    p[i]? = l[i]? := by
  obtain ⟨t, rfl⟩ := h
  rw [List.getElem?_append_left hi]

theorem getElem?_eq_some_of_isPrefix {p l : List E} (h : p <+: l) {i : Nat} {e : E}
    (he : p[i]? = some e) : l[i]? = some e := by
  rw [← getElem?_eq_of_isPrefix h (List.getElem?_eq_some_iff.mp he).1]
  exact he

theorem prefix_take_iff_of_length {p l : List E} {n : Nat} (h : p.length ≤ n) :
    p <+: l.take n ↔ p <+: l := by
  constructor
  · intro hp
    exact hp.trans (List.take_prefix _ _)
  · intro hp
    have := take_prefix_take hp n
    rwa [List.take_of_length_le h] at this

/-- Finitely many lists of which any two are comparable have one that all others begin. -/
theorem exists_isPrefix_of_comparable {ι : Type} {f : ι → List E} {l : List ι}
    (h : ∀ i ∈ l, ∀ j ∈ l, f i <+: f j ∨ f j <+: f i) : ∃ o, ∀ i ∈ l, f i <+: o := by
  suffices hs : ∃ o, (o = [] ∨ ∃ j ∈ l, o = f j) ∧ ∀ i ∈ l, f i <+: o from
    hs.imp fun _ ho => ho.2
  induction l with
  | nil => exact ⟨[], Or.inl rfl, nofun⟩
  | cons a rest ih =>
    obtain ⟨o, ho, hle⟩ := ih fun i hi j hj =>
      h i (List.mem_cons_of_mem _ hi) j (List.mem_cons_of_mem _ hj)
    have hcmp : f a <+: o ∨ o <+: f a := by
      rcases ho with rfl | ⟨j, hj, rfl⟩
      · exact Or.inr List.nil_prefix
      · exact h a List.mem_cons_self j (List.mem_cons_of_mem _ hj)
    rcases hcmp with hao | hoa
    · refine ⟨o, ho.imp_right fun ⟨j, hj, heq⟩ => ⟨j, List.mem_cons_of_mem _ hj, heq⟩, ?_⟩
      intro i hi
      rcases List.mem_cons.mp hi with rfl | hi
      · exact hao
      · exact hle i hi
    · refine ⟨f a, Or.inr ⟨a, List.mem_cons_self, rfl⟩, ?_⟩
      intro i hi
      rcases List.mem_cons.mp hi with rfl | hi
      · exact List.prefix_rfl
      · exact (hle i hi).trans hoa

/-! ## The entries of one term at the end -/

/-- The entries of term `t` are the last ones of the log. -/
def Tailed (τ : E → Nat) (t : Nat) (l : List E) : Prop :=
  ∀ i j, 1 ≤ i → i ≤ j → j ≤ l.length → termAt τ l i = t → termAt τ l j = t

theorem tailed_of_forall_ne {t : Nat} {l : List E} (h : ∀ e ∈ l, τ e ≠ t) : Tailed τ t l := by
  intro i j hi hij hj hterm
  obtain ⟨e, he, heq⟩ := exists_mem_termAt τ hi (hij.trans hj)
  exact absurd (heq.symm.trans hterm) (h e he)

theorem Tailed.append {t : Nat} {l ext : List E} (h : Tailed τ t l) (hext : ∀ e ∈ ext, τ e = t) :
    Tailed τ t (l ++ ext) := by
  intro i j hi hij hj hterm
  rcases Nat.lt_or_ge l.length j with hgt | hle
  · obtain ⟨k, rfl⟩ : ∃ k, j = l.length + k := ⟨j - l.length, by omega⟩
    rw [List.length_append] at hj
    rw [termAt_append_right (by omega)]
    obtain ⟨e, he, heq⟩ := exists_mem_termAt τ (l := ext) (i := k) (by omega) (by omega)
    rw [heq, hext e he]
  · rw [← termAt_eq_of_isPrefix (List.prefix_append l ext) hle]
    rw [← termAt_eq_of_isPrefix (List.prefix_append l ext) (hij.trans hle)] at hterm
    exact h i j hi hij hle hterm

/-! ## Rooted logs -/

/-- Every prefix of `l` is a prefix of the log of the leader that wrote its last entry. -/
def Rooted (τ : E → Nat) (leaderLog : Nat → List E) (l : List E) : Prop :=
  ∀ i, 1 ≤ i → i ≤ l.length → l.take i <+: leaderLog (termAt τ l i)

section Rooted

variable {leaderLog : Nat → List E}

theorem rooted_nil : Rooted τ leaderLog [] := by
  intro i h1 h2
  simp only [List.length_nil] at h2
  omega

theorem Rooted.of_isPrefix {l l' : List E} (h : Rooted τ leaderLog l') (hp : l <+: l') :
    Rooted τ leaderLog l := by
  intro i h1 h2
  have hi : i ≤ l'.length := h2.trans hp.length_le
  rw [take_eq_of_isPrefix hp h2, termAt_eq_of_isPrefix hp h2]
  exact h i h1 hi

theorem Rooted.take {l : List E} (h : Rooted τ leaderLog l) (n : Nat) :
    Rooted τ leaderLog (l.take n) := h.of_isPrefix (List.take_prefix n l)

theorem Rooted.mono {leaderLog' : Nat → List E} {l : List E}
    (hle : ∀ t, leaderLog t <+: leaderLog' t) (h : Rooted τ leaderLog l) :
    Rooted τ leaderLog' l := fun i h1 h2 => (h i h1 h2).trans (hle _)

/-- An entry of a rooted log is where its own leader wrote it. -/
theorem Rooted.getElem? {l : List E} (h : Rooted τ leaderLog l) {i : Nat} {e : E}
    (he : l[i]? = some e) : (leaderLog (τ e))[i]? = some e := by
  have hi : i < l.length := (List.getElem?_eq_some_iff.mp he).1
  have hterm : termAt τ l (i + 1) = τ e := by simp [termAt, he]
  have hp := h (i + 1) (by omega) hi
  rw [hterm] at hp
  exact getElem?_eq_some_of_isPrefix hp (by rw [List.getElem?_take_of_lt (by omega), he])

/-- **Log matching.** Rooted logs with equal terms at an index agree up to it. -/
theorem Rooted.agree {l l' : List E} (h : Rooted τ leaderLog l) (h' : Rooted τ leaderLog l')
    {i : Nat} (hi : i ≤ l.length) (hi' : i ≤ l'.length) (ht : termAt τ l i = termAt τ l' i) :
    l.take i = l'.take i := by
  rcases Nat.eq_zero_or_pos i with rfl | h1
  · simp
  · have hp := h i h1 hi
    have hp' := h' i h1 hi'
    rw [← ht] at hp'
    have hlen : (l.take i).length = (l'.take i).length := by
      simp only [List.length_take]
      omega
    exact List.IsPrefix.eq_of_length (isPrefix_of_isPrefix hp hp' (le_of_eq hlen)) hlen

/-- Equal terms at an index mean equal logs up to it. -/
def Matches (τ : E → Nat) (l l' : List E) : Prop :=
  ∀ i, i ≤ l.length → i ≤ l'.length → termAt τ l i = termAt τ l' i → l.take i = l'.take i

theorem Rooted.matches {l l' : List E} (h : Rooted τ leaderLog l) (h' : Rooted τ leaderLog l') :
    Matches τ l l' := fun _ hi hi' ht => h.agree h' hi hi' ht

theorem Matches.of_isPrefix {p l l' : List E} (h : Matches τ l l') (hp : p <+: l) :
    Matches τ p l' := by
  intro k hk hk' ht
  rw [termAt_eq_of_isPrefix hp hk] at ht
  rw [← h k (hk.trans hp.length_le) hk' ht, take_eq_of_isPrefix hp hk]

theorem matches_take (τ : E → Nat) (l : List E) (n : Nat) : Matches τ (l.take n) l := by
  intro k hk _ _
  exact take_eq_of_isPrefix (List.take_prefix n l) hk

/-- A log that ends in a leader's own entry and is a prefix of its log is rooted. -/
theorem Rooted.snoc {l : List E} {e : E} (h : Rooted τ leaderLog l)
    (he : l ++ [e] <+: leaderLog (τ e)) : Rooted τ leaderLog (l ++ [e]) := by
  intro i h1 h2
  simp only [List.length_append, List.length_singleton] at h2
  by_cases hi : i ≤ l.length
  · rw [List.take_append_of_le_length hi, ← termAt_eq_of_isPrefix (List.prefix_append l [e]) hi]
    exact h i h1 hi
  · have hi' : i = l.length + 1 := by omega
    subst hi'
    rw [termAt_append_right (by omega)]
    rw [List.take_of_length_le (by simp)]
    simpa [termAt] using he

/-- The whole of a non-empty rooted log is a prefix of the log of its last entry's leader. -/
theorem Rooted.prefix_lastTerm {l : List E} (h : Rooted τ leaderLog l) (hne : l ≠ []) :
    l <+: leaderLog (lastTerm τ l) := by
  have := h l.length (List.length_pos_iff.mpr hne) le_rfl
  rwa [List.take_length] at this

/-- Terms never decrease along a rooted log, when no leader's log holds an entry of a later
term. -/
theorem Rooted.termAt_mono {l : List E} (h : Rooted τ leaderLog l)
    (hbound : ∀ t, ∀ e ∈ leaderLog t, τ e ≤ t) {i j : Nat} (hij : i ≤ j) (hj : j ≤ l.length) :
    termAt τ l i ≤ termAt τ l j := by
  rcases Nat.eq_zero_or_pos i with rfl | h1
  · simp
  · obtain ⟨e, he, hte⟩ := exists_mem_termAt τ h1 (hij.trans hj)
    have hp := h j (by omega) hj
    rw [← termAt_take hij]
    obtain ⟨e', he', hte'⟩ := exists_mem_termAt τ (l := l.take j) h1
      (by simp only [List.length_take]; omega)
    rw [hte']
    exact hbound _ e' (hp.subset he')

end Rooted

end NexusLOB.Consensus
