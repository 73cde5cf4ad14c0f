import Mathlib.Data.Finset.Card
import Mathlib.Data.List.Sort

/-!
# Majorities

A quorum is a majority of a fixed set of members. Two majorities share a member, and the `q`-th
largest of a list of numbers is reached by at least `q` of them.
-/

namespace NexusLOB.Consensus

variable {N : Type}

/-- A set of members that is more than half of them. -/
def Majority (members Q : Finset N) : Prop := Q ⊆ members ∧ members.card < 2 * Q.card

theorem Majority.meet [DecidableEq N] {members Q R : Finset N} (hQ : Majority members Q)
    (hR : Majority members R) : ∃ v, v ∈ Q ∧ v ∈ R := by
  obtain ⟨hQs, hQc⟩ := hQ
  obtain ⟨hRs, hRc⟩ := hR
  have hunion : (Q ∪ R).card ≤ members.card := Finset.card_le_card (Finset.union_subset hQs hRs)
  have hsum : (Q ∪ R).card + (Q ∩ R).card = Q.card + R.card := Finset.card_union_add_card_inter Q R
  have hpos : 0 < (Q ∩ R).card := by omega
  obtain ⟨v, hv⟩ := Finset.card_pos.mp hpos
  exact ⟨v, (Finset.mem_inter.mp hv).1, (Finset.mem_inter.mp hv).2⟩

/-- With more than one member a majority has a member besides any given one. -/
theorem Majority.exists_ne {members Q : Finset N} (hQ : Majority members Q)
    (hcard : 1 < members.card) (n : N) : ∃ v ∈ Q, v ≠ n := by
  have h2 : 1 < Q.card := by
    have := hQ.2
    omega
  obtain ⟨v, hv, hne⟩ := Finset.exists_mem_ne h2 n
  exact ⟨v, hv, hne⟩

/-- A list without repetitions of `length / 2 + 1` members is a majority. -/
theorem majority_of_nodup [DecidableEq N] {members votes : List N} (hm : members.Nodup) (hv : votes.Nodup)
    (hsub : ∀ v ∈ votes, v ∈ members) (hlen : members.length / 2 + 1 ≤ votes.length) :
    Majority members.toFinset votes.toFinset := by
  refine ⟨?_, ?_⟩
  · intro v hvm
    exact List.mem_toFinset.mpr (hsub v (List.mem_toFinset.mp hvm))
  · rw [List.toFinset_card_of_nodup hm, List.toFinset_card_of_nodup hv]
    omega

/-- Of a descending list, the first `q` elements are at least the `q`-th. -/
theorem le_countP_of_pairwise {l : List Nat} (hs : l.Pairwise (· ≥ ·)) {q : Nat} (hq : 1 ≤ q)
    (hlen : q ≤ l.length) : q ≤ l.countP (fun x => decide (l.getD (q - 1) 0 ≤ x)) := by
  have hlt : q - 1 < l.length := by omega
  have hget : l.getD (q - 1) 0 = l[q - 1] := by
    rw [List.getD_eq_getElem?_getD, List.getElem?_eq_getElem hlt, Option.getD_some]
  have hall : ∀ x ∈ l.take q, decide (l[q - 1] ≤ x) = true := by
    intro x hx
    obtain ⟨j, hj, rfl⟩ := List.getElem_of_mem hx
    simp only [List.length_take] at hj
    rw [List.getElem_take, decide_eq_true_iff]
    rcases Nat.lt_or_ge j (q - 1) with hjlt | hjge
    · exact List.pairwise_iff_getElem.mp hs j (q - 1) (by omega) hlt hjlt
    · have : j = q - 1 := by omega
      subst this
      exact le_rfl
  calc q = (l.take q).length := by rw [List.length_take]; omega
    _ = (l.take q).countP (fun x => decide (l[q - 1] ≤ x)) := (List.countP_eq_length.mpr hall).symm
    _ ≤ l.countP (fun x => decide (l[q - 1] ≤ x)) := (List.take_sublist q l).countP_le
    _ = l.countP (fun x => decide (l.getD (q - 1) 0 ≤ x)) := by rw [hget]

/-- At least `q` elements of a list reach the `q`-th largest of them. -/
theorem le_countP_insertionSort {l : List Nat} {q : Nat} (hq : 1 ≤ q) (hlen : q ≤ l.length) :
    q ≤ l.countP (fun x => decide ((l.insertionSort (· ≥ ·)).getD (q - 1) 0 ≤ x)) := by
  have hperm := List.perm_insertionSort (· ≥ ·) l
  rw [← hperm.countP_eq]
  exact le_countP_of_pairwise (List.pairwise_insertionSort _ l) hq
    (by rw [List.length_insertionSort]; exact hlen)

/-- What `q` elements reach, the `q`-th largest reaches. -/
theorem le_getD_insertionSort {l : List Nat} {q k : Nat} (hq : 1 ≤ q)
    (h : q ≤ l.countP fun x => decide (k ≤ x)) :
    k ≤ (l.insertionSort (· ≥ ·)).getD (q - 1) 0 := by
  have hs := List.pairwise_insertionSort (· ≥ ·) l
  rw [← (List.perm_insertionSort (· ≥ ·) l).countP_eq] at h
  generalize l.insertionSort (· ≥ ·) = s at hs h ⊢
  by_contra hlt
  -- then nothing from position `q - 1` on reaches `k`
  have hrest : (s.drop (q - 1)).countP (fun x => decide (k ≤ x)) = 0 := by
    rw [List.countP_eq_zero]
    intro x hx
    obtain ⟨j, hj, rfl⟩ := List.getElem_of_mem hx
    rw [List.length_drop] at hj
    have hget : s.getD (q - 1) 0 = s[q - 1] := by
      rw [List.getD_eq_getElem?_getD, List.getElem?_eq_getElem (by omega), Option.getD_some]
    have hle : s[q - 1 + j] ≤ s[q - 1] := by
      rcases Nat.eq_zero_or_pos j with rfl | hpos
      · exact le_rfl
      · exact List.pairwise_iff_getElem.mp hs (q - 1) (q - 1 + j) (by omega) (by omega) (by omega)
    rw [List.getElem_drop, decide_eq_true_iff]
    omega
  have hfirst : (s.take (q - 1)).countP (fun x => decide (k ≤ x)) ≤ q - 1 :=
    List.countP_le_length.trans (List.length_take_le _ _)
  rw [← List.take_append_drop (q - 1) s, List.countP_append, hrest] at h
  omega

theorem getD_insertionSort_le {l : List Nat} {b : Nat} (h : ∀ x ∈ l, x ≤ b) (i : Nat) :
    (l.insertionSort (· ≥ ·)).getD i 0 ≤ b := by
  rw [List.getD_eq_getElem?_getD]
  cases hget : (l.insertionSort (· ≥ ·))[i]? with
  | none => exact Nat.zero_le _
  | some x => exact h x ((List.mem_insertionSort _).mp (List.mem_of_getElem? hget))

end NexusLOB.Consensus
