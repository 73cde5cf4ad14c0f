import Mathlib.Data.List.Perm.Subperm
import Mathlib.Data.List.TakeWhile
import NexusLOB.Book.SkipList

/-!
# The skip list is an ordered map

`Rep sl c` says that the nodes at `c`, in this order, make up the skip list: on every level the
links run through exactly those of them that reach up to it. The search loop finds the last node
before a key on every level; inserting and removing splice these chains. Whatever the coin flips
were, the skip list represents an `OrderedMap`.
-/

set_option linter.unusedSectionVars false

namespace NexusLOB.Lob

open Collections

namespace SkipList

variable {K V : Type} [Inhabited K] [Inhabited V] {cmp : K → K → Bool}

/-! ## Nodes -/

section Nodes

variable {nodes : List (Node K V)}

/-- Two node stores that differ in their links at most. -/
structure SameNodes (nodes nodes' : List (Node K V)) : Prop where
  length : nodes'.length = nodes.length
  tower : ∀ p, tower nodes' p = tower nodes p
  key : ∀ p, keyAt nodes' p = keyAt nodes p
  value : ∀ p, valueAt nodes' p = valueAt nodes p

theorem SameNodes.refl (nodes : List (Node K V)) : SameNodes nodes nodes :=
  ⟨rfl, fun _ => rfl, fun _ => rfl, fun _ => rfl⟩

theorem SameNodes.trans {nodes' nodes'' : List (Node K V)} (h : SameNodes nodes nodes')
    (h' : SameNodes nodes' nodes'') : SameNodes nodes nodes'' :=
  ⟨h'.length.trans h.length, fun p => (h'.tower p).trans (h.tower p),
    fun p => (h'.key p).trans (h.key p), fun p => (h'.value p).trans (h.value p)⟩

theorem lt_length_of_tower {p i : Nat} (h : i < tower nodes p) : p < nodes.length := by
  by_contra hge
  rw [tower, List.getElem?_eq_none (by omega)] at h
  exact Nat.not_lt_zero _ h

theorem setForward_same (p i : Nat) (q : Option Nat) : SameNodes nodes (setForward nodes p i q) where
  length := List.length_modify ..
  tower := by
    intro p'
    unfold tower setForward
    rw [List.getElem?_modify]
    by_cases hp : p = p'
    · simp [hp, Option.map_map, Function.comp_def]
    · simp [hp]
  key := by
    intro p'
    unfold keyAt setForward
    rw [List.getElem?_modify]
    by_cases hp : p = p'
    · simp [hp, Option.map_map, Function.comp_def]
    · simp [hp]
  value := by
    intro p'
    unfold valueAt setForward
    rw [List.getElem?_modify]
    by_cases hp : p = p'
    · simp [hp, Option.map_map, Function.comp_def]
    · simp [hp]

theorem next_setForward {p i : Nat} (hi : i < tower nodes p) (q : Option Nat) (j p' : Nat) :
    next (setForward nodes p i q) j p' = if p' = p ∧ j = i then q else next nodes j p' := by
  have hp := lt_length_of_tower hi
  rw [tower, List.getElem?_eq_getElem hp] at hi
  simp only [Option.map_some, Option.getD_some] at hi
  unfold next setForward
  rw [List.getElem?_modify]
  by_cases hpp : p = p'
  · subst hpp
    simp only [if_true, List.getElem?_eq_getElem hp, Option.map_eq_map, Option.map_some,
      Option.bind_some, true_and]
    by_cases hij : i = j
    · subst hij
      simp [hi]
    · rw [List.getElem?_set_ne hij, if_neg fun h => hij h.symm]
  · rw [if_neg fun h => hpp h.1.symm]
    simp [hpp]

/-! ## Linking and unlinking -/

section Link

variable {update : List Nat} {p : Nat}

theorem link_same (i : Nat) : SameNodes nodes (link update p nodes i) :=
  (setForward_same p i _).trans (setForward_same _ i _)

theorem link_next {i : Nat} (hp : i < tower nodes p) (hu : i < tower nodes (update.getD i 0))
    (j q : Nat) :
    next (link update p nodes i) j q =
      if q = update.getD i 0 ∧ j = i then some p
      else if q = p ∧ j = i then next nodes i (update.getD i 0)
      else next nodes j q := by
  unfold link
  dsimp only
  rw [next_setForward, next_setForward hp]
  rw [(setForward_same _ _ _).tower]
  exact hu

/-- The links after `p` is linked on the levels below `k`. -/
theorem foldl_link (nodes : List (Node K V)) (update : List Nat) (p : Nat) {k : Nat}
    (hp : k ≤ tower nodes p)
    (hu : ∀ i < k, i < tower nodes (update.getD i 0)) :
    SameNodes nodes ((List.range k).foldl (link update p) nodes) ∧
      ∀ j q, next ((List.range k).foldl (link update p) nodes) j q =
        if q = update.getD j 0 ∧ j < k then some p
        else if q = p ∧ j < k then next nodes j (update.getD j 0)
        else next nodes j q := by
  induction k with
  | zero => exact ⟨.refl nodes, by simp⟩
  | succ k ih =>
    obtain ⟨hsame, hnext⟩ := ih (by omega) fun i hi => hu i (by omega)
    rw [List.range_succ, List.foldl_append, List.foldl_cons, List.foldl_nil]
    refine ⟨hsame.trans (link_same k), fun j q => ?_⟩
    rw [link_next (by rw [hsame.tower]; omega) (by rw [hsame.tower]; exact hu k (by omega))]
    by_cases hjk : j = k
    · subst hjk
      simp [hnext]
    · rw [if_neg fun h => hjk h.2, if_neg fun h => hjk h.2, hnext]
      have hlt : j < k + 1 ↔ j < k := by omega
      simp only [hlt]

/-- The links after `p`, which is linked on the levels below `h`, is unlinked on the levels from
`i` on. -/
theorem unlink_range' (update : List Nat) {p h : Nat} (n i : Nat) (nodes : List (Node K V))
    (hu : ∀ j, i ≤ j → j < i + n → j < tower nodes (update.getD j 0))
    (hlinked : ∀ j, i ≤ j → j < i + n → (next nodes j (update.getD j 0) = some p ↔ j < h)) :
    SameNodes nodes (unlink update p (List.range' i n) nodes) ∧
      ∀ j q, next (unlink update p (List.range' i n) nodes) j q =
        if i ≤ j ∧ j < i + n ∧ j < h ∧ q = update.getD j 0 then next nodes j p
        else next nodes j q := by
  induction n generalizing i nodes with
  | zero =>
    refine ⟨.refl nodes, fun j q => ?_⟩
    rw [if_neg (by omega)]
    rfl
  | succ n ih =>
    rw [List.range'_succ, unlink]
    have hi := hlinked i le_rfl (by omega)
    by_cases hih : i < h
    · -- linked here: redirect the predecessor and go on
      rw [if_neg (not_not.mpr (hi.mpr hih))]
      have htower := hu i le_rfl (by omega)
      have hset := next_setForward htower
      obtain ⟨hsame, hnext⟩ := ih (i + 1) (setForward nodes (update.getD i 0) i (next nodes i p))
        (by
          intro j hj hjn
          rw [(setForward_same _ _ _).tower]
          exact hu j (by omega) (by omega))
        (by
          intro j hj hjn
          rw [hset, if_neg (by omega)]
          exact hlinked j (by omega) (by omega))
      refine ⟨(setForward_same _ _ _).trans hsame, fun j q => ?_⟩
      rw [hnext, hset, hset]
      by_cases hji : j = i
      · subst hji
        rw [if_neg (by omega)]
        by_cases hq : q = update.getD j 0
        · rw [if_pos ⟨hq, rfl⟩, if_pos ⟨le_rfl, by omega, hih, hq⟩]
        · rw [if_neg fun h => hq h.1, if_neg fun h => hq h.2.2.2]
      · have hiff : (i + 1 ≤ j ∧ j < i + 1 + n ∧ j < h ∧ q = update.getD j 0) ↔
            (i ≤ j ∧ j < i + (n + 1) ∧ j < h ∧ q = update.getD j 0) := by
          constructor <;> rintro ⟨h1, h2, h3⟩ <;> exact ⟨by omega, by omega, h3⟩
        simp only [hiff, hji, and_false, if_false]
    · -- not linked here, nor on any higher level
      rw [if_pos fun heq => hih (hi.mp heq)]
      refine ⟨.refl nodes, fun j q => ?_⟩
      rw [if_neg (by omega)]

end Link

end Nodes

/-! ## The representation -/

/-- The nodes of `c` that are linked on level `i`. -/
def onLevel (nodes : List (Node K V)) (i : Nat) (c : List Nat) : List Nat :=
  c.filter fun p => i < tower nodes p

/-- The nodes at `c` make up the skip list. -/
structure Rep (sl : SkipList K V cmp) (c : List Nat) : Prop where
  nodup : (0 :: c).Nodup
  tower_pos : ∀ p ∈ c, 0 < tower sl.nodes p
  head : tower sl.nodes 0 = sl.maxLevel + 1
  chain : ∀ i ≤ sl.maxLevel, Chain (next sl.nodes i) 0 (onLevel sl.nodes i c)
  sorted : c.Pairwise fun a b => cmp (keyAt sl.nodes a) (keyAt sl.nodes b) = true
  reach : ∀ p ∈ c, tower sl.nodes p ≤ sl.currentLevel + 1
  top : sl.currentLevel = 0 ∨ ∃ p ∈ c, tower sl.nodes p = sl.currentLevel + 1
  level : sl.currentLevel ≤ sl.maxLevel
  size : sl.size = c.length

/-- The nodes before `key`, and those from it on. -/
def before (sl : SkipList K V cmp) (c : List Nat) (key : K) : List Nat :=
  c.takeWhile fun p => cmp (keyAt sl.nodes p) key

def onward (sl : SkipList K V cmp) (c : List Nat) (key : K) : List Nat :=
  c.dropWhile fun p => cmp (keyAt sl.nodes p) key

section Search

variable {sl : SkipList K V cmp} {c : List Nat} {key : K}

theorem before_append_onward (sl : SkipList K V cmp) (c : List Nat) (key : K) :
    sl.before c key ++ sl.onward c key = c := List.takeWhile_append_dropWhile

theorem onLevel_append (nodes : List (Node K V)) (i : Nat) (as bs : List Nat) :
    onLevel nodes i (as ++ bs) = onLevel nodes i as ++ onLevel nodes i bs := List.filter_append ..

theorem below_of_mem_before {p : Nat} (hp : p ∈ sl.before c key) :
    cmp (keyAt sl.nodes p) key = true :=
  List.mem_takeWhile_imp (p := fun p => cmp (keyAt sl.nodes p) key) hp

theorem Rep.not_below_of_mem_onward [StrictWeak cmp] (h : Rep sl c) {p : Nat}
    (hp : p ∈ sl.onward c key) : cmp (keyAt sl.nodes p) key = false := by
  have hsorted := h.sorted
  unfold onward at hp
  clear h
  induction c with
  | nil => cases hp
  | cons q rest ih =>
    rw [List.pairwise_cons] at hsorted
    by_cases hq : cmp (keyAt sl.nodes q) key = true
    · rw [List.dropWhile_cons, if_pos hq] at hp
      exact ih hp hsorted.2
    · rw [List.dropWhile_cons, if_neg hq] at hp
      rw [Bool.not_eq_true] at hq
      rcases List.mem_cons.mp hp with rfl | hp
      · exact hq
      · by_contra hlt
        have hpk : cmp (keyAt sl.nodes p) key = true := by simpa using hlt
        have := StrictWeak.trans (hsorted.1 p hp) hpk
        rw [hq] at this
        cases this

theorem Rep.length_lt (h : Rep sl c) : c.length < sl.nodes.length := by
  have hsub : (0 :: c) ⊆ List.range sl.nodes.length := by
    intro p hp
    rw [List.mem_range]
    rcases List.mem_cons.mp hp with rfl | hp
    · exact lt_length_of_tower (i := 0) (by rw [h.head]; omega)
    · exact lt_length_of_tower (h.tower_pos p hp)
  have := (List.subperm_of_subset h.nodup hsub).length_le
  rwa [List.length_cons, List.length_range] at this

/-- The chain of a level, split at the key. -/
theorem Rep.chain_split (h : Rep sl c) (key : K) {i : Nat} (hi : i ≤ sl.maxLevel) :
    Chain (next sl.nodes i) 0
      (onLevel sl.nodes i (sl.before c key) ++ onLevel sl.nodes i (sl.onward c key)) := by
  rw [← onLevel_append, before_append_onward]
  exact h.chain i hi

/-- The last node before the key on a level. -/
def pred (sl : SkipList K V cmp) (c : List Nat) (key : K) (i : Nat) : Nat :=
  tip 0 (onLevel sl.nodes i (sl.before c key))

/-- The links of a level from the head or a node before the key: up to the last node before the
key, and on. -/
theorem Rep.chain_from (h : Rep sl c) {i curr : Nat} (hi : i ≤ sl.maxLevel)
    (hcurr : curr ∈ 0 :: onLevel sl.nodes i (sl.before c key)) :
    ∃ as, Chain (next sl.nodes i) curr (as ++ onLevel sl.nodes i (sl.onward c key)) ∧
      tip curr as = sl.pred c key i ∧ as ⊆ onLevel sl.nodes i (sl.before c key) ∧
      as.length < sl.nodes.length := by
  have hchain := h.chain_split key hi
  have hlen : (onLevel sl.nodes i (sl.before c key)).length < sl.nodes.length := by
    have h1 := List.length_filter_le (fun p => decide (i < tower sl.nodes p)) (sl.before c key)
    have h2 := (List.takeWhile_sublist (l := c) fun p => cmp (keyAt sl.nodes p) key).length_le
    have h3 := h.length_lt
    unfold onLevel before at *
    omega
  rcases List.mem_cons.mp hcurr with rfl | hcurr
  · exact ⟨_, hchain, rfl, List.Subset.refl _, hlen⟩
  · obtain ⟨as, bs, hsplit⟩ := List.append_of_mem hcurr
    rw [hsplit] at hchain hlen
    have hrest : Chain (next sl.nodes i) curr (bs ++ onLevel sl.nodes i (sl.onward c key)) := by
      have happ : Chain (next sl.nodes i) 0
          ((as ++ [curr]) ++ (bs ++ onLevel sl.nodes i (sl.onward c key))) := by
        simpa using hchain
      have := happ.tip
      rwa [tip_append_cons, show tip curr [] = curr from rfl] at this
    refine ⟨bs, hrest, ?_, ?_, ?_⟩
    · rw [pred, hsplit, tip_append_cons]
    · intro b hb
      rw [hsplit]
      exact List.mem_append_right _ (List.mem_cons_of_mem _ hb)
    · rw [List.length_append, List.length_cons] at hlen
      omega

/-- Where the search loop of a level stops. -/
theorem Rep.not_below_head [StrictWeak cmp] (h : Rep sl c) {i b : Nat}
    (hb : b ∈ (onLevel sl.nodes i (sl.onward c key)).head?) : cmp (keyAt sl.nodes b) key = false :=
  h.not_below_of_mem_onward (List.mem_of_mem_filter (List.mem_of_mem_head? hb))

/-- Walking on a level from the head or a node before the key. -/
theorem Rep.walk_eq [StrictWeak cmp] (h : Rep sl c) {i curr : Nat} (hi : i ≤ sl.maxLevel)
    (hcurr : curr ∈ 0 :: onLevel sl.nodes i (sl.before c key)) :
    walk (next sl.nodes i) (fun p => cmp (keyAt sl.nodes p) key) sl.nodes.length curr =
      sl.pred c key i := by
  obtain ⟨as, hchain, htip, hsub, hlen⟩ := h.chain_from hi hcurr
  rw [← htip]
  exact hchain.walk_eq (fun a ha => below_of_mem_before (List.mem_of_mem_filter (hsub ha)))
    (fun b hb => h.not_below_head hb) hlen

/-- A node before the key on a level is one on the level below it. -/
theorem pred_mem_below (sl : SkipList K V cmp) (c : List Nat) (key : K) (i : Nat) :
    sl.pred c key i ∈ 0 :: onLevel sl.nodes (i - 1) (sl.before c key) := by
  rcases List.mem_cons.mp (tip_mem 0 (onLevel sl.nodes i (sl.before c key))) with h0 | hmem
  · rw [pred, h0]
    exact List.mem_cons_self
  · refine List.mem_cons_of_mem _ ?_
    have := List.mem_filter.mp hmem
    refine List.mem_filter.mpr ⟨this.1, ?_⟩
    simp only [decide_eq_true_eq] at *
    exact Nat.lt_of_le_of_lt (Nat.sub_le i 1) this.2

theorem Rep.predecessors_eq [StrictWeak cmp] (h : Rep sl c) {i curr : Nat}
    (hi : i ≤ sl.maxLevel + 1)
    (hcurr : curr ∈ 0 :: onLevel sl.nodes (i - 1) (sl.before c key)) :
    sl.predecessors key i curr = (List.range i).map (sl.pred c key) := by
  induction i generalizing curr with
  | zero => rfl
  | succ i ih =>
    have hwalk := h.walk_eq (by omega) hcurr
    rw [Nat.add_sub_cancel] at hwalk
    rw [predecessors, hwalk, List.range_succ, List.map_append,
      ih (by omega) (pred_mem_below sl c key i)]
    rfl

theorem Rep.update_eq [StrictWeak cmp] (h : Rep sl c) (key : K) :
    sl.update key = (List.range (sl.currentLevel + 1)).map (sl.pred c key) :=
  h.predecessors_eq (Nat.succ_le_succ h.level) List.mem_cons_self

theorem Rep.update_getD [StrictWeak cmp] (h : Rep sl c) {i : Nat} (hi : i ≤ sl.currentLevel) :
    (sl.update key).getD i 0 = sl.pred c key i := by
  rw [h.update_eq, List.getD_eq_getElem?_getD, List.getElem?_map,
    List.getElem?_range (Nat.lt_succ_of_le hi)]
  rfl

theorem Rep.onLevel_zero (h : Rep sl c) {as : List Nat} (has : as ⊆ c) :
    onLevel sl.nodes 0 as = as := by
  rw [onLevel, List.filter_eq_self]
  intro p hp
  simpa using h.tower_pos p (has hp)

theorem before_subset (sl : SkipList K V cmp) (c : List Nat) (key : K) : sl.before c key ⊆ c :=
  (List.takeWhile_sublist _).subset

theorem onward_subset (sl : SkipList K V cmp) (c : List Nat) (key : K) : sl.onward c key ⊆ c :=
  (List.dropWhile_sublist _).subset

/-- What follows the last node before the key on a level. -/
theorem Rep.next_pred (h : Rep sl c) (key : K) {i : Nat} (hi : i ≤ sl.maxLevel) :
    next sl.nodes i (sl.pred c key i) = (onLevel sl.nodes i (sl.onward c key)).head? :=
  (h.chain_split key hi).tip.next_eq

theorem Rep.candidate_eq [StrictWeak cmp] (h : Rep sl c) (key : K) :
    sl.candidate key = (sl.onward c key).head? := by
  rw [candidate, h.update_getD (Nat.zero_le _), h.next_pred key (Nat.zero_le _),
    h.onLevel_zero (onward_subset sl c key)]

theorem Rep.find_eq [StrictWeak cmp] (h : Rep sl c) (key : K) :
    sl.find key = (sl.onward c key).head?.filter fun p => equiv cmp (keyAt sl.nodes p) key := by
  rw [find, h.candidate_eq]
  congr 1
  funext p
  rw [equiv, Bool.and_comm]

end Search

/-! ## Insertion -/

section Insert

variable {sl : SkipList K V cmp} {c : List Nat} {key : K}

theorem tower_append_of_ne (nodes : List (Node K V)) (n : Node K V) {p : Nat}
    (h : p ≠ nodes.length) : tower (nodes ++ [n]) p = tower nodes p := by
  unfold tower
  rcases Nat.lt_or_gt_of_ne h with h | h
  · rw [List.getElem?_append_left h]
  · rw [List.getElem?_eq_none (by simp; omega), List.getElem?_eq_none (by omega)]

theorem keyAt_append_of_ne (nodes : List (Node K V)) (n : Node K V) {p : Nat}
    (h : p ≠ nodes.length) : keyAt (nodes ++ [n]) p = keyAt nodes p := by
  unfold keyAt
  rcases Nat.lt_or_gt_of_ne h with h | h
  · rw [List.getElem?_append_left h]
  · rw [List.getElem?_eq_none (by simp; omega), List.getElem?_eq_none (by omega)]

theorem valueAt_append_of_ne (nodes : List (Node K V)) (n : Node K V) {p : Nat}
    (h : p ≠ nodes.length) : valueAt (nodes ++ [n]) p = valueAt nodes p := by
  unfold valueAt
  rcases Nat.lt_or_gt_of_ne h with h | h
  · rw [List.getElem?_append_left h]
  · rw [List.getElem?_eq_none (by simp; omega), List.getElem?_eq_none (by omega)]

theorem next_append_of_ne (nodes : List (Node K V)) (n : Node K V) {p : Nat}
    (h : p ≠ nodes.length) (i : Nat) : next (nodes ++ [n]) i p = next nodes i p := by
  unfold next
  rcases Nat.lt_or_gt_of_ne h with h | h
  · rw [List.getElem?_append_left h]
  · rw [List.getElem?_eq_none (by simp; omega), List.getElem?_eq_none (by omega)]

theorem randomLevel_le (maxLevel lvl : Nat) (coins : List Bool) (h : lvl ≤ maxLevel) :
    randomLevel maxLevel lvl coins ≤ maxLevel := by
  induction coins generalizing lvl with
  | nil => exact h
  | cons b coins ih =>
    cases b with
    | false => exact h
    | true =>
      rw [randomLevel]
      split_ifs with hlt
      · exact ih (lvl + 1) hlt
      · exact h

theorem Rep.mem_lt (h : Rep sl c) {p : Nat} (hp : p ∈ 0 :: c) : p < sl.nodes.length := by
  rcases List.mem_cons.mp hp with rfl | hp
  · exact lt_length_of_tower (i := 0) (by rw [h.head]; omega)
  · exact lt_length_of_tower (h.tower_pos p hp)

theorem pred_mem (sl : SkipList K V cmp) (c : List Nat) (key : K) (i : Nat) :
    sl.pred c key i ∈ 0 :: onLevel sl.nodes i (sl.before c key) := tip_mem _ _

theorem Rep.pred_mem (h : Rep sl c) (key : K) {i : Nat} (hi : i ≤ sl.maxLevel) :
    sl.pred c key i ∈ 0 :: c ∧ i < tower sl.nodes (sl.pred c key i) := by
  rcases List.mem_cons.mp (SkipList.pred_mem sl c key i) with h0 | hmem
  · rw [h0, h.head]
    exact ⟨List.mem_cons_self, by omega⟩
  · obtain ⟨hb, ht⟩ := List.mem_filter.mp hmem
    exact ⟨List.mem_cons_of_mem _ (before_subset sl c key hb), by simpa using ht⟩

/-- No node is linked above the current level. -/
theorem Rep.onLevel_above (h : Rep sl c) {i : Nat} (hi : sl.currentLevel < i) {as : List Nat}
    (has : as ⊆ c) : onLevel sl.nodes i as = [] := by
  rw [onLevel, List.filter_eq_nil_iff]
  intro p hp
  have := h.reach p (has hp)
  simp only [decide_eq_true_eq]
  omega

/-- The search path as `insert` extends it. -/
theorem Rep.extended_getD [StrictWeak cmp] (h : Rep sl c) {newLevel i : Nat} (hi : i ≤ newLevel) :
    (sl.update key ++ List.replicate (newLevel - sl.currentLevel) 0).getD i 0 =
      sl.pred c key i := by
  have hlen : (sl.update key).length = sl.currentLevel + 1 := by
    rw [h.update_eq]
    simp
  rw [List.getD_eq_getElem?_getD]
  by_cases hc : i ≤ sl.currentLevel
  · rw [List.getElem?_append_left (by omega), ← List.getD_eq_getElem?_getD, h.update_getD hc]
  · rw [List.getElem?_append_right (by omega), List.getElem?_replicate, if_pos (by omega), pred,
      h.onLevel_above (by omega) (before_subset sl c key)]
    rfl

/-- The list after an insertion. -/
structure Inserted (sl : SkipList K V cmp) (c : List Nat) (key : K) (value : V) (newLevel : Nat)
    (nodes : List (Node K V)) : Prop where
  tower_eq : ∀ p, tower nodes p = if p = sl.nodes.length then newLevel + 1 else tower sl.nodes p
  key_eq : ∀ p, keyAt nodes p = if p = sl.nodes.length then key else keyAt sl.nodes p
  value_eq : ∀ p, valueAt nodes p = if p = sl.nodes.length then value else valueAt sl.nodes p
  next_eq : ∀ i p, next nodes i p =
    if p = sl.pred c key i ∧ i < newLevel + 1 then some sl.nodes.length
    else if p = sl.nodes.length then
      if i < newLevel + 1 then next sl.nodes i (sl.pred c key i) else none
    else next sl.nodes i p

theorem Rep.linked [StrictWeak cmp] (h : Rep sl c) (key : K) (value : V) {newLevel : Nat}
    (hlevel : newLevel ≤ sl.maxLevel) :
    Inserted sl c key value newLevel ((List.range (newLevel + 1)).foldl
      (link (sl.update key ++ List.replicate (newLevel - sl.currentLevel) 0) sl.nodes.length)
      (sl.nodes ++ [{ (Node.new key newLevel : Node K V) with value := value }])) := by
  set node : Node K V := { (Node.new key newLevel : Node K V) with value := value } with hnode
  have hself : (sl.nodes ++ [node])[sl.nodes.length]? = some node := List.getElem?_concat_length
  have htower : SkipList.tower (sl.nodes ++ [node]) sl.nodes.length = newLevel + 1 := by
    rw [SkipList.tower, hself, hnode]
    simp [Node.new]
  have hpred : ∀ i, i ≤ newLevel → sl.pred c key i ≠ sl.nodes.length := by
    intro i hi
    exact Nat.ne_of_lt (h.mem_lt (h.pred_mem key (hi.trans hlevel)).1)
  obtain ⟨hsame, hnext⟩ := foldl_link (sl.nodes ++ [node])
    (sl.update key ++ List.replicate (newLevel - sl.currentLevel) 0) sl.nodes.length
    (k := newLevel + 1) (by rw [htower])
    (by
      intro i hi
      rw [h.extended_getD (by omega), tower_append_of_ne _ _ (hpred i (by omega))]
      exact (h.pred_mem key (by omega)).2)
  constructor
  · intro p
    rw [hsame.tower]
    split_ifs with hp
    · rw [hp, htower]
    · exact tower_append_of_ne _ _ hp
  · intro p
    rw [hsame.key]
    split_ifs with hp
    · rw [hp, keyAt, hself, hnode]
      rfl
    · exact keyAt_append_of_ne _ _ hp
  · intro p
    rw [hsame.value]
    split_ifs with hp
    · rw [hp, valueAt, hself, hnode]
      rfl
    · exact valueAt_append_of_ne _ _ hp
  · intro i p
    rw [hnext]
    by_cases hi : i < newLevel + 1
    · rw [h.extended_getD (by omega)]
      simp only [hi, and_true, if_true]
      split_ifs with h1 h2
      · rfl
      · exact next_append_of_ne _ _ (hpred i (by omega)) i
      · exact next_append_of_ne _ _ h2 i
    · simp only [hi, and_false, if_false]
      split_ifs with hp
      · rw [hp, SkipList.next, hself, hnode]
        simp [Node.new, hi]
      · exact next_append_of_ne _ _ hp i

theorem onLevel_congr (nodes nodes' : List (Node K V)) (i : Nat) {as : List Nat}
    (h : ∀ p ∈ as, tower nodes' p = tower nodes p) :
    onLevel nodes' i as = onLevel nodes i as := by
  unfold onLevel
  refine List.filter_congr ?_
  intro p hp
  rw [h p hp]

theorem onLevel_cons (nodes : List (Node K V)) (i p : Nat) (as : List Nat) :
    onLevel nodes i (p :: as) =
      if i < tower nodes p then p :: onLevel nodes i as else onLevel nodes i as := by
  unfold onLevel
  rw [List.filter_cons]
  by_cases h : i < tower nodes p <;> simp [h]

/-- The parts of a chain around a new node. -/
theorem Rep.nodup_split (h : Rep sl c) (key : K) (i : Nat) :
    (0 :: (onLevel sl.nodes i (sl.before c key) ++ onLevel sl.nodes i (sl.onward c key))).Nodup := by
  rw [← onLevel_append, before_append_onward]
  exact h.nodup.sublist (List.Sublist.cons_cons _ List.filter_sublist)

/-- Keys below and above a key that is not there. -/
theorem Rep.sorted_insert [StrictWeak cmp] (h : Rep sl c) (hnone : sl.find key = none) {p : Nat}
    (hp : p ∈ sl.onward c key) : cmp key (keyAt sl.nodes p) = true := by
  have hsorted : (sl.onward c key).Pairwise fun a b =>
      cmp (keyAt sl.nodes a) (keyAt sl.nodes b) = true :=
    h.sorted.sublist (List.dropWhile_sublist _)
  have hbelow := fun {q} (hq : q ∈ sl.onward c key) => h.not_below_of_mem_onward hq
  rw [h.find_eq] at hnone
  cases hon : sl.onward c key with
  | nil =>
    rw [hon] at hp
    cases hp
  | cons q rest =>
    rw [hon] at hnone hp hsorted hbelow
    have hq : cmp key (keyAt sl.nodes q) = true := by
      have hne : equiv cmp (keyAt sl.nodes q) key = false := by
        simpa [Option.filter] using hnone
      rw [equiv, hbelow List.mem_cons_self] at hne
      simpa using hne
    rcases List.mem_cons.mp hp with rfl | hp
    · exact hq
    · exact StrictWeak.trans hq ((List.pairwise_cons.mp hsorted).1 p hp)

section Inserted

variable {value : V} {newLevel : Nat} {nodes : List (Node K V)}

theorem Inserted.tower_old (hins : Inserted sl c key value newLevel nodes) (h : Rep sl c) {p : Nat}
    (hp : p ∈ 0 :: c) : tower nodes p = tower sl.nodes p := by
  rw [hins.tower_eq, if_neg (Nat.ne_of_lt (h.mem_lt hp))]

theorem Inserted.key_old (hins : Inserted sl c key value newLevel nodes) (h : Rep sl c) {p : Nat}
    (hp : p ∈ c) : keyAt nodes p = keyAt sl.nodes p := by
  rw [hins.key_eq, if_neg (Nat.ne_of_lt (h.mem_lt (List.mem_cons_of_mem _ hp)))]

/-- On the levels of the new node its predecessor leads to it; the other levels are as before. -/
theorem Inserted.chain [StrictWeak cmp] (hins : Inserted sl c key value newLevel nodes)
    (h : Rep sl c) {i : Nat} (hi : i ≤ sl.maxLevel) :
    Chain (next nodes i) 0
      (onLevel nodes i (sl.before c key ++ sl.nodes.length :: sl.onward c key)) := by
  have hold : ∀ {p}, p ∈ 0 :: c → p ≠ sl.nodes.length := fun hp => Nat.ne_of_lt (h.mem_lt hp)
  have hself : tower nodes sl.nodes.length = newLevel + 1 := by rw [hins.tower_eq, if_pos rfl]
  rw [onLevel_append, onLevel_cons, hself,
    onLevel_congr sl.nodes nodes i fun p hp =>
      hins.tower_old h (List.mem_cons_of_mem _ (before_subset sl c key hp)),
    onLevel_congr sl.nodes nodes i fun p hp =>
      hins.tower_old h (List.mem_cons_of_mem _ (onward_subset sl c key hp))]
  have hin : ∀ q ∈ 0 :: (onLevel sl.nodes i (sl.before c key) ++
      onLevel sl.nodes i (sl.onward c key)), q ∈ 0 :: c := by
    intro q hq
    rw [← onLevel_append, before_append_onward] at hq
    exact List.cons_subset_cons 0 List.filter_sublist.subset hq
  split_ifs with hlt
  · refine (h.chain_split key hi).insert (h.nodup_split key i) ?_ ?_ ?_
    · rw [hins.next_eq, if_pos ⟨rfl, hlt⟩]
    · rw [hins.next_eq, if_neg, if_pos rfl, if_pos hlt]
      · rfl
      · intro heq
        exact hold (h.pred_mem key hi).1 heq.1.symm
    · intro q hq hne
      rw [hins.next_eq, if_neg fun heq => hne heq.1, if_neg (hold (hin q hq))]
  · refine (h.chain_split key hi).congr ?_
    intro q hq
    rw [hins.next_eq, if_neg fun heq => hlt heq.2, if_neg (hold (hin q hq))]

/-- The new key stands between the smaller and the greater ones. -/
theorem Inserted.sorted [StrictWeak cmp] (hins : Inserted sl c key value newLevel nodes)
    (h : Rep sl c) (hnone : sl.find key = none) :
    (sl.before c key ++ sl.nodes.length :: sl.onward c key).Pairwise fun a b =>
      cmp (keyAt nodes a) (keyAt nodes b) = true := by
  have hself : keyAt nodes sl.nodes.length = key := by rw [hins.key_eq, if_pos rfl]
  have hlo : ∀ {p}, p ∈ sl.before c key → keyAt nodes p = keyAt sl.nodes p :=
    fun hp => hins.key_old h (before_subset sl c key hp)
  have hhi : ∀ {p}, p ∈ sl.onward c key → keyAt nodes p = keyAt sl.nodes p :=
    fun hp => hins.key_old h (onward_subset sl c key hp)
  have hs : (sl.before c key ++ sl.onward c key).Pairwise fun a b =>
      cmp (keyAt sl.nodes a) (keyAt sl.nodes b) = true := by
    rw [before_append_onward]
    exact h.sorted
  rw [List.pairwise_append] at hs ⊢
  refine ⟨hs.1.imp_of_mem ?_, List.pairwise_cons.mpr ⟨?_, hs.2.1.imp_of_mem ?_⟩, ?_⟩
  · intro a b ha hb hab
    rw [hlo ha, hlo hb]
    exact hab
  · intro b hb
    rw [hself, hhi hb]
    exact h.sorted_insert hnone hb
  · intro a b ha hb hab
    rw [hhi ha, hhi hb]
    exact hab
  · intro a ha b hb
    rw [hlo ha]
    rcases List.mem_cons.mp hb with rfl | hb
    · rw [hself]
      exact below_of_mem_before ha
    · rw [hhi hb]
      exact hs.2.2 a ha b hb

end Inserted

/-- Insertion puts the new node between the nodes before the key and those after it. -/
theorem Rep.inserted [StrictWeak cmp] (h : Rep sl c) {value : V} {newLevel : Nat}
    {nodes : List (Node K V)} (hins : Inserted sl c key value newLevel nodes)
    (hlevel : newLevel ≤ sl.maxLevel) (hnone : sl.find key = none) :
    Rep ({ sl with
      currentLevel := max sl.currentLevel newLevel
      size := sl.size + 1
      nodes := nodes } : SkipList K V cmp) (sl.before c key ++ sl.nodes.length :: sl.onward c key) := by
  have hsplit := before_append_onward sl c key
  have hold : ∀ {p}, p ∈ 0 :: c → p ≠ sl.nodes.length := fun hp => Nat.ne_of_lt (h.mem_lt hp)
  have htower : ∀ {p}, p ∈ 0 :: c → tower nodes p = tower sl.nodes p := hins.tower_old h
  have hself : tower nodes sl.nodes.length = newLevel + 1 := by rw [hins.tower_eq, if_pos rfl]
  have hmem : ∀ {p}, p ∈ sl.before c key ++ sl.nodes.length :: sl.onward c key →
      p = sl.nodes.length ∨ p ∈ c := by
    intro p hp
    rcases List.mem_append.mp hp with hp | hp
    · exact Or.inr (before_subset sl c key hp)
    · rcases List.mem_cons.mp hp with rfl | hp
      · exact Or.inl rfl
      · exact Or.inr (onward_subset sl c key hp)
  refine
    { nodup := ?_
      tower_pos := ?_
      head := ?_
      chain := fun i hi => hins.chain h hi
      sorted := hins.sorted h hnone
      reach := ?_
      top := ?_
      level := max_le h.level hlevel
      size := ?_ }
  · rw [← List.cons_append, List.nodup_middle, List.nodup_cons]
    rw [List.cons_append, hsplit]
    exact ⟨fun hp => hold hp rfl, h.nodup⟩
  · intro p hp
    rcases hmem hp with rfl | hp
    · change 0 < tower nodes _
      omega
    · change 0 < tower nodes p
      rw [htower (List.mem_cons_of_mem _ hp)]
      exact h.tower_pos p hp
  · exact (htower List.mem_cons_self).trans h.head
  · intro p hp
    change tower nodes p ≤ max sl.currentLevel newLevel + 1
    rcases hmem hp with rfl | hp
    · omega
    · have := h.reach p hp
      rw [htower (List.mem_cons_of_mem _ hp)]
      omega
  · change max sl.currentLevel newLevel = 0 ∨ ∃ p ∈ _, tower nodes p = max sl.currentLevel newLevel + 1
    by_cases hmax : sl.currentLevel ≤ newLevel
    · refine Or.inr ⟨sl.nodes.length, by simp, ?_⟩
      rw [hself, max_eq_right hmax]
    · rw [max_eq_left (by omega)]
      obtain ⟨p, hp, htop⟩ := h.top.resolve_left (by omega)
      refine Or.inr ⟨p, ?_, by rw [htower (List.mem_cons_of_mem _ hp), htop]⟩
      rw [← hsplit] at hp
      rcases List.mem_append.mp hp with hp | hp
      · exact List.mem_append_left _ hp
      · exact List.mem_append_right _ (List.mem_cons_of_mem _ hp)
  · change sl.size + 1 = _
    rw [h.size, ← congrArg List.length hsplit]
    simp only [List.length_append, List.length_cons]
    omega

end Insert

/-! ## Removal -/

section Remove

variable {sl : SkipList K V cmp} {c : List Nat} {key : K}

theorem lower_spec (nodes : List (Node K V)) (level : Nat) :
    lower nodes level ≤ level ∧
      (lower nodes level = 0 ∨ next nodes (lower nodes level) 0 ≠ none) ∧
      ∀ i, lower nodes level < i → i ≤ level → next nodes i 0 = none := by
  induction level with
  | zero => exact ⟨le_rfl, Or.inl rfl, fun i h1 h2 => absurd h1 (by simp [lower] at *; omega)⟩
  | succ level ih =>
    rw [lower]
    split_ifs with hnone
    · refine ⟨ih.1.trans (Nat.le_succ _), ih.2.1, fun i h1 h2 => ?_⟩
      rcases Nat.lt_or_eq_of_le h2 with h2 | rfl
      · exact ih.2.2 i h1 (Nat.le_of_lt_succ h2)
      · exact hnone
    · exact ⟨le_rfl, Or.inr hnone, fun i h1 h2 => absurd h1 (by omega)⟩

/-- The first node from the key on is what follows the search path on its own levels. -/
theorem Rep.next_pred_iff (h : Rep sl c) {p : Nat} {rest : List Nat}
    (hon : sl.onward c key = p :: rest) {i : Nat} (hi : i ≤ sl.maxLevel) :
    next sl.nodes i (sl.pred c key i) = some p ↔ i < tower sl.nodes p := by
  rw [h.next_pred key hi, hon, onLevel_cons]
  split_ifs with hlt
  · simp [hlt]
  · simp only [hlt, iff_false]
    intro heq
    have hmem : p ∈ rest := List.mem_of_mem_filter (List.mem_of_mem_head? heq)
    have hnd : (p :: rest).Nodup := by
      rw [← hon]
      exact (List.nodup_cons.mp h.nodup).2.sublist (List.dropWhile_sublist _)
    exact (List.nodup_cons.mp hnd).1 hmem

/-- The same of the search path as `update` holds it. -/
theorem Rep.next_update_iff [StrictWeak cmp] (h : Rep sl c) {p : Nat} {rest : List Nat}
    (hon : sl.onward c key = p :: rest) {i : Nat} (hi : i ≤ sl.currentLevel) :
    next sl.nodes i ((sl.update key).getD i 0) = some p ↔ i < tower sl.nodes p := by
  have hlevel := h.level
  rw [h.update_getD hi]
  exact h.next_pred_iff hon (by omega)

theorem Rep.lt_tower_update [StrictWeak cmp] (h : Rep sl c) (key : K) {i : Nat}
    (hi : i ≤ sl.currentLevel) : i < tower sl.nodes ((sl.update key).getD i 0) := by
  have hlevel := h.level
  rw [h.update_getD hi]
  exact (h.pred_mem key (by omega)).2

/-- The links after `p`, the first node from the key on, is unlinked. -/
theorem Rep.unlinked [StrictWeak cmp] (h : Rep sl c) {p : Nat} {rest : List Nat}
    (hon : sl.onward c key = p :: rest) :
    SameNodes sl.nodes (unlink (sl.update key) p (List.range (sl.currentLevel + 1)) sl.nodes) ∧
      ∀ i q, next (unlink (sl.update key) p (List.range (sl.currentLevel + 1)) sl.nodes) i q =
        if i < tower sl.nodes p ∧ q = sl.pred c key i then next sl.nodes i p
        else next sl.nodes i q := by
  have hpc : p ∈ c := onward_subset sl c key (by rw [hon]; exact List.mem_cons_self)
  have hlevel := h.level
  rw [List.range_eq_range']
  obtain ⟨hsame, hnext⟩ := unlink_range' (sl.update key) (p := p)
    (h := tower sl.nodes p) (sl.currentLevel + 1) 0 sl.nodes
    (fun j _ hj => h.lt_tower_update key (by omega))
    (fun j _ hj => h.next_update_iff hon (by omega))
  refine ⟨hsame, fun i q => ?_⟩
  rw [hnext]
  have hreach := h.reach p hpc
  by_cases hi : i < tower sl.nodes p
  · rw [h.update_getD (by omega)]
    have hiff : (0 ≤ i ∧ i < 0 + (sl.currentLevel + 1) ∧ i < tower sl.nodes p ∧
        q = sl.pred c key i) ↔ (i < tower sl.nodes p ∧ q = sl.pred c key i) := by
      constructor
      · exact fun hx => hx.2.2
      · exact fun hx => ⟨Nat.zero_le _, by omega, hx⟩
    simp only [hiff]
  · rw [if_neg fun hx => hi hx.2.2.1, if_neg fun hx => hi hx.1]

/-- The lowered level is the one that the nodes reach. -/
theorem lower_fits {nodes : List (Node K V)} {c : List Nat} {level maxLevel : Nat}
    (hlevel : level ≤ maxLevel)
    (hchain : ∀ i ≤ maxLevel, Chain (next nodes i) 0 (onLevel nodes i c))
    (hreach : ∀ q ∈ c, tower nodes q ≤ level + 1) :
    (∀ q ∈ c, tower nodes q ≤ lower nodes level + 1) ∧
      (lower nodes level = 0 ∨ ∃ q ∈ c, tower nodes q = lower nodes level + 1) := by
  obtain ⟨hle, hzero, habove⟩ := lower_spec nodes level
  -- a node reaching above the new level would be linked from the head there
  have hfit : ∀ q ∈ c, tower nodes q ≤ lower nodes level + 1 := by
    intro q hq
    by_contra hgt
    have hold := hreach q hq
    have hnil := habove (tower nodes q - 1) (by omega) (by omega)
    rw [(hchain (tower nodes q - 1) (by omega)).next_eq, List.head?_eq_none_iff] at hnil
    have hmem : q ∈ onLevel nodes (tower nodes q - 1) c :=
      List.mem_filter.mpr ⟨hq, by simp only [decide_eq_true_eq]; omega⟩
    rw [hnil] at hmem
    cases hmem
  refine ⟨hfit, ?_⟩
  rcases hzero with hzero | hlinked
  · exact Or.inl hzero
  · rw [(hchain _ (hle.trans hlevel)).next_eq] at hlinked
    obtain ⟨q, hq⟩ := Option.ne_none_iff_exists'.mp hlinked
    obtain ⟨hqc, hlt⟩ := List.mem_filter.mp (List.mem_of_mem_head? hq)
    have hr := hfit q hqc
    simp only [decide_eq_true_eq] at hlt
    exact Or.inr ⟨q, hqc, by omega⟩

/-- On each level the chain passes over the node. -/
theorem Rep.removed_chain [StrictWeak cmp] (h : Rep sl c) {p : Nat} {rest : List Nat}
    (hon : sl.onward c key = p :: rest) {nodes : List (Node K V)}
    (hsame : SameNodes sl.nodes nodes)
    (hnext : ∀ i q, next nodes i q =
      if i < tower sl.nodes p ∧ q = sl.pred c key i then next sl.nodes i p
      else next sl.nodes i q) {i : Nat} (hi : i ≤ sl.maxLevel) :
    Chain (next nodes i) 0 (onLevel nodes i (sl.before c key ++ rest)) := by
  have hold := h.chain_split key hi
  have hnodup := h.nodup_split key i
  rw [hon, onLevel_cons] at hold hnodup
  rw [onLevel_congr sl.nodes nodes i fun q _ => hsame.tower q, onLevel_append]
  split_ifs at hold hnodup with hlt
  · refine hold.remove hnodup ?_ ?_
    · rw [hnext, if_pos ⟨hlt, rfl⟩]
    · intro q _ hne
      rw [hnext, if_neg fun hx => hne hx.2]
  · refine hold.congr ?_
    intro q _
    rw [hnext, if_neg fun hx => hlt hx.1]

/-- Removal takes the first node from the key on out of the list. -/
theorem Rep.removed [StrictWeak cmp] (h : Rep sl c) {p : Nat} {rest : List Nat}
    (hon : sl.onward c key = p :: rest) {nodes : List (Node K V)}
    (hsame : SameNodes sl.nodes nodes)
    (hnext : ∀ i q, next nodes i q =
      if i < tower sl.nodes p ∧ q = sl.pred c key i then next sl.nodes i p
      else next sl.nodes i q) :
    Rep ({ sl with
      currentLevel := lower nodes sl.currentLevel
      size := sl.size - 1
      nodes := nodes } : SkipList K V cmp) (sl.before c key ++ rest) := by
  have hsplit : sl.before c key ++ p :: rest = c := hon ▸ before_append_onward sl c key
  have hsub : (sl.before c key ++ rest).Sublist c := by
    conv_rhs => rw [← hsplit]
    exact List.Sublist.append_left (List.sublist_cons_self _ _) _
  have hchain : ∀ i ≤ sl.maxLevel,
      Chain (next nodes i) 0 (onLevel nodes i (sl.before c key ++ rest)) :=
    fun i hi => h.removed_chain hon hsame hnext hi
  have hold : ∀ q ∈ sl.before c key ++ rest, tower nodes q ≤ sl.currentLevel + 1 := by
    intro q hq
    rw [hsame.tower]
    exact h.reach q (hsub.subset hq)
  obtain ⟨hreach, htop⟩ := lower_fits h.level hchain hold
  refine
    { nodup := h.nodup.sublist (List.Sublist.cons_cons _ hsub)
      tower_pos := ?_
      head := (hsame.tower 0).trans h.head
      chain := hchain
      sorted := ?_
      reach := hreach
      top := htop
      level := (lower_spec nodes sl.currentLevel).1.trans h.level
      size := ?_ }
  · intro q hq
    change 0 < tower nodes q
    rw [hsame.tower]
    exact h.tower_pos q (hsub.subset hq)
  · change List.Pairwise (fun a b => cmp (keyAt nodes a) (keyAt nodes b) = true) _
    simp only [hsame.key]
    exact h.sorted.sublist hsub
  · change sl.size - 1 = _
    rw [h.size, ← congrArg List.length hsplit]
    simp only [List.length_append, List.length_cons]
    omega

end Remove

/-! ## The ordered map it represents -/

/-- The keys and values of the nodes at `c`. -/
def entriesAt (nodes : List (Node K V)) (c : List Nat) : List (K × V) :=
  c.map fun p => (keyAt nodes p, valueAt nodes p)

/-- The skip list holds the bindings of `m`. -/
def Represents (sl : SkipList K V cmp) (m : OrderedMap K V cmp) : Prop :=
  ∃ c, Rep sl c ∧ m.bindings = entriesAt sl.nodes c

section Represents

variable {sl : SkipList K V cmp} {c : List Nat} {m : OrderedMap K V cmp} {key : K}

theorem rep_new (maxN : Nat) : Rep (SkipList.new maxN : SkipList K V cmp) [] where
  nodup := List.nodup_singleton 0
  tower_pos := nofun
  head := by simp [SkipList.new, tower, Node.new]
  chain := by
    intro i hi
    change next [Node.new default _] i 0 = none
    simp only [next, Node.new, List.getElem?_cons_zero, Option.bind_some, List.getElem?_replicate]
    split_ifs <;> rfl
  sorted := List.Pairwise.nil
  reach := nofun
  top := Or.inl rfl
  level := Nat.zero_le _
  size := rfl

theorem represents_new (maxN : Nat) :
    (SkipList.new maxN : SkipList K V cmp).Represents .empty := ⟨[], rep_new maxN, rfl⟩

theorem Rep.pointers_eq (h : Rep sl c) : sl.pointers = c := by
  have hchain := h.chain 0 (Nat.zero_le _)
  rw [h.onLevel_zero fun _ hp => hp] at hchain
  exact hchain.traverse_eq h.length_lt.le

theorem Rep.best_eq (h : Rep sl c) : sl.best = c.head? := by
  have hchain := h.chain 0 (Nat.zero_le _)
  rw [h.onLevel_zero fun _ hp => hp] at hchain
  exact hchain.next_eq

theorem Represents.toList_eq (h : sl.Represents m) : sl.toList = m.bindings := by
  obtain ⟨c, hrep, hm⟩ := h
  rw [toList, hrep.pointers_eq, hm, entriesAt]

/-- The bindings before a key and those from it on. -/
theorem Rep.entries_split (sl : SkipList K V cmp) (c : List Nat) (key : K) :
    entriesAt sl.nodes c =
      entriesAt sl.nodes (sl.before c key) ++ entriesAt sl.nodes (sl.onward c key) := by
  unfold entriesAt
  rw [← List.map_append, before_append_onward]

theorem below_of_mem_entries {b : K × V} (hb : b ∈ entriesAt sl.nodes (sl.before c key)) :
    cmp b.1 key = true := by
  obtain ⟨p, hp, rfl⟩ := List.mem_map.mp hb
  exact below_of_mem_before hp

/-- What the search finds is what is bound. -/
theorem Rep.find_spec [StrictWeak cmp] (h : Rep sl c) (key : K) :
    Assoc.find? cmp key (entriesAt sl.nodes c) = (sl.find key).map (valueAt sl.nodes) := by
  rw [Rep.entries_split sl c key, Assoc.find?_append fun b hb => below_of_mem_entries hb, h.find_eq]
  cases hon : sl.onward c key with
  | nil => rfl
  | cons p rest =>
    have hp : cmp (keyAt sl.nodes p) key = false :=
      h.not_below_of_mem_onward (by rw [hon]; exact List.mem_cons_self)
    simp only [entriesAt, List.map_cons, Assoc.find?, hp, List.head?_cons, Option.filter, equiv]
    by_cases hk : cmp key (keyAt sl.nodes p) = true
    · simp [hk]
    · simp [hk]

theorem Rep.mem_of_find [StrictWeak cmp] (h : Rep sl c) {p : Nat} (hp : sl.find key = some p) :
    sl.onward c key = p :: (sl.onward c key).tail ∧ equiv cmp (keyAt sl.nodes p) key = true := by
  rw [h.find_eq, Option.filter_eq_some_iff] at hp
  refine ⟨?_, hp.2⟩
  cases hon : sl.onward c key with
  | nil =>
    rw [hon] at hp
    cases hp.1
  | cons q rest =>
    rw [hon] at hp
    obtain rfl := Option.some.inj hp.1
    rfl

theorem Represents.find_eq [StrictWeak cmp] (h : sl.Represents m) (key : K) :
    m.find? key = (sl.find key).map (valueAt sl.nodes) := by
  obtain ⟨c, hrep, hm⟩ := h
  rw [OrderedMap.find?, hm, hrep.find_spec]

theorem Represents.insert [StrictWeak cmp] (h : sl.Represents m) (hnone : m.find? key = none)
    (value : V) (coins : List Bool) :
    (sl.insert key value coins).2.Represents (m.insert key value) := by
  have hfind : sl.find key = none := by
    rw [h.find_eq] at hnone
    simpa using hnone
  obtain ⟨c, hrep, hm⟩ := h
  have hlevel := randomLevel_le sl.maxLevel 0 coins (Nat.zero_le _)
  have hins := hrep.linked key value hlevel
  have hrep' := hrep.inserted hins hlevel hfind
  unfold SkipList.insert
  simp only [hfind]
  refine ⟨_, hrep', ?_⟩
  -- the new binding stands between those before the key and those after it
  change Assoc.insert cmp key value m.bindings = _
  rw [hm, Rep.entries_split sl c key, Assoc.insert_append fun b hb => below_of_mem_entries hb]
  have hold : ∀ {as : List Nat}, as ⊆ c → entriesAt ((List.range (randomLevel sl.maxLevel 0 coins + 1)).foldl
      (link (sl.update key ++ List.replicate (randomLevel sl.maxLevel 0 coins - sl.currentLevel) 0)
        sl.nodes.length)
      (sl.nodes ++ [{ (Node.new key (randomLevel sl.maxLevel 0 coins) : Node K V) with
        value := value }])) as = entriesAt sl.nodes as := by
    intro as has
    refine List.map_congr_left ?_
    intro p hp
    have hne : p ≠ sl.nodes.length :=
      Nat.ne_of_lt (hrep.mem_lt (List.mem_cons_of_mem _ (has hp)))
    rw [hins.key_eq, hins.value_eq, if_neg hne, if_neg hne]
  have hnew : Assoc.insert cmp key value (entriesAt sl.nodes (sl.onward c key)) =
      (key, value) :: entriesAt sl.nodes (sl.onward c key) := by
    cases hon : sl.onward c key with
    | nil => rfl
    | cons p rest =>
      have hmem : p ∈ sl.onward c key := by rw [hon]; exact List.mem_cons_self
      simp only [entriesAt, List.map_cons, Assoc.insert, hrep.not_below_of_mem_onward hmem,
        hrep.sorted_insert hfind hmem, if_true]
      rfl
  rw [hnew]
  simp only [entriesAt, List.map_append, List.map_cons] at hold ⊢
  rw [hold (before_subset sl c key), hold (onward_subset sl c key), hins.key_eq, hins.value_eq,
    if_pos rfl, if_pos rfl]

theorem Represents.remove [StrictWeak cmp] (h : sl.Represents m) (key : K) :
    (sl.remove key).2.Represents (m.erase key) := by
  obtain ⟨c, hrep, hm⟩ := h
  unfold SkipList.remove
  have hspec := hrep.find_spec key
  cases hfind : sl.find key with
  | none =>
    refine ⟨c, hrep, ?_⟩
    change Assoc.erase cmp key m.bindings = _
    rw [hm, Rep.entries_split sl c key, Assoc.erase_append fun b hb => below_of_mem_entries hb]
    congr 1
    cases hon : sl.onward c key with
    | nil => rfl
    | cons p rest =>
      have hmem : p ∈ sl.onward c key := by rw [hon]; exact List.mem_cons_self
      simp only [entriesAt, List.map_cons, Assoc.erase, hrep.not_below_of_mem_onward hmem,
        hrep.sorted_insert hfind hmem, if_true]
      rfl
  | some p =>
    obtain ⟨hon, heq⟩ := hrep.mem_of_find hfind
    obtain ⟨hsame, hnext⟩ := hrep.unlinked hon
    refine ⟨_, hrep.removed hon hsame hnext, ?_⟩
    change Assoc.erase cmp key m.bindings = entriesAt _ _
    rw [hm, Rep.entries_split sl c key, Assoc.erase_append fun b hb => below_of_mem_entries hb]
    have hsub : ∀ as, entriesAt (unlink (sl.update key) p (List.range (sl.currentLevel + 1))
        sl.nodes) as = entriesAt sl.nodes as := by
      intro as
      refine List.map_congr_left ?_
      intro q _
      rw [hsame.key, hsame.value]
    rw [hsub]
    rw [equiv_iff] at heq
    rw [hon]
    simp only [entriesAt, List.map_cons, Assoc.erase, heq.1, heq.2, List.map_append]
    rfl

theorem getElem?_setValue (sl : SkipList K V cmp) (p : Nat) (value : V) (q : Nat) :
    (sl.setValue p value).nodes[q]? =
      if p = q then sl.nodes[q]?.map (fun n => { n with value := value }) else sl.nodes[q]? := by
  rw [SkipList.setValue, List.getElem?_modify]
  by_cases hpq : p = q <;> simp [hpq]

theorem tower_setValue (sl : SkipList K V cmp) (p : Nat) (value : V) (q : Nat) :
    tower (sl.setValue p value).nodes q = tower sl.nodes q := by
  unfold tower
  rw [getElem?_setValue]
  split_ifs <;> simp [Option.map_map, Function.comp_def]

theorem keyAt_setValue (sl : SkipList K V cmp) (p : Nat) (value : V) (q : Nat) :
    keyAt (sl.setValue p value).nodes q = keyAt sl.nodes q := by
  unfold keyAt
  rw [getElem?_setValue]
  split_ifs <;> simp [Option.map_map, Function.comp_def]

theorem next_setValue (sl : SkipList K V cmp) (p : Nat) (value : V) (i q : Nat) :
    next (sl.setValue p value).nodes i q = next sl.nodes i q := by
  unfold next
  rw [getElem?_setValue]
  split_ifs
  · cases sl.nodes[q]? <;> rfl
  · rfl

theorem valueAt_setValue {sl : SkipList K V cmp} {p : Nat} (hp : p < sl.nodes.length) (value : V)
    (q : Nat) : valueAt (sl.setValue p value).nodes q =
      if q = p then value else valueAt sl.nodes q := by
  unfold valueAt
  rw [getElem?_setValue]
  by_cases hpq : p = q
  · subst hpq
    simp [List.getElem?_eq_getElem hp]
  · simp [hpq, Ne.symm hpq]

/-- Writing a node's value changes its binding. -/
theorem Represents.setValue [StrictWeak cmp] (h : sl.Represents m) {p : Nat}
    (hp : p ∈ sl.pointers) (value : V) :
    (sl.setValue p value).Represents (m.modify (keyAt sl.nodes p) fun _ => value) := by
  obtain ⟨c, hrep, hm⟩ := h
  rw [hrep.pointers_eq] at hp
  have hlt := hrep.mem_lt (List.mem_cons_of_mem _ hp)
  have htower := tower_setValue sl p value
  have hkey := keyAt_setValue sl p value
  have hvalue := valueAt_setValue hlt value
  refine ⟨c, ?_, ?_⟩
  · exact
      { nodup := hrep.nodup
        tower_pos := fun q hq => htower q ▸ hrep.tower_pos q hq
        head := (htower 0).trans hrep.head
        chain := by
          intro i hi
          rw [onLevel_congr sl.nodes _ i fun q _ => htower q]
          exact (hrep.chain i hi).congr fun q _ => next_setValue sl p value i q
        sorted := by
          simp only [hkey]
          exact hrep.sorted
        reach := fun q hq => htower q ▸ hrep.reach q hq
        top := by
          simp only [htower]
          exact hrep.top
        level := hrep.level
        size := hrep.size }
  · obtain ⟨as, bs, rfl⟩ := List.append_of_mem hp
    have hsorted := hrep.sorted
    rw [List.pairwise_append] at hsorted
    have hlo : ∀ b ∈ entriesAt sl.nodes as, cmp b.1 (keyAt sl.nodes p) = true := by
      intro b hb
      obtain ⟨q, hq, rfl⟩ := List.mem_map.mp hb
      exact hsorted.2.2 q hq p List.mem_cons_self
    have hnodup := (List.nodup_cons.mp hrep.nodup).2
    rw [List.nodup_middle, List.nodup_cons, List.mem_append, not_or] at hnodup
    have hsub : ∀ {ls : List Nat}, p ∉ ls → entriesAt (sl.setValue p value).nodes ls =
        entriesAt sl.nodes ls := by
      intro ls hls
      refine List.map_congr_left ?_
      intro q hq
      rw [hkey, hvalue, if_neg]
      rintro rfl
      exact hls hq
    change Assoc.modify cmp _ _ m.bindings = _
    rw [hm]
    have hsplit : ∀ nodes : List (Node K V), entriesAt nodes (as ++ p :: bs) =
        entriesAt nodes as ++ (keyAt nodes p, valueAt nodes p) :: entriesAt nodes bs := by
      intro nodes
      simp [entriesAt]
    rw [hsplit, hsplit, Assoc.modify_append hlo, hsub hnodup.1.1, hsub hnodup.1.2, hkey, hvalue,
      if_pos rfl]
    simp only [Assoc.modify, StrictWeak.irrefl]
    rfl

end Represents

end SkipList

end NexusLOB.Lob
