import NexusLOB.Book.SkipListMap

/-!
# The skip list with its accesses checked

The functions of `SkipList` once more, with every `forward[i]`, every node behind a pointer and the
increment of `size` checked: `none` stands for an access out of range, a search that does not end,
or a signed overflow. On a list that `Rep` describes each of them is the unchecked function, so a
whole sequence of calls runs through, and behaves as on a finite map.
-/

set_option linter.unusedSectionVars false

namespace NexusLOB.Lob

open Collections

namespace SkipList

variable {K V : Type} [Inhabited K] [Inhabited V] {cmp : K → K → Bool}

/-! ## Checked functions -/

/-- `INT_MAX`. -/
def intMax : Nat := 2147483647

/-- Read `p->forward[i]`. -/
def forward? (nodes : List (Node K V)) (i p : Nat) : Option (Option Nat) :=
  nodes[p]?.bind fun n => n.forward[i]?

/-- Write `p->forward[i]`. -/
def setForward? (nodes : List (Node K V)) (p i : Nat) (q : Option Nat) : Option (List (Node K V)) :=
  if i < tower nodes p then some (setForward nodes p i q) else none

/-- `cmp(p->key, key)`. -/
def below? (sl : SkipList K V cmp) (key : K) (p : Nat) : Option Bool :=
  sl.nodes[p]?.map fun n => cmp n.key key

def predecessorsChecked (sl : SkipList K V cmp) (key : K) : Nat → Nat → Option (List Nat)
  | 0, _ => some []
  | i + 1, curr => do
    let curr ← walkChecked (forward? sl.nodes i) (sl.below? key) sl.nodes.length curr
    let update ← sl.predecessorsChecked key i curr
    return update ++ [curr]

def updateChecked (sl : SkipList K V cmp) (key : K) : Option (List Nat) :=
  sl.predecessorsChecked key (sl.currentLevel + 1) 0

/-- The node right after the search path, if it has the key. -/
def hitChecked (sl : SkipList K V cmp) (key : K) (update : List Nat) : Option (Option Nat) := do
  let u ← update[0]?
  match ← forward? sl.nodes 0 u with
  | none => return none
  | some p =>
    let n ← sl.nodes[p]?
    return if !cmp key n.key && !cmp n.key key then some p else none

def findChecked (sl : SkipList K V cmp) (key : K) : Option (Option Nat) := do
  let update ← sl.updateChecked key
  sl.hitChecked key update

def linkChecked (update : List Nat) (p : Nat) (nodes : List (Node K V)) (i : Nat) :
    Option (List (Node K V)) := do
  let u ← update[i]?
  let q ← forward? nodes i u
  let nodes ← setForward? nodes p i q
  setForward? nodes u i (some p)

def insertChecked (sl : SkipList K V cmp) (key : K) (value : V) (coins : List Bool) :
    Option (Bool × SkipList K V cmp) := do
  let update ← sl.updateChecked key
  match ← sl.hitChecked key update with
  | some _ => return (false, sl)
  | none =>
    let newLevel := randomLevel sl.maxLevel 0 coins
    let node : Node K V := { (Node.new key newLevel : Node K V) with value := value }
    let nodes ← (List.range (newLevel + 1)).foldlM
      (linkChecked (update ++ List.replicate (newLevel - sl.currentLevel) 0) sl.nodes.length)
      (sl.nodes ++ [node])
    -- `size++` on an `int`
    if sl.size < intMax then
      return (true,
        { sl with
          currentLevel := max sl.currentLevel newLevel
          size := sl.size + 1
          nodes := nodes })
    else none

def unlinkChecked (update : List Nat) (p : Nat) :
    List Nat → List (Node K V) → Option (List (Node K V))
  | [], nodes => some nodes
  | i :: levels, nodes => do
    let u ← update[i]?
    let q ← forward? nodes i u
    if q ≠ some p then return nodes
    else
      let r ← forward? nodes i p
      let nodes ← setForward? nodes u i r
      unlinkChecked update p levels nodes

def lowerChecked (nodes : List (Node K V)) : Nat → Option Nat
  | 0 => some 0
  | level + 1 => do
    if (← forward? nodes (level + 1) 0) = none then lowerChecked nodes level
    else return level + 1

def removeChecked (sl : SkipList K V cmp) (key : K) : Option (Bool × SkipList K V cmp) := do
  let update ← sl.updateChecked key
  match ← sl.hitChecked key update with
  | none => return (false, sl)
  | some p =>
    let nodes ← unlinkChecked update p (List.range (sl.currentLevel + 1)) sl.nodes
    let level ← lowerChecked nodes sl.currentLevel
    return (true, { sl with currentLevel := level, size := sl.size - 1, nodes := nodes })

def bestChecked (sl : SkipList K V cmp) : Option (Option Nat) := forward? sl.nodes 0 0

/-- The nodes that the links of level `i` lead through. -/
def levelChecked (sl : SkipList K V cmp) (i : Nat) : Option (List Nat) :=
  traverseChecked (forward? sl.nodes i) sl.nodes.length 0

/-! ## No access is out of range -/

section Safe

variable {sl : SkipList K V cmp} {c : List Nat} {key : K} {nodes : List (Node K V)}

theorem forward?_eq {i p : Nat} (h : i < tower nodes p) :
    forward? nodes i p = some (next nodes i p) := by
  have hp := lt_length_of_tower h
  rw [tower, List.getElem?_eq_getElem hp] at h
  simp only [Option.map_some, Option.getD_some] at h
  unfold forward? next
  rw [List.getElem?_eq_getElem hp, Option.bind_some, List.getElem?_eq_getElem h]
  rfl

theorem getElem?_eq_node {p : Nat} (h : p < nodes.length) :
    ∃ n, nodes[p]? = some n ∧ n.key = keyAt nodes p := by
  refine ⟨nodes[p], List.getElem?_eq_getElem h, ?_⟩
  rw [keyAt, List.getElem?_eq_getElem h]
  rfl

theorem below?_eq {p : Nat} (h : p < sl.nodes.length) :
    sl.below? key p = some (cmp (keyAt sl.nodes p) key) := by
  obtain ⟨n, hn, hkey⟩ := getElem?_eq_node h
  rw [below?, hn, Option.map_some, hkey]

theorem Rep.tower_of_mem (h : Rep sl c) {i p : Nat} (hi : i ≤ sl.maxLevel) {as : List Nat}
    (hp : p ∈ 0 :: onLevel sl.nodes i as) : i < tower sl.nodes p := by
  rcases List.mem_cons.mp hp with rfl | hp
  · rw [h.head]
    omega
  · simpa using (List.mem_filter.mp hp).2

theorem Rep.walkChecked_eq [StrictWeak cmp] (h : Rep sl c) {i curr : Nat} (hi : i ≤ sl.maxLevel)
    (hcurr : curr ∈ 0 :: onLevel sl.nodes i (sl.before c key)) :
    walkChecked (forward? sl.nodes i) (sl.below? key) sl.nodes.length curr =
      some (sl.pred c key i) := by
  obtain ⟨as, hchain, htip, hsub, hlen⟩ := h.chain_from hi hcurr
  rw [← htip]
  refine hchain.walkChecked_eq ?_ ?_ ?_ hlen
  · intro q hq
    have hmem : q ∈ 0 :: onLevel sl.nodes i (sl.before c key) := by
      rcases List.mem_cons.mp hq with rfl | hq
      · exact hcurr
      · exact List.mem_cons_of_mem _ (hsub hq)
    exact forward?_eq (h.tower_of_mem hi hmem)
  · intro a ha
    have hmem := List.mem_of_mem_filter (hsub ha)
    rw [below?_eq (h.mem_lt (List.mem_cons_of_mem _ (before_subset sl c key hmem))),
      below_of_mem_before hmem]
  · intro b hb
    have hmem := List.mem_of_mem_filter (List.mem_of_mem_head? hb)
    rw [below?_eq (h.mem_lt (List.mem_cons_of_mem _ (onward_subset sl c key hmem))),
      h.not_below_head hb]

theorem Rep.predecessorsChecked_eq [StrictWeak cmp] (h : Rep sl c) {i curr : Nat}
    (hi : i ≤ sl.maxLevel + 1)
    (hcurr : curr ∈ 0 :: onLevel sl.nodes (i - 1) (sl.before c key)) :
    sl.predecessorsChecked key i curr = some ((List.range i).map (sl.pred c key)) := by
  induction i generalizing curr with
  | zero => rfl
  | succ i ih =>
    have hwalk := h.walkChecked_eq (by omega) hcurr
    rw [Nat.add_sub_cancel] at hwalk
    rw [predecessorsChecked, hwalk, List.range_succ, List.map_append]
    simp only [Option.bind_eq_bind, Option.bind_some, ih (by omega) (pred_mem_below sl c key i)]
    rfl

theorem Rep.updateChecked_eq [StrictWeak cmp] (h : Rep sl c) (key : K) :
    sl.updateChecked key = some (sl.update key) := by
  rw [h.update_eq]
  exact h.predecessorsChecked_eq (Nat.succ_le_succ h.level) List.mem_cons_self

theorem Rep.length_update [StrictWeak cmp] (h : Rep sl c) (key : K) :
    (sl.update key).length = sl.currentLevel + 1 := by
  rw [h.update_eq, List.length_map, List.length_range]

theorem getElem?_eq_getD {us : List Nat} {i : Nat} (h : i < us.length) :
    us[i]? = some (us.getD i 0) := by
  rw [List.getD_eq_getElem?_getD, List.getElem?_eq_getElem h]
  rfl

theorem Rep.hitChecked_eq [StrictWeak cmp] (h : Rep sl c) (key : K) :
    sl.hitChecked key (sl.update key) = some (sl.find key) := by
  have hpath : (sl.update key)[0]? = some (sl.pred c key 0) := by
    rw [getElem?_eq_getD (by rw [h.length_update]; omega), h.update_getD (Nat.zero_le _)]
  have hread : forward? sl.nodes 0 (sl.pred c key 0) = some (sl.candidate key) := by
    rw [forward?_eq (h.pred_mem key (Nat.zero_le _)).2, candidate, h.update_getD (Nat.zero_le _)]
  unfold hitChecked find
  simp only [Option.bind_eq_bind, hpath, Option.bind_some, hread]
  cases hcand : sl.candidate key with
  | none => rfl
  | some p =>
    have hmem : p ∈ sl.onward c key := by
      rw [h.candidate_eq] at hcand
      exact List.mem_of_mem_head? hcand
    obtain ⟨n, hn, hkey⟩ :=
      getElem?_eq_node (h.mem_lt (List.mem_cons_of_mem _ (onward_subset sl c key hmem)))
    simp only [hn, Option.bind_some, hkey, Option.filter]
    rfl

theorem Rep.findChecked_eq [StrictWeak cmp] (h : Rep sl c) (key : K) :
    sl.findChecked key = some (sl.find key) := by
  unfold findChecked
  rw [h.updateChecked_eq]
  exact h.hitChecked_eq key

theorem linkChecked_eq {update : List Nat} {p i : Nat} (hi : i < update.length)
    (hp : i < tower nodes p) (hu : i < tower nodes (update.getD i 0)) :
    linkChecked update p nodes i = some (link update p nodes i) := by
  unfold linkChecked link setForward?
  simp only [Option.bind_eq_bind, getElem?_eq_getD hi, Option.bind_some, forward?_eq hu, if_pos hp]
  rw [if_pos (by rw [(setForward_same _ _ _).tower]; exact hu)]

theorem foldlM_linkChecked (nodes : List (Node K V)) (update : List Nat) (p : Nat) {k : Nat}
    (hk : k ≤ update.length) (hp : k ≤ tower nodes p)
    (hu : ∀ i < k, i < tower nodes (update.getD i 0)) :
    (List.range k).foldlM (linkChecked update p) nodes =
      some ((List.range k).foldl (link update p) nodes) := by
  induction k with
  | zero => rfl
  | succ k ih =>
    have hlow : ∀ i < k, i < tower nodes (update.getD i 0) := fun i hi => hu i (by omega)
    obtain ⟨hsame, -⟩ := foldl_link nodes update p (Nat.le_of_succ_le hp) hlow
    rw [List.range_succ, List.foldlM_append, ih (by omega) (by omega) hlow, List.foldl_append]
    simp only [Option.bind_eq_bind, Option.bind_some, List.foldlM_cons, List.foldlM_nil,
      List.foldl_cons, List.foldl_nil]
    rw [linkChecked_eq (by omega) (by rw [hsame.tower]; omega)
      (by rw [hsame.tower]; exact hu k (by omega))]
    rfl

/-- Only `size` can get out of range. -/
theorem Rep.insertChecked_eq [StrictWeak cmp] (h : Rep sl c) (key : K) (value : V)
    (coins : List Bool) : sl.insertChecked key value coins =
      if sl.find key = none ∧ intMax ≤ sl.size then none else some (sl.insert key value coins) := by
  unfold insertChecked insert
  simp only [Option.bind_eq_bind, h.updateChecked_eq, Option.bind_some, h.hitChecked_eq]
  cases hfind : sl.find key with
  | some p => rfl
  | none =>
    have hlevel := randomLevel_le sl.maxLevel 0 coins (Nat.zero_le _)
    have hlen := h.length_update key
    set newLevel := randomLevel sl.maxLevel 0 coins
    set node : Node K V := { (Node.new key newLevel : Node K V) with value := value }
    have hnode : tower (sl.nodes ++ [node]) sl.nodes.length = newLevel + 1 := by
      rw [tower, List.getElem?_concat_length]
      simp [node, Node.new]
    have hlinks := foldlM_linkChecked (sl.nodes ++ [node])
      (sl.update key ++ List.replicate (newLevel - sl.currentLevel) 0) sl.nodes.length
      (show newLevel + 1 ≤ _ by rw [List.length_append, List.length_replicate]; omega)
      (by rw [hnode])
      (by
        intro i hi
        have hpred := h.pred_mem key (show i ≤ sl.maxLevel by omega)
        rw [h.extended_getD (by omega), tower_append_of_ne _ _ (Nat.ne_of_lt (h.mem_lt hpred.1))]
        exact hpred.2)
    simp only [hlinks, Option.bind_some, true_and]
    by_cases hsize : sl.size < intMax
    · rw [if_pos hsize, if_neg (by omega)]
      rfl
    · rw [if_neg hsize, if_pos (by omega)]

/-- `unlink` reads only what is there. -/
theorem unlinkChecked_range' (update : List Nat) {p h : Nat} (n i : Nat) (nodes : List (Node K V))
    (hlen : i + n ≤ update.length) (hp : h ≤ tower nodes p)
    (hu : ∀ j, i ≤ j → j < i + n → j < tower nodes (update.getD j 0))
    (hlinked : ∀ j, i ≤ j → j < i + n → (next nodes j (update.getD j 0) = some p ↔ j < h)) :
    unlinkChecked update p (List.range' i n) nodes =
      some (unlink update p (List.range' i n) nodes) := by
  induction n generalizing i nodes with
  | zero => rfl
  | succ n ih =>
    have htower := hu i (Nat.le_refl i) (by omega)
    have hi := hlinked i (Nat.le_refl i) (by omega)
    rw [List.range'_succ, unlinkChecked, unlink]
    simp only [Option.bind_eq_bind, getElem?_eq_getD (show i < update.length by omega),
      Option.bind_some, forward?_eq htower]
    by_cases hih : i < h
    · rw [if_neg (not_not.mpr (hi.mpr hih)), if_neg (not_not.mpr (hi.mpr hih)),
        forward?_eq (show i < tower nodes p by omega), Option.bind_some, setForward?,
        if_pos htower, Option.bind_some]
      refine ih (i + 1) _ (by omega) ?_ ?_ ?_
      · rw [(setForward_same _ _ _).tower]
        exact hp
      · intro j hj hjn
        rw [(setForward_same _ _ _).tower]
        exact hu j (by omega) (by omega)
      · intro j hj hjn
        rw [next_setForward htower, if_neg (by omega)]
        exact hlinked j (by omega) (by omega)
    · rw [if_pos fun heq => hih (hi.mp heq), if_pos fun heq => hih (hi.mp heq)]
      rfl

theorem lowerChecked_eq (nodes : List (Node K V)) {level : Nat} (h : level < tower nodes 0) :
    lowerChecked nodes level = some (lower nodes level) := by
  induction level with
  | zero => rfl
  | succ level ih =>
    rw [lowerChecked, lower]
    simp only [Option.bind_eq_bind, forward?_eq h, Option.bind_some, ih (by omega)]
    split_ifs <;> rfl

theorem Rep.removeChecked_eq [StrictWeak cmp] (h : Rep sl c) (key : K) :
    sl.removeChecked key = some (sl.remove key) := by
  unfold removeChecked remove
  simp only [Option.bind_eq_bind, h.updateChecked_eq, Option.bind_some, h.hitChecked_eq]
  cases hfind : sl.find key with
  | none => rfl
  | some p =>
    obtain ⟨hon, -⟩ := h.mem_of_find hfind
    have hlevel := h.level
    have hlen := h.length_update key
    have hunlink := unlinkChecked_range' (sl.update key) (sl.currentLevel + 1) 0 sl.nodes
      (by omega) (Nat.le_refl (tower sl.nodes p))
      (fun j _ hj => h.lt_tower_update key (by omega))
      (fun j _ hj => h.next_update_iff hon (by omega))
    rw [← List.range_eq_range'] at hunlink
    obtain ⟨hsame, -⟩ := h.unlinked hon
    have hhead := h.head
    have hlower := lowerChecked_eq
      (unlink (sl.update key) p (List.range (sl.currentLevel + 1)) sl.nodes)
      (show sl.currentLevel < _ by rw [hsame.tower]; omega)
    simp only [hunlink, Option.bind_some, hlower]
    rfl

theorem Rep.bestChecked_eq (h : Rep sl c) : sl.bestChecked = some sl.best :=
  forward?_eq (by rw [h.head]; omega)

theorem Rep.levelChecked_eq (h : Rep sl c) {i : Nat} (hi : i ≤ sl.maxLevel) :
    sl.levelChecked i = some (onLevel sl.nodes i c) := by
  refine (h.chain i hi).traverseChecked_eq (fun q hq => forward?_eq (h.tower_of_mem hi hq)) ?_
  exact Nat.lt_of_le_of_lt (List.length_filter_le _ _) h.length_lt

end Safe

/-! ## The levels -/

/-- What the levels look like: `levels i` are the nodes on level `i`, from the head on. -/
structure Layered (sl : SkipList K V cmp) (levels : Nat → List Nat) : Prop where
  read : ∀ i ≤ sl.maxLevel, sl.levelChecked i = some (levels i)
  sorted : ∀ i, (levels i).Pairwise fun p q => cmp (keyAt sl.nodes p) (keyAt sl.nodes q) = true
  sub : ∀ i, (levels (i + 1)).Sublist (levels i)
  own : ∀ p ∈ levels 0, ∀ i, p ∈ levels i ↔ i < tower sl.nodes p
  above : ∀ i, sl.currentLevel < i → levels i = []
  current : sl.currentLevel ≤ sl.maxLevel
  size : sl.size = (levels 0).length

theorem Rep.layered {sl : SkipList K V cmp} {c : List Nat} (h : Rep sl c) :
    sl.Layered fun i => onLevel sl.nodes i c where
  read := fun i hi => h.levelChecked_eq hi
  sorted := fun i => h.sorted.sublist List.filter_sublist
  sub := by
    intro i
    refine List.monotone_filter_right c ?_
    intro p hp
    simp only [decide_eq_true_eq] at hp ⊢
    omega
  own := by
    intro p hp i
    rw [onLevel, List.mem_filter, decide_eq_true_iff]
    exact ⟨And.right, fun hlt => ⟨List.mem_of_mem_filter hp, hlt⟩⟩
  above := fun i hi => h.onLevel_above hi fun _ hp => hp
  current := h.level
  size := by rw [h.onLevel_zero fun _ hp => hp, h.size]

/-! ## Sequences of calls -/

/-- A call, with the coin flips of `randomLevel`. -/
inductive Op (K V : Type)
  | insert (key : K) (value : V) (coins : List Bool)
  | remove (key : K)
  | find (key : K)

/-- What a call returns; of a found node, its value. -/
inductive Answer (V : Type)
  | inserted (fresh : Bool)
  | removed (present : Bool)
  | found (value : Option V)

/-- A call on the skip list. -/
def call (sl : SkipList K V cmp) : Op K V → Option (Answer V × SkipList K V cmp)
  | .insert key value coins =>
    (sl.insertChecked key value coins).map fun r => (.inserted r.1, r.2)
  | .remove key => (sl.removeChecked key).map fun r => (.removed r.1, r.2)
  | .find key => (sl.findChecked key).map fun r => (.found (r.map (valueAt sl.nodes)), sl)

/-- The calls one after another. -/
def calls (sl : SkipList K V cmp) : List (Op K V) → Option (List (Answer V) × SkipList K V cmp)
  | [] => some ([], sl)
  | op :: ops => do
    let (a, sl) ← sl.call op
    let (as, sl) ← sl.calls ops
    return (a :: as, sl)

section OnMap

variable [StrictWeak cmp]

/-- A call on a finite map: a key that is there is not inserted again. -/
def Op.onMap (m : OrderedMap K V cmp) : Op K V → Answer V × OrderedMap K V cmp
  | .insert key value _ =>
    if m.contains key then (.inserted false, m) else (.inserted true, m.insert key value)
  | .remove key => (.removed (m.contains key), m.erase key)
  | .find key => (.found (m.find? key), m)

/-- The calls one after another, on a finite map. -/
def callsOnMap (m : OrderedMap K V cmp) : List (Op K V) → List (Answer V) × OrderedMap K V cmp
  | [] => ([], m)
  | op :: ops =>
    let (a, m) := op.onMap m
    let (as, m) := callsOnMap m ops
    (a :: as, m)

end OnMap

section Runs

variable [StrictWeak cmp] {sl : SkipList K V cmp} {m : OrderedMap K V cmp}

theorem Represents.size_eq (h : sl.Represents m) : sl.size = m.size := by
  obtain ⟨c, hrep, hm⟩ := h
  rw [hrep.size, OrderedMap.size, hm, entriesAt, List.length_map]

theorem Represents.contains_eq (h : sl.Represents m) (key : K) :
    m.contains key = (sl.find key).isSome := by
  rw [OrderedMap.contains, h.find_eq, Option.isSome_map]

/-- **One call** answers and changes the list as on the map, unless `size` overflows. -/
theorem Represents.call (h : sl.Represents m) (op : Op K V) (hsize : (op.onMap m).2.size ≤ intMax) :
    ∃ sl', sl.call op = some ((op.onMap m).1, sl') ∧ sl'.Represents (op.onMap m).2 := by
  have hrepr := h
  obtain ⟨c, hrep, -⟩ := h
  cases op with
  | insert key value coins =>
    have hcontains := hrepr.contains_eq key
    cases hfind : sl.find key with
    | some p =>
      rw [hfind] at hcontains
      refine ⟨sl, ?_, ?_⟩
      · simp [SkipList.call, hrep.insertChecked_eq, hfind, SkipList.insert, Op.onMap, hcontains]
      · simpa [Op.onMap, hcontains] using hrepr
    | none =>
      rw [hfind] at hcontains
      have hmap : Op.onMap m (.insert key value coins) = (.inserted true, m.insert key value) := by
        simp [Op.onMap, hcontains]
      have hnone : m.find? key = none := by rw [hrepr.find_eq, hfind]; rfl
      have hnew := hrepr.insert hnone value coins
      have hgrow : (sl.insert key value coins).2.size = sl.size + 1 := by
        simp only [SkipList.insert, hfind]
      rw [hmap] at hsize ⊢
      rw [← hnew.size_eq, hgrow] at hsize
      refine ⟨_, ?_, hnew⟩
      rw [SkipList.call, hrep.insertChecked_eq, if_neg (by omega)]
      simp only [SkipList.insert, hfind, Option.map_some]
  | remove key =>
    refine ⟨_, ?_, hrepr.remove key⟩
    rw [SkipList.call, hrep.removeChecked_eq, Option.map_some, Op.onMap, hrepr.contains_eq]
    cases hfind : sl.find key <;> simp only [SkipList.remove, hfind] <;> rfl
  | find key =>
    refine ⟨sl, ?_, hrepr⟩
    rw [SkipList.call, hrep.findChecked_eq, Option.map_some, Op.onMap, hrepr.find_eq]

/-- **A sequence of calls.** -/
theorem Represents.calls (h : sl.Represents m) (ops : List (Op K V))
    (hsize : ∀ pre, pre <+: ops → (callsOnMap m pre).2.size ≤ intMax) :
    ∃ sl', sl.calls ops = some ((callsOnMap m ops).1, sl') ∧
      sl'.Represents (callsOnMap m ops).2 := by
  induction ops generalizing sl m with
  | nil => exact ⟨sl, rfl, h⟩
  | cons op ops ih =>
    have hfirst : (op.onMap m).2.size ≤ intMax :=
      hsize [op] (List.cons_prefix_cons.mpr ⟨rfl, List.nil_prefix⟩)
    obtain ⟨sl₁, hcall, h₁⟩ := h.call op hfirst
    obtain ⟨sl', hcalls, h'⟩ := ih h₁ fun pre hpre =>
      hsize (op :: pre) (List.cons_prefix_cons.mpr ⟨rfl, hpre⟩)
    refine ⟨sl', ?_, h'⟩
    simp only [SkipList.calls, hcall, Option.bind_eq_bind, Option.bind_some, hcalls]
    rfl

end Runs

/-- **The skip list is an ordered map.** For every strict weak order, every sequence of calls and
all coin flips: no access is out of range, the answers are those of a finite map, the levels are
sorted chains over one another, the first node has the least key, and level 0 has the bindings of
the map in order. The calls may have `INT_MAX` keys in the list at a time. -/
theorem skip_list_is_ordered_map [StrictWeak cmp] (maxN : Nat) (ops : List (Op K V))
    (hsize : ∀ pre, pre <+: ops → (callsOnMap (.empty : OrderedMap K V cmp) pre).2.size ≤ intMax) :
    ∃ (answers : List (Answer V)) (sl : SkipList K V cmp) (m : OrderedMap K V cmp)
      (levels : Nat → List Nat),
      (SkipList.new maxN).calls ops = some (answers, sl) ∧ callsOnMap .empty ops = (answers, m) ∧
      sl.Layered levels ∧
      (levels 0).map (fun p => (keyAt sl.nodes p, valueAt sl.nodes p)) = m.bindings ∧
      sl.bestChecked = some (levels 0).head? ∧
      ∀ p ∈ (levels 0).head?, ∀ q ∈ levels 0,
        q = p ∨ cmp (keyAt sl.nodes p) (keyAt sl.nodes q) = true := by
  obtain ⟨sl, hcalls, c, hrep, hm⟩ := (represents_new maxN).calls ops hsize
  have hzero : onLevel sl.nodes 0 c = c := hrep.onLevel_zero fun _ hp => hp
  refine ⟨_, sl, _, fun i => onLevel sl.nodes i c, hcalls, rfl, hrep.layered, ?_, ?_, ?_⟩
  · dsimp only
    rw [hzero, hm, entriesAt]
  · dsimp only
    rw [hzero, hrep.bestChecked_eq, hrep.best_eq]
  · intro p hp q hq
    have hsorted := hrep.layered.sorted 0
    dsimp only at hp hq hsorted
    cases hlist : onLevel sl.nodes 0 c with
    | nil =>
      rw [hlist] at hq
      cases hq
    | cons p' rest =>
      rw [hlist] at hp hq hsorted
      obtain rfl : p' = p := Option.some.inj hp
      rcases List.mem_cons.mp hq with rfl | hq
      · exact Or.inl rfl
      · exact Or.inr ((List.pairwise_cons.mp hsorted).1 q hq)

/-- Each call adds at most one key. -/
theorem callsOnMap_size_le [StrictWeak cmp] (m : OrderedMap K V cmp) (ops : List (Op K V)) :
    (callsOnMap m ops).2.size ≤ m.size + ops.length := by
  have hone : ∀ (m : OrderedMap K V cmp) (op : Op K V), (op.onMap m).2.size ≤ m.size + 1 := by
    intro m op
    cases op with
    | insert key value coins =>
      rw [Op.onMap]
      split_ifs with hc
      · exact Nat.le_succ _
      · dsimp only
        rw [OrderedMap.size_insert, if_neg hc]
    | remove key => exact (OrderedMap.size_erase_le m key).trans (Nat.le_succ _)
    | find key => exact Nat.le_succ _
  induction ops generalizing m with
  | nil => exact Nat.le_refl _
  | cons op ops ih =>
    have hstep := hone m op
    have hrest := ih (op.onMap m).2
    rw [List.length_cons]
    exact hrest.trans (by omega)

/-- Two keys in falling order, the second on two levels, then the first is removed. -/
theorem skip_list_is_ordered_map_two :
    ∃ (answers : List (Answer Nat)) (sl : SkipList Nat Nat less) (m : OrderedMap Nat Nat less)
      (levels : Nat → List Nat),
      (SkipList.new 2).calls [.insert 7 1 [], .insert 4 2 [true], .remove 7, .find 4] =
        some (answers, sl) ∧
      callsOnMap .empty [.insert 7 1 [], .insert 4 2 [true], .remove 7, .find 4] = (answers, m) ∧
      sl.Layered levels ∧
      (levels 0).map (fun p => (keyAt sl.nodes p, valueAt sl.nodes p)) = m.bindings ∧
      sl.bestChecked = some (levels 0).head? ∧
      ∀ p ∈ (levels 0).head?, ∀ q ∈ levels 0,
        q = p ∨ less (keyAt sl.nodes p) (keyAt sl.nodes q) = true := by
  refine skip_list_is_ordered_map 2 _ fun pre hpre => ?_
  have hsize := callsOnMap_size_le (.empty : OrderedMap Nat Nat less) pre
  have hlen := hpre.length_le
  refine Nat.le_trans hsize (Nat.le_trans (Nat.add_le_add_left hlen _) ?_)
  decide

/-- The keys below `n`, one after another. -/
def freshKeys (n : Nat) : List (Op Nat Unit) := (List.range n).map fun k => .insert k () []

theorem freshKeys_succ (n : Nat) : freshKeys (n + 1) = freshKeys n ++ [.insert n () []] := by
  rw [freshKeys, List.range_succ, List.map_append]
  rfl

theorem callsOnMap_append [StrictWeak cmp] (m : OrderedMap K V cmp) (ops ops' : List (Op K V)) :
    (callsOnMap m (ops ++ ops')).2 = (callsOnMap (callsOnMap m ops).2 ops').2 := by
  induction ops generalizing m with
  | nil => rfl
  | cons op ops ih => exact ih (op.onMap m).2

theorem calls_append (sl : SkipList K V cmp) (ops ops' : List (Op K V)) :
    sl.calls (ops ++ ops') = (sl.calls ops).bind fun r =>
      (r.2.calls ops').map fun r' => (r.1 ++ r'.1, r'.2) := by
  induction ops generalizing sl with
  | nil => simp [SkipList.calls]
  | cons op ops ih =>
    simp only [List.cons_append, SkipList.calls, Option.bind_eq_bind]
    cases sl.call op with
    | none => rfl
    | some r =>
      simp only [Option.bind_some, ih]
      cases r.2.calls ops with
      | none => rfl
      | some r₁ =>
        simp only [Option.bind_some, Option.pure_def]
        cases r₁.2.calls ops' <;> rfl

/-- All of them are in the map, and no other. -/
theorem callsOnMap_freshKeys (n : Nat) :
    (callsOnMap (.empty : OrderedMap Nat Unit less) (freshKeys n)).2.size = n ∧
      ∀ k, n ≤ k → (callsOnMap (.empty : OrderedMap Nat Unit less) (freshKeys n)).2.find? k = none := by
  induction n with
  | zero => exact ⟨rfl, fun _ _ => rfl⟩
  | succ n ih =>
    have hnew : (callsOnMap (.empty : OrderedMap Nat Unit less) (freshKeys n)).2.contains n =
        false := by
      rw [OrderedMap.contains, ih.2 n (Nat.le_refl n)]
      rfl
    have hmap : (callsOnMap (.empty : OrderedMap Nat Unit less) (freshKeys (n + 1))).2 =
        (callsOnMap .empty (freshKeys n)).2.insert n () := by
      rw [freshKeys_succ, callsOnMap_append]
      simp [callsOnMap, Op.onMap, hnew]
    rw [hmap, OrderedMap.size_insert, hnew, ih.1]
    refine ⟨rfl, fun k hk => ?_⟩
    rw [OrderedMap.find?_insert_of_ne _ _ (by omega)]
    exact ih.2 k (by omega)

/-- With `INT_MAX` keys in the list, the next new key overflows `size`. -/
theorem calls_freshKeys_overflow {n : Nat} (hn : n = intMax) :
    (SkipList.new 1 : SkipList Nat Unit less).calls (freshKeys (n + 1)) = none := by
  have hfit : ∀ pre, pre <+: freshKeys n →
      (callsOnMap (.empty : OrderedMap Nat Unit less) pre).2.size ≤ intMax := by
    intro pre hpre
    have hsize := callsOnMap_size_le (.empty : OrderedMap Nat Unit less) pre
    have hlen := hpre.length_le
    have hzero : (.empty : OrderedMap Nat Unit less).size = 0 := rfl
    rw [freshKeys, List.length_map, List.length_range] at hlen
    omega
  obtain ⟨sl, hcalls, hrepr⟩ := (represents_new 1).calls (freshKeys n) hfit
  obtain ⟨hsize, hnone⟩ := callsOnMap_freshKeys n
  have hfind : sl.find n = none := by
    have hmap := hnone n (Nat.le_refl _)
    rw [hrepr.find_eq, Option.map_eq_none_iff] at hmap
    exact hmap
  have hfull : sl.size = n := hrepr.size_eq.trans hsize
  obtain ⟨c, hrep, -⟩ := hrepr
  have hstop : sl.insertChecked n () [] = none := by
    rw [hrep.insertChecked_eq, if_pos ⟨hfind, by omega⟩]
  rw [freshKeys_succ, calls_append, hcalls]
  simp [SkipList.calls, SkipList.call, hstop]

theorem fresh_key_overflows_size :
    (SkipList.new 1 : SkipList Nat Unit less).calls (freshKeys (intMax + 1)) = none :=
  calls_freshKeys_overflow rfl

end SkipList

end NexusLOB.Lob
