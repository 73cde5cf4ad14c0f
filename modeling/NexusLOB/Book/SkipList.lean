import Mathlib.Data.Nat.Log
import NexusLOB.Collections.LinkedChain
import NexusLOB.Collections.OrderedMap

/-!
# The skip list

`SkipList<K, V, Compare>` with its nodes in a list: a `shared_ptr` is a place in that list, and
place 0 is the head sentinel. Nodes are allocated at the end; what is no longer linked stays there
unused. A null pointer is `none`. The coin flips of `randomLevel` are an argument.
-/

namespace NexusLOB.Lob

open Collections

structure Node (K V : Type) where
  key : K
  value : V
  forward : List (Option Nat)
  deriving Repr

/-- `Node(k, level)`, with null pointers on its levels. -/
def Node.new {K V : Type} [Inhabited V] (k : K) (level : Nat) : Node K V :=
  { key := k, value := default, forward := List.replicate (level + 1) none }

structure SkipList (K V : Type) (cmp : K → K → Bool) where
  maxLevel : Nat
  currentLevel : Nat := 0
  size : Nat := 0
  nodes : List (Node K V)
  deriving Repr

namespace SkipList

variable {K V : Type} [Inhabited K] [Inhabited V] {cmp : K → K → Bool}

/-- The pointer `forward[i]` of the node at `p`. -/
def next (nodes : List (Node K V)) (i p : Nat) : Option Nat :=
  (nodes[p]?.bind fun n => n.forward[i]?).join

/-- On how many levels the node at `p` is linked. -/
def tower (nodes : List (Node K V)) (p : Nat) : Nat := (nodes[p]?.map fun n => n.forward.length).getD 0

def keyAt (nodes : List (Node K V)) (p : Nat) : K := (nodes[p]?.map Node.key).getD default

def valueAt (nodes : List (Node K V)) (p : Nat) : V := (nodes[p]?.map Node.value).getD default

/-- `p->forward[i] = q`. -/
def setForward (nodes : List (Node K V)) (p i : Nat) (q : Option Nat) : List (Node K V) :=
  nodes.modify p fun n => { n with forward := n.forward.set i q }

/-- Room for `maxN` keys. -/
def new (maxN : Nat) : SkipList K V cmp :=
  { maxLevel := Nat.clog 2 maxN, nodes := [Node.new default (Nat.clog 2 maxN)] }

def randomLevel (maxLevel : Nat) : Nat → List Bool → Nat
  | lvl, true :: coins => if lvl < maxLevel then randomLevel maxLevel (lvl + 1) coins else lvl
  | lvl, _ => lvl

/-- The search loop, from level `i - 1` down: the last nodes whose keys compare below `key`, by
level. -/
def predecessors (sl : SkipList K V cmp) (key : K) : Nat → Nat → List Nat
  | 0, _ => []
  | i + 1, curr =>
    let curr := walk (next sl.nodes i) (fun p => cmp (keyAt sl.nodes p) key) sl.nodes.length curr
    sl.predecessors key i curr ++ [curr]

/-- The nodes before `key` on all levels. -/
def update (sl : SkipList K V cmp) (key : K) : List Nat := sl.predecessors key (sl.currentLevel + 1) 0

/-- The node right after the search path. -/
def candidate (sl : SkipList K V cmp) (key : K) : Option Nat :=
  next sl.nodes 0 ((sl.update key).getD 0 0)

/-- The node with the given key. -/
def find (sl : SkipList K V cmp) (key : K) : Option Nat :=
  (sl.candidate key).filter fun p => !cmp key (keyAt sl.nodes p) && !cmp (keyAt sl.nodes p) key

/-- Link the node `p` on level `i`. -/
def link (update : List Nat) (p : Nat) (nodes : List (Node K V)) (i : Nat) : List (Node K V) :=
  let u := update.getD i 0
  let nodes := setForward nodes p i (next nodes i u)
  setForward nodes u i (some p)

/-- True if inserted, false if the key is already present. -/
def insert (sl : SkipList K V cmp) (key : K) (value : V) (coins : List Bool) :
    Bool × SkipList K V cmp :=
  match sl.find key with
  | some _ => (false, sl)
  | none =>
    let newLevel := randomLevel sl.maxLevel 0 coins
    let update := sl.update key ++ List.replicate (newLevel - sl.currentLevel) 0
    let p := sl.nodes.length
    let node : Node K V := { (Node.new key newLevel : Node K V) with value := value }
    (true,
      { sl with
        currentLevel := max sl.currentLevel newLevel
        size := sl.size + 1
        nodes := (List.range (newLevel + 1)).foldl (link update p) (sl.nodes ++ [node]) })

/-- Unlink `p` level by level, as far as it is linked. -/
def unlink (update : List Nat) (p : Nat) : List Nat → List (Node K V) → List (Node K V)
  | [], nodes => nodes
  | i :: levels, nodes =>
    let u := update.getD i 0
    if next nodes i u ≠ some p then nodes
    else unlink update p levels (setForward nodes u i (next nodes i p))

/-- `while (currentLevel > 0 && !head->forward[currentLevel]) --currentLevel`. -/
def lower (nodes : List (Node K V)) : Nat → Nat
  | 0 => 0
  | level + 1 => if next nodes (level + 1) 0 = none then lower nodes level else level + 1

/-- True if removed. -/
def remove (sl : SkipList K V cmp) (key : K) : Bool × SkipList K V cmp :=
  match sl.find key with
  | none => (false, sl)
  | some p =>
    let nodes := unlink (sl.update key) p (List.range (sl.currentLevel + 1)) sl.nodes
    (true,
      { sl with
        currentLevel := lower nodes sl.currentLevel
        size := sl.size - 1
        nodes := nodes })

/-- The first node. -/
def best (sl : SkipList K V cmp) : Option Nat := next sl.nodes 0 0

/-- Write `node->value`. -/
def setValue (sl : SkipList K V cmp) (p : Nat) (value : V) : SkipList K V cmp :=
  { sl with nodes := sl.nodes.modify p fun n => { n with value := value } }

/-- The nodes in order, from `best()` along `forward[0]`. -/
def pointers (sl : SkipList K V cmp) : List Nat := traverse (next sl.nodes 0) sl.nodes.length 0

def toList (sl : SkipList K V cmp) : List (K × V) :=
  sl.pointers.map fun p => (keyAt sl.nodes p, valueAt sl.nodes p)

end SkipList

end NexusLOB.Lob
