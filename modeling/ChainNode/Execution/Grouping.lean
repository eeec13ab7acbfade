import ChainNode.Duration
import ChainNode.Execution.Footprint
import ChainNode.Partition.Forest
import Std.Data.ExtTreeMap

/-!
# Grouping

A list of transactions is split by their declared footprints. Those that cannot run are set aside;
those that must run alone, or about which too little is known, keep their order in one list; the
others form groups. Two of them are in the same group when they declare a common path, or when a
chain of such pairs connects them, so different groups declare no common path. Everything here
works for any kind of item that has a footprint.

The partition is kept in a forest with a node for each participant and a node for each path.
-/

namespace ChainNode

/-- Items split into groups, items to be run alone in order, and items that cannot run. -/
structure Grouping (α : Type) where
  groups : List (List α)
  sequential : List α
  withoutContract : List α
  deriving DecidableEq, Repr

/-- How a question about a footprint ends: after a delay, with an answer or without one. -/
structure Extraction where
  delay : Duration
  /-- The footprint; `none` if it could not be found out. -/
  answer : Option Footprint

namespace Grouping

variable {α : Type}

/-- Where an item goes. -/
inductive Route
  /-- Into the group of the paths it declares. -/
  | grouped (paths : List Path)
  | sequential
  | withoutContract

/-- Where an item with a known or unknown footprint goes. Declaring no write is no proof that there
is none, so such items run alone. -/
def route : Option Footprint → Route
  | none => .sequential
  | some f => match f.parallelism with
    | .withoutContract => .withoutContract
    | .nonParallelizable => .sequential
    | .parallelizable => if f.writes.isEmpty then .sequential else .grouped f.paths

/-- A forest with a node for each path met so far. -/
structure PathForest where
  forest : Forest
  nodes : Std.ExtTreeMap Path Nat

namespace PathForest

/-- No nodes. -/
def empty : PathForest := ⟨.empty, ∅⟩

/-- The node of a path, made when there is none yet. -/
def node (pf : PathForest) (p : Path) : Nat × PathForest :=
  match pf.nodes[p]? with
  | some n => (n, pf)
  | none =>
    let (n, forest) := pf.forest.make
    (n, ⟨forest, pf.nodes.insert p n⟩)

/-- Joins a node with the node of a path. -/
def join (pf : PathForest) (x : Nat) (p : Path) : PathForest :=
  let (n, pf) := pf.node p
  { pf with forest := (pf.forest.union x n).2 }

/-- Adds a node joined with all the given paths. -/
def add (pf : PathForest) (paths : List Path) : Nat × PathForest :=
  let (x, forest) := pf.forest.make
  (x, paths.foldl (fun pf p => pf.join x p) { pf with forest })

/-- Adds a node for each list of paths. -/
def addAll (pf : PathForest) : List (List Path) → List Nat × PathForest
  | [] => ([], pf)
  | paths :: rest =>
    let (x, pf) := pf.add paths
    let (xs, pf) := pf.addAll rest
    (x :: xs, pf)

end PathForest

/-- The roots of nodes that belong to a forest, found one after the other. -/
def roots (f : Forest) : List Nat → List Nat
  | [] => []
  | x :: xs => match f.find x with
    | .ok (r, f) => r :: roots f xs
    | .error _ => x :: roots f xs

/-- Items with equal keys together, in the order in which the keys first occur. -/
def bucketize : List (Nat × α) → List (Nat × List α)
  | items => items.foldl place []
where
  /-- Puts an item into the bucket of its key, at the end. -/
  place : List (Nat × List α) → Nat × α → List (Nat × List α)
    | [], (key, a) => [(key, [a])]
    | (k, as) :: rest, (key, a) =>
      if k = key then (k, as ++ [a]) :: rest else (k, as) :: place rest (key, a)

/-- The groups of items that share paths, directly or through others. -/
def groupByPaths (participants : List (α × List Path)) : List (List α) :=
  let (nodes, pf) := PathForest.empty.addAll (participants.map Prod.snd)
  let keys := roots pf.forest nodes
  (bucketize (keys.zip (participants.map Prod.fst))).map Prod.snd

/-- The items that form groups, with the paths they declare. -/
def participants (items : List (α × Option Footprint)) : List (α × List Path) :=
  items.filterMap fun (a, f) => match route f with
    | .grouped paths => some (a, paths)
    | _ => none

/-- Splits items by what is known of their footprints. -/
def ofFootprints (items : List (α × Option Footprint)) : Grouping α where
  groups := groupByPaths (participants items)
  sequential := items.filterMap fun (a, f) => match route f with
    | .sequential => some a
    | _ => none
  withoutContract := items.filterMap fun (a, f) => match route f with
    | .withoutContract => some a
    | _ => none

/-- The bounds on the work of finding out footprints. -/
structure Limits where
  /-- After this time a footprint that is not known counts as unknown. -/
  timeout : Duration
  /-- The number of items, from the front, whose footprints are asked for. -/
  maxItems : Nat
  deriving DecidableEq, Repr

/-! ## Asking for footprints -/

/-- Puts an extraction, with its position, before those that take longer. -/
def insertByDelay (x : Extraction × Nat) : List (Extraction × Nat) → List (Extraction × Nat)
  | [] => [x]
  | y :: rest =>
    if x.1.delay.millis ≤ y.1.delay.millis then x :: y :: rest else y :: insertByDelay x rest

/-- The positions of the extractions that end before the time is up, in the order in which they end. -/
def Limits.arrivals (limits : Limits) (asked : List Extraction) : List Nat :=
  ((asked.zipIdx.filter fun x => x.1.delay.millis ≤ limits.timeout.millis).foldr
    insertByDelay []).map Prod.snd

/-- Enters the answer of an extraction into its row of a table. Without an answer the row stays. -/
def enter (asked : List Extraction) (table : List (Option Footprint)) (i : Nat) :
    List (Option Footprint) :=
  match asked[i]?.bind Extraction.answer with
  | some f => table.set i (some f)
  | none => table

/-- A table with a row for each extraction; answers are entered as they arrive. -/
def gather (asked : List Extraction) (arrivals : List Nat) : List (Option Footprint) :=
  arrivals.foldl (enter asked) (List.replicate asked.length none)

/-- Items beside the rows of a table; where the table is too short, nothing is known. -/
def inStep : List α → List (Option Footprint) → List (α × Option Footprint)
  | [], _ => []
  | a :: rest, [] => (a, none) :: inStep rest []
  | a :: rest, row :: rows => (a, row) :: inStep rest rows

/-- What is found out of the items' footprints when extractions end in some order. Only the items
within the cap are asked about. -/
def Limits.gathered (limits : Limits) (items : List (α × Extraction)) (arrivals : List Nat) :
    List (α × Option Footprint) :=
  inStep (items.map Prod.fst) (gather ((items.take limits.maxItems).map Prod.snd) arrivals)

/-- Splits items whose footprints are asked for within limits. -/
def ofExtractions (limits : Limits) (items : List (α × Extraction)) : Grouping α :=
  ofFootprints <| limits.gathered items <|
    limits.arrivals ((items.take limits.maxItems).map Prod.snd)

end Grouping

end ChainNode
