import Frontend.Config.Yaml.Scalar

/-!
# Values in a YAML document

Getting texts, integers and the pairs of mappings out of a document. Every node that is looked at
counts, and so does every one that is looked at through an alias: a document in which nearly all
of them are is refused, because few aliases can stand for very many nodes.

A mapping can have the pairs of others merged into it. Its own pairs come first, and of those that
are merged in only the ones with new names count.
-/

namespace Frontend.Yaml

/-- What was done so far. -/
structure Decoding where
  /-- How many nodes were looked at. -/
  nodes : Nat := 0
  /-- How many of them were looked at through an alias. -/
  aliased : Nat := 0
  /-- The aliases that are being followed. -/
  following : List Nat := []

/-- A step of decoding, which fails where the document is not as expected. -/
abbrev Decoder := StateT Decoding Option

namespace Decoder

/-- Up to so many nodes, 99 of 100 may be looked at through an alias. -/
def manyNodes : Nat := 400000

/-- The share that is allowed goes down over so many nodes, to 10 of 100. -/
def sinkingOver : Nat := 3600000

/-- Too many of the nodes were looked at through an alias. -/
def isExcessive (nodes aliased : Nat) : Bool :=
  let share := 99 * sinkingOver - 89 * min (nodes - manyNodes) sinkingOver
  100 < aliased && 1000 < nodes && share * nodes < 100 * sinkingOver * aliased

/-- Counts a node. -/
def count : Decoder Unit := do
  let d ← get
  let aliased := if d.following = [] then d.aliased else d.aliased + 1
  if isExcessive (d.nodes + 1) aliased then failure
  else set { d with nodes := d.nodes + 1, aliased := aliased }

/-- Does something while an alias is being followed. It must not lead to the same alias again. -/
def following {α : Type} (place : Nat) (step : Decoder α) : Decoder α := do
  let d ← get
  if d.following.contains place then failure
  else do
    set { d with following := place :: d.following }
    let a ← step
    modify fun d => { d with following := d.following.drop 1 }
    return a

/-- Looks at a node, or at the one that it refers to. -/
def visit {α : Type} (doc : Document) (n : Node) (look : Node → Decoder α) : Decoder α := do
  count
  match n with
  | .alias place _ target =>
    following place do
      count
      match doc.named.lookup target with
      | some n => look n
      | none   => failure
  | n => look n

/-- A value that is there or not. -/
def ofOption {α : Type} (a : Option α) : Decoder α := fun d => a.map (·, d)

/-- The text of a scalar, unless it is null. -/
def text (doc : Document) (n : Node) : Decoder (Option Text) :=
  visit doc n fun n => ofOption n.text?

/-- The integer that a scalar stands for. -/
def int (doc : Document) (n : Node) : Decoder Int :=
  visit doc n fun n => ofOption n.int?

/-! ### Mappings -/

/-- The key under which other mappings are merged in. -/
def isMerge : Node → Bool
  | .scalar tag plain text =>
    text == ['<', '<'] && ((plain && tag == []) || tag == Text.ofString "!!merge")
  | _ => false

/-- Two keys of a mapping that must not both occur. -/
def sameKey : Node → Node → Bool
  | .scalar _ _ a, .scalar _ _ b => a == b
  | .sequence _,   .sequence _   => true
  | .mapping _,    .mapping _    => true
  | .alias _ a _,  .alias _ b _  => a == b
  | _,             _             => false

/-- No key occurs twice. -/
def keysDiffer : List (Node × Node) → Bool
  | []      => true
  | p :: ps => !(ps.any fun q => sameKey p.1 q.1) && keysDiffer ps

/-- The names that the keys of a mapping spell. -/
def keyNames (doc : Document) : List (Node × Node) → Decoder (List Text)
  | []      => return []
  | p :: ps => do
    let name ← text doc p.1
    let names ← keyNames doc ps
    return name.toList ++ names

/-- The mappings that are to be merged into one with the given pairs. -/
def mergeSources : List (Node × Node) → List Node
  | []           => []
  | (k, v) :: ps =>
    if isMerge k then
      match v with
      | .sequence items => items
      | v               => [v]
    else mergeSources ps

/-- A mapping has a key under which others are merged in. -/
def hasMerge (ps : List (Node × Node)) : Bool := ps.any fun p => isMerge p.1

/-- Takes the pairs of a mapping over by their names. If the names that are taken already are
known, pairs with those names are left out. -/
def ownPairs {α : Type} (doc : Document) (add : α → Text → Node → Decoder α) :
    List (Node × Node) → Option (List Text) → α → Decoder (α × Option (List Text))
  | [],           names, a => return (a, names)
  | (k, v) :: ps, names, a => do
    if isMerge k then ownPairs doc add ps names a
    else match ← text doc k with
      | none      => ownPairs doc add ps names a
      | some name =>
        if names.any (·.contains name) then ownPairs doc add ps names a
        else do
          let a ← add a name v
          ownPairs doc add ps (names.map (name :: ·)) a

/-- Takes the pairs of a mapping over, and those of the mappings that are merged into it. -/
def pairs {α : Type} (doc : Document) (add : α → Text → Node → Decoder α) :
    Nat → List (Node × Node) → Option (List Text) → α → Decoder (α × Option (List Text))
  | 0,     _,  _,     _ => failure
  | n + 1, ps, names, a =>
    if !keysDiffer ps then failure
    else do
      let (a, names) ← ownPairs doc add ps names a
      if !hasMerge ps then return (a, names)
      else do
        let taken ← match names with
          | some names => pure names
          | none       => keyNames doc ps
        let (a, taken) ← (mergeSources ps).foldlM (fun (a, taken) source =>
          visit doc source fun
            | .mapping ps => do
              let (a, taken) ← pairs doc add n ps (some taken) a
              return (a, taken.getD [])
            | _ => failure) (a, taken)
        return (a, names.map fun _ => taken)

/-- Takes the pairs of a mapping over. A null counts as an empty mapping. -/
def mapping {α : Type} (doc : Document) (add : α → Text → Node → Decoder α) (a : α) (n : Node) :
    Decoder α :=
  visit doc n fun
    | .mapping ps => do
      let (a, _) ← pairs doc add doc.depth ps none a
      return a
    | n => if n.isNull then return a else failure

end Decoder

end Frontend.Yaml
