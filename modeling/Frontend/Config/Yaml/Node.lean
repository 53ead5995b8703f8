import Frontend.Config.Yaml.Scan.Queue

/-!
# YAML documents

The first document of a YAML text as a tree. What follows the document is not looked at, except
that the tokens right behind it must make sense.

An alias refers to a node by a number, because it can refer to a node that it is part of.
-/

namespace Frontend.Yaml

/-- A node of a document. -/
inductive Node
  /-- A scalar with its tag, which is empty if none is given. -/
  | scalar (tag : Text) (plain : Bool) (text : List Char)
  | sequence (items : List Node)
  | mapping (pairs : List (Node × Node))
  /-- A reference, with a number of its own, to a node by its name and number. -/
  | alias (place : Nat) (name : List Char) (target : Nat)
  deriving Repr, Inhabited

/-- A document. -/
structure Document where
  root : Node
  /-- The nodes that have a name, by their numbers. -/
  named : List (Nat × Node)
  /-- No way down from the root, with each alias followed once, is longer. -/
  depth : Nat
  deriving Repr

/-- The start of the tags that are written with two exclamation marks. -/
def standardTags : Text := Text.ofString "tag:yaml.org,2002:"

/-- What is known while a document is read. -/
structure Reading where
  scan : Scan
  /-- The numbers of the nodes that names stand for. -/
  anchors : List (List Char × Nat) := []
  /-- The handles of tags and what they stand for. -/
  handles : List (Text × Text) := []
  /-- The nodes that have a name, by their numbers. -/
  named : List (Nat × Node) := []
  /-- The next number that is free. -/
  next : Nat := 0

/-- A step of reading a document, which fails where the text is not a document. -/
abbrev Reader := StateT Reading Option

namespace Reader

/-- A step of the scan. -/
def scanning {α : Type} (step : Scanner α) : Reader α := fun r =>
  (step r.scan).map fun (a, scan) => (a, { r with scan := scan })

/-- The next token. -/
def peek : Reader Token := scanning Scanner.peek

/-- Steps over a token, which must have been looked at. -/
def skip : Reader Unit := scanning Scanner.advance

/-- Steps over a token if it is the given one. -/
def skipIf (t : Token) : Reader Bool := do
  let u ← peek
  if u = t then do
    skip
    return true
  else return false

/-- A scalar without text. -/
def emptyScalar : Node := .scalar [] true []

/-- A number that is used for nothing else. -/
def fresh : Reader Nat := modifyGet fun r => (r.next, { r with next := r.next + 1 })

/-- A tag in its short form. A single exclamation mark is no tag. -/
def shortTag (tag : Text) : Text :=
  if tag = Text.ofString "!" then []
  else if standardTags.isPrefixOf tag then Text.ofString "!!" ++ tag.drop standardTags.length
  else tag

/-- The tag that a handle and a suffix stand for. -/
def tagName (handle suffix : Text) : Reader Text := fun r =>
  let long := if handle = [] then some suffix else (r.handles.lookup handle).map (· ++ suffix)
  long.map fun tag => (shortTag tag, r)

/-- An anchor, if there is one. -/
def anchor? : Reader (Option (List Char)) := do
  match ← peek with
  | .anchor name => do
    skip
    return some name
  | _ => return none

/-- A tag, if there is one. -/
def tag? : Reader (Option Text) := do
  match ← peek with
  | .tag handle suffix => do
    skip
    let tag ← tagName handle suffix
    return some tag
  | _ => return none

/-- Reads a node that has a name. The name stands for it from its start on. -/
def named (name : Option (List Char)) (read : Reader Node) : Reader Node :=
  match name with
  | none      => read
  | some name => do
    let number ← fresh
    modify fun r => { r with anchors := (name, number) :: r.anchors }
    let n ← read
    modify fun r => { r with named := (number, n) :: r.named }
    return n

/-- A reference to the node that a name stands for. -/
def aliased (name : List Char) : Reader Node := do
  let r ← get
  match r.anchors.lookup name with
  | none        => failure
  | some target => do
    let place ← fresh
    return .alias place name target

mutual

/-- A node. In the block context it may be a block; without indentation of its own it may be a
sequence at the column of the key it belongs to. -/
def node : Nat → (block indentless : Bool) → Reader Node
  | 0,     _,     _          => failure
  | n + 1, block, indentless => do
    match ← peek with
    | .alias name => do
      skip
      aliased name
    | _ => do
      let first ← anchor?
      let tag ← tag?
      let second ← if first.isNone && tag.isSome then anchor? else pure none
      let name := first <|> second
      named name (content n block indentless (tag.getD []) (name.isSome || tag.isSome))

/-- What a node consists of behind its properties. -/
def content : Nat → (block indentless : Bool) → (tag : Text) → (optional : Bool) → Reader Node
  | 0,     _,     _,          _,   _        => failure
  | n + 1, block, indentless, tag, optional => do
    match ← peek with
    | .blockEntry =>
      if indentless then do
        let items ← entries n
        return .sequence items
      else if optional then return .scalar tag true [] else failure
    | .scalar text plain => do
      skip
      return .scalar tag plain text
    | .flowSequenceStart => do
      skip
      let items ← flowItems n true
      return .sequence items
    | .flowMappingStart => do
      skip
      let pairs ← flowPairs n true
      return .mapping pairs
    | .blockSequenceStart =>
      if block then do
        skip
        let items ← blockItems n
        return .sequence items
      else if optional then return .scalar tag true [] else failure
    | .blockMappingStart =>
      if block then do
        skip
        let pairs ← blockPairs n
        return .mapping pairs
      else if optional then return .scalar tag true [] else failure
    | _ => if optional then return .scalar tag true [] else failure

/-- A node, or an empty scalar before one of some tokens. -/
def nodeUnless : Nat → (block indentless : Bool) → List Token → Reader Node
  | 0,     _,     _,          _     => failure
  | n + 1, block, indentless, stops => do
    let t ← peek
    if t ∈ stops then return emptyScalar else node n block indentless

/-- The items of a sequence in a block of its own. -/
def blockItems : Nat → Reader (List Node)
  | 0     => failure
  | n + 1 => do
    match ← peek with
    | .blockEntry => do
      skip
      let x ← nodeUnless n true false [.blockEntry, .blockEnd]
      let xs ← blockItems n
      return x :: xs
    | .blockEnd => do
      skip
      return []
    | _ => failure

/-- The items of a sequence at the column of its key. -/
def entries : Nat → Reader (List Node)
  | 0     => failure
  | n + 1 => do
    match ← peek with
    | .blockEntry => do
      skip
      let x ← nodeUnless n true false [.blockEntry, .key, .value, .blockEnd]
      let xs ← entries n
      return x :: xs
    | _ => return []

/-- The pairs of a mapping in a block. -/
def blockPairs : Nat → Reader (List (Node × Node))
  | 0     => failure
  | n + 1 => do
    match ← peek with
    | .key => do
      skip
      let k ← nodeUnless n true true [.key, .value, .blockEnd]
      let hasValue ← skipIf .value
      let v ← if hasValue then nodeUnless n true true [.key, .value, .blockEnd]
        else pure emptyScalar
      let ps ← blockPairs n
      return (k, v) :: ps
    | .blockEnd => do
      skip
      return []
    | _ => failure

/-- The items of a sequence between brackets. A pair without braces is a mapping of its own. The
token that follows on the mark of an empty key is taken for a part of that key. -/
def flowItems : Nat → (first : Bool) → Reader (List Node)
  | 0,     _     => failure
  | n + 1, first => do
    let closed ← skipIf .flowSequenceEnd
    if closed then return []
    else do
      let separated ← if first then pure true else skipIf .flowEntry
      if !separated then failure
      else do
        match ← peek with
        | .flowSequenceEnd => do
          skip
          return []
        | .key => do
          skip
          let t ← peek
          let k ← if t ∈ [Token.value, .flowEntry, .flowSequenceEnd] then do
              skip
              pure emptyScalar
            else node n false false
          let hasValue ← skipIf .value
          let v ← if hasValue then nodeUnless n false false [.flowEntry, .flowSequenceEnd]
            else pure emptyScalar
          let xs ← flowItems n false
          return .mapping [(k, v)] :: xs
        | _ => do
          let x ← node n false false
          let xs ← flowItems n false
          return x :: xs

/-- The pairs of a mapping between braces. -/
def flowPairs : Nat → (first : Bool) → Reader (List (Node × Node))
  | 0,     _     => failure
  | n + 1, first => do
    let closed ← skipIf .flowMappingEnd
    if closed then return []
    else do
      let separated ← if first then pure true else skipIf .flowEntry
      if !separated then failure
      else do
        match ← peek with
        | .flowMappingEnd => do
          skip
          return []
        | .key => do
          skip
          let k ← nodeUnless n false false [.value, .flowEntry, .flowMappingEnd]
          let hasValue ← skipIf .value
          let v ← if hasValue then nodeUnless n false false [.flowEntry, .flowMappingEnd]
            else pure emptyScalar
          let ps ← flowPairs n false
          return (k, v) :: ps
        | _ => do
          let k ← node n false false
          let ps ← flowPairs n false
          return (k, emptyScalar) :: ps

end

/-- The directives in front of a document; whether there are any. -/
def directives : Nat → (versioned : Bool) → Reader Bool
  | 0,     _         => failure
  | n + 1, versioned => do
    match ← peek with
    | .versionDirective major minor =>
      if versioned || major ≠ 1 || minor ≠ 1 then failure
      else do
        skip
        let _ ← directives n true
        return true
    | .tagDirective handle start => do
      let r ← get
      if (r.handles.lookup handle).isSome then failure
      else do
        skip
        modify fun r => { r with handles := (handle, start) :: r.handles }
        let _ ← directives n versioned
        return true
    | _ => return false

/-- Adds the handles that need no directive, behind those that have one. -/
def addHandles : Reader Unit := modify fun r =>
  { r with
    handles := r.handles ++
      [(Text.ofString "!", Text.ofString "!"), (Text.ofString "!!", standardTags)] }

/-- The content of a document behind its mark. -/
def marked (budget : Nat) : Reader Node := do
  match ← peek with
  | .versionDirective _ _ => return emptyScalar
  | .tagDirective _ _     => return emptyScalar
  | .documentStart        => return emptyScalar
  | .documentEnd          => return emptyScalar
  | .streamEnd            => return emptyScalar
  | _                     => node budget true false

/-- The root of the first document, if there is one. -/
def root? (budget : Nat) : Reader (Option Node) := do
  let directed ← directives budget false
  addHandles
  match ← peek with
  | .streamEnd => if directed then failure else return none
  | .documentStart => do
    skip
    let n ← marked budget
    let _ ← peek
    return some n
  | _ =>
    if directed then failure
    else do
      let n ← node budget true false
      let _ ← peek
      return some n

end Reader

/-- The first document of a text: nothing inside if the text holds none, and nothing at all if it
is not YAML. A text without any bytes counts as an empty line. -/
def document? (text : Text) : Option (Option Document) :=
  let scan := Scan.ofText (if text = [] then Text.ofString "\n" else text)
  let budget := 32 * scan.budget
  (Reader.root? budget { scan := scan }).map fun (root?, r) =>
    root?.map fun root => ⟨root, r.named, (r.next + 1) * budget⟩

end Frontend.Yaml
