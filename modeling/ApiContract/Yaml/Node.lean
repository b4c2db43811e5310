import ApiContract.Yaml.Token

/-!
# Nodes

A node is a scalar, a sequence, a mapping, or an alias for a node with an anchor. Nodes are composed from
tokens; what they mean as values is not looked at here.

* `Node`: the nodes, as they are written.
* `Document`: a node, and the nodes with anchors that its aliases refer to.
* `documentOf`: the one document of a text, if there is one.
-/

namespace ApiContract.Yaml

/-- A node as it is written. Tags stand in full. -/
inductive Node where
  | scalar (tag : Option String) (isPlain : Bool) (text : String)
  | sequence (tag : Option String) (items : List Node)
  | mapping (tag : Option String) (entries : List (Node × Node))
  /-- Refers to a node by the number of its anchor. -/
  | alias (target : Nat)
deriving Repr, Inhabited

/-- A node that is not written at all. -/
def Node.empty : Node := .scalar none true ""

/-- What is left of the tokens, and the anchors met so far. -/
structure Composition where
  tokens : List Token
  /-- The numbers of anchors, by name. -/
  anchors : List (String × Nat)
  /-- The nodes with anchors, by number; the first one counts. -/
  targets : List (Nat × Node)

namespace Composition

/-- The composition behind its next token. -/
def next (c : Composition) : Composition := { c with tokens := c.tokens.drop 1 }

/-- Gives an anchor its number: how many other names there are. -/
def declare (name : String) (c : Composition) : Nat × Composition :=
  let others := c.anchors.filter (·.1 != name)
  (c.anchors.length, { c with anchors := (name, c.anchors.length) :: others })

/-- The next token. -/
def peek (c : Composition) : Option Token := c.tokens.head?

/-- Notes the node of an anchor. -/
def attach (number : Nat) (node : Node) (c : Composition) : Composition :=
  { c with targets := (number, node) :: c.targets }

end Composition

/-! ## Properties -/

/-- What handles stand for, unless directives say otherwise. -/
def usualHandles : List (String × String) := [("!", "!"), ("!!", "tag:yaml.org,2002:")]

/-- A tag in full. -/
def fullTag (handles : List (String × String)) (tag : Tag) : Outcome String :=
  if tag.handle.isEmpty then .ok tag.suffix
  else
    match handles.find? (·.1 == tag.handle) with
    | some handle => .ok (handle.2 ++ tag.suffix)
    | none => .error "an unknown handle of a tag"

/-- What stands in front of a node. -/
structure Properties where
  anchor : Option String
  tag : Option Tag
deriving Repr

/-- Whether there are none. -/
def Properties.isEmpty (properties : Properties) : Bool :=
  properties.anchor.isNone && properties.tag.isNone

/-- The tag in full. -/
def Properties.fullTag? (properties : Properties) (handles : List (String × String)) :
    Outcome (Option String) :=
  match properties.tag with
  | some tag => (fullTag handles tag).map some
  | none => .ok none

/-- Reads an anchor and a tag, in any order. -/
def readProperties : List Token → Properties × List Token
  | .anchor name :: .tag tag :: rest => (⟨some name, some tag⟩, rest)
  | .tag tag :: .anchor name :: rest => (⟨some name, some tag⟩, rest)
  | .anchor name :: rest => (⟨some name, none⟩, rest)
  | .tag tag :: rest => (⟨none, some tag⟩, rest)
  | rest => (⟨none, none⟩, rest)

/-! ## Nodes -/

/-- Whether a token shows that a key or a value outside of brackets is not written. -/
def endsEntry : Option Token → Bool
  | some .key | some .value | some .blockEnd | none => true
  | _ => false

/-- Whether a token shows that an item is not written. -/
def endsItem : Option Token → Bool
  | some .blockEntry | some .blockEnd | none => true
  | _ => false

/-- Whether a token shows that an item without indentation is not written. -/
def endsLooseItem (token : Option Token) : Bool := endsItem token || endsEntry token

/-- Whether a token shows that a value between brackets is not written. -/
def endsFlowValue (close : Token) (token : Option Token) : Bool :=
  token == some .flowEntry || token == some close

/-- Whether a token shows that a key between brackets is not written. -/
def endsFlowKey (close : Token) (token : Option Token) : Bool :=
  token == some .value || endsFlowValue close token

/-- A node that is not written, at the same place. -/
def composeEmpty (c : Composition) : Outcome (Node × Composition) := .ok (.empty, c)

/-- Goes on to the next part of a collection between brackets; a comma separates it from the last
one. -/
def nextPart (first : Bool) (c : Composition) : Outcome Composition :=
  if first then .ok c
  else if c.peek = some .flowEntry then .ok c.next
  else .error "a comma is missing"

section

variable (handles : List (String × String))

mutual

/-- Composes a node. Collections without brackets are allowed where `block` says so, and sequences
whose items are not indented where `loose` does. The number bounds the depth of the recursion, here
and below. -/
def composeNode (block loose : Bool) : Nat → Composition → Outcome (Node × Composition)
  | 0, _ => .error "too deep"
  | limit + 1, c =>
    match c.tokens with
    | .alias name :: _ =>
      match c.anchors.find? (·.1 == name) with
      | some anchor => .ok (.alias anchor.2, c.next)
      | none => .error "an unknown alias"
    | tokens => do
      let properties := readProperties tokens
      let tag ← properties.1.fullTag? handles
      let behind := { c with tokens := properties.2 }
      match properties.1.anchor with
      | none => composeContent block loose properties.1.isEmpty tag limit behind
      | some name =>
        let declared := behind.declare name
        let content ← composeContent block loose false tag limit declared.2
        .ok (content.1, content.2.attach declared.1 content.1)

/-- Composes a node behind its properties; without any it has to be written. -/
def composeContent (block loose isBare : Bool) (tag : Option String) :
    Nat → Composition → Outcome (Node × Composition)
  | 0, _ => .error "too deep"
  | limit + 1, c =>
    match c.peek, block, loose with
    | some (.scalar isPlain text), _, _ =>
      .ok (.scalar (if tag = some "!" then none else tag) isPlain text, c.next)
    | some .flowSequenceStart, _, _ => do
      let items ← composeFlowItems true limit c.next
      .ok (.sequence tag items.1, items.2)
    | some .flowMappingStart, _, _ => do
      let entries ← composeFlowEntries true limit c.next
      .ok (.mapping tag entries.1, entries.2)
    | some .blockEntry, _, true => do
      let items ← composeLooseItems limit c
      .ok (.sequence tag items.1, items.2)
    | some .blockSequenceStart, true, _ => do
      let items ← composeItems limit c.next
      .ok (.sequence tag items.1, items.2)
    | some .blockMappingStart, true, _ => do
      let entries ← composeEntries limit c.next
      .ok (.mapping tag entries.1, entries.2)
    | _, _, _ => if isBare then .error "a value is missing" else .ok (.scalar tag true "", c)

/-- Composes the items behind the start of a sequence. -/
def composeItems : Nat → Composition → Outcome (List Node × Composition)
  | 0, _ => .error "too deep"
  | limit + 1, c =>
    match c.peek with
    | some .blockEntry => do
      let item ←
        if endsItem c.next.peek then composeEmpty c.next else composeNode true false limit c.next
      let others ← composeItems limit item.2
      .ok (item.1 :: others.1, others.2)
    | some .blockEnd => .ok ([], c.next)
    | _ => .error "a hyphen is missing"

/-- Composes items that are not indented. -/
def composeLooseItems : Nat → Composition → Outcome (List Node × Composition)
  | 0, _ => .error "too deep"
  | limit + 1, c =>
    match c.peek with
    | some .blockEntry => do
      let item ←
        if endsLooseItem c.next.peek then composeEmpty c.next
        else composeNode true false limit c.next
      let others ← composeLooseItems limit item.2
      .ok (item.1 :: others.1, others.2)
    | _ => .ok ([], c)

/-- Composes the entries behind the start of a mapping. -/
def composeEntries : Nat → Composition → Outcome (List (Node × Node) × Composition)
  | 0, _ => .error "too deep"
  | limit + 1, c =>
    match c.peek with
    | some .key => do
      let key ←
        if endsEntry c.next.peek then composeEmpty c.next else composeNode true true limit c.next
      let value ← composeValue limit key.2
      let others ← composeEntries limit value.2
      .ok ((key.1, value.1) :: others.1, others.2)
    | some .blockEnd => .ok ([], c.next)
    | _ => .error "a key is missing"

/-- Composes the value of an entry outside of brackets. -/
def composeValue : Nat → Composition → Outcome (Node × Composition)
  | 0, _ => .error "too deep"
  | limit + 1, c =>
    if c.peek = some .value then
      if endsEntry c.next.peek then composeEmpty c.next else composeNode true true limit c.next
    else composeEmpty c

/-- Composes the items between square brackets. -/
def composeFlowItems (first : Bool) : Nat → Composition → Outcome (List Node × Composition)
  | 0, _ => .error "too deep"
  | limit + 1, c =>
    if c.peek = some .flowSequenceEnd then .ok ([], c.next)
    else do
      let part ← nextPart first c
      match part.peek with
      | some .flowSequenceEnd => .ok ([], part.next)
      | some .key =>
        let entry ← composePair limit part.next
        let others ← composeFlowItems false limit entry.2
        .ok (.mapping none [entry.1] :: others.1, others.2)
      | _ =>
        let item ← composeNode false false limit part
        let others ← composeFlowItems false limit item.2
        .ok (item.1 :: others.1, others.2)

/-- Composes an item of square brackets that is a key and its value. The sign in the place of a key
that is not written is passed over. -/
def composePair : Nat → Composition → Outcome ((Node × Node) × Composition)
  | 0, _ => .error "too deep"
  | limit + 1, c => do
    let key ←
      if endsFlowKey .flowSequenceEnd c.peek then composeEmpty c.next
      else composeNode false false limit c
    let value ← composeFlowValue .flowSequenceEnd limit key.2
    .ok ((key.1, value.1), value.2)

/-- Composes the value of an entry between brackets. -/
def composeFlowValue (close : Token) : Nat → Composition → Outcome (Node × Composition)
  | 0, _ => .error "too deep"
  | limit + 1, c =>
    if c.peek = some .value then
      if endsFlowValue close c.next.peek then composeEmpty c.next
      else composeNode false false limit c.next
    else composeEmpty c

/-- Composes the entries between braces. -/
def composeFlowEntries (first : Bool) : Nat → Composition → Outcome (List (Node × Node) × Composition)
  | 0, _ => .error "too deep"
  | limit + 1, c =>
    if c.peek = some .flowMappingEnd then .ok ([], c.next)
    else do
      let part ← nextPart first c
      match part.peek with
      | some .flowMappingEnd => .ok ([], part.next)
      | some .key =>
        let key ←
          if endsFlowKey .flowMappingEnd part.next.peek then composeEmpty part.next
          else composeNode false false limit part.next
        let value ← composeFlowValue .flowMappingEnd limit key.2
        let others ← composeFlowEntries false limit value.2
        .ok ((key.1, value.1) :: others.1, others.2)
      | _ =>
        let key ← composeNode false false limit part
        let others ← composeFlowEntries false limit key.2
        .ok ((key.1, .empty) :: others.1, others.2)

end

end

/-! ## Documents -/

/-- A document: its node, and the nodes that aliases in it refer to. -/
structure Document where
  root : Node
  targets : List (Nat × Node)
deriving Repr

/-- The directives in front of a document. -/
def leadingDirectives : List Token → List Directive
  | .directive d :: rest => d :: leadingDirectives rest
  | _ => []

/-- Whether a directive may be followed, given those after it: the version is 1.1 or 1.2, and nothing
is said twice. -/
def isUsable (d : Directive) (others : List Directive) : Bool :=
  match d with
  | .version major minor =>
    major == 1 && (minor == 1 || minor == 2) &&
      others.all fun other => match other with
        | .version _ _ => false
        | .handle _ _ => true
  | .handle name _ =>
    others.all fun other => match other with
      | .version _ _ => true
      | .handle otherName _ => otherName != name

def areUsable : List Directive → Bool
  | [] => true
  | d :: rest => isUsable d rest && areUsable rest

/-- The handles that directives give. -/
def handlesOf (directives : List Directive) : List (String × String) :=
  directives.filterMap fun d => match d with
    | .handle name meaning => some (name, meaning)
    | .version _ _ => none

/-- Whether a token shows that nothing is written between the marks of a document. -/
def endsDocument : Option Token → Bool
  | some (.directive _) | some .documentStart | some .documentEnd | none => true
  | _ => false

/-- Composes the only document of the tokens. -/
def composeOnly (handles : List (String × String)) (mayBeEmpty : Bool) (tokens : List Token) :
    Outcome Document := do
  let start : Composition := ⟨tokens, [], []⟩
  let root ←
    if mayBeEmpty && endsDocument start.peek then composeEmpty start
    else composeNode handles true false (4 * tokens.length + 8) start
  if (root.2.tokens.dropWhile (· == .documentEnd)).isEmpty then .ok ⟨root.1, root.2.targets⟩
  else .error "more than one document"

/-- The one document of a text; none if nothing is written. -/
def documentOf (text : String) : Outcome (Option Document) := do
  let tokens ← tokensOf text
  match tokens with
  | [] => .ok none
  | .directive _ :: _ | .documentStart :: _ =>
    let directives := leadingDirectives tokens
    match tokens.drop directives.length with
    | .documentStart :: content =>
      if areUsable directives then
        (composeOnly (handlesOf directives ++ usualHandles) true content).map some
      else .error "a directive that cannot be followed"
    | _ => .error "the start of a document is missing"
  | _ => (composeOnly usualHandles false tokens).map some

end ApiContract.Yaml
