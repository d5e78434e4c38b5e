/-
The node of a YAML text: one document. An anchor opens a slot whose number is the
number of different anchor names before it, so a name that is used again shares
slots with the names after it. An alias holds the slot that its name stands for;
what it means is decided when the document is complete.
-/

import ElmClient.Keyed
import ElmClient.Yaml.Token

namespace ElmClient.Yaml

inductive Node where
  | scalar (tag : Option Tag) (text : String) (plain : Bool)
  | sequence (tag : Option Tag) (items : List Node)
  | mapping (tag : Option Tag) (entries : List (Node × Node))
  | alias (slot : Nat)
deriving Repr, Inhabited

/-- A document with its anchored nodes by slot. Scalars and aliases are one part
each, collections two. -/
structure Composition where
  root : Node
  slots : List (Nat × Node)
  parts : Nat
deriving Repr, Inhabited

/-- The state of building: tokens to come, tag handles, the slots of anchor names,
the anchored nodes by the number of their anchor, and for every slot the last
anchor that opened it. -/
structure Builder where
  tokens : List Token
  handles : List (String × Tag)
  names : List (String × Nat)
  opened : List (Nat × Nat)
  finished : List (Nat × Node)
  anchors : Nat
  parts : Nat

abbrev Build := StateT Builder Option

namespace Build

def next : Build Token := do
  match (← get).tokens with
  | token :: _ => return token
  | [] => failure

def advance : Build Unit :=
  modify fun builder => { builder with tokens := builder.tokens.drop 1 }

def countParts (count : Nat) : Build Unit :=
  modify fun builder => { builder with parts := builder.parts + count }

def accept (token : Token) : Build Bool := do
  if (← next) = token then
    advance
    return true
  else return false

def expect (token : Token) : Build Unit := do
  if !(← accept token) then failure

def resolveTag (handle : String) (suffix : Tag) : Build Tag := do
  if handle.isEmpty then return suffix
  match Keyed.find? handle (← get).handles with
  | some lead => return lead ++ suffix
  | none => failure

/-- Anchor and tag in front of a node, in either order. -/
def properties : Build (Option String × Option Tag) := do
  match ← next with
  | .anchor name => do
      advance
      match ← next with
      | .tag handle suffix => do
          advance
          return (some name, some (← resolveTag handle suffix))
      | _ => return (some name, none)
  | .tag handle suffix => do
      advance
      match ← next with
      | .anchor name => do
          advance
          return (some name, some (← resolveTag handle suffix))
      | _ => return (none, some (← resolveTag handle suffix))
  | _ => return (none, none)

/-- Number the anchor of a node that begins, and open its slot. -/
def openAnchor (name : Option String) : Build (Option Nat) := do
  match name with
  | none => return none
  | some name =>
      let builder ← get
      let slot := builder.names.length
      set { builder with
        anchors := builder.anchors + 1
        names := Keyed.insert name slot builder.names
        opened := Keyed.insert slot builder.anchors builder.opened }
      return some builder.anchors

def closeAnchor (anchor : Option Nat) (node : Node) : Build Unit :=
  match anchor with
  | none => return ()
  | some anchor =>
      modify fun builder => { builder with finished := (anchor, node) :: builder.finished }

def aliasOf (name : String) : Build Node := do
  countParts 1
  match Keyed.find? name (← get).names with
  | some slot => return .alias slot
  | none => failure

def emptyNode : Build Node := do
  countParts 1
  return .scalar none "" true

mutual

/-- One node. In block context block collections may follow; `indentless` admits
a sequence at the indentation of its parent mapping. -/
def node : Nat → Bool → Bool → Build Node
  | 0, _, _ => failure
  | fuel + 1, block, indentless => do
      match ← next with
      | .alias name => do
          advance
          aliasOf name
      | _ => do
          let (name, tag) ← properties
          let anchor ← openAnchor name
          let built ← content fuel block indentless (name.isSome || tag.isSome) tag
          closeAnchor anchor built
          return built

def content : Nat → Bool → Bool → Bool → Option Tag → Build Node
  | 0, _, _, _, _ => failure
  | fuel + 1, block, indentless, marked, tag => do
      let token ← next
      if indentless && token = .blockEntry then
        countParts 2
        return .sequence tag (← indentlessItems fuel)
      match token with
      | .scalar text plain => do
          advance
          countParts 1
          return .scalar tag text plain
      | .flowSequenceStart => do
          advance
          countParts 2
          return .sequence tag (← flowItems fuel true)
      | .flowMappingStart => do
          advance
          countParts 2
          return .mapping tag (← flowEntries fuel true)
      | .blockSequenceStart => do
          if !block then failure
          advance
          countParts 2
          return .sequence tag (← blockItems fuel)
      | .blockMappingStart => do
          if !block then failure
          advance
          countParts 2
          return .mapping tag (← blockEntries fuel)
      | _ => do
          if !marked then failure
          countParts 1
          return .scalar tag "" true

def nodeUnless : Nat → List Token → Bool → Bool → Build Node
  | 0, _, _, _ => failure
  | fuel + 1, stops, block, indentless => do
      if stops.contains (← next) then emptyNode else node fuel block indentless

def blockItems : Nat → Build (List Node)
  | 0 => failure
  | fuel + 1 => do
      if ← accept .blockEntry then
        let item ← nodeUnless fuel [.blockEntry, .blockEnd] true false
        return item :: (← blockItems fuel)
      else
        expect .blockEnd
        return []

def indentlessItems : Nat → Build (List Node)
  | 0 => failure
  | fuel + 1 => do
      if ← accept .blockEntry then
        let item ← nodeUnless fuel [.blockEntry, .key, .value, .blockEnd] true false
        return item :: (← indentlessItems fuel)
      else return []

def blockEntries : Nat → Build (List (Node × Node))
  | 0 => failure
  | fuel + 1 => do
      if ← accept .key then
        let key ← nodeUnless fuel [.key, .value, .blockEnd] true true
        let value ← blockValue fuel
        return (key, value) :: (← blockEntries fuel)
      else
        expect .blockEnd
        return []

def blockValue : Nat → Build Node
  | 0 => failure
  | fuel + 1 => do
      if ← accept .value then nodeUnless fuel [.key, .value, .blockEnd] true true
      else emptyNode

def flowItems : Nat → Bool → Build (List Node)
  | 0, _ => failure
  | fuel + 1, first => do
      if ← accept .flowSequenceEnd then return []
      if !first then expect .flowEntry
      if ← accept .flowSequenceEnd then return []
      let item ←
        if ← accept .key then do
          countParts 2
          flowPair fuel
        else node fuel false false
      return item :: (← flowItems fuel false)

/-- A mapping of one entry inside a flow sequence. -/
def flowPair : Nat → Build Node
  | 0 => failure
  | fuel + 1 => do
      let stops := [Token.value, .flowEntry, .flowSequenceEnd]
      let key ←
        if stops.contains (← next) then do
          advance
          emptyNode
        else node fuel false false
      let value ←
        if ← accept .value then
          nodeUnless fuel [.flowEntry, .flowSequenceEnd] false false
        else emptyNode
      return .mapping none [(key, value)]

def flowEntries : Nat → Bool → Build (List (Node × Node))
  | 0, _ => failure
  | fuel + 1, first => do
      if ← accept .flowMappingEnd then return []
      if !first then expect .flowEntry
      if ← accept .flowMappingEnd then return []
      if ← accept .key then
        let key ← nodeUnless fuel [.value, .flowEntry, .flowMappingEnd] false false
        let value ←
          if ← accept .value then
            nodeUnless fuel [.flowEntry, .flowMappingEnd] false false
          else emptyNode
        return (key, value) :: (← flowEntries fuel false)
      else
        let key ← node fuel false false
        let value ← emptyNode
        return (key, value) :: (← flowEntries fuel false)

end

/-! ### Documents -/

def defaultHandles : List (String × Tag) :=
  [("!", [Tag.mark]), ("!!", Tag.core "")]

def directives : Nat → Bool → List String → Build Bool
  | 0, _, _ => failure
  | fuel + 1, versioned, declared => do
      match ← next with
      | .versionDirective major minor => do
          if versioned || major != 1 || !(minor == 1 || minor == 2) then failure
          advance
          directives fuel true declared
      | .tagDirective handle lead => do
          if declared.contains handle then failure
          advance
          modify fun builder =>
            { builder with handles := Keyed.insert handle lead builder.handles }
          directives fuel versioned (handle :: declared)
      | _ => return versioned || !declared.isEmpty

def dropDocumentEnds : Nat → Build Unit
  | 0 => return ()
  | fuel + 1 => do
      if ← accept .documentEnd then dropDocumentEnds fuel

/-- The only document; `none` when the text holds none at all. -/
def document (fuel : Nat) : Build (Option Node) := do
  if (← next) = .streamEnd then return none
  let directed ← directives fuel false []
  let root ←
    if ← accept .documentStart then
      match ← next with
      | .versionDirective .. | .tagDirective .. | .documentStart | .documentEnd | .streamEnd =>
          emptyNode
      | _ => node fuel true false
    else if directed then failure
    else node fuel true false
  dropDocumentEnds fuel
  expect .streamEnd
  return some root

end Build

/-- What stands in every slot: the node of the last anchor that opened it. -/
def Builder.slots (builder : Builder) : List (Nat × Node) :=
  builder.opened.filterMap fun entry =>
    (Keyed.find? entry.2 builder.finished).map fun node => (entry.1, node)

/-- The composition of a text that holds at most one document; `some none` where it
holds none. -/
def Composition.parse? (text : String) : Option (Option Composition) := do
  let tokens ← Token.scan? text
  let builder : Builder :=
    { tokens := tokens, handles := Build.defaultHandles, names := [], opened := []
      finished := [], anchors := 0, parts := 0 }
  let (root, builder) ← (Build.document (4 * tokens.length + 8)).run builder
  some (root.map fun root => { root := root, slots := builder.slots, parts := builder.parts })

end ElmClient.Yaml
