/-
Compositions without aliases. An alias is exchanged for what stands in its slot
when the document is complete. The exchange ends where collections lie too deep
in one another, as those of a node that holds an alias of itself do, and where
more aliases are followed than the composition allows.
-/

import ElmClient.Yaml.Node

namespace ElmClient.Yaml

def depthLimit : Nat := 128

/-- How many aliases may be followed for every part. -/
def followLimit : Nat := 100

namespace Composition

/-- Work that counts the aliases followed so far. -/
abbrev Following := StateT Nat Option

def follow (composition : Composition) (slot : Nat) : Following Node := do
  let followed := (← get) + 1
  set followed
  if followLimit * composition.parts < followed then failure
  match Keyed.find? slot composition.slots with
  | some node => return node
  | none => failure

def withMembers (exchange : Node → Following Node) : Node → Following Node
  | .scalar tag text plain => return .scalar tag text plain
  | .sequence tag items => return .sequence tag (← items.mapM exchange)
  | .mapping tag entries => do
      let exchanged ← entries.mapM fun entry => do
        let key ← exchange entry.1
        return (key, ← exchange entry.2)
      return .mapping tag exchanged
  | .alias _ => failure

def exchangeWithin (composition : Composition) : Nat → Node → Following Node
  | 0, _ => failure
  | levels + 1, .alias slot => do
      withMembers (exchangeWithin composition levels) (← composition.follow slot)
  | levels + 1, node => withMembers (exchangeWithin composition levels) node

/-- The root without aliases. Only empty collections can still lie one level
deeper than they may. -/
def expand? (composition : Composition) : Option Node :=
  ((composition.exchangeWithin (depthLimit + 1) composition.root).run 0).map Prod.fst

end Composition

end ElmClient.Yaml
