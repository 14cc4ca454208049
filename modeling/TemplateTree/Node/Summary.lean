import TemplateTree.Node.Walk
import TemplateTree.Json.Record

/-!
What a template offers to and expects from others: the mixins it defines and calls, its named
blocks, the template it inherits from and those it includes. Each list holds first occurrences
in the order of the walk.
-/

namespace TemplateTree
set_option autoImplicit false

structure NamedBlockRef where
  name : String
  mode : BlockMode
deriving DecidableEq, Repr, Inhabited

structure Summary where
  mixinsDefined : List String
  mixinsCalled : List String
  namedBlocks : List NamedBlockRef
  inherits : Option String
  includes : List String
deriving DecidableEq, Repr, Inhabited

/-- Appends an item unless the list holds it. -/
def insertNew {α : Type} [DecidableEq α] (a : α) (as : List α) : List α :=
  if a ∈ as then as else as ++ [a]

namespace Summary

def empty : Summary := ⟨[], [], [], none, []⟩

/-- Takes note of one node. -/
def note (n : Node) (s : Summary) : Summary :=
  match n.shape with
  | .mixin head _ =>
    if head.isCall then { s with mixinsCalled := insertNew head.name s.mixinsCalled }
    else { s with mixinsDefined := insertNew head.name s.mixinsDefined }
  | .namedBlock name mode _ => { s with namedBlocks := insertNew ⟨name, mode⟩ s.namedBlocks }
  | .inherit path => { s with inherits := s.inherits.or (some path) }
  | .inclusion path .. => { s with includes := insertNew path s.includes }
  | _ => s

def visitor : Visitor Summary where
  enter n s := (true, s.note n)
  leave _ s := s

/-- The summary of everything under a block. -/
def ofBlock (root : Block) : Summary := root.walk visitor empty

def definesMixin (s : Summary) (name : String) : Bool := s.mixinsDefined.contains name

/-- The mixins that are called but not defined in the template. -/
def undefinedMixins (s : Summary) : List String := s.mixinsCalled.filter fun m => !s.definesMixin m

def toJson (s : Summary) : Json :=
  .object [("mixinsDefined", .array (s.mixinsDefined.map .string)),
    ("mixinsCalled", .array (s.mixinsCalled.map .string)),
    ("namedBlocks", .array (s.namedBlocks.map fun b =>
      .object [("name", .string b.name), ("mode", b.mode.toJson)])),
    ("extends", .ofText? s.inherits),
    ("includes", .array (s.includes.map .string))]

end Summary

end TemplateTree
