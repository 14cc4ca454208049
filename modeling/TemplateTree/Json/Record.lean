import TemplateTree.Json.Value
import TemplateTree.Text.Quoted

/-!
Reading records out of JSON objects. A field is looked up by name, so members without a fault may
stand in any order, and the members nobody asks for make no difference. Faults are reported in the
order in which a reader meets them: first the members as they are written, each of which may be
ill-formed or repeat a field, and at the end of the object the fields that are missing, in the
order of their declaration.
-/

namespace TemplateTree
set_option autoImplicit false

/-- What a decoder asks for. -/
inductive Wanted where
  | word
  | text
  | flag
  | sequence
  | unit
  | attribute
  | token
  | node
  | variant
  | mode
deriving DecidableEq, Repr, Inhabited

namespace Wanted

def describe : Wanted → String
  | .word => "usize"
  | .text => "a string"
  | .flag => "a boolean"
  | .sequence => "a sequence"
  | .unit => "unit"
  | .attribute => "struct Attribute"
  | .token => "internally tagged enum Token"
  | .node => "internally tagged enum Node"
  | .variant => "variant identifier"
  | .mode => "string or map"

end Wanted

/-- Why a JSON value is not what a decoder asks for. -/
inductive DecodeError where
  | missingField (name : String)
  | duplicateField (name : String)
  | unknownVariant (found : String) (known : List String)
  | unknownIndex (found : UInt64) (count : Nat)
  | wrongType (found : Json) (wanted : Wanted)
  | negativeWord (magnitude : Nat)
  | manyKeys
  | noAttributeValue
  | notBlock (nullable : Bool) (found : String)
deriving Repr, BEq, Inhabited

namespace Json

/-- A value as messages speak of it: scalars are shown, containers are only named. -/
def describe : Json → String
  | .null => "null"
  | .bool true => "boolean `true`"
  | .bool false => "boolean `false`"
  | .number (.word n) => "integer `" ++ (JsonNumber.word n).render ++ "`"
  | .number (.negative m) => "integer `" ++ (JsonNumber.negative m).render ++ "`"
  | .number (.double b m) => "floating point `" ++ (JsonNumber.double b m).render ++ "`"
  | .string s => "string " ++ Text.quoted s
  | .array _ => "sequence"
  | .object _ => "map"

end Json

namespace DecodeError

/-- The alternatives of a variant, each between back quotes. -/
def alternatives (names : List String) : String :=
  ", ".intercalate (names.map fun name => "`" ++ name ++ "`")

def message : DecodeError → String
  | .missingField name => "missing field `" ++ name ++ "`"
  | .duplicateField name => "duplicate field `" ++ name ++ "`"
  | .unknownVariant found known =>
    "unknown variant `" ++ found ++ "`, expected one of " ++ alternatives known
  | .unknownIndex found count =>
    "invalid value: integer `" ++ toString found.toNat ++ "`, expected variant index 0 <= i < " ++
      toString count
  | .wrongType found wanted =>
    "invalid type: " ++ found.describe ++ ", expected " ++ wanted.describe
  | .negativeWord m => "invalid value: integer `-" ++ toString m ++ "`, expected usize"
  | .manyKeys => "invalid value: map, expected map with a single key"
  | .noAttributeValue => "data did not match any variant of untagged enum AttrValue"
  | .notBlock false found => "expected a Block node, found " ++ found
  | .notBlock true found => "expected a Block node or null, found " ++ found

end DecodeError

/-- Reads a value of type `β`; what is read is of type `α`. -/
abbrev Decoder (α β : Type) := α → Except DecodeError β

namespace Json

def toWord : Decoder Json UInt64
  | .number (.word n) => .ok n
  | .number (.negative m) => .error (.negativeWord m)
  | v => .error (.wrongType v .word)

def toText : Decoder Json String
  | .string s => .ok s
  | v => .error (.wrongType v .text)

def toText? : Decoder Json (Option String)
  | .null => .ok none
  | .string s => .ok (some s)
  | v => .error (.wrongType v .text)

def toFlag : Decoder Json Bool
  | .bool b => .ok b
  | v => .error (.wrongType v .flag)

def toFlag? : Decoder Json (Option Bool)
  | .null => .ok none
  | .bool b => .ok (some b)
  | v => .error (.wrongType v .flag)

/-- The items of a sequence, read in order up to the first that fails. -/
def toList {β : Type} (item : Decoder Json β) : Decoder Json (List β)
  | .array items => items.mapM item
  | v => .error (.wrongType v .sequence)

/-- One of several named alternatives. -/
def ofName {β : Type} (known : List β) (wireName : β → String) (name : String) :
    Except DecodeError β :=
  match known.find? fun b => wireName b == name with
  | some b => .ok b
  | none => .error (.unknownVariant name (known.map wireName))

/-- One of several alternatives by its name, or by its place among them where indices are taken. -/
def toVariant {β : Type} (known : List β) (wireName : β → String) (indexed : Bool) :
    Decoder Json β
  | .string name => ofName known wireName name
  | .number (.word n) =>
    if indexed then
      match known[n.toNat]? with
      | some b => .ok b
      | none => .error (.unknownIndex n known.length)
    else .error (.wrongType (.number (.word n)) .variant)
  | v => .error (.wrongType v .variant)

end Json

/-- A field of a record, and why a value cannot be its value. -/
structure Field (α : Type) where
  name : String
  fault? : α → Option DecodeError

/-- A record whose members carry values of type `α`: its fields, and what is made of members none
of which has a fault. -/
structure Record (α β : Type) where
  fields : List (Field α)
  make : List (String × α) → Except DecodeError β

namespace Record

variable {α β : Type}

def lookup? (name : String) (members : List (String × α)) : Option α :=
  (members.find? fun m => m.1 == name).map Prod.snd

def fault? (decode : Decoder α β) (v : α) : Option DecodeError :=
  match decode v with
  | .ok _ => none
  | .error e => some e

def required (name : String) (decode : Decoder α β) : Record α β where
  fields := [⟨name, fault? decode⟩]
  make members :=
    match lookup? name members with
    | some v => decode v
    | none => .error (.missingField name)

def withDefault (name : String) (value : β) (decode : Decoder α β) : Record α β where
  fields := [⟨name, fault? decode⟩]
  make members :=
    match lookup? name members with
    | some v => decode v
    | none => .ok value

/-- Records are put together field by field, in the order of declaration. -/
instance : Applicative (Record α) where
  pure b := ⟨[], fun _ => .ok b⟩
  seq f x :=
    ⟨f.fields ++ (x ()).fields, fun members => do
      let g ← f.make members
      let b ← (x ()).make members
      return g b⟩

/-- The first fault among members as they are written, given the names of the fields already met:
a field that is met again, or a value that its field does not take. -/
def firstFault? (fields : List (Field α)) (met : List String) :
    List (String × α) → Option DecodeError
  | [] => none
  | (name, v) :: rest =>
    match fields.find? fun f => f.name == name with
    | none => firstFault? fields met rest
    | some f =>
      if met.contains name then some (.duplicateField name)
      else (f.fault? v).or (firstFault? fields (name :: met) rest)

def read (r : Record α β) (members : List (String × α)) : Except DecodeError β :=
  match firstFault? r.fields [] members with
  | some e => .error e
  | none => r.make members

end Record

/-! The records that tokens and trees share. -/

namespace BlockMode

def toJson (m : BlockMode) : Json := .string m.wireName

/-- A mode is a name, or an object whose single key is that name. -/
def ofJson : Decoder Json BlockMode
  | .string name => Json.ofName all wireName name
  | .object [(name, .null)] => Json.ofName all wireName name
  | .object [(name, .object [])] => Json.ofName all wireName name
  | .object [(name, v)] => do
    let _ ← Json.ofName all wireName name
    .error (.wrongType v .unit)
  | .object _ => .error .manyKeys
  | v => .error (.wrongType v .mode)

end BlockMode

namespace AttributeValue

def toJson : AttributeValue → Json
  | .expression source => .string source
  | .flag on => .bool on

def ofJson : Decoder Json AttributeValue
  | .string source => .ok (.expression source)
  | .bool on => .ok (.flag on)
  | _ => .error .noAttributeValue

end AttributeValue

namespace Attribute

def toJson (a : Attribute) : Json :=
  .object [("name", .string a.name), ("val", a.value.toJson), ("escaped", .bool a.escaped)]

def record : Record Json Attribute :=
  Attribute.mk <$> .required "name" Json.toText <*> .required "val" AttributeValue.ofJson
    <*> .withDefault "escaped" false Json.toFlag

def ofJson : Decoder Json Attribute
  | .object ms => record.read ms
  | v => .error (.wrongType v .attribute)

def listToJson (as : List Attribute) : Json := .array (as.map toJson)

def listOfJson : Decoder Json (List Attribute) := Json.toList ofJson

end Attribute

end TemplateTree
