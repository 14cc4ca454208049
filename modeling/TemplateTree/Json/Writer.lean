import TemplateTree.Json.Value
import TemplateTree.Text.Named

/-!
JSON as text: object members sorted by name, compact or indented by two spaces. Only quotes,
backslashes and control characters are escaped.
-/

namespace TemplateTree
set_option autoImplicit false

namespace Json

def escapeChar (c : Char) : List Char :=
  if c = '"' then ['\\', '"']
  else if c = '\\' then ['\\', '\\']
  else if c = '\n' then ['\\', 'n']
  else if c = '\r' then ['\\', 'r']
  else if c = '\t' then ['\\', 't']
  else if c = '\x08' then ['\\', 'b']
  else if c = '\x0c' then ['\\', 'f']
  else if c.toNat < 32 then
    ['\\', 'u', '0', '0', Nat.digitChar (c.toNat / 16), Nat.digitChar (c.toNat % 16)]
  else [c]

def quote (s : String) : String :=
  String.ofList ('"' :: s.toList.flatMap escapeChar ++ ['"'])

/-- Puts the pieces between brackets, one per line when a depth is given. -/
def bracket (depth : Option Nat) (left right : String) (pieces : List String) : String :=
  match depth, pieces with
  | _, [] => left ++ right
  | none, pieces => left ++ ",".intercalate pieces ++ right
  | some d, pieces =>
    let margin := fun n => "\n" ++ String.ofList (List.replicate (2 * n) ' ')
    left ++ margin (d + 1) ++ ("," ++ margin (d + 1)).intercalate pieces ++ margin d ++ right

mutual

/-- A value as text; a depth asks for the indented form at that depth. -/
def write (depth : Option Nat) : Json → String
  | .null => "null"
  | .bool true => "true"
  | .bool false => "false"
  | .number n => n.render
  | .string s => quote s
  | .array items => bracket depth "[" "]" (writeItems (depth.map (· + 1)) items)
  | .object members =>
    bracket depth "\x7b" "\x7d" <|
      (Text.sortByName (writeMembers (depth.map (· + 1)) members)).map fun m =>
        quote m.1 ++ (if depth.isSome then ": " else ":") ++ m.2

def writeItems (depth : Option Nat) : List Json → List String
  | [] => []
  | v :: rest => write depth v :: writeItems depth rest

def writeMembers (depth : Option Nat) : List (String × Json) → List (String × String)
  | [] => []
  | (name, v) :: rest => (name, write depth v) :: writeMembers depth rest

end

def compact (v : Json) : String := write none v

def pretty (v : Json) : String := write (some 0) v

end Json

end TemplateTree
