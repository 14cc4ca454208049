import TemplateTree.Token.Basic

/-!
Diagnostics: why a stream is refused, what is remarkable about one that is accepted, and the
reports made of them. A cause carries what the grammar knows; its wording, its help and the
kinds it names are functions of it.
-/

namespace TemplateTree
set_option autoImplicit false

inductive ErrorKind where
  | unexpectedToken
  | duplicateAttribute
  | elseWithoutIf
  | anonymousBlock
  | unexpectedCaseToken
deriving DecidableEq, Repr, Inhabited

namespace ErrorKind

def label : ErrorKind → String
  | .unexpectedToken => "Unexpected token"
  | .duplicateAttribute => "Duplicate attribute"
  | .elseWithoutIf => "Else without if"
  | .anonymousBlock => "Anonymous block outside mixin"
  | .unexpectedCaseToken => "Unexpected case token"

end ErrorKind

/-- Why the grammar stops. -/
inductive Cause where
  /-- No expression starts with this token. -/
  | noExpression (found : TokenKind)
  /-- Only one kind can stand here. -/
  | expected (wanted found : TokenKind)
  /-- A tag's head is followed by neither content nor an end. -/
  | afterHead (found : TokenKind)
  | inPipeless (found : TokenKind)
  | inCase (found : TokenKind)
  | duplicateAttribute (name : String)
  | elseWithoutIf
  | anonymousBlock
deriving DecidableEq, Repr, Inhabited

namespace Cause

def kind : Cause → ErrorKind
  | .noExpression _ => .unexpectedToken
  | .expected .. => .unexpectedToken
  | .afterHead _ => .unexpectedToken
  | .inPipeless _ => .unexpectedToken
  | .inCase _ => .unexpectedCaseToken
  | .duplicateAttribute _ => .duplicateAttribute
  | .elseWithoutIf => .elseWithoutIf
  | .anonymousBlock => .anonymousBlock

def message : Cause → String
  | .noExpression found => "unexpected token \"" ++ found.wireName ++ "\""
  | .expected wanted found =>
    "expected \"" ++ wanted.wireName ++ "\", but got \"" ++ found.wireName ++ "\""
  | .afterHead found =>
    "Unexpected token \"" ++ found.wireName ++
      "\" expected \"text\", \"code\", \":\", \"newline\" or \"eos\""
  | .inPipeless found => "Unexpected token \"" ++ found.wireName ++ "\" in pipeless text"
  | .inCase found =>
    "Unexpected token \"" ++ found.wireName ++
      "\", expected \"when\", \"default\" or \"newline\""
  | .duplicateAttribute name => "Duplicate attribute \"" ++ name ++ "\" is not allowed."
  | .elseWithoutIf => "Unexpected else without if"
  | .anonymousBlock => "Anonymous blocks are not allowed unless they are part of a mixin."

/-- The one kind that could stand in place of the token found. -/
def wanted? : Cause → Option TokenKind
  | .expected wanted _ => some wanted
  | .inPipeless _ => some .endPipeless
  | _ => none

def found? : Cause → Option TokenKind
  | .noExpression found => some found
  | .expected _ found => some found
  | .afterHead found => some found
  | .inPipeless found => some found
  | .inCase found => some found
  | _ => none

def help? : Cause → Option String
  | .duplicateAttribute name =>
    if name = "id" then
      some "An element can only have one id; drop either the `#id` shorthand or the id attribute"
    else none
  | .elseWithoutIf => some "`else` must directly follow the body of an `if` or `else if`"
  | .anonymousBlock =>
    some "Name the block (`block content`) or move it into a `mixin` body"
  | _ => none

end Cause

/-- A cause and the line of the token it was found at. -/
structure Fault where
  cause : Cause
  line : Line
deriving DecidableEq, Repr, Inhabited

/-- An error as it is reported. -/
structure Diagnostic where
  kind : ErrorKind
  message : String
  line : Line
  file : Option String
  expected : Option TokenKind
  found : Option TokenKind
  help : Option String
deriving DecidableEq, Repr, Inhabited

/-- The report of a fault in a file. -/
def Fault.diagnostic (file : Option String) (f : Fault) : Diagnostic :=
  ⟨f.cause.kind, f.cause.message, f.line, file, f.cause.wanted?, f.cause.found?, f.cause.help?⟩

inductive WarningKind where
  | deprecatedMixinCall
  | multipleAttributeGroups
deriving DecidableEq, Repr, Inhabited

namespace WarningKind

def all : List WarningKind := [.deprecatedMixinCall, .multipleAttributeGroups]

def wireName : WarningKind → String
  | .deprecatedMixinCall => "deprecated-mixin-call"
  | .multipleAttributeGroups => "multiple-attribute-groups"

end WarningKind

/-- What is remarkable about a stream that is accepted. -/
inductive Remark where
  /-- A mixin without a body is called in a way that the call token has replaced. -/
  | deprecatedMixinCall (name : String)
  | multipleAttributeGroups
deriving DecidableEq, Repr, Inhabited

namespace Remark

def kind : Remark → WarningKind
  | .deprecatedMixinCall _ => .deprecatedMixinCall
  | .multipleAttributeGroups => .multipleAttributeGroups

def message : Remark → String
  | .deprecatedMixinCall name =>
    "Deprecated method of calling mixins, use `+" ++ name ++ "` instead"
  | .multipleAttributeGroups => "You should not have jade tags with multiple attributes."

end Remark

/-- A remark and the line of the token it is about. -/
structure Notice where
  remark : Remark
  line : Line
deriving DecidableEq, Repr, Inhabited

/-- A warning as it is reported. -/
structure Warning where
  kind : WarningKind
  message : String
  line : Line
  file : Option String
deriving DecidableEq, Repr, Inhabited

/-- The report of a notice in a file. -/
def Notice.warning (file : Option String) (n : Notice) : Warning :=
  ⟨n.remark.kind, n.remark.message, n.line, file⟩

end TemplateTree
