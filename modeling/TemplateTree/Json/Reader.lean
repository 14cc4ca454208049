import TemplateTree.Json.Value

/-!
Text to JSON values. A reading step answers with what it leaves, which is shorter than what it
was given. A text that fails either breaks the grammar or ends before its value does, and the
two are told apart.
-/

namespace TemplateTree
set_option autoImplicit false

/-- Why a text is not JSON. -/
inductive JsonFault where
  | malformed
  | ended
deriving DecidableEq, Repr, Inhabited

namespace Json

/-- What a reading step leaves of a text. -/
abbrev Rest (s : List Char) := { r : List Char // r.length < s.length }

abbrev Reading (s : List Char) (α : Type) := Except JsonFault (α × Rest s)

def isBlank (c : Char) : Bool := c == ' ' || c == '\n' || c == '\t' || c == '\r'

def skipBlanks (s : List Char) : List Char := s.dropWhile isBlank

theorem skipBlanks_length (s : List Char) : (skipBlanks s).length ≤ s.length :=
  (List.dropWhile_suffix isBlank).length_le

/-- The remainder of a literal whose first letter was read. -/
def readLiteral :
    (expected s : List Char) → Except JsonFault { r : List Char // r.length ≤ s.length }
  | [], s => .ok ⟨s, Nat.le_refl _⟩
  | _ :: _, [] => .error .ended
  | e :: es, c :: s =>
    if c = e then
      match readLiteral es s with
      | .ok r => .ok ⟨r.1, Nat.le_succ_of_le r.2⟩
      | .error fault => .error fault
    else .error .malformed

/-! Numbers. -/

def digit? (c : Char) : Option Nat := if c.isDigit then some (c.toNat - 48) else none

/-- The digits at the head of a text. -/
def spanDigits : (s : List Char) → List Nat × { r : List Char // r.length ≤ s.length }
  | [] => ([], ⟨[], Nat.le_refl _⟩)
  | c :: s =>
    match digit? c with
    | some d =>
      let (ds, r) := spanDigits s
      (d :: ds, ⟨r.1, Nat.le_succ_of_le r.2⟩)
    | none => ([], ⟨c :: s, Nat.le_refl _⟩)

/-- Appends digits while the number still fits a word, and counts the digits left over. -/
def appendDigits (n : Nat) : List Nat → Nat × List Nat
  | [] => (n, [])
  | d :: ds => if n * 10 + d < Nat.pow 2 64 then appendDigits (n * 10 + d) ds else (n, d :: ds)

/-- A number's parts as written: whole digits, the digits after the point if there is one, and
the exponent if there is one. -/
structure Numeral where
  whole : List Nat
  fraction : Option (List Nat)
  exponent : Option Int

namespace Numeral

/-- Whole numbers that fit become words or negative integers. All others are doubles: the leading
digits that fit a word are kept and scaled by a power of ten. -/
def value (isNegative : Bool) (n : Numeral) : Except JsonFault JsonNumber :=
  let (kept, dropped) := appendDigits 0 n.whole
  match n.fraction, n.exponent, dropped with
  | none, none, [] =>
    if !isNegative then .ok (.word (UInt64.ofNat kept))
    else if 1 ≤ kept ∧ kept ≤ Nat.pow 2 63 then .ok (.negative kept)
    else scaled kept 0
  | fraction, exponent, dropped =>
    let decimals := fraction.getD []
    let (digits, unused) := appendDigits kept decimals
    scaled digits
      ((dropped.length : Int) - ((decimals.length - unused.length : Nat) : Int) + exponent.getD 0)
where
  scaled (digits : Nat) (power : Int) : Except JsonFault JsonNumber :=
    match Magnitude.ofDecimal digits power with
    | some m => .ok (.double isNegative m)
    | none => .error .malformed

end Numeral

/-- The digits after a point or in an exponent, of which there is at least one. -/
def readDigits (s : List Char) : Reading s (List Nat) :=
  match s with
  | [] => .error .ended
  | c :: s =>
    match digit? c with
    | none => .error .malformed
    | some d =>
      let (ds, r) := spanDigits s
      .ok (d :: ds, ⟨r.1, Nat.lt_succ_of_le r.2⟩)

/-- The digits before the point: a zero stands alone. -/
def readWhole (s : List Char) : Reading s (List Nat) :=
  match readDigits s with
  | .ok (0 :: _ :: _, _) => .error .malformed
  | r => r

def readFraction (s : List Char) :
    Except JsonFault (Option (List Nat) × { r : List Char // r.length ≤ s.length }) :=
  match s with
  | '.' :: t =>
    match readDigits t with
    | .ok (ds, r) => .ok (some ds, ⟨r.1, Nat.le_of_lt (Nat.lt_succ_of_lt r.2)⟩)
    | .error fault => .error fault
  | s => .ok (none, ⟨s, Nat.le_refl _⟩)

def readExponent (s : List Char) :
    Except JsonFault (Option Int × { r : List Char // r.length ≤ s.length }) :=
  let ofDigits : List Nat → Nat := fun ds => ds.foldl (fun n d => n * 10 + d) 0
  match s with
  | c :: t =>
    if c = 'e' ∨ c = 'E' then
      match t with
      | '-' :: u =>
        match readDigits u with
        | .ok (ds, r) => .ok (some (-(ofDigits ds : Int)), ⟨r.1, by have := r.2; grind⟩)
        | .error fault => .error fault
      | '+' :: u =>
        match readDigits u with
        | .ok (ds, r) => .ok (some (ofDigits ds), ⟨r.1, by have := r.2; grind⟩)
        | .error fault => .error fault
      | t =>
        match readDigits t with
        | .ok (ds, r) => .ok (some (ofDigits ds), ⟨r.1, by have := r.2; grind⟩)
        | .error fault => .error fault
    else .ok (none, ⟨c :: t, Nat.le_refl _⟩)
  | [] => .ok (none, ⟨[], Nat.le_refl _⟩)

def readNumber (isNegative : Bool) (s : List Char) : Reading s JsonNumber :=
  match readWhole s with
  | .error fault => .error fault
  | .ok (whole, r) =>
    match readFraction r.1 with
    | .error fault => .error fault
    | .ok (fraction, r') =>
      match readExponent r'.1 with
      | .error fault => .error fault
      | .ok (exponent, r'') =>
        match (Numeral.mk whole fraction exponent).value isNegative with
        | .error fault => .error fault
        | .ok n => .ok (n, ⟨r''.1, Nat.lt_of_le_of_lt (Nat.le_trans r''.2 r'.2) r.2⟩)

/-! Strings. -/

def hexDigit? (c : Char) : Option Nat :=
  if c.isDigit then some (c.toNat - 48)
  else if 'a' ≤ c ∧ c ≤ 'f' then some (c.toNat - 87)
  else if 'A' ≤ c ∧ c ≤ 'F' then some (c.toNat - 55)
  else none

/-- Four hexadecimal digits. A text with fewer than four bytes left has ended. -/
def readHex (s : List Char) : Reading s Nat :=
  match s with
  | a :: b :: c :: d :: r =>
    match hexDigit? a, hexDigit? b, hexDigit? c, hexDigit? d with
    | some a, some b, some c, some d =>
      .ok (((a * 16 + b) * 16 + c) * 16 + d, ⟨r, by simp only [List.length_cons]; omega⟩)
    | _, _, _, _ => .error .malformed
  | s => .error (if s.foldl (fun size c => size + c.utf8Size) 0 < 4 then .ended else .malformed)

def readBackslashU (s : List Char) : Reading s Nat :=
  match s with
  | [] => .error .ended
  | '\\' :: [] => .error .ended
  | '\\' :: 'u' :: t =>
    match readHex t with
    | .ok (n, r) => .ok (n, ⟨r.1, by have := r.2; grind⟩)
    | .error fault => .error fault
  | _ => .error .malformed

/-- The character after `\u`; the high half of a surrogate pair asks for its low half. -/
def readCodePoint (s : List Char) : Reading s Char :=
  match readHex s with
  | .error fault => .error fault
  | .ok (n, r) =>
    if 0xDC00 ≤ n ∧ n ≤ 0xDFFF then .error .malformed
    else if 0xD800 ≤ n ∧ n ≤ 0xDBFF then
      match readBackslashU r.1 with
      | .error fault => .error fault
      | .ok (low, r') =>
        if 0xDC00 ≤ low ∧ low ≤ 0xDFFF then
          .ok (Char.ofNat (0x10000 + (n - 0xD800) * 0x400 + (low - 0xDC00)),
            ⟨r'.1, Nat.lt_trans r'.2 r.2⟩)
        else .error .malformed
    else .ok (Char.ofNat n, r)

/-- The character after a backslash. -/
def readEscape (s : List Char) : Reading s Char :=
  match s with
  | [] => .error .ended
  | c :: t =>
    let plain := fun (x : Char) => .ok (x, ⟨t, Nat.lt_succ_self _⟩)
    match c with
    | '"' => plain '"'
    | '\\' => plain '\\'
    | '/' => plain '/'
    | 'b' => plain '\x08'
    | 'f' => plain '\x0c'
    | 'n' => plain '\n'
    | 'r' => plain '\r'
    | 't' => plain '\t'
    | 'u' =>
      match readCodePoint t with
      | .ok (x, r) => .ok (x, ⟨r.1, Nat.lt_succ_of_lt r.2⟩)
      | .error fault => .error fault
    | _ => .error .malformed

/-- The characters up to the closing quote. -/
def readString (s : List Char) : Reading s (List Char) :=
  match s with
  | [] => .error .ended
  | c :: t =>
    if c = '"' then .ok ([], ⟨t, Nat.lt_succ_self _⟩)
    else if c = '\\' then
      match readEscape t with
      | .error fault => .error fault
      | .ok (x, r) =>
        match readString r.1 with
        | .error fault => .error fault
        | .ok (xs, r') => .ok (x :: xs, ⟨r'.1, Nat.lt_succ_of_lt (Nat.lt_trans r'.2 r.2)⟩)
    else if c.toNat < 32 then .error .malformed
    else
      match readString t with
      | .error fault => .error fault
      | .ok (xs, r) => .ok (c :: xs, ⟨r.1, Nat.lt_succ_of_lt r.2⟩)
termination_by s.length
decreasing_by
  · have := r.2; simp only [List.length_cons]; omega
  · simp only [List.length_cons]; omega

/-! Values. -/

/-- Containers nest less deeply than this. -/
def nestingLimit : Nat := 128

mutual

/-- A value that starts with the text's first character. -/
def readValue (level : Nat) (s : List Char) : Reading s Json :=
  match s with
  | [] => .error .ended
  | c :: t =>
    let literal := fun (letters : List Char) (v : Json) =>
      match readLiteral letters t with
      | .ok r => .ok (v, ⟨r.1, Nat.lt_succ_of_le r.2⟩)
      | .error fault => .error fault
    if c = 'n' then literal ['u', 'l', 'l'] .null
    else if c = 't' then literal ['r', 'u', 'e'] (.bool true)
    else if c = 'f' then literal ['a', 'l', 's', 'e'] (.bool false)
    else if c = '-' then
      match readNumber true t with
      | .ok (n, r) => .ok (.number n, ⟨r.1, Nat.lt_succ_of_lt r.2⟩)
      | .error fault => .error fault
    else if c.isDigit then
      match readNumber false (c :: t) with
      | .ok (n, r) => .ok (.number n, r)
      | .error fault => .error fault
    else if c = '"' then
      match readString t with
      | .ok (xs, r) => .ok (.string (String.ofList xs), ⟨r.1, Nat.lt_succ_of_lt r.2⟩)
      | .error fault => .error fault
    else if c = '[' then
      if nestingLimit ≤ level + 1 then .error .malformed
      else
        match readItems (level + 1) true t with
        | .ok (vs, r) => .ok (.array vs, ⟨r.1, Nat.lt_succ_of_lt r.2⟩)
        | .error fault => .error fault
    else if c = '\x7b' then
      if nestingLimit ≤ level + 1 then .error .malformed
      else
        match readMembers (level + 1) true t with
        | .ok (ms, r) => .ok (.object ms, ⟨r.1, Nat.lt_succ_of_lt r.2⟩)
        | .error fault => .error fault
    else .error .malformed
termination_by 3 * s.length

/-- The items up to the closing bracket. All but the first follow a comma. -/
def readItems (level : Nat) (isFirst : Bool) (s : List Char) : Reading s (List Json) :=
  match hs : skipBlanks s with
  | [] => .error .ended
  | c :: t =>
    have ht : t.length < s.length := by
      have := skipBlanks_length s
      simp only [hs, List.length_cons] at this
      omega
    if c = ']' then .ok ([], ⟨t, ht⟩)
    else if isFirst then readItem level s (c :: t) (by simp only [List.length_cons]; omega)
    else if c = ',' then
      match hu : skipBlanks t with
      | ']' :: _ => .error .malformed
      | u => readItem level s u (by have := skipBlanks_length t; rw [← hu]; omega)
    else .error .malformed
termination_by 3 * s.length + 2
decreasing_by
  · simp only [List.length_cons]; omega
  · have := skipBlanks_length t; rw [← hu]; omega

/-- One item and those after it. -/
def readItem (level : Nat) (s u : List Char) (hu : u.length ≤ s.length) :
    Reading s (List Json) :=
  match readValue level u with
  | .error fault => .error fault
  | .ok (v, r) =>
    match readItems level false r.1 with
    | .error fault => .error fault
    | .ok (vs, r') => .ok (v :: vs, ⟨r'.1, by have := r.2; have := r'.2; omega⟩)
termination_by 3 * u.length + 1
decreasing_by
  · omega
  · have := r.2; omega

/-- The members up to the closing brace. All but the first follow a comma. -/
def readMembers (level : Nat) (isFirst : Bool) (s : List Char) :
    Reading s (List (String × Json)) :=
  match hs : skipBlanks s with
  | [] => .error .ended
  | c :: t =>
    have ht : t.length < s.length := by
      have := skipBlanks_length s
      simp only [hs, List.length_cons] at this
      omega
    if c = '\x7d' then .ok ([], ⟨t, ht⟩)
    else if isFirst then readMember level s (c :: t) (by simp only [List.length_cons]; omega)
    else if c = ',' then
      readMember level s (skipBlanks t) (by have := skipBlanks_length t; omega)
    else .error .malformed
termination_by 3 * s.length + 2
decreasing_by
  · simp only [List.length_cons]; omega
  · have := skipBlanks_length t; omega

/-- One member and those after it. -/
def readMember (level : Nat) (s u : List Char) (hu : u.length ≤ s.length) :
    Reading s (List (String × Json)) :=
  match u with
  | [] => .error .ended
  | c :: t =>
    if c = '"' then
      match readString t with
      | .error fault => .error fault
      | .ok (name, r) =>
        match hc : skipBlanks r.1 with
        | [] => .error .ended
        | ':' :: w =>
          have hw : (skipBlanks w).length < t.length := by
            have := skipBlanks_length w
            have := skipBlanks_length r.1
            have := r.2
            simp only [hc, List.length_cons] at *
            omega
          match readValue level (skipBlanks w) with
          | .error fault => .error fault
          | .ok (v, r') =>
            match readMembers level false r'.1 with
            | .error fault => .error fault
            | .ok (ms, r'') =>
              .ok ((String.ofList name, v) :: ms,
                ⟨r''.1, by
                  have := r'.2
                  have := r''.2
                  simp only [List.length_cons] at *
                  omega⟩)
        | _ => .error .malformed
    else .error .malformed
termination_by 3 * u.length + 1
decreasing_by
  · simp only [List.length_cons]; omega
  · have := r'.2; simp only [List.length_cons]; omega

end

/-- A text that holds one value and nothing else but blanks. -/
def parse (text : String) : Except JsonFault Json :=
  match readValue 0 (skipBlanks text.toList) with
  | .error fault => .error fault
  | .ok (v, r) => if (skipBlanks r.1).isEmpty then .ok v else .error .malformed

end Json

end TemplateTree
