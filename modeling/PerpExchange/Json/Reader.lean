import PerpExchange.Bytes.Text
import PerpExchange.Json.Basic

/-!
Reading JSON text. Characters become tokens, and tokens become a tree by a machine that keeps the
containers it has not closed yet on a stack, so a document may nest to any depth.
-/

namespace PerpExchange.Json

/-- The pieces of a JSON text. A string keeps its spelling. -/
inductive Token where
  | beginArray
  | endArray
  | beginObject
  | endObject
  | colon
  | comma
  | string (spelling : String)
  | scalar (value : Json)

/-- The digits in front, and what follows them. -/
def spanDigits (cs : List Char) : List Char × List Char :=
  (cs.takeWhile Char.isDigit, cs.dropWhile Char.isDigit)

/-- An exponent, or nothing. -/
def isExponent : List Char → Bool
  | [] => true
  | e :: rest =>
    (e == 'e' || e == 'E') &&
      (match rest with
        | '+' :: ds => ds != [] && ds.all Char.isDigit
        | '-' :: ds => ds != [] && ds.all Char.isDigit
        | ds => ds != [] && ds.all Char.isDigit)

/-- What may follow the whole part of a number: a fraction, an exponent, or both. -/
def isNumberTail : List Char → Bool
  | '.' :: rest =>
    let (fraction, exponent) := spanDigits rest
    fraction != [] && isExponent exponent
  | cs => isExponent cs

/-- The spelling of a number without its sign: the whole part has no leading zero. -/
def isUnsignedNumber : List Char → Bool
  | '0' :: rest => isNumberTail rest
  | cs =>
    let (whole, tail) := spanDigits cs
    whole != [] && isNumberTail tail

def isNumber : List Char → Bool
  | '-' :: rest => isUnsignedNumber rest
  | cs => isUnsignedNumber cs

/-- What a run of letters, digits, signs and points stands for. -/
def scalar? (cs : List Char) : Option Json :=
  if cs = "null".toList then some .null
  else if cs = "true".toList then some (.bool true)
  else if cs = "false".toList then some (.bool false)
  else if isNumber cs then some (.number (String.ofList cs))
  else none

def isScalarChar (c : Char) : Bool := c.isAlphanum || c == '+' || c == '-' || c == '.'

def isBlank (c : Char) : Bool := c == ' ' || c == '\t' || c == '\n' || c == '\r'

def punctuation? : Char → Option Token
  | '[' => some .beginArray
  | ']' => some .endArray
  | '\x7b' => some .beginObject
  | '\x7d' => some .endObject
  | ':' => some .colon
  | ',' => some .comma
  | _ => none

/-- Where a scan stands. What it has collected is held backwards. -/
inductive Scan where
  | between
  | inScalar (collected : List Char)
  | inString (collected : List Char)
  | afterBackslash (collected : List Char)

/-- One character outside a string: the tokens it completes, and where the scan stands then. -/
def scanBetween (c : Char) : Option (List Token × Scan) :=
  if c = '"' then some ([], .inString [])
  else if isBlank c then some ([], .between)
  else if isScalarChar c then some ([], .inScalar [c])
  else (punctuation? c).map fun t => ([t], .between)

def scanChar (c : Char) : Scan → Option (List Token × Scan)
  | .between => scanBetween c
  | .inScalar collected =>
    if isScalarChar c then some ([], .inScalar (c :: collected))
    else do
      let value ← scalar? collected.reverse
      let (tokens, scan) ← scanBetween c
      return (.scalar value :: tokens, scan)
  | .inString collected =>
    if c = '"' then
      let spelling := collected.reverse
      if wellSpelled spelling then some ([.string (String.ofList spelling)], .between) else none
    else if c = '\\' then some ([], .afterBackslash (c :: collected))
    else if c < ' ' then none
    else some ([], .inString (c :: collected))
  | .afterBackslash collected => some ([], .inString (c :: collected))

/-- The tokens a scan still holds when the text ends. -/
def scanEnd : Scan → Option (List Token)
  | .between => some []
  | .inScalar collected => (scalar? collected.reverse).map fun value => [.scalar value]
  | _ => none

/-- A container that is not closed yet; what it holds is kept backwards. -/
inductive Frame where
  | array (items : List Json)
  | object (members : List (String × Json))
  | member (members : List (String × Json)) (name : String)

/-- What a document may go on with. -/
inductive Due where
  | value
  | itemOrEnd
  | nameOrEnd
  | name
  | colon (name : String)
  | commaOrEnd
  | nothing (document : Json)

/-- A document part way through. -/
structure Reading where
  stack : List Frame
  due : Due

/-- Puts a value where one is due. -/
def deliver (v : Json) : List Frame → Option Reading
  | [] => some ⟨[], .nothing v⟩
  | .array items :: frames => some ⟨.array (v :: items) :: frames, .commaOrEnd⟩
  | .member members name :: frames => some ⟨.object ((name, v) :: members) :: frames, .commaOrEnd⟩
  | .object _ :: _ => none

/-- A token where a value is due. -/
def stepValue (frames : List Frame) : Token → Option Reading
  | .scalar v => deliver v frames
  | .string s => deliver (.string s) frames
  | .beginArray => some ⟨.array [] :: frames, .itemOrEnd⟩
  | .beginObject => some ⟨.object [] :: frames, .nameOrEnd⟩
  | _ => none

/-- Takes one token. -/
def step (r : Reading) (t : Token) : Option Reading :=
  match r.due, t, r.stack with
  | .itemOrEnd, .endArray, .array _ :: frames => deliver (.array []) frames
  | .itemOrEnd, t, frames => stepValue frames t
  | .value, t, frames => stepValue frames t
  | .nameOrEnd, .endObject, .object _ :: frames => deliver (.object []) frames
  | .nameOrEnd, .string name, frames => some ⟨frames, .colon name⟩
  | .name, .string name, frames => some ⟨frames, .colon name⟩
  | .colon name, .colon, .object members :: frames => some ⟨.member members name :: frames, .value⟩
  | .commaOrEnd, .comma, .array items :: frames => some ⟨.array items :: frames, .value⟩
  | .commaOrEnd, .endArray, .array items :: frames => deliver (.array items.reverse) frames
  | .commaOrEnd, .comma, .object members :: frames => some ⟨.object members :: frames, .name⟩
  | .commaOrEnd, .endObject, .object members :: frames => deliver (.object members.reverse) frames
  | _, _, _ => none

/-- Reads on from a scan and a document part way through. -/
def readOn : Scan → Reading → List Char → Option Json
  | scan, r, [] => do
    let r ← (← scanEnd scan).foldlM step r
    match r.due with
    | .nothing document => some document
    | _ => none
  | scan, r, c :: cs => do
    let (tokens, scan) ← scanChar c scan
    let r ← tokens.foldlM step r
    readOn scan r cs

/-- The document a text holds. Nothing but blanks may stand around it. -/
def read? (s : String) : Option Json := readOn .between ⟨[], .value⟩ s.toList

/-- What stands in a text for bytes that are not UTF-8. It ends in half of a character, so a string
that holds it can be skipped but stands for no text; anywhere else it is out of place. -/
def noText : List Char := '\ufffd' :: "\\udc00".toList

/-- Bytes as a text. Every byte of an ASCII character is kept. -/
def mend (bytes : List UInt8) : String :=
  String.ofList <| (bytes.splitBy fun a b => (a < 128) = (b < 128)).flatMap fun run =>
    match ofUtf8? run with
    | some s => s.toList
    | none => noText

/-- The document that bytes hold. Strings that are skipped need not be UTF-8. -/
def readBytes? (bytes : List UInt8) : Option Json := read? ((ofUtf8? bytes).getD (mend bytes))

end PerpExchange.Json
