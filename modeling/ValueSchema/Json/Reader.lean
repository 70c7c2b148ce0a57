import ValueSchema.Json.Basic

/-!
JSON text to trees. Characters are grouped to tokens, tokens to an outline in which some parts may
have no value, and an outline in which all parts have one is a tree.
-/

set_option autoImplicit false
set_option relaxedAutoImplicit false

namespace ValueSchema

namespace Json

/-- A mark, a string, or one of the other values that are not arrays or objects. -/
inductive Token where
  | arrayOpen
  | arrayClose
  | objectOpen
  | objectClose
  | comma
  | colon
  | string (text? : Option String)
  | scalar (value? : Option Json)

namespace Token

def isBlank (c : Char) : Bool := c == ' ' || c == '\t' || c == '\n' || c == '\r'

def isWordPart (c : Char) : Bool :=
  c.isAlphanum || c == '+' || c == '-' || c == '.'

def ofWord? (word : List Char) : Option Token :=
  if word == ['n', 'u', 'l', 'l'] then some (.scalar (some .null))
  else if word == ['t', 'r', 'u', 'e'] then some (.scalar (some (.bool true)))
  else if word == ['f', 'a', 'l', 's', 'e'] then some (.scalar (some (.bool false)))
  else ((Numeral.scan? word).filter isLiteral).map fun n => .scalar ((numberOf? n).map .number)

/-- Whether a code point is the first half of a character beyond 16 bits. -/
def isHighHalf (point : Nat) : Bool := 0xD800 ≤ point && point < 0xDC00

def isLowHalf (point : Nat) : Bool := 0xDC00 ≤ point && point < 0xE000

/-- The characters of code points, where two halves in their order stand for one character. A half
that stands alone is no character. -/
def joinHalves : List Nat → Option (List Char)
  | [] => some []
  | point :: rest =>
    if isHighHalf point then
      match rest with
      | low :: rest =>
        if isLowHalf low then
          let joined := 0x10000 + (point - 0xD800) * 0x400 + (low - 0xDC00)
          (joinHalves rest).map fun chars => Char.ofNat joined :: chars
        else none
      | [] => none
    else if isLowHalf point then none
    else (joinHalves rest).map fun chars => Char.ofNat point :: chars

/-- A string from its code points, last one first. -/
def ofPoints (points : List Nat) : Token :=
  .string ((joinHalves points.reverse).map String.ofList)

/-- What is being read; what was read of it is kept last part first. -/
inductive Mode where
  | between
  | word (text : List Char)
  | string (points : List Nat)
  | escape (points : List Nat)
  /-- In the four digits of an escape, of which `missing` are to come. -/
  | hex (points : List Nat) (value missing : Nat)

def hexValue? (c : Char) : Option Nat :=
  if c.isDigit then some (c.toNat - '0'.toNat)
  else if 'a' ≤ c && c ≤ 'f' then some (c.toNat - 'a'.toNat + 10)
  else if 'A' ≤ c && c ≤ 'F' then some (c.toNat - 'A'.toNat + 10)
  else none

def escaped? (c : Char) : Option Char :=
  if c == '"' || c == '\\' || c == '/' then some c
  else if c == 'b' then some '\x08'
  else if c == 'f' then some '\x0c'
  else if c == 'n' then some '\n'
  else if c == 'r' then some '\r'
  else if c == 't' then some '\t'
  else none

def ofMark? (c : Char) : Option Token :=
  if c == '[' then some .arrayOpen
  else if c == ']' then some .arrayClose
  else if c == '\x7b' then some .objectOpen
  else if c == '\x7d' then some .objectClose
  else if c == ',' then some .comma
  else if c == ':' then some .colon
  else none

def start (done : List Token) (c : Char) : Option (List Token × Mode) :=
  if isBlank c then some (done, .between)
  else if c == '"' then some (done, .string [])
  else if isWordPart c then some (done, .word [c])
  else (ofMark? c).map fun mark => (mark :: done, .between)

/-- The finished tokens, last one first, and the mode after one more character. -/
def step : List Token × Mode → Char → Option (List Token × Mode)
  | (done, .between), c => start done c
  | (done, .word text), c =>
    if isWordPart c then some (done, .word (c :: text))
    else (ofWord? text.reverse).bind fun token => start (token :: done) c
  | (done, .string points), c =>
    if c == '"' then some (ofPoints points :: done, .between)
    else if c == '\\' then some (done, .escape points)
    else if c.toNat < 32 then none
    else some (done, .string (c.toNat :: points))
  | (done, .escape points), c =>
    if c == 'u' then some (done, .hex points 0 4)
    else (escaped? c).map fun value => (done, .string (value.toNat :: points))
  | (done, .hex points value missing), c =>
    (hexValue? c).map fun digit =>
      let value := 16 * value + digit
      (done, if missing ≤ 1 then .string (value :: points) else .hex points value (missing - 1))

/-- The tokens of a text, if it ends between two of them. -/
def scan? (text : String) : Option (List Token) :=
  match text.toList.foldlM step ([], .between) with
  | some (done, .between) => some done.reverse
  | some (done, .word word) => (ofWord? word.reverse).map fun token => (token :: done).reverse
  | _ => none

end Token

/-- What a well-formed text writes down. -/
inductive Outline where
  | string (text? : Option String)
  | scalar (value? : Option Json)
  | array (items : List Outline)
  | object (members : List (Option String × Outline))

instance : Inhabited Outline := ⟨.scalar none⟩

namespace Outline

/-- An array or object that is still open; its finished parts are kept last one first. -/
inductive Frame where
  | items (done : List Outline)
  | members (done : List (Option String × Outline))
  | member (done : List (Option String × Outline)) (name? : Option String)

/-- What may come next. `complete` holds a finished part whose place is not yet decided. -/
inductive Expect where
  | value
  | firstItem
  | name
  | firstName
  | colon (name? : Option String)
  | complete (part : Outline)

def startValue (frames : List Frame) : Token → Option (List Frame × Expect)
  | .string text? => some (frames, .complete (.string text?))
  | .scalar value? => some (frames, .complete (.scalar value?))
  | .arrayOpen => some (.items [] :: frames, .firstItem)
  | .objectOpen => some (.members [] :: frames, .firstName)
  | _ => none

/-- The open frames and the expectation after one more token. -/
def readToken : List Frame × Expect → Token → Option (List Frame × Expect)
  | (_ :: frames, .firstItem), .arrayClose => some (frames, .complete (.array []))
  | (frames, .firstItem), token | (frames, .value), token => startValue frames token
  | (_ :: frames, .firstName), .objectClose => some (frames, .complete (.object []))
  | (frames, .firstName), .string name? | (frames, .name), .string name? =>
    some (frames, .colon name?)
  | (.members done :: frames, .colon name?), .colon => some (.member done name? :: frames, .value)
  | (.items done :: frames, .complete part), .comma =>
    some (.items (part :: done) :: frames, .value)
  | (.items done :: frames, .complete part), .arrayClose =>
    some (frames, .complete (.array (part :: done).reverse))
  | (.member done name? :: frames, .complete part), .comma =>
    some (.members ((name?, part) :: done) :: frames, .name)
  | (.member done name? :: frames, .complete part), .objectClose =>
    some (frames, .complete (.object ((name?, part) :: done).reverse))
  | _, _ => none

def scan? (text : String) : Option Outline :=
  match (Token.scan? text).bind (·.foldlM readToken ([], .value)) with
  | some ([], .complete part) => some part
  | _ => none

end Outline

/-- How many arrays and objects may be inside each other. -/
def nestingLimit : Nat := 127

namespace Outline

mutual

/-- The tree of an outline in which at most `room` arrays and objects are inside each other. -/
def within? : Outline → Nat → Option Json
  | .string text?, _ => text?.map .string
  | .scalar value?, _ => value?
  | .array _, 0 | .object _, 0 => none
  | .array items, room + 1 => (itemsWithin? items room).map .array
  | .object members, room + 1 => (membersWithin? members room).map .object

def itemsWithin? : List Outline → Nat → Option (List Json)
  | [], _ => some []
  | item :: rest, room =>
    match item.within? room, itemsWithin? rest room with
    | some item, some rest => some (item :: rest)
    | _, _ => none

def membersWithin? : List (Option String × Outline) → Nat → Option (List (String × Json))
  | [], _ => some []
  | (name?, item) :: rest, room =>
    match name?, item.within? room, membersWithin? rest room with
    | some name, some item, some rest => some ((name, item) :: rest)
    | _, _, _ => none

end

def tree? (outline : Outline) : Option Json := outline.within? nestingLimit

end Outline

def read? (text : String) : Option Json := (Outline.scan? text).bind Outline.tree?

end Json

end ValueSchema
