import RecordStore.Document.Text

/-!
Reading the text of documents. Objects are turned into values as they are closed, so a fault in
one of them is reported before a fault in the text that follows. A fault in the text is placed by
the number of characters that are left.
-/

namespace RecordStore
namespace Document

/-- Why reading stopped: the text is at fault where `left` characters remain, or a value is. -/
inductive ReadFault where
  | text (fault : SyntaxFault) (left : Nat)
  | format (fault : FormatFault)

namespace Reader

def isBlank (c : Char) : Bool := c == ' ' || c == '\t' || c == '\n' || c == '\r'

def skipBlanks (cs : List Char) : List Char := cs.dropWhile isBlank

def hexValue? (c : Char) : Option Nat :=
  if '0' ≤ c ∧ c ≤ '9' then some (c.toNat - 48)
  else if 'a' ≤ c ∧ c ≤ 'f' then some (c.toNat - 87)
  else if 'A' ≤ c ∧ c ≤ 'F' then some (c.toNat - 55)
  else none

/-- The number made by the first four characters. -/
def hex4? (cs : List Char) : Option Nat :=
  match (cs.take 4).mapM hexValue? with
  | some [a, b, c, d] => some (((a * 16 + b) * 16 + c) * 16 + d)
  | _ => none

/-- A UTF-16 unit as a character; half of a pair alone is no character. -/
def unitChar (n : Nat) : Char := if 0xd800 ≤ n ∧ n < 0xe000 then '\ufffd' else Char.ofNat n

/-- The unit after `\u`, with the second half of a pair if one follows. A character has to remain
after the digits. -/
def readUnit (cs : List Char) : Except ReadFault (Char × List Char) :=
  let fault (at_ : List Char) : ReadFault := .text .unicodeEscape (at_.length + 1)
  if cs.length < 5 then .error (fault cs)
  else match hex4? cs with
    | none => .error (fault cs)
    | some n =>
      let rest := cs.drop 4
      if 0xd800 ≤ n ∧ n < 0xdc00 ∧ 6 < rest.length ∧ rest.take 2 = ['\\', 'u'] then
        match hex4? (rest.drop 2) with
        | none => .error (fault (rest.drop 2))
        | some m =>
          if 0xdc00 ≤ m ∧ m < 0xe000 then
            .ok (Char.ofNat (65536 + (n - 0xd800) * 1024 + (m - 0xdc00)), rest.drop 6)
          else .ok (unitChar n, rest)
      else .ok (unitChar n, rest)

def simpleEscape? (c : Char) : Option Char :=
  if c = '"' ∨ c = '\\' ∨ c = '/' then some c
  else if c = 'n' then some '\n'
  else if c = 'r' then some '\r'
  else if c = 't' then some '\t'
  else if c = 'b' then some '\x08'
  else if c = 'f' then some '\x0c'
  else none

/-- Reads the characters of a text up to its closing quote. The opening quote stood where `start`
characters were left; `fuel` is larger than the number of characters. -/
def readChars (start : Nat) : Nat → List Char → Except ReadFault (List Char × List Char)
  | 0, _ => .error (.text .openString start)
  | _ + 1, [] => .error (.text .openString start)
  | fuel + 1, c :: rest =>
    if c = '"' then .ok ([], rest)
    else if c = '\\' then
      match rest with
      | [] => .error (.text .openString start)
      | 'u' :: rest => do
        let (c, rest) ← readUnit rest
        let (cs, rest) ← readChars start fuel rest
        .ok (c :: cs, rest)
      | e :: more =>
        match simpleEscape? e with
        | none => .error (.text .escape (rest.length + 1))
        | some c => do
          let (cs, rest) ← readChars start fuel more
          .ok (c :: cs, rest)
    else if c.toNat < 32 then .error (.text .controlCharacter (rest.length + 1))
    else do
      let (cs, rest) ← readChars start fuel rest
      .ok (c :: cs, rest)

/-- Reads a text after its opening quote. -/
def readString (cs : List Char) : Except ReadFault (String × List Char) := do
  let (chars, rest) ← readChars (cs.length + 1) (cs.length + 1) cs
  .ok (String.ofList chars, rest)

/-- The digits at the start, without needless zeros, of a number. -/
def wholeDigits : List Char → List Char
  | '0' :: _ => ['0']
  | cs => cs.takeWhile Char.isDigit

/-- The fraction after a point: at least one digit. -/
def fractionDigits : List Char → List Char
  | '.' :: rest => rest.takeWhile Char.isDigit
  | _ => []

/-- The exponent at the start: its sign, its digits, and how many characters it takes. -/
def exponent? : List Char → Option (Bool × List Char × Nat)
  | e :: rest =>
    if e = 'e' ∨ e = 'E' then
      let negative := rest.head? == some '-'
      let signed := negative || rest.head? == some '+'
      let digits := (if signed then rest.drop 1 else rest).takeWhile Char.isDigit
      if digits.isEmpty then none
      else some (negative, digits, digits.length + (if signed then 2 else 1))
    else none
  | [] => none

/-- Reads a number: whole if it has neither fraction nor exponent. -/
def readNumber (cs : List Char) : Except ReadFault (Value × List Char) :=
  let negative := cs.head? == some '-'
  let body := if negative then cs.drop 1 else cs
  let whole := wholeDigits body
  if whole.isEmpty then .error (.text .value cs.length)
  else
    let rest := body.drop whole.length
    let fraction := fractionDigits rest
    let rest := if fraction.isEmpty then rest else rest.drop (fraction.length + 1)
    match exponent? rest with
    | some (down, digits, size) =>
      let scale : Int := Decimal.ofDigits digits
      let d : Decimal :=
        ⟨Decimal.ofDigits (whole ++ fraction), (if down then -scale else scale) - fraction.length⟩
      .ok (.float (d.toDouble negative), rest.drop size)
    | none =>
      if fraction.isEmpty then
        if maxDigits < whole.length then .error (.format (.tooManyDigits whole.length))
        else
          let n : Int := Decimal.ofDigits whole
          .ok (.int (if negative then -n else n), rest)
      else
        let d : Decimal := ⟨Decimal.ofDigits (whole ++ fraction), -(fraction.length : Int)⟩
        .ok (.float (d.toDouble negative), rest)

/-- The words that stand for values. -/
def words : List (List Char × Value) :=
  [(nullWord, .null), (trueWord, .bool true), (falseWord, .bool false), (nanWord, .float .nan),
    (infinityWord, .float (.infinity false)), ('-' :: infinityWord, .float (.infinity true))]

/-- The word at the start of a text. -/
def word? (cs : List Char) : Option (Value × List Char) :=
  words.findSome? fun (word, v) =>
    if word.isPrefixOf cs then some (v, cs.drop word.length) else none

mutual

/-- Reads a value; `fuel` is larger than twice the number of characters. -/
def readValue : Nat → List Char → Except ReadFault (Value × List Char)
  | 0, cs => .error (.text .value cs.length)
  | _ + 1, [] => .error (.text .value 0)
  | fuel + 1, c :: rest =>
    if c = '"' then do
      let (s, rest) ← readString rest
      .ok (.text s, rest)
    else if c = '\x7b' then
      match skipBlanks rest with
      | '\x7d' :: rest => .ok (.dict [], rest)
      | rest => do
        let (members, rest) ← readMembers fuel rest
        match close members with
        | .ok v => .ok (v, rest)
        | .error f => .error (.format f)
    else if c = '[' then
      match skipBlanks rest with
      | ']' :: rest => .ok (.list [], rest)
      | rest => do
        let (items, rest) ← readItems fuel rest
        .ok (.list items, rest)
    else match word? (c :: rest) with
      | some result => .ok result
      | none => readNumber (c :: rest)

/-- Reads the items of a list, at least one, and its end. -/
def readItems : Nat → List Char → Except ReadFault (List Value × List Char)
  | 0, cs => .error (.text .value cs.length)
  | fuel + 1, cs => do
    let (v, rest) ← readValue fuel cs
    match skipBlanks rest with
    | ']' :: rest => .ok ([v], rest)
    | ',' :: rest => do
      let (items, rest) ← readItems fuel (skipBlanks rest)
      .ok (v :: items, rest)
    | rest => .error (.text .comma rest.length)

/-- Reads the members of an object, at least one, and its end. -/
def readMembers : Nat → List Char → Except ReadFault (List (String × Value) × List Char)
  | 0, cs => .error (.text .value cs.length)
  | fuel + 1, cs =>
    match cs with
    | '"' :: rest => do
      let (name, rest) ← readString rest
      match skipBlanks rest with
      | ':' :: rest => do
        let (v, rest) ← readValue fuel (skipBlanks rest)
        match skipBlanks rest with
        | '\x7d' :: rest => .ok ([(name, v)], rest)
        | ',' :: rest => do
          let (members, rest) ← readMembers fuel (skipBlanks rest)
          .ok ((name, v) :: members, rest)
        | rest => .error (.text .comma rest.length)
      | rest => .error (.text .colon rest.length)
    | _ => .error (.text .memberName cs.length)

end

/-- Reads a text that holds one document and blanks around it. -/
def readAll (cs : List Char) : Except ReadFault Value :=
  if cs.head? = some '\ufeff' then .error (.text .byteOrderMark cs.length)
  else do
    let (v, rest) ← readValue (2 * cs.length + 2) (skipBlanks cs)
    let rest := skipBlanks rest
    if rest.isEmpty then .ok v else .error (.text .extraData rest.length)

/-- A fault with the line and column that it is at. -/
def locate (cs : List Char) : ReadFault → FormatFault
  | .format f => f
  | .text fault left =>
    let before := cs.take (cs.length - left)
    let column := (before.reverse.takeWhile (· != '\n')).length + 1
    .syntaxAt fault (before.count '\n' + 1) column before.length

end Reader
end Document

/-- The value that a text stands for. -/
def Value.loads (s : String) : Except FormatFault Value :=
  match Document.Reader.readAll s.toList with
  | .ok v => .ok v
  | .error f => .error (Document.Reader.locate s.toList f)

/-- A value as it comes back from storage: written and read once. -/
def Value.clone (v : Value) : Except Failure Value :=
  match v.dumps with
  | .error f => .error (.store f)
  | .ok s =>
    match Value.loads s with
    | .error f => .error (.format f)
    | .ok w => .ok w

end RecordStore
