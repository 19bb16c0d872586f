import RecordStore.Calendar.IsoText
import RecordStore.Text.Base64
import RecordStore.Value.Literal

/-!
What goes wrong when bytes, text or numbers are turned into values and back. A fault in a document
tells the place where reading stopped.
-/

namespace RecordStore

/-- The classes of failures that are not a store's own, as answers name them. -/
inductive Category where
  | type | value | overflow | index | packing | unicode | system | base64 | document | key
  | member | runtime | lookup | operation
  deriving DecidableEq, Repr

namespace Category

/-- The name of a class with the place it is defined in. -/
def title : Category → String
  | type => "TypeError" | value => "ValueError" | overflow => "OverflowError"
  | index => "IndexError" | packing => "struct.error" | unicode => "UnicodeDecodeError"
  | system => "OSError" | base64 => "binascii.Error" | document => "JSONDecodeError"
  | key => "KeyError" | member => "AttributeError" | runtime => "RuntimeError"
  | lookup => "LookupError" | operation => "OperationalError"

/-- The bare name of a class. -/
def name : Category → String
  | packing => "error"
  | base64 => "Error"
  | c => c.title

end Category

/-- What is wrong with the text of a document. -/
inductive SyntaxFault where
  | value | memberName | colon | comma | extraData | openString | controlCharacter
  | escape | unicodeEscape | byteOrderMark
  deriving DecidableEq, Repr

def SyntaxFault.message : SyntaxFault → String
  | value => "Expecting value"
  | memberName => "Expecting property name enclosed in double quotes"
  | colon => "Expecting ':' delimiter"
  | comma => "Expecting ',' delimiter"
  | extraData => "Extra data"
  | openString => "Unterminated string starting at"
  | controlCharacter => "Invalid control character at"
  | escape => "Invalid \\escape"
  | unicodeEscape => "Invalid \\uXXXX escape"
  | byteOrderMark => "Unexpected UTF-8 BOM (decode using utf-8-sig)"

inductive FormatFault where
  /-- An encoded key ends where a tag or an element should start. -/
  | noByte
  /-- An encoded key ends where a number should start. -/
  | noNumber
  | shortNumber
  | notUtf8
  | nanDate
  /-- An encoded date is beyond what a clock of 64 bits counts in seconds. -/
  | dateBeyondClock
  /-- An encoded date is in a year that no calendar field holds. -/
  | dateBeyondCalendar
  | dateYear (year : Int)
  /-- A whole number is too large to be rounded to a double. -/
  | numberTooLarge
  | infiniteCount
  | countBeyondStorage
  | dateNotText
  | date (text : String) (fault : IsoText.Fault)
  | base64 (fault : Base64.Fault)
  | base64NotAscii
  | base64Kind (k : Kind)
  | notIterable (k : Kind)
  | unhashable (k : Kind)
  | syntaxAt (fault : SyntaxFault) (line column place : Nat)
  | tooManyDigits (count : Nat)

namespace FormatFault

def category : FormatFault → Category
  | noByte | noNumber => .index
  | shortNumber => .packing
  | notUtf8 => .unicode
  | dateBeyondClock | numberTooLarge | infiniteCount | countBeyondStorage => .overflow
  | dateBeyondCalendar => .system
  | dateNotText | base64Kind _ | notIterable _ | unhashable _ => .type
  | base64 _ => .base64
  | syntaxAt _ _ _ _ => .document
  | _ => .value

def yearMessage (year : Int) : String := "year " ++ toString year ++ " is out of range"

def dateMessage (text : String) : IsoText.Fault → String
  | .notIso => "Invalid isoformat string: " ++ Literal.ofText text
  | .year n => yearMessage n
  | .month => "month must be in 1..12"
  | .day => "day is out of range for month"
  | .hour => "hour must be in 0..23"
  | .minute => "minute must be in 0..59"
  | .second => "second must be in 0..59"
  | .offset micros =>
    "offset must be a timedelta strictly between -timedelta(hours=24) and timedelta(hours=24), " ++
      "not " ++ Literal.ofSpan micros ++ "."

/-- The sentence for a fault; a text that is not UTF-8 has none that answers show. -/
def message : FormatFault → String
  | noByte => "index out of range"
  | noNumber => "bytearray index out of range"
  | shortNumber => "unpack requires a buffer of 8 bytes"
  | notUtf8 => ""
  | nanDate => "Invalid value NaN (not a number)"
  | dateBeyondClock => "timestamp out of range for platform time_t"
  | dateBeyondCalendar => "[Errno 75] Value too large for defined data type"
  | dateYear year => yearMessage year
  | numberTooLarge => "int too large to convert to float"
  | infiniteCount => "cannot convert float infinity to integer"
  | countBeyondStorage => "Python int too large to convert to SQLite INTEGER"
  | dateNotText => "fromisoformat: argument must be str"
  | date text fault => dateMessage text fault
  | base64 (.oneOver symbols) =>
    "Invalid base64-encoded string: number of data characters (" ++ toString symbols ++
      ") cannot be 1 more than a multiple of 4"
  | base64 .padding => "Incorrect padding"
  | base64NotAscii => "string argument should contain only ASCII characters"
  | base64Kind k => "argument should be a bytes-like object or ASCII string, not '" ++ k.name ++ "'"
  | notIterable k => "'" ++ k.typeName ++ "' object is not iterable"
  | unhashable k => "unhashable type: '" ++ k.name ++ "'"
  | syntaxAt fault line column place =>
    fault.message ++ ": line " ++ toString line ++ " column " ++ toString column ++ " (char " ++
      toString place ++ ")"
  | tooManyDigits count =>
    "Exceeds the limit (4300 digits) for integer string conversion: value has " ++ toString count ++
      " digits; use sys.set_int_max_str_digits() to increase the limit"

end FormatFault
end RecordStore
