import RecordStore.Failure.Basic
import RecordStore.Text.Blank
import RecordStore.Text.PercentEncoded

/-!
Settings: the directory that stores are kept in, and how connections to them are tuned. Settings
are given by name or taken from variables of an environment; each is checked by itself, and all
that are refused are reported. A store's file lies in the directory under the percent-encoded name
of the store.
-/

namespace RecordStore

inductive JournalMode where
  | delete | truncate | persist | memory | wal | off
  deriving DecidableEq, Repr

namespace JournalMode

def name : JournalMode → String
  | delete => "DELETE" | truncate => "TRUNCATE" | persist => "PERSIST" | memory => "MEMORY"
  | wal => "WAL" | off => "OFF"

def all : List JournalMode := [delete, truncate, persist, memory, wal, off]

end JournalMode

inductive Synchronous where
  | off | normal | full | extra
  deriving DecidableEq, Repr

namespace Synchronous

def name : Synchronous → String
  | off => "OFF" | normal => "NORMAL" | full => "FULL" | extra => "EXTRA"

def all : List Synchronous := [off, normal, full, extra]

end Synchronous

structure Config where
  directory : String
  /-- How long a connection waits for another one, in milliseconds. -/
  busyTimeout : Nat
  journalMode : JournalMode
  synchronous : Synchronous

/-- Why a setting is refused. -/
inductive SettingReason where
  | notText
  | textNotUtf8
  | notWhole
  | notNumeric
  | notFinite
  | fractional
  | negative
  | choice (choices : List String) (given : Value)

/-- A setting that is refused. -/
structure SettingFault where
  setting : String
  reason : SettingReason

namespace SettingFault

/-- The name of the reason. -/
def type (f : SettingFault) : String :=
  match f.reason with
  | .notText => "string_type" | .textNotUtf8 => "string_unicode" | .notWhole => "int_type"
  | .notNumeric => "int_parsing" | .notFinite => "finite_number" | .fractional => "int_from_float"
  | .negative => "greater_than_equal" | .choice _ _ => "value_error"

/-- The sentence for a value that is none of the choices. -/
def message? (f : SettingFault) : Option String :=
  match f.reason with
  | .choice choices given =>
    some ("Value error, " ++ f.setting ++ " must be one of " ++ ", ".intercalate choices ++
      ", got " ++ given.literal)
  | _ => none

end SettingFault

namespace Config

def directorySetting : String := "data_dir"
def timeoutSetting : String := "busy_timeout_ms"
def journalSetting : String := "journal_mode"
def synchronousSetting : String := "synchronous"

/-- The current directory, which is written by a mark of its own. -/
def currentDirectory : String := "<cwd>"

/-- The ending of a store's file. -/
def fileEnding : String := ".kvdb"

def defaultTimeout : Nat := 5000

/-- A character in upper case, if that is ASCII, and else the character itself. -/
def upper (c : Char) : List Char :=
  match c.toNat with
  | 0xdf => ['S', 'S'] | 0x131 => ['I'] | 0x17f => ['S']
  | 0xfb00 => ['F', 'F'] | 0xfb01 => ['F', 'I'] | 0xfb02 => ['F', 'L']
  | 0xfb03 => ['F', 'F', 'I'] | 0xfb04 => ['F', 'F', 'L'] | 0xfb05 => ['S', 'T']
  | 0xfb06 => ['S', 'T']
  | _ => [c.toUpper]

/-- A value as the name of a choice: its display without blanks around it, in upper case. -/
def choiceName (v : Value) : String :=
  String.ofList ((Blank.trim Blank.isBlank v.display.toList).flatMap upper)

/-- One of some choices. -/
def chooseFrom {α : Type} (all : List α) (name : α → String) (v : Value) : Except SettingReason α :=
  match all.find? fun a => name a == choiceName v with
  | some a => .ok a
  | none => .error (.choice (all.map name) v)

/-- Reads digits; single underscores may stand between them. -/
def digits? : Nat → List Char → Option Nat
  | n, [] => some n
  | n, '_' :: c :: rest => if c.isDigit then digits? (n * 10 + (c.toNat - 48)) rest else none
  | n, c :: rest => if c.isDigit then digits? (n * 10 + (c.toNat - 48)) rest else none

/-- Reads digits, of which there must be some, and zeros after a point. -/
def magnitude? (cs : List Char) : Option Nat :=
  let whole := cs.takeWhile (· != '.')
  let rest := cs.drop (whole.length + 1)
  match whole with
  | [] => none
  | c :: _ => if c.isDigit && rest.all (· == '0') then digits? 0 whole else none

/-- Reads a whole number with blanks around it and a sign before it. -/
def readInt (cs : List Char) : Option Int :=
  match Blank.trim Blank.isWhiteSpace cs with
  | '-' :: rest => (magnitude? rest).map fun n => -(n : Int)
  | '+' :: rest => (magnitude? rest).map Int.ofNat
  | cs => (magnitude? cs).map Int.ofNat

/-- The whole number that a setting is. -/
def wholeOf : Value → Except SettingReason Int
  | .int n => .ok n
  | .bool b => .ok (if b then 1 else 0)
  | .float x =>
    if x.isNaN || x.isInfinite then .error .notFinite
    else if x.isIntegral then .ok x.truncate
    else .error .fractional
  | .text s => (readInt s.toList).elim (.error .notNumeric) .ok
  | .bytes b =>
    ((Utf8.decode? b).bind fun s => readInt s.toList).elim (.error .notNumeric) .ok
  | _ => .error .notWhole

def timeoutOf (v : Value) : Except SettingReason Nat := do
  let n ← wholeOf v
  if n < 0 then .error .negative else .ok n.toNat

/-- The directory that a setting names; what does not count as true is the current one. -/
def directoryOf (v : Value) : Except SettingReason String :=
  if !v.isTrue then .ok currentDirectory
  else match v with
    | .text s => .ok s
    | .bytes b => (Utf8.decode? b).elim (.error .textNotUtf8) .ok
    | _ => .error .notText

/-- A setting by its name; the last one given counts. -/
def given? (settings : List (String × Value)) (name : String) : Option Value :=
  settings.reverse.lookup name

/-- A setting that is checked, or its default when it is not given. -/
def setting {α : Type} (settings : List (String × Value)) (name : String)
    (read : Value → Except SettingReason α) (fallback : α) : Except SettingFault α :=
  match given? settings name with
  | none => .ok fallback
  | some v =>
    match read v with
    | .ok a => .ok a
    | .error r => .error ⟨name, r⟩

/-- The fault of a setting, if it has one. -/
def faultOf {α : Type} : Except SettingFault α → List SettingFault
  | .ok _ => []
  | .error f => [f]

/-- Checks settings, in the order of their names; others than the known ones are ignored. -/
def ofSettings (settings : List (String × Value)) : Except (List SettingFault) Config :=
  let timeout := setting settings timeoutSetting timeoutOf defaultTimeout
  let directory := setting settings directorySetting directoryOf currentDirectory
  let journal :=
    setting settings journalSetting (chooseFrom JournalMode.all JournalMode.name) .wal
  let synchronous :=
    setting settings synchronousSetting (chooseFrom Synchronous.all Synchronous.name) .normal
  match timeout, directory, journal, synchronous with
  | .ok t, .ok d, .ok j, .ok s => .ok ⟨d, t, j, s⟩
  | t, d, j, s => .error (faultOf t ++ faultOf d ++ faultOf j ++ faultOf s)

/-- The setting that a variable is for: what follows the mark in its name, in lower case.
Variables without the mark and empty ones are for none. -/
def ofVariable (mark name : String) (v : Value) : Option (String × Value) :=
  let isEmpty := match v with
    | .text s => s == ""
    | _ => false
  if name.startsWith mark && !isEmpty then
    some ((name.drop mark.length).toString.map Char.toLower, v)
  else none

/-- Takes settings from those variables of an environment whose names begin with a mark. -/
def ofEnvironment (mark : String) (environment : List (String × Value)) :
    Except (List SettingFault) Config :=
  ofSettings (environment.filterMap fun (name, v) => ofVariable mark name v)

/-- A directory and a component of a path in it as one path, with a slash between them where there is
a directory that does not end with one. -/
def join (directory component : String) : String :=
  if directory = "" || directory.endsWith "/" then directory ++ component
  else directory ++ "/" ++ component

/-- The name of a store's file. -/
def fileName (name : String) : String := String.ofList (PercentEncoded.encode name) ++ fileEnding

/-- The file of a store in a directory. -/
def place (directory name : String) : String := join directory (fileName name)

/-- The file of a store; its name must be a text that is not empty. -/
def pathFor (c : Config) (name : Value) : Except Failure String :=
  match name with
  | .text s => if s = "" then .error (.argument .storeName) else .ok (place c.directory s)
  | _ => .error (.argument .storeName)

end Config
end RecordStore
