import RecordStore.Failure.Basic

/-!
Key paths as arguments, and writing a key into a record. Writing either succeeds as a whole or
refuses the record; mappings that are missing on the way are made.
-/

namespace RecordStore
namespace KeyPath

/-- The paths of a compound key path. -/
def parts : List Value → Except StoreFault (List String)
  | [] => .ok []
  | .text s :: rest => (parts rest).map (s :: ·)
  | _ :: _ => .error .compoundPart

def compoundOf (items : List Value) : Except StoreFault (Option KeyPath) := do
  let paths ← parts items
  if paths.isEmpty then .error .compoundEmpty else .ok (some (compound paths))

/-- The key path that an argument is; null is none. -/
def ofValue : Value → Except StoreFault (Option KeyPath)
  | .null => .ok none
  | .text s => .ok (some (single s))
  | .list items => compoundOf items
  | .tuple items => compoundOf items
  | .bytes b => if b.isEmpty then .error .compoundEmpty else .error .compoundPart
  | _ => .error .keyPathShape

/-- A record after a key is written into it at a single path. -/
def inject (path : String) (key record : Value) : Except StoreFault Value :=
  match place key (segments path) record with
  | some v => .ok v
  | none => .error (.cannotInject path)

def isCompound : KeyPath → Bool
  | compound _ => true
  | single _ => false

end KeyPath
end RecordStore
