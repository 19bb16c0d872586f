import RecordStore.Failure.Basic
import RecordStore.Value.Equality

/-!
A registry of open connections, so that whoever opens a store at a version can share the
connection that is there. It has at most one connection for a name and a version; versions are the
same when they are equal as values. A connection that was closed without being taken out is
dropped when it is next asked for.
-/

namespace RecordStore

/-- What a connection is registered under. -/
structure RegistryKey where
  name : String
  version : Value

/-- Connections in the order in which they were registered. -/
structure Registry where
  entries : List (RegistryKey × Nat)

namespace RegistryKey

def same (a b : RegistryKey) : Bool := a.name == b.name && a.version.equals b.version

/-- Refuses a version that can be in no key. -/
def check (k : RegistryKey) : Except Failure Unit :=
  match k.version.unhashable? with
  | some kind => .error (.format (.unhashable kind))
  | none => .ok ()

end RegistryKey

namespace Registry

def empty : Registry := ⟨[]⟩

instance : Inhabited Registry := ⟨empty⟩

/-- The connection that is registered under a key. -/
def find? (r : Registry) (k : RegistryKey) : Option Nat :=
  (r.entries.find? fun e => e.1.same k).map Prod.snd

def remove (r : Registry) (k : RegistryKey) : Registry :=
  ⟨r.entries.filter fun e => !e.1.same k⟩

def contains (r : Registry) (k : RegistryKey) : Bool := (r.find? k).isSome

/-- The open connection under a key, and the registry without one that is closed. -/
def get (r : Registry) (isClosed : Nat → Bool) (k : RegistryKey) : Option Nat × Registry :=
  match r.find? k with
  | none => (none, r)
  | some c => if isClosed c then (none, r.remove k) else (some c, r)

/-- Registers a connection, unless an open one has its key: the owner of the key, and the
registry. -/
def insert (r : Registry) (isClosed : Nat → Bool) (k : RegistryKey) (connection : Nat) :
    Nat × Registry :=
  match r.get isClosed k with
  | (some owner, r) => (owner, r)
  | (none, r) => (connection, ⟨r.entries ++ [(k, connection)]⟩)

/-- Takes out what is under a key; with a connection given, only if it is that one. -/
def evict (r : Registry) (k : RegistryKey) (connection : Option Nat) : Bool × Registry :=
  match r.find? k with
  | none => (false, r)
  | some owner =>
    if connection.any (· != owner) then (false, r) else (true, r.remove k)

def keys (r : Registry) : List RegistryKey := r.entries.map Prod.fst

end Registry
end RecordStore
