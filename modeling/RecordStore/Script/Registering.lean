import RecordStore.Registry
import RecordStore.Script.Report

/-!
Scripts that only drive a registry. Their connections have nothing behind them: they have a key
and can be closed. Every step tells the keys that are registered after it.
-/

namespace RecordStore
namespace Script

inductive RegistryStep where
  /-- A connection is made with a name and a version where it is first used. -/
  | insert (connection name : String) (version : Argument)
  | get (name : String) (version : Argument)
  | evict (name : String) (version : Argument) (connection : Option String)
  | close (connection : String)
  | contains (name : String) (version : Argument)

/-- A connection of such a script. -/
structure Stub where
  name : String
  key : RegistryKey
  isClosed : Bool

structure Registering where
  registry : Registry
  stubs : List Stub

namespace Registering

def empty : Registering := ⟨.empty, []⟩

/-- The number of the connection of a name. -/
def place? (r : Registering) (name : String) : Option Nat :=
  r.stubs.findIdx? (·.name == name)

def isClosed (r : Registering) (place : Nat) : Bool :=
  (r.stubs[place]?.map Stub.isClosed).getD true

/-- The number of a connection, which is made if it is not there. -/
def obtain (r : Registering) (name : String) (key : RegistryKey) : Nat × Registering :=
  match r.place? name with
  | some place => (place, r)
  | none => (r.stubs.length, { r with stubs := r.stubs ++ [⟨name, key, false⟩] })

/-- The name of a connection. -/
def shown (r : Registering) : Option Nat → Report
  | none => .nothing
  | some place => ((r.stubs[place]?).map fun s => Report.text s.name).getD .nothing

/-- A key that can be one. -/
def keyOf (name : String) (version : Argument) : Except Failure RegistryKey := do
  let version ← version
  let key : RegistryKey := ⟨name, version⟩
  key.check
  .ok key

/-- Carries out a step. -/
def perform (r : Registering) : RegistryStep → Except Failure Report × Registering
  | .insert name keyName version =>
    match version with
    | .error f => (.error f, r)
    | .ok version =>
      let (place, r) := r.obtain name ⟨keyName, version⟩
      let key := ((r.stubs[place]?).map Stub.key).getD ⟨keyName, version⟩
      match key.check with
      | .error f => (.error f, r)
      | .ok () =>
        let (owner, registry) := r.registry.insert r.isClosed key place
        let r := { r with registry := registry }
        (.ok (r.shown (some owner)), r)
  | .get name version =>
    match keyOf name version with
    | .error f => (.error f, r)
    | .ok key =>
      let (found, registry) := r.registry.get r.isClosed key
      let r := { r with registry := registry }
      (.ok (r.shown found), r)
  | .evict name version connection =>
    match keyOf name version, connection.map fun c => (c, r.place? c) with
    | .error f, _ => (.error f, r)
    | .ok _, some (c, none) => (.error (.noHandle c), r)
    | .ok key, c =>
      let (evicted, registry) := r.registry.evict key (c.bind Prod.snd)
      (.ok (.flag evicted), { r with registry := registry })
  | .close name =>
    match r.place? name, (r.place? name).bind fun place => r.stubs[place]? with
    | some place, some stub =>
      if stub.isClosed then (.error .sessionClosed, r)
      else (.ok .nothing, { r with stubs := r.stubs.set place { stub with isClosed := true } })
    | _, _ => (.error (.noHandle name), r)
  | .contains name version =>
    match keyOf name version with
    | .error f => (.error f, r)
    | .ok key => (.ok (.flag (r.registry.contains key)), r)

/-- The keys that are registered, and their number. -/
def keysReport (r : Registry) : List (String × Report) :=
  [("keys", .list (r.keys.map fun k => .list [.text k.name, .value k.version])),
    ("len", .number r.entries.length)]

/-- What a step answers. -/
def answer (r : Registering) (step : RegistryStep) : Except Failure Report × Registering :=
  match r.perform step with
  | (.error f, r) => (.error f, r)
  | (.ok report, r) => (.ok (.fields (("ok", report) :: keysReport r.registry)), r)

/-- The answers of a script, which starts with an empty registry. -/
def run (steps : List RegistryStep) : List (Except Failure Report) :=
  (steps.foldl (fun (answers, r) step =>
    let (a, r) := r.answer step
    (answers ++ [a], r)) ([], empty)).1

end Registering
end Script
end RecordStore
