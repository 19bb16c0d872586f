/-!
The names that the members of a session have before any collection gets one. A collection of such
a name cannot have a member of its own.
-/

namespace RecordStore
namespace Member

/-- What a session can be asked to do or to tell. -/
def operations : List String :=
  ["name", "version", "collection_names", "is_closed", "add", "update", "remove", "clear", "get",
    "count", "query", "close", "add_event_listener", "remove_event_listener", "on_abort",
    "on_error", "on_versionchange"]

/-- What a session keeps to itself. -/
def inner : List String :=
  ["_connection", "_registry", "_assert_open", "_resolve", "_call", "_execute_query",
    "_attach_proxies"]

/-- What every object has. -/
def common : List String :=
  ["__aenter__", "__aexit__", "__class__", "__delattr__", "__dict__", "__dir__", "__doc__",
    "__eq__", "__format__", "__ge__", "__getattribute__", "__getstate__", "__gt__", "__hash__",
    "__init__", "__init_subclass__", "__le__", "__lt__", "__module__", "__ne__", "__new__",
    "__reduce__", "__reduce_ex__", "__repr__", "__setattr__", "__sizeof__", "__str__",
    "__subclasshook__", "__weakref__"]

/-- A name that is taken. -/
def isReserved (name : String) : Bool :=
  operations.contains name || inner.contains name || common.contains name

/-- The kind of thing that a member of a taken name is. -/
def kindOf : String → String
  | "name" => "str" | "version" => "int" | "collection_names" => "tuple" | "is_closed" => "bool"
  | "_connection" => "Connection" | "_registry" => "ConnectionRegistry" | "__class__" => "type"
  | "__dict__" => "dict" | "__doc__" | "__module__" => "str" | "__weakref__" => "NoneType"
  | _ => "method"

end Member
end RecordStore
