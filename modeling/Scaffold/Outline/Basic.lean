/-
Scaffold/Outline/Basic.lean

The outline of a source text: its functions, classes and exports.

An outline keeps what a test scaffold needs and nothing else.  Each sequence
is in the order of the source; names may repeat, and a look-up by name finds
the first.  A class keeps its methods, never its constructor.

`Outline.toJson` is the outline as a JSON value, its members in the order of
the fields.
-/
import Scaffold.Json.Printer

namespace Scaffold

/-- A top-level binding that can be called. -/
structure FunctionItem where
  name : String
  parameters : List String
  isAsync : Bool
  offset : Nat
deriving DecidableEq, Repr

structure MethodItem where
  name : String
  parameters : List String
  isAsync : Bool
deriving DecidableEq, Repr

structure ClassItem where
  name : String
  methods : List MethodItem
  offset : Nat
deriving DecidableEq, Repr

/-- A name the module exports, under the name it is imported by. -/
structure ExportItem where
  name : String
  isDefault : Bool
  offset : Nat
deriving DecidableEq, Repr

/-- The functions, classes and exports of one source text. -/
structure Outline where
  functions : List FunctionItem
  classes : List ClassItem
  exports : List ExportItem
deriving DecidableEq, Repr

namespace Outline

def isEmpty (o : Outline) : Bool := o.functions.isEmpty && o.classes.isEmpty && o.exports.isEmpty

/-- The first function of a name. -/
def function? (o : Outline) (name : String) : Option FunctionItem :=
  o.functions.find? (fun f => f.name == name)

/-- The first class of a name. -/
def class? (o : Outline) (name : String) : Option ClassItem :=
  o.classes.find? (fun c => c.name == name)

end Outline

/-! ### As JSON -/

def FunctionItem.toJson (f : FunctionItem) : Json :=
  .object [("name", .string f.name), ("raw_params", .strings f.parameters),
    ("is_async", .bool f.isAsync), ("offset", .nat f.offset)]

def MethodItem.toJson (m : MethodItem) : Json :=
  .object [("name", .string m.name), ("raw_params", .strings m.parameters),
    ("is_async", .bool m.isAsync)]

def ClassItem.toJson (c : ClassItem) : Json :=
  .object [("name", .string c.name), ("methods", .array (c.methods.map MethodItem.toJson)),
    ("offset", .nat c.offset)]

def ExportItem.toJson (e : ExportItem) : Json :=
  .object [("name", .string e.name), ("is_default", .bool e.isDefault), ("offset", .nat e.offset)]

def Outline.toJson (o : Outline) : Json :=
  .object [("functions", .array (o.functions.map FunctionItem.toJson)),
    ("classes", .array (o.classes.map ClassItem.toJson)),
    ("exports", .array (o.exports.map ExportItem.toJson))]

end Scaffold
