import MemoTree.Config.Basic
import MemoTree.Json.Reader

/-! # Reading configurations

A configuration is written as a JSON object or as an array of its fields in order. What is missing keeps its
default. Members of other names do not count, but a field given twice, an item too many, or a value that does
not fit its field is refused. -/

namespace MemoTree
namespace Config

/-- The fields of a configuration. -/
inductive Field where
  | blockBytes
  | pairs
  | reserve
  | blockLimit
  | memoize
  deriving DecidableEq

namespace Field

/-- The fields in the order in which an array gives them. -/
def all : List Field := [blockBytes, pairs, reserve, blockLimit, memoize]

/-- The name of a field's member. -/
def name : Field → String
  | blockBytes => "node_bytes"
  | pairs => "pairs_per_node"
  | reserve => "pool_capacity_hint"
  | blockLimit => "max_blocks"
  | memoize => "cache_enabled"

/-- The field whose member has a name. -/
def named? (n : List Char) : Option Field := all.find? fun f => f.name.toList = n

end Field

/-- A word, or nothing where `null` is written. -/
def optionalWord? : Json → Option (Option Word)
  | .null => some none
  | json => json.word?.map some

/-- The configuration with one field set, if the value fits. -/
def set? (c : Config) (field : Field) (json : Json) : Option Config :=
  match field with
  | .blockBytes => json.word?.map fun n => { c with blockBytes := n }
  | .pairs => (optionalWord? json).map fun n => { c with pairs := n }
  | .reserve => json.word?.map fun n => { c with reserve := n }
  | .blockLimit => (optionalWord? json).map fun n => { c with blockLimit := n }
  | .memoize => json.bool?.map fun b => { c with memoize := b }

/-- Sets the fields of an array's items, in order. -/
def ofItems? : List Field → List Json → Config → Option Config
  | _, [], c => some c
  | [], _ :: _, _ => none
  | field :: fields, item :: items, c => do ofItems? fields items (← c.set? field item)

/-- Sets the fields of an object's members; `seen` are the fields set before. -/
def ofMembers? : (seen : List Field) → List (List Piece × Json) → Config → Option Config
  | _, [], c => some c
  | seen, (name, json) :: members, c => do
    match Field.named? (← Piece.decode? name) with
    | none => ofMembers? seen members c
    | some field =>
      if field ∈ seen then none
      ofMembers? (field :: seen) members (← c.set? field json)

/-- The configuration that a JSON value gives. -/
def ofJson? : Json → Option Config
  | .array items => ofItems? Field.all items {}
  | .object members => ofMembers? [] members {}
  | _ => none

/-- The configuration that a JSON text gives. -/
def read? (text : String) : Option Config := do ofJson? (← Json.read text)

end Config
end MemoTree
