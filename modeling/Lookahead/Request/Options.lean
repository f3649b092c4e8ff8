import Lookahead.Failure
import Lookahead.FieldTree.Branch
import Lookahead.Value

/-!
# Request.Options — how the requested fields are to be given

Options are a record of loosely typed values, and each of them has a default:

* `path` — the dotted path of the branch that is wanted; by default the whole tree;
* `transform` — new names for fields, or for paths in a projection; by default none;
* `withDirectives` — whether directives are evaluated, which they are by default;
* `skip` — patterns of fields to leave out; by default none;
* `keepParentField` — whether a projection holds the branches too; by default not.

An option is read when it is needed, and only then it matters whether it makes sense.
-/

namespace Lookahead

structure Options where
  path : Value
  transform : Value
  withDirectives : Value
  skip : Value
  keepParentField : Value
  /-- Options without a meaning, kept as they are. -/
  others : List (String × Value)

namespace Options

def pathKey : String := "path"

def transformKey : String := "transform"

def withDirectivesKey : String := "with_directives"

def skipKey : String := "skip"

def keepParentFieldKey : String := "keep_parent_field"

def keys : List String :=
  [pathKey, transformKey, withDirectivesKey, skipKey, keepParentFieldKey]

/-- The options that a record sets, with defaults for the others. -/
def ofFields (fields : List (String × Value)) : Options where
  path := (Value.lookup pathKey fields).getD .null
  transform := ((Value.lookup transformKey fields).getD .null).orElse (.object [])
  withDirectives :=
    match Value.lookup withDirectivesKey fields with
    | none => .bool true
    | some .null => .bool true
    | some value => value
  skip := ((Value.lookup skipKey fields).getD .null).orElse (.array [])
  keepParentField := (Value.lookup keepParentFieldKey fields).getD (.bool false)
  others := fields.filter fun field => !keys.contains field.1

/-- Reads options; absent options are all defaults. -/
def ofValue (value : Value) : Except Failure Options :=
  if value.truthy then
    match value with
    | .object fields => .ok (ofFields fields)
    | _ => .error .optionsNotRecord
  else .ok (ofFields [])

/-- The record of all options, given or not. -/
def toValue (options : Options) : Value :=
  .object <|
    [(pathKey, options.path), (transformKey, options.transform),
      (withDirectivesKey, options.withDirectives), (skipKey, options.skip),
      (keepParentFieldKey, options.keepParentField)] ++ options.others

end Options

/-! ## Reading single options -/

/-- The branch of a tree at a path that may be absent. -/
def FieldTree.branchAt (path : Value) (tree : FieldTree) : Except Failure FieldTree :=
  if path.truthy then
    match path with
    | .text path => .ok (tree.subtree path)
    | _ => .error .pathNotText
  else .ok tree

/-- The label that a transform gives to a name: the name itself, unless there is another. -/
def Value.label (transform : Value) (name : String) : Except Failure Value :=
  match transform.field? name with
  | some value => .ok (value.orElse (.text name))
  | none => .error .transformNotRecord

end Lookahead
