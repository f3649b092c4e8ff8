import Lookahead.FieldTree.Basic

/-!
# FieldTree.Absorb — a tree that takes in another one

A tree that is being built takes in the entries of another tree one after the other. Each entry
goes where its name already stands, or to the end if the name is new:

* `touch` asks for a name and changes nothing if the name is there;
* `graft` asks for the fields below a name. A leaf becomes a branch, and a branch meets the new
  fields in the way it is told.
-/

namespace Lookahead
namespace FieldTree

def touch (name : String) : FieldTree → FieldTree
  | nil => leaf name nil
  | leaf n rest => if n = name then leaf n rest else leaf n (rest.touch name)
  | branch n children rest =>
      if n = name then branch n children rest else branch n children (rest.touch name)

def graft (name : String) (added : FieldTree) (meet : FieldTree → FieldTree) :
    FieldTree → FieldTree
  | nil => branch name added nil
  | leaf n rest => if n = name then branch n added rest else leaf n (graft name added meet rest)
  | branch n children rest =>
      if n = name then branch n (meet children) rest
      else branch n children (graft name added meet rest)

/-- The tree after it has taken in all entries of `source`, at every level. -/
def absorb (target : FieldTree) : (source : FieldTree) → FieldTree
  | nil => target
  | leaf name rest => (target.touch name).absorb rest
  | branch name children rest =>
      (graft name children (fun current => current.absorb children) target).absorb rest

@[simp]
theorem absorb_nil (tree : FieldTree) : tree.absorb nil = tree := rfl

/-! ## Entries after a change -/

@[simp]
theorem touch_cons (name n : String) (first : Entry) (rest : FieldTree) :
    (cons n first rest).touch name =
      if n = name then cons n first rest else cons n first (rest.touch name) := by
  cases first <;> rfl

/-- The fields below a name after they were grafted. -/
def grafted (added : FieldTree) (meet : FieldTree → FieldTree) : Option Entry → FieldTree
  | some (.branch children) => meet children
  | _ => added

@[simp]
theorem graft_cons (name n : String) (added : FieldTree) (meet : FieldTree → FieldTree)
    (first : Entry) (rest : FieldTree) :
    graft name added meet (cons n first rest) =
      if n = name then cons n (.branch (grafted added meet (some first))) rest
      else cons n first (graft name added meet rest) := by
  cases first <;> rfl

end FieldTree
end Lookahead
