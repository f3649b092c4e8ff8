/-!
# Value — loosely typed data handed over by a caller

Options and query variables arrive as plain data whose shape nobody has checked. `Value` holds
that data, and three questions are asked of it:

* `Value.truthy` — is there anything in it?
* `Value.field?` — what does a record hold under a key?
* `Value.sameLabel` — do two values name the same entry of a projection?

A number is kept the way decimal text writes it: a sign, the digits, and how many of them stand
after the point. So zero has a sign too, and `1` and `1.0` are two ways to write one number.
-/

namespace Lookahead

inductive Value
  | null
  | bool (value : Bool)
  | number (negative : Bool) (digits places : Nat)
  | text (value : String)
  | array (items : List Value)
  | object (fields : List (String × Value))
  deriving Inhabited

namespace Value

/-! ## Truth -/

/-- Zero and whatever is empty count as absent; everything else is present. -/
def truthy : Value → Bool
  | null => false
  | bool value => value
  | number _ digits _ => digits != 0
  | text value => value != ""
  | array items => !items.isEmpty
  | object fields => !fields.isEmpty

/-- A value that counts as absent gives way to `fallback`. -/
def orElse (value fallback : Value) : Value :=
  if value.truthy then value else fallback

theorem orElse_of_truthy {value fallback : Value} (h : value.truthy = true) :
    value.orElse fallback = value := by
  simp [orElse, h]

theorem orElse_of_not_truthy {value fallback : Value} (h : value.truthy = false) :
    value.orElse fallback = fallback := by
  simp [orElse, h]

/-! ## Records -/

/-- The value a list of named values holds under `key`, if any. -/
def lookup (key : String) : List (String × Value) → Option Value
  | [] => none
  | (name, value) :: fields => if name = key then some value else lookup key fields

/-- The value of a record under `key`, `null` for a key the record lacks; `none` for a value
which is not a record. -/
def field? (key : String) : Value → Option Value
  | object fields => some ((lookup key fields).getD null)
  | _ => none

theorem field?_object (key : String) (fields : List (String × Value)) :
    (object fields).field? key = some ((lookup key fields).getD null) := rfl

/-! ## Labels -/

/-- The text of a value which is one. -/
def text? : Value → Option String
  | text value => some value
  | _ => none

/-- The number a value stands for, as a fraction of a power of ten: `true` is one and `false` is
zero. -/
def decimal? : Value → Option (Int × Nat)
  | bool value => some (if value then 1 else 0, 0)
  | number negative digits places => some (if negative then -digits else digits, places)
  | _ => none

/-- Two values label the same entry if they are equal texts or equal numbers. -/
def sameLabel : Value → Value → Bool
  | text left, text right => left == right
  | left, right =>
      match left.decimal?, right.decimal? with
      | some (m, d), some (n, e) => m * Int.ofNat (Nat.pow 10 e) == n * Int.ofNat (Nat.pow 10 d)
      | _, _ => false

/-- Whether a value can label an entry. Lists and records cannot, since they may change. -/
def canLabel : Value → Bool
  | array _ => false
  | object _ => false
  | _ => true

end Value

end Lookahead
