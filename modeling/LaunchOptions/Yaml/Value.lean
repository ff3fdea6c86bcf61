import LaunchOptions.Text.Binary64

/-!
# YAML values

What a document means. A mapping keeps its entries in the order in which they are written, but two
mappings with the same entries are the same value.
-/

namespace LaunchOptions.Yaml

/-- A number. -/
inductive Number where
  | integer (value : Int)
  /-- A finite double; zero is not negative. -/
  | real (negative : Bool) (magnitude : Text.Binary64)
  | infinite (negative : Bool)
  | notANumber
  deriving DecidableEq, Repr

/-- A value. -/
inductive Value where
  | null
  | boolean (b : Bool)
  | number (n : Number)
  | string (t : Text)
  | sequence (items : List Value)
  | mapping (entries : List (Value × Value))
  /-- A value with a tag of the application, without its `!`. -/
  | tagged (tag : Text) (value : Value)

/-- What two tags of the application are compared by: a `!` before other characters does not
count. -/
def tagName : Text → Text
  | '!' :: c :: rest => c :: rest
  | tag => tag

namespace Value

mutual

/-- Whether two values are the same; the order of the entries of mappings does not count. -/
def same : Value → Value → Bool
  | .null, .null => true
  | .boolean a, .boolean b => a = b
  | .number a, .number b => a = b
  | .string a, .string b => a = b
  | .sequence a, .sequence b => sameItems a b
  | .mapping a, .mapping b => a.length = b.length && sameEntries a b
  | .tagged t a, .tagged u b => tagName t = tagName u && same a b
  | _, _ => false

/-- Whether two lists of values are the same. -/
def sameItems : List Value → List Value → Bool
  | [], [] => true
  | a :: as, b :: bs => same a b && sameItems as bs
  | _, _ => false

/-- Whether some entries are all found among others. -/
def sameEntries : List (Value × Value) → List (Value × Value) → Bool
  | [], _ => true
  | (k, v) :: rest, entries =>
    entries.any (fun e ↦ same k e.1 && same v e.2) && sameEntries rest entries

end

/-- The value without the tags around it. -/
def untagged : Value → Value
  | .tagged _ v => untagged v
  | v => v

/-- Whether a value is a given string, without a tag. -/
def isString (t : Text) : Value → Bool
  | .string s => s = t
  | _ => false

/-- The value of a string key of a mapping; tags of the mapping do not count. -/
def field? (key : Text) (v : Value) : Option Value :=
  match v.untagged with
  | .mapping entries => (entries.find? (fun e ↦ isString key e.1)).map Prod.snd
  | _ => none

end Value

end LaunchOptions.Yaml
