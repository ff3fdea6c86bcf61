import LaunchOptions.OrderedMap
import LaunchOptions.Text.Basic

/-!
# Placeholders

`${key}` in an option stands for the value bound to `key`. The bound keys are replaced one after
another in key order, each from left to right; a placeholder without a binding stays.

Specification: `SPEC_FULL.md`, section 4.3.
-/

namespace LaunchOptions

/-- The values of placeholders by key. -/
abbrev Bindings := OrderedMap Text Text

namespace Placeholder

/-- The text of a placeholder. -/
def ofKey (key : Text) : Text := '$' :: '{' :: (key ++ ['}'])

/-- A placeholder is not empty. -/
theorem ofKey_ne_nil (key : Text) : ofKey key ≠ [] := by simp [ofKey]

/-- Replace the occurrences of `pattern`, from left to right and without overlap, after `skip`
characters that are passed over. -/
def replaceAfter (pattern value : Text) : Nat → Text → Text
  | _, [] => []
  | skip + 1, _ :: rest => replaceAfter pattern value skip rest
  | 0, c :: rest =>
    if pattern.isPrefixOf (c :: rest) then
      value ++ replaceAfter pattern value (pattern.length - 1) rest
    else c :: replaceAfter pattern value 0 rest

/-- Replace the occurrences of `pattern`, from left to right and without overlap. -/
def replace (pattern value : Text) (t : Text) : Text :=
  replaceAfter pattern value 0 t

/-- Whether some `${` is followed by a `}` later on. -/
def occursIn : Text → Bool
  | '$' :: '{' :: rest => rest.contains '}'
  | _ :: rest => occursIn rest
  | [] => false

/-- Replace the placeholders of some keys in a text, one key after another. -/
def replaceEach (entries : List (Text × Text)) (t : Text) : Text :=
  entries.foldl (fun t binding ↦ replace (ofKey binding.1) binding.2 t) t

/-- The placeholders of the first key are replaced first. -/
@[simp] theorem replaceEach_cons (binding : Text × Text) (entries : List (Text × Text)) (t : Text) :
    replaceEach (binding :: entries) t =
      replaceEach entries (replace (ofKey binding.1) binding.2 t) := rfl

/-- The placeholders of later keys are replaced in what comes of the earlier ones. -/
theorem replaceEach_append (earlier later : List (Text × Text)) (t : Text) :
    replaceEach (earlier ++ later) t = replaceEach later (replaceEach earlier t) :=
  List.foldl_append

/-- An option with its bound placeholders replaced in the order of the keys; one without
placeholders is left alone.
`SPEC_FULL.md`, section 4.3. -/
def substitute (bindings : Bindings) (option : Text) : Text :=
  if occursIn option then replaceEach bindings.toList option else option

end Placeholder

end LaunchOptions
