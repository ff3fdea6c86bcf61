import LaunchOptions.Environment
import LaunchOptions.Terminal.ControlSequence

/-!
# Styles

Messages mark what they quote by styles, which are control sequences. Unless the environment asks
for styles, what is written is the message without them, and without the control sequences that
quoted texts bring along.
-/

namespace LaunchOptions.Terminal

/-- What a part of a message is. -/
inductive Style where
  /-- The word that begins a message. -/
  | heading
  /-- What is wrong. -/
  | invalid
  /-- What would be right. -/
  | valid
  /-- What is to be typed as it is. -/
  | literal
  deriving DecidableEq, Repr

namespace Style

/-- The sequence that sets a rendition. -/
def rendition (code : String) : Text := '\x1b' :: '[' :: code.toList ++ ['m']

/-- The sequences that begin a style. -/
def start : Style → Text
  | .heading => rendition "1" ++ rendition "31"
  | .invalid => rendition "33"
  | .valid => rendition "32"
  | .literal => rendition "1"

/-- A text in a style. -/
def apply (style : Style) (t : Text) : Text := style.start ++ t ++ rendition "0"

end Style

/-- The variable that asks for styles where no terminal is there. -/
def stylesVariable : Text := "CLICOLOR_FORCE".toList

/-- The variable that refuses styles; its word goes first. -/
def plainVariable : Text := "NO_COLOR".toList

/-- Whether a variable is set to a value that is not empty. -/
def isSet (environment : Environment) (name : Text) : Bool :=
  (environment.get? name).any (· ≠ [])

/-- Whether the environment asks for styles. -/
def wantsStyles (environment : Environment) : Bool :=
  isSet environment stylesVariable && !isSet environment plainVariable

/-- What is written for a message with styles. -/
def written (environment : Environment) (message : Text) : Text :=
  if wantsStyles environment then message else ControlSequence.strip message

end LaunchOptions.Terminal
