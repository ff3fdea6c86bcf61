import LaunchOptions.CommandLine.Run

/-!
# The program

The disk and the environment of the process are looked at before a request runs: only the files it
can name and the variables that can matter to it. The request then runs on what was seen. What the
readers of formats say of a text that they refuse, and the calls that led to a failure, are left out
of reports.

Specification: `SPEC_FULL.md`, section 6.
-/

namespace LaunchOptions.Disk

/-- The failure of the operating system in an error. -/
def systemError : IO.Error → SystemError
  | .alreadyExists _ number words | .otherError number words | .resourceBusy number words
  | .resourceVanished number words | .unsupportedOperation number words
  | .hardwareFault number words | .unsatisfiedConstraints number words
  | .illegalOperation number words | .protocolError number words | .timeExpired number words
  | .interrupted _ number words | .noFileOrDirectory _ number words
  | .invalidArgument _ number words | .permissionDenied _ number words
  | .resourceExhausted _ number words | .inappropriateType _ number words
  | .noSuchThing _ number words => ⟨number.toNat, words.toList⟩
  | .unexpectedEof | .userError _ => ⟨5, "Input/output error".toList⟩

/-- Why the operating system does not read a file. -/
def readFailure (e : IO.Error) : ReadFailure :=
  match (systemError e).number with
  | 2 => .notFound
  | 20 => .notDirectory
  | 21 => .isDirectory
  | 36 => .invalidFilename
  | 40 => .filesystemLoop
  | _ => .other (systemError e)

/-- The kind of an entry that is no link. -/
def fileKind : IO.FS.FileType → FileKind
  | .dir => .directory
  | .file => .regular
  | .symlink | .other => .other

/-- What is seen at a path. -/
structure Sight where
  kind? : Option FileKind
  content : Except ReadFailure Bytes
  names : List Text

/-- Look at a path. -/
def look (p : Path) : IO Sight := do
  let file := (← IO.currentDir) / String.ofList p.spelling
  let kind? ← try
      let metadata ← file.metadata
      pure (some (fileKind metadata.type))
    catch _ => pure none
  let content ← try
      let bytes ← IO.FS.readBinFile file
      pure (.ok bytes.toList)
    catch e => pure (.error (readFailure e))
  let names ← try
      let entries ← file.readDir
      pure (entries.toList.map (·.fileName.toList))
    catch _ => pure []
  return ⟨kind?, content, names⟩

/-- The view of what is seen at some paths. -/
def view (paths : List Path) : IO FileView := do
  let seen ← paths.mapM fun p ↦ return (p, ← look p)
  return {
    kind? := fun p ↦ (seen.lookup p).bind Sight.kind?
    read := fun p ↦ ((seen.lookup p).map Sight.content).getD (.error .notFound)
    names := fun p ↦ ((seen.lookup p).map Sight.names).getD [] }

/-- The view of all that a request can depend on. -/
def viewFor (request : CommandLine.Request) : IO FileView := do
  let root := request.path
  let fixed := request.config.toList ++
    [root, root.join Discovery.dropInDirectoryName, root.parent.join Discovery.dropInDirectoryName]
  let outline ← view fixed
  view (fixed ++ Discovery.optionsFiles outline root)

/-- The environment of the process as far as some names go. -/
def environment (names : List Text) : IO Environment := do
  let found ← names.filterMapM fun name ↦ do
    return (← IO.getEnv (String.ofList name)).map fun value ↦ (name, value.toList)
  return .ofList found

/-- The variables that a request can depend on. -/
def variablesOf (request : CommandLine.Request) (view : FileView) : List Text :=
  let names := match Settings.load view request.config with
    | .ok settings => settings.overrideVariables ++ settings.substitutionVariables
    | .error _ => []
  CommandLine.Request.versionVariable :: Environment.backtraceVariables ++ names

/-- All that the outcome of some arguments can depend on. -/
def surroundings (arguments : List Text) : IO (FileView × Environment) := do
  match CommandLine.Invocation.ofArguments arguments with
  | .ok (.run request) =>
    let view ← viewFor request
    return (view, ← environment (variablesOf request view))
  | .ok .help | .ok .version => return (.nothing, .ofList [])
  | .error _ =>
    return (.nothing, ← environment [Terminal.stylesVariable, Terminal.plainVariable])

/-- The outcome of some arguments. -/
def run (arguments : List Text) : IO CommandLine.Outcome := do
  let (view, environment) ← surroundings arguments
  return CommandLine.run view environment arguments

end LaunchOptions.Disk

/-- Run the program; a closed output stream does not change the exit code. -/
def main (arguments : List String) : IO UInt32 := do
  let outcome ← LaunchOptions.Disk.run (arguments.map String.toList)
  try
    (← IO.getStdout).putStr (String.ofList outcome.stdout)
    (← IO.getStderr).putStr (String.ofList outcome.stderr)
  catch _ => pure ()
  return outcome.code.toUInt32
