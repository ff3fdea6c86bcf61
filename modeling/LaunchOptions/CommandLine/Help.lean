import LaunchOptions.Terminal.Style

/-!
# Help

The texts that tell how the command line is used.

Specification: `SPEC_FULL.md`, section 6.
-/

namespace LaunchOptions.CommandLine.Help

/-- The name and the version of the program. -/
def version : Text := "jvm-options 0.1.0\n".toList

/-- The shape of a command line. -/
def usage : Text := "Usage: jvm-options [OPTIONS] <PATH>\n".toList

/-- Where a reader of an error finds more. -/
def hint : Text :=
  "For more information, try '".toList ++ Terminal.Style.literal.apply "--help".toList ++
    "'.\n".toList

/-- The help on all arguments. -/
def full : Text :=
  "Assemble JVM options from jvm.options and jvm.options.d\n\n".toList ++ usage ++
  ("\nArguments:\n" ++
    "  <PATH>  Configuration root: a directory containing jvm.options, or an options file\n" ++
    "\nOptions:\n" ++
    "      --java-version <VERSION>  Runtime version string used to evaluate version-gated lines " ++
      "(e.g. 17.0.2, 1.8.0_292) [env: JAVA_VERSION=]\n" ++
    "  -s, --substitute <KEY=VALUE>  Extra placeholder binding, repeatable; wins over " ++
      "environment bindings\n" ++
    "  -c, --config <FILE>           Launcher config file (TOML or YAML)\n" ++
    "  -v, --verbose                 Enable verbose logging (sets log level to DEBUG)\n" ++
    "  -h, --help                    Print help\n" ++
    "  -V, --version                 Print version\n").toList

end LaunchOptions.CommandLine.Help
