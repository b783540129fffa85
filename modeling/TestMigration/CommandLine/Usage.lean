/-!
# Usage texts

What the command line says about itself.
-/

namespace TestMigration

namespace Command

def versionText : String := "remold 0.3.0\n"

/-- How the program is called. -/
def usageText : String := "Usage: remold [OPTIONS] <PATH>\n       remold <COMMAND>\n"

def helpText : String :=
  "Rewrite legacy should/chai, mocha and sinon test code to node:assert and node:test\n\n"
  ++ usageText
  ++ "\nCommands:\n"
  ++ "  init  Create .remoldrc.json with sensible defaults\n"
  ++ "  help  Print this message or the help of the given subcommand(s)\n"
  ++ "\nArguments:\n"
  ++ "  <PATH>  Test file or directory to migrate (omit when using a subcommand)\n"
  ++ "\nOptions:\n"
  ++ "  -m, --migrate <MIGRATIONS>  "
  ++ "Migrations to run (default: all, or the config's selection)\n"
  ++ "  -w, --write                 Write changed files back to disk (default: dry run)\n"
  ++ "      --check                 Exit with code 1 if any file would change\n"
  ++ "      --print                 Print the rewritten source of a single file to stdout\n"
  ++ "  -j, --json                  Output format as JSON\n"
  ++ "  -q, --quiet                 Quiet mode (only list changed files)\n"
  ++ "  -v, --verbose               Verbose output (also enables debug logging)\n"
  ++ "      --config <CONFIG>       "
  ++ "Path to config file (default: search .remoldrc.json in current dir and parents)\n"
  ++ "      --parallel              "
  ++ "Migrate files in parallel (default for more than ten files)\n"
  ++ "      --jobs <N>              "
  ++ "Number of parallel threads (default: number of CPU cores)\n"
  ++ "  -h, --help                  Print help\n"
  ++ "  -V, --version               Print version\n"

/-- The options of the subcommand that makes a configuration. -/
def initHelpText : String :=
  "Create .remoldrc.json with sensible defaults\n\n"
  ++ "Usage: remold init [OPTIONS]\n"
  ++ "\nOptions:\n"
  ++ "      --dir <DIR>          Directory in which to create config (default: current)\n"
  ++ "      --migrate <MIGRATE>  Migrations to enable (default: all)\n"
  ++ "  -h, --help               Print help\n"

end Command

end TestMigration
