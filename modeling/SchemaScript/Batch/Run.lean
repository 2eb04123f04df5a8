import SchemaScript.Batch.Arguments
import SchemaScript.Batch.Inputs
import SchemaScript.Settings.Basic

/-!
# Runs from a command line

A run on inputs, with settings in documents, for the words of a command line.

* `usageText` — what the program can be told.
* `Stop.outcome` — the outcome of a command line that asks for no run.
-/

set_option autoImplicit false

namespace SchemaScript

/-- What the program can be told. -/
def usageText : String :=
  "Usage: chameleon [OPTIONS] <INPUTS>...\n\n" ++
  "Options:\n" ++
  "  -s, --style <STYLE>          Output dialect (oracle|postgres) [default: oracle]\n" ++
  "  -O, --optimizer <OPTIMIZER>  Optimizer level (none|basic|best) [default: none]\n" ++
  "  -o, --output <OUTPUT>        Output file, or a directory to write one file per input\n" ++
  "  -S, --sort                   Order statements by kind instead of script order\n" ++
  "  -D, --deferrable             Mark foreign keys DEFERRABLE (postgres)\n" ++
  "  -H, --header <HEADER>        File prepended to every output\n" ++
  "  -v, --verbose                Verbose output: optimizer report and info logs\n" ++
  "  -c, --config <CONFIG>        Configuration file [default: ./chameleon.toml]\n" ++
  "      --dump-ast               Print the (optimized) syntax tree as JSON instead of rendering\n" ++
  "  -h, --help                   Print help\n" ++
  "  -V, --version                Print version\n"

/-- The outcome of a command line that asks for no run. -/
def Stop.outcome : Stop → Outcome
  | .usage => { stderr := usageText, code := 2 }
  | .version => { stdout := "chameleon 0.3.0\n" }
  | .help => { stdout := usageText }

end SchemaScript
