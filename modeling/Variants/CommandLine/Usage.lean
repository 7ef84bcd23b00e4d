import Variants.Text.Basic

/-!
# How the program is used

The two texts that tell how the program is called: the short one stands before the message of a
refused command line, the long one answers a request for help.
-/

namespace Variants.CommandLine

/-- The short text. -/
def usage : Text :=
  ("usage: varpp [-h] [-c CONFIGS] [-j JOBS] [--no-macros] [--list-configs]\n" ++
    "             [--dump-processed] [--format \x7btext,json\x7d]\n" ++
    "             [--diag-format \x7bhuman,json\x7d]\n" ++
    "             [--log-level \x7bDEBUG,INFO,WARNING,ERROR\x7d]\n" ++
    "             input\n").toList

/-- What the long text adds to the short one. -/
def description : Text :=
  ("\n" ++
    "Split C/C++ source into one directive-free variant per configuration.\n" ++
    "\n" ++
    "positional arguments:\n" ++
    "  input                 path to a source file, or - to read from stdin\n" ++
    "\n" ++
    "options:\n" ++
    "  -h, --help            show this help message and exit\n" ++
    "  -c CONFIGS, --config CONFIGS\n" ++
    "                        only emit this configuration key (repeatable, '' for\n" ++
    "                        the baseline)\n" ++
    "  -j JOBS, --jobs JOBS  number of worker threads used to select configurations\n" ++
    "  --no-macros           drop #define lines without substituting the macros\n" ++
    "  --list-configs        print the configuration keys instead of the code\n" ++
    "  --dump-processed      print the cleaned, macro-expanded text before\n" ++
    "                        selection\n" ++
    "  --format \x7btext,json\x7d  output format\n" ++
    "  --diag-format \x7bhuman,json\x7d\n" ++
    "                        diagnostic output format\n" ++
    "  --log-level \x7bDEBUG,INFO,WARNING,ERROR\x7d\n" ++
    "                        logging threshold for messages written to stderr\n").toList

/-- The long text. -/
def help : Text := usage ++ description

end Variants.CommandLine
