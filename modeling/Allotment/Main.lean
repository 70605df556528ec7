import Allotment.Simulation.Rollout
/-!
# The simulator's command line

Plays the rolling deploy with the options of the command line and prints what it has come to.
-/

namespace Allotment

/-- How the options are used. -/
def usage : String :=
  "Options: --root TEXT, -n or --block N, --zones N, --round-timeout-ms N, --max-txn-ops N,\n" ++
  "  --repair-budget N, --settle-timeout-secs N, --log-level TEXT, --help, --version"

/-- What is said about a command line without options. -/
def OptionError.message : OptionError → String
  | .unknown => "unexpected argument"
  | .missingValue => "a value is required"
  | .invalidValue => "invalid value"
  | .repeated => "an option cannot be used multiple times"
  | .needlessValue => "unexpected value"
  | .help => usage
  | .version => "0.1.0"

/-- The lines that tell what a rollout has come to. -/
def Summary.lines (s : Summary) : List String :=
  [("adds", s.totals.changes.added), ("removes", s.totals.changes.removed),
    ("packs", s.totals.changes.packed), ("flags", s.totals.changes.flagged),
    ("repairs", s.totals.changes.repaired), ("rounds", s.totals.rounds),
    ("conflicts", s.totals.conflicts), ("stuck", s.stuck)].map fun l =>
      l.1 ++ " " ++ Numeral.text l.2

end Allotment

open Allotment

/-- Plays the rolling deploy. -/
def main (args : List String) : IO UInt32 := do
  match Options.read args with
  | .error .help => IO.println OptionError.help.message; return 0
  | .error .version => IO.println OptionError.version.message; return 0
  | .error e => IO.eprintln ("error: " ++ e.message); return 2
  | .ok options =>
    match Rollout.run options with
    | .error e => IO.eprintln ("Error: " ++ e.message); return 1
    | .ok summary => summary.lines.forM IO.println; return 0
