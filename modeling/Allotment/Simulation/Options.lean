import Allotment.Text.Numeral
/-!
# Options of a simulation

Options are read from the words of a command line. An option is given at most once, as
`--name value` or `--name=value`, and the block size also as `-n value`, `-nvalue` or `-n=value`. A
word that starts with a dash is never the value of the option before it, unless the dash is all of
it. A value that stands in a word of its own is looked at only when the next option is read, so that
an unknown word behind it is reported instead.
-/

namespace Allotment

/-- What can be chosen for a simulation. -/
structure Options where
  root : String
  /-- How many members join and leave in one step. -/
  block : Nat
  /-- The number of zones that the members are spread over. -/
  zones : Nat
  /-- How long an idle allocator waits, in milliseconds. -/
  roundTimeout : Nat
  /-- How long the cluster may take to settle, in seconds. -/
  settleTimeout : Nat
  /-- Writes in a transaction. -/
  maxWrites : Nat
  /-- Repairs in a round, and separately moves between zones. -/
  repairs : Nat
  logLevel : String
  deriving DecidableEq, Repr, Inhabited

/-- What can be chosen by a value. -/
inductive Setting where
  | root
  | block
  | zones
  | roundTimeout
  | settleTimeout
  | maxWrites
  | repairs
  | logLevel
  deriving DecidableEq, Repr

/-- Why a command line has no options. -/
inductive OptionError where
  | unknown
  | missingValue
  | invalidValue
  /-- An option is given twice. -/
  | repeated
  /-- A value stands behind an option that takes none. -/
  | needlessValue
  | help
  | version
  deriving DecidableEq, Repr

namespace Options

/-- The options that hold if none is given. -/
def standard : Options :=
  { root := "/keyalloc"
    block := 1
    zones := 3
    roundTimeout := 1000
    settleTimeout := 300
    maxWrites := 128
    repairs := 32
    logLevel := "info" }

end Options

namespace Setting

/-- The long names of the settings. -/
def ofName? : String → Option Setting
  | "root" => some .root
  | "block" => some .block
  | "zones" => some .zones
  | "round-timeout-ms" => some .roundTimeout
  | "settle-timeout-secs" => some .settleTimeout
  | "max-txn-ops" => some .maxWrites
  | "repair-budget" => some .repairs
  | "log-level" => some .logLevel
  | _ => none

/-- Numbers on the command line have 64 bits. -/
def number (value : String) : Except OptionError Nat :=
  (Numeral.read UInt64.size value.toList).mapError fun _ => .invalidValue

/-- Some options with one of them changed. -/
def assign (o : Options) (value : String) : Setting → Except OptionError Options
  | .root => .ok { o with root := value }
  | .block => (number value).map fun n => { o with block := n }
  | .zones => (number value).map fun n => { o with zones := n }
  | .roundTimeout => (number value).map fun n => { o with roundTimeout := n }
  | .settleTimeout => (number value).map fun n => { o with settleTimeout := n }
  | .maxWrites => (number value).map fun n => { o with maxWrites := n }
  | .repairs => (number value).map fun n => { o with repairs := n }
  | .logLevel => .ok { o with logLevel := value }

end Setting

/-- How far a command line has been read. -/
structure Reader where
  options : Options
  /-- The settings that have been given. -/
  given : List Setting
  /-- The last setting with the value that follows it, if one does, not looked at yet. -/
  pending : Option (Setting × Option String)

namespace Reader

/-- Takes over a value. -/
def set (r : Reader) (s : Setting) (value : String) : Except OptionError Reader :=
  if r.given.contains s then .error .repeated
  else (s.assign r.options value).map fun o => { r with options := o, given := s :: r.given }

/-- Takes over the pending setting. -/
def resolve (r : Reader) : Except OptionError Reader :=
  let rest := { r with pending := none }
  match r.pending with
  | none => .ok rest
  | some (_, none) => .error .missingValue
  | some (s, some value) => rest.set s value

/-- Reads a setting, perhaps with a value in the same word. -/
def setting (r : Reader) (s : Setting) (value : Option String) : Except OptionError Reader :=
  r.resolve.bind fun r =>
    match value with
    | some v => r.set s v
    | none => .ok { r with pending := some (s, none) }

/-- Reads a request for a message, which ends the reading. -/
def request (r : Reader) (e : OptionError) (attached : Bool) : Except OptionError Reader :=
  if attached then .error .needlessValue else r.resolve.bind fun _ => .error e

/-- Reads a word behind its two dashes. -/
def long (r : Reader) (word : List Char) : Except OptionError Reader :=
  let name := String.ofList (word.takeWhile (· != '='))
  let value := match word.dropWhile (· != '=') with
    | [] => none
    | _ :: v => some (String.ofList v)
  if name = "help" then r.request .help value.isSome
  else if name = "version" then r.request .version value.isSome
  else
    match Setting.ofName? name with
    | some s => r.setting s value
    | none => .error .unknown

/-- Reads a word behind its single dash. -/
def short (r : Reader) : List Char → Except OptionError Reader
  | 'h' :: _ => r.request .help false
  | 'V' :: _ => r.request .version false
  | ['n'] => r.setting .block none
  | 'n' :: '=' :: v => r.setting .block (some (String.ofList v))
  | 'n' :: v => r.setting .block (some (String.ofList v))
  | _ => .error .unknown

/-- Reads a word that is no option. -/
def plain (r : Reader) (word : String) : Except OptionError Reader :=
  match r.pending with
  | some (s, none) => .ok { r with pending := some (s, some word) }
  | _ => .error .unknown

/-- Reads one word. -/
def word (r : Reader) (w : String) : Except OptionError Reader :=
  match w.toList with
  | '-' :: '-' :: cs => r.long cs
  | '-' :: c :: cs => r.short (c :: cs)
  | _ => r.plain w

/-- Reads some words. Behind the word `--` no options follow, and there is nothing else to give. -/
def words (r : Reader) : List String → Except OptionError Reader
  | [] => r.resolve
  | "--" :: rest => if rest.isEmpty then r.resolve else .error .unknown
  | w :: rest => (r.word w).bind fun r => r.words rest

end Reader

/-- The options on a command line. -/
def Options.read (words : List String) : Except OptionError Options :=
  (Reader.words ⟨standard, [], none⟩ words).map (·.options)

end Allotment
