/-!
# Flags and commands

The words that the command line knows: commands, one of which says what is asked for, and flags, some
of which take values. Some flags are common to all commands and may stand before them too.
-/

namespace CodeAtlas.CommandLine

inductive Flag where
  | input
  | config
  | verbose
  | version
  | help
  /-- How the names of the symbols begin that are asked for. -/
  | start
  | path
  | offset
  | line
  | character
deriving DecidableEq

/-- How many values a flag takes. -/
inductive Takes where
  | nothing
  | one
  /-- One or more, and again with each use of the flag. -/
  | several
deriving DecidableEq

/-! ## Numbers -/

/-- The number that decimal digits denote, if there are any and nothing else. -/
def digitsToNat? : List Char → Option Nat
  | [] => none
  | cs => if cs.all Char.isDigit then some (cs.foldl (fun n c => 10 * n + (c.toNat - 48)) 0) else none

/-- A number of bytes, which fits into 64 bits. -/
def toOffset? (text : String) : Option Nat := do
  let n ←
    match text.toList with
    | '+' :: cs => digitsToNat? cs
    | cs => digitsToNat? cs
  if n < UInt64.size then some n else none

/-- The number of a line or character, which fits into 32 bits. Zero may have a minus. -/
def toIndex? (text : String) : Option UInt32 := do
  let n ←
    match text.toList with
    | '+' :: cs => digitsToNat? cs
    | '-' :: cs => (digitsToNat? cs).filter (· = 0)
    | cs => digitsToNat? cs
  if n < UInt32.size then some (UInt32.ofNat n) else none

namespace Flag

def name : Flag → String
  | .input => "input"
  | .config => "config"
  | .verbose => "verbose"
  | .version => "version"
  | .help => "help"
  | .start => "prefix"
  | .path => "path"
  | .offset => "offset"
  | .line => "line"
  | .character => "character"

def letter? : Flag → Option Char
  | .verbose => some 'v'
  | .version => some 'V'
  | .help => some 'h'
  | _ => none

def takes : Flag → Takes
  | .verbose | .version | .help => .nothing
  | .input => .several
  | .config | .start | .path | .offset | .line | .character => .one

def accepts : Flag → String → Bool
  | .input, value | .config, value => !value.isEmpty
  | .offset, value => (toOffset? value).isSome
  | .line, value | .character, value => (toIndex? value).isSome
  | .start, _ | .path, _ => true
  | .verbose, _ | .version, _ | .help, _ => false

def common : List Flag :=
  [.input, .config, .verbose, .help]

end Flag

inductive Command where
  | index
  | highlight
  | definition
  | outline
  | folding
  | selection
deriving DecidableEq

namespace Command

def all : List Command :=
  [.index, .highlight, .definition, .outline, .folding, .selection]

def name : Command → String
  | .index => "index"
  | .highlight => "highlight"
  | .definition => "definition"
  | .outline => "symbols"
  | .folding => "folding"
  | .selection => "selection"

def ofName? (name : String) : Option Command :=
  all.find? fun c => c.name == name

def flags : Command → List Flag
  | .index => .start :: Flag.common
  | .outline | .folding => .path :: Flag.common
  | .highlight | .definition | .selection =>
      [.path, .offset, .line, .character] ++ Flag.common

end Command

end CodeAtlas.CommandLine
