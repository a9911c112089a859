import CodeAtlas.CommandLine.Flag

/-!
# Words of a command line

The words before a command are read in the same way as those behind it, only with other flags. A flag
that takes several values takes all words up to the next flag, even the names of commands. Its values
are checked when the next flag is met, the command is found to be complete, or the words end.
-/

namespace CodeAtlas.CommandLine

inductive Stop where
  | misuse
  | version
  | help
deriving DecidableEq

/-! ## Forms of words -/

/-- A word by its form. -/
inductive Word where
  /-- A flag by its name, perhaps with a value attached to it. -/
  | named (name : String) (attached : Option String)
  | letters (letters : List Char)
  | endOfFlags
  | plain (text : String)
deriving DecidableEq

/-- The form of a word. A lone dash is a plain word. -/
def Word.ofString (text : String) : Word :=
  match text.toList with
  | ['-', '-'] => .endOfFlags
  | '-' :: '-' :: rest =>
      .named (String.ofList (rest.takeWhile (· != '=')))
        (match rest.dropWhile (· != '=') with
          | [] => none
          | _ :: value => some (String.ofList value))
  | '-' :: c :: rest => .letters (c :: rest)
  | _ => .plain text

/-! ## Flags and their values -/

/-- What has been read of the flags. -/
structure Given where
  /-- Flags with their values, all of which are accepted. -/
  settled : List (Flag × List String)
  /-- The latest flag with the values found so far. -/
  pending : Option (Flag × List String)
  /-- Whether the latest flag takes the next plain word. -/
  collecting : Bool

namespace Given

def nothing : Given :=
  ⟨[], none, false⟩

def has (g : Given) (flag : Flag) : Bool :=
  g.settled.any fun use => use.1 == flag

def values (g : Given) (flag : Flag) : List String :=
  g.settled.flatMap fun (f, values) => if f = flag then values else []

def value? (g : Given) (flag : Flag) : Option String :=
  (g.values flag).head?

/-- Adds a flag with its values. Only a flag that takes several may be used again. -/
def add (g : Given) (flag : Flag) (values : List String) : Except Stop Given :=
  if flag.takes != .several && g.has flag then .error .misuse
  else .ok ⟨g.settled ++ [(flag, values)], none, false⟩

def settle (g : Given) : Except Stop Given :=
  match g.pending with
  | none => .ok g
  | some (flag, values) =>
      if values.isEmpty || !values.all flag.accepts then .error .misuse else g.add flag values

def raise (g : Given) (flag : Flag) : Except Stop Given := do
  let g ← g.settle
  match flag with
  | .version => .error .version
  | .help => .error .help
  | flag => g.add flag []

def useNamed (g : Given) (flag : Flag) (attached : Option String) : Except Stop Given :=
  match decide (flag.takes = .nothing), attached with
  | true, none => g.raise flag
  | true, some _ => .error .misuse
  | false, none => g.settle.map fun g => { g with pending := some (flag, []), collecting := true }
  | false, some value => do
      let g ← g.settle
      { g with pending := some (flag, [value]) }.settle

def useLetters (flags : List Flag) : List Char → Given → Except Stop Given
  | [], g => .ok g
  | c :: cs, g =>
      match flags.find? fun flag => flag.letter? == some c with
      | none => .error .misuse
      | some flag => do useLetters flags cs (← g.raise flag)

def take (g : Given) (word : String) : Given :=
  match g.pending with
  | none => g
  | some (flag, values) =>
      { g with
        pending := some (flag, values ++ [word])
        collecting := flag.takes == .several }

end Given

/-! ## Reading words -/

/-- What follows if help is asked for by a word. At most one command may follow that word. -/
def helpFor : List String → Stop
  | [] => .help
  | [word] => if (Command.ofName? word).isSome || word == "help" then .help else .misuse
  | _ :: _ :: _ => .misuse

/-- Reads words up to the first that names one of the commands, and answers that command with the
words behind it. The settings of the last flag remain to be settled. -/
def readWords (flags : List Flag) (commands : List Command) :
    Given → List String → Except Stop (Given × Option (Command × List String))
  | g, [] => .ok (g, none)
  | g, text :: rest =>
      match Word.ofString text with
      | .named name attached =>
          match flags.find? fun flag => flag.name == name with
          | none => .error .misuse
          | some flag => do readWords flags commands (← g.useNamed flag attached) rest
      | .letters letters => do
          readWords flags commands (← Given.useLetters flags letters g) rest
      | .endOfFlags => if rest.isEmpty then .ok (g, none) else .error .misuse
      | .plain word =>
          if g.collecting then readWords flags commands (g.take word) rest
          else
            match commands.find? fun c => c.name == word with
            | some c => .ok (g, some (c, rest))
            | none =>
                .error (if word == "help" && !commands.isEmpty then helpFor rest else .misuse)

end CodeAtlas.CommandLine
