import CodeAtlas.CommandLine.Words
import CodeAtlas.Position

/-!
# Invocations

A command line that is well-formed is an invocation: the files to load and a task. Flags that all
commands have count behind the command if they are given there, and otherwise before it.
-/

namespace CodeAtlas.CommandLine

inductive Spot where
  | offset (bytes : Nat)
  | position (p : Position)
deriving DecidableEq

/-- What is asked for. A document that is not named is the first that is loaded. -/
inductive Task where
  | index (start : String)
  | highlight (path : Option String) (spot : Option Spot)
  | definition (path : Option String) (spot : Option Spot)
  | outline (path : Option String)
  | folding (path : Option String)
  | selection (path : Option String) (spot : Option Spot)
deriving DecidableEq

structure Invocation where
  inputs : List String
  config : Option String
  task : Task
deriving DecidableEq

namespace Given

/-- The place that the flags name. It is either a byte offset or a line with a character. -/
def spot (g : Given) : Except Stop (Option Spot) :=
  match (g.value? .offset).bind toOffset?, (g.value? .line).bind toIndex?,
      (g.value? .character).bind toIndex? with
  | none, none, none => .ok none
  | some bytes, none, none => .ok (some (.offset bytes))
  | none, some line, some character => .ok (some (.position ⟨line, character⟩))
  | _, _, _ => .error .misuse

def task (g : Given) : Command → Except Stop Task
  | .index => .ok (.index ((g.value? .start).getD ""))
  | .outline => .ok (.outline (g.value? .path))
  | .folding => .ok (.folding (g.value? .path))
  | .highlight => g.spot.map (.highlight (g.value? .path))
  | .definition => g.spot.map (.definition (g.value? .path))
  | .selection => g.spot.map (.selection (g.value? .path))

end Given

/-- The settings file of an invocation, given behind the command, before it, or else by the
environment. An empty name in the environment is refused unless both other places overrule it. -/
def configOf (before behind environment : Option String) : Except Stop (Option String) :=
  if environment = some "" ∧ (before.isNone ∨ behind.isNone) then .error .misuse
  else .ok (behind <|> before <|> environment)

/-- The invocation that the words of a command line describe. The environment may name a settings
file. -/
def parse (environment : Option String) (words : List String) : Except Stop Invocation := do
  let (before, command) ← readWords (.version :: Flag.common) Command.all .nothing words
  match command with
  | none => .error .misuse
  | some (command, words) =>
      let (behind, _) ← readWords command.flags [] .nothing words
      let behind ← behind.settle
      let task ← behind.task command
      let before ← before.settle
      let config ← configOf (before.value? .config) (behind.value? .config) environment
      let inputs := if behind.has .input then behind.values .input else before.values .input
      .ok ⟨inputs, config, task⟩

end CodeAtlas.CommandLine
