import CodeAtlas.Text.Bytes

/-!
# The lines of a text

A line ends at a line feed, at a carriage return, or at the pair of both, and its break belongs to
it. The last line has no break and may be empty, so that every text has a line.
-/

namespace CodeAtlas.Text

/-- The three ways in which a line can end. -/
inductive LineBreak where
  | lineFeed
  | carriageReturn
  | both
deriving DecidableEq

def LineBreak.chars : LineBreak → List Char
  | .lineFeed => ['\n']
  | .carriageReturn => ['\r']
  | .both => ['\r', '\n']

structure Line where
  start : Nat
  content : List Char
  /-- The break at the end of the line, which only the last line lacks. -/
  ending : Option LineBreak
deriving DecidableEq

namespace Line

/-- The characters of the line, its break included. -/
def chars (line : Line) : List Char :=
  line.content ++ (line.ending.map LineBreak.chars).getD []

/-- The byte offset at which the next line starts, or the text ends. -/
def stop (line : Line) : Nat :=
  line.start + byteLength line.chars

end Line

/-- The lines of a text of which `seen` has been read, latest character first, since the line break
before `start`. -/
def linesFrom (start : Nat) (seen : List Char) : List Char → List Line
  | [] => [⟨start, seen.reverse, none⟩]
  | '\r' :: '\n' :: rest =>
      let line : Line := ⟨start, seen.reverse, some .both⟩
      line :: linesFrom line.stop [] rest
  | '\r' :: rest =>
      let line : Line := ⟨start, seen.reverse, some .carriageReturn⟩
      line :: linesFrom line.stop [] rest
  | '\n' :: rest =>
      let line : Line := ⟨start, seen.reverse, some .lineFeed⟩
      line :: linesFrom line.stop [] rest
  | c :: rest => linesFrom start (c :: seen) rest

def lines (text : List Char) : List Line :=
  linesFrom 0 [] text

end CodeAtlas.Text
