import CodeAtlas.Source

/-!
# Positions for clients

Clients name places in a text by line and character, both counted from zero, where characters are
counted in UTF-16 units or in bytes. This module converts between such positions and byte offsets.

A position behind the end of a line means the end of the line, one behind the last line the end of
the text. An offset behind the text gets a line of its own.
-/

namespace CodeAtlas

structure Position where
  line : UInt32
  character : UInt32
deriving DecidableEq

structure PositionRange where
  start : Position
  stop : Position
deriving DecidableEq

/-- What counts as one character in a position. -/
inductive PositionEncoding where
  | utf16
  | utf8
deriving DecidableEq

namespace PositionEncoding

def name : PositionEncoding → String
  | .utf16 => "utf-16"
  | .utf8 => "utf-8"

def ofName (name : String) : Except Mismatch PositionEncoding :=
  match [PositionEncoding.utf16, .utf8].find? fun encoding => encoding.name == name with
  | some encoding => .ok encoding
  | none => .error (.unknownVariant name [utf16.name, utf8.name])

def width (encoding : PositionEncoding) (c : Char) : Nat :=
  match encoding with
  | .utf16 => if c.toNat < 0x10000 then 1 else 2
  | .utf8 => c.utf8Size

def measure (encoding : PositionEncoding) : List Char → Nat
  | [] => 0
  | c :: cs => encoding.width c + encoding.measure cs

/-- The shortest leading part of a text that counts at least `n`, or the whole text. -/
def takeAtLeast (encoding : PositionEncoding) : Nat → List Char → List Char
  | 0, _ | _, [] => []
  | n + 1, c :: cs => c :: encoding.takeAtLeast (n + 1 - encoding.width c) cs

/-- The part of a line before a column. A column inside a character is moved to its start if columns
are counted in bytes, and to its end if they are counted in UTF-16 units. -/
def before (encoding : PositionEncoding) (column : Nat) (content : List Char) : List Char :=
  match encoding with
  | .utf16 => utf16.takeAtLeast column content
  | .utf8 => Text.takeBytes column content

end PositionEncoding

namespace Source

def toOffset (s : Source) (encoding : PositionEncoding) (p : Position) : Nat :=
  if UInt32.ofNat s.lineCount ≤ p.line then s.byteLength
  else
    match s.lines[p.line.toNat]? with
    | none => s.byteLength
    | some line => line.start + Text.byteLength (encoding.before p.character.toNat line.content)

def toPosition (s : Source) (encoding : PositionEncoding) (offset : Nat) : Position :=
  match s.lineOf? offset with
  | none => ⟨UInt32.ofNat s.lineCount, 0⟩
  | some number =>
      match s.lines[number]? with
      | none => ⟨UInt32.ofNat number, 0⟩
      | some line =>
          let leading := Text.takeBytes (offset - line.start) line.chars
          ⟨UInt32.ofNat number, UInt32.ofNat (encoding.measure leading)⟩

def toByteRange (s : Source) (encoding : PositionEncoding) (r : PositionRange) : ByteRange :=
  ⟨s.toOffset encoding r.start, s.toOffset encoding r.stop⟩

def toPositionRange (s : Source) (encoding : PositionEncoding) (r : ByteRange) : PositionRange :=
  ⟨s.toPosition encoding r.start, s.toPosition encoding r.stop⟩

end Source

end CodeAtlas
