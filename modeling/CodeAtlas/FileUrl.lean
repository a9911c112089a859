/-!
# URLs of files

Clients are told of files by `file:` URLs. A path is read as the part of such a URL behind the
authority, with slashes in place of backslashes and a slash in front. What has a meaning in URLs keeps
it: a question mark starts a query and a hash sign a fragment, dot segments are resolved, blanks and
control characters at the end, and tabs and line breaks anywhere, are left out. All other characters
that a URL cannot hold are written as bytes in percent notation.

The segment in front of the first slash is empty, and it counts as a directory that dot segments may
leave. A drive is brought into its usual form only behind nothing at all, so after such a step.
-/

namespace CodeAtlas

structure FileUrl where
  /-- The path, which starts with a slash. -/
  path : String
  query : Option String
  fragment : Option String
deriving DecidableEq

namespace FileUrl

/-! ## Percent notation -/

def hexDigit (n : Nat) : Char :=
  if n < 10 then Char.ofNat (48 + n) else Char.ofNat (55 + n)

def percent (byte : UInt8) : List Char :=
  ['%', hexDigit (byte.toNat / 16), hexDigit (byte.toNat % 16)]

/-- Characters that stand for themselves in no part of a URL. -/
def isControl (c : Char) : Bool :=
  c.toNat < 0x20 || 0x7f ≤ c.toNat

/-- A character, in percent notation if it is one of those to be encoded. -/
def encodeChar (encoded : Char → Bool) (c : Char) : List Char :=
  if encoded c then (String.utf8EncodeChar c).flatMap percent else [c]

def encode (encoded : Char → Bool) (cs : List Char) : List Char :=
  cs.flatMap (encodeChar encoded)

def inPath (c : Char) : Bool :=
  isControl c || [' ', '\x22', '<', '>', '`', '#', '?', '\x7b', '\x7d'].contains c

def inQuery (c : Char) : Bool :=
  isControl c || [' ', '\x22', '#', '<', '>', '\x27'].contains c

def inFragment (c : Char) : Bool :=
  isControl c || [' ', '\x22', '<', '>', '`'].contains c

/-! ## Segments -/

/-- The number of dots in a segment that consists of nothing else. A dot may be written in percent
notation. -/
def dotCount? : List Char → Option Nat
  | [] => some 0
  | '.' :: rest => (dotCount? rest).map (· + 1)
  | '%' :: '2' :: 'e' :: rest | '%' :: '2' :: 'E' :: rest => (dotCount? rest).map (· + 1)
  | _ => none

def isDrive : List Char → Bool
  | [letter, mark] => letter.isAlpha && (mark = ':' || mark = '|')
  | _ => false

def isIgnored (c : Char) : Bool :=
  c = '\t' || c = '\n' || c = '\r'

def withoutIgnored (cs : List Char) : List Char :=
  cs.filter fun c => !isIgnored c

/-- Whether a character that is left out follows the first colon. -/
def isBrokenAtColon (cs : List Char) : Bool :=
  match cs.dropWhile (· ≠ ':') with
  | _ :: c :: _ => isIgnored c
  | _ => false

/-- The segments that a part of a path makes at the root. A drive is written with a colon there. If a
character that is left out follows the colon, the drive is a segment of its own, and what comes behind
it is the next segment as it stands. -/
def segmentsAtRoot (part : List Char) : List (List Char) :=
  match withoutIgnored part with
  | [letter, mark] => if isDrive [letter, mark] then [[letter, ':']] else [[letter, mark]]
  | letter :: mark :: rest =>
      if isDrive [letter, mark] && mark = ':' && isBrokenAtColon part then [[letter, mark], rest]
      else [letter :: mark :: rest]
  | segment => [segment]

/-- The segments that a part of a path makes behind other segments, given latest first. -/
def segmentsBehind (done : List (List Char)) (part : List Char) : List (List Char) :=
  if done.isEmpty then segmentsAtRoot part else [withoutIgnored part]

/-- The segments before the last one, latest first, after leaving the innermost directory. A drive is
never left. -/
def leave : List (List Char) → List (List Char)
  | [] => []
  | segment :: rest => if isDrive segment then segment :: rest else rest

/-- Resolves dot segments in the parts of a path, given the segments already resolved, latest first. -/
def resolve (done : List (List Char)) : List (List Char) → List (List Char)
  | [] => done.reverse
  | part :: rest =>
      match dotCount? (withoutIgnored part) with
      | some 1 => resolve (if rest.isEmpty then [] :: done else done) rest
      | some 2 => resolve (if rest.isEmpty then [] :: leave done else leave done) rest
      | _ => resolve ((segmentsBehind done part).reverse ++ done) rest

def splitSlashes (cs : List Char) : List (List Char) :=
  cs.splitOn '/'

/-- The path that consists of segments. Empty segments in front are left out. -/
def joinSegments (segments : List (List Char)) : List Char :=
  '/' :: ['/'].intercalate (segments.dropWhile List.isEmpty)

/-! ## Parts -/

/-- The path as it stands in a URL, with slashes only and a slash in front. -/
def normalize (path : List Char) : List Char :=
  let path := path.map fun c => if c = '\\' then '/' else c
  if path.head? = some '/' then path else '/' :: path

def trimEnd (cs : List Char) : List Char :=
  (cs.reverse.dropWhile fun c => c.toNat ≤ 0x20).reverse

/-- The parts of a text before and behind the first mark, if it has one. -/
def divide (mark : Char) (cs : List Char) : List Char × Option (List Char) :=
  match cs.dropWhile (· ≠ mark) with
  | [] => (cs, none)
  | _ :: behind => (cs.takeWhile (· ≠ mark), some behind)

/-- The URL of the file at a path. A relative path is taken from the root of the file system. -/
def ofPath (path : String) : FileUrl :=
  let (front, fragment) := divide '#' (trimEnd (normalize path.toList))
  let (place, query) := divide '?' front
  let segments := resolve [] (splitSlashes place)
  { path := String.ofList (encode inPath (joinSegments segments))
    query := query.map fun q => String.ofList (encode inQuery (withoutIgnored q))
    fragment := fragment.map fun f => String.ofList (encode inFragment (withoutIgnored f)) }

def text (url : FileUrl) : String :=
  "file://" ++ url.path ++ (url.query.map ("?" ++ ·)).getD "" ++
    (url.fragment.map ("#" ++ ·)).getD ""

end FileUrl

end CodeAtlas
