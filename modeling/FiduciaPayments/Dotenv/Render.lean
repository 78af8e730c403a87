import FiduciaPayments.Lib.Base64
import FiduciaPayments.Lib.LastWins
import FiduciaPayments.Lib.Streams
import FiduciaPayments.Lib.UnicodeEscape
import Mathlib.Data.List.Lex

/-!
# `.just/dotenv.py`

`parse` reads a decrypted dotenv stream into pairs of a key and a value, and
`main` prints them for one of three loaders. A run that raises or exits with
an error is `none`. Python's table of character names, which `\N` escapes look
up, is the parameter `names`. The standard streams are UTF-8, with the error
handler that the locale gives them.
-/

namespace Fiducia.Dotenv

open Lib.Python Lib.LastWins

/-! ## `parse` -/

def isKeyStart (c : CodePoint) : Bool :=
  (0x41 ≤ c.val && c.val ≤ 0x5A) || (0x61 ≤ c.val && c.val ≤ 0x7A) || c.val == 0x5F

def isKeyChar (c : CodePoint) : Bool := isKeyStart c || (0x30 ≤ c.val && c.val ≤ 0x39)

/-- `[A-Za-z_][A-Za-z0-9_]*` -/
def isKey : PyStr → Bool
  | [] => false
  | c :: s => isKeyStart c && s.all isKeyChar

/-- The name of a variable. -/
abbrev Key := { k : PyStr // isKey k }

/-- `^([A-Za-z_][A-Za-z0-9_]*)=(.*)$`; the groups, if the line matches. -/
def matchLine (line : PyStr) : Option (Key × PyStr) :=
  match Lib.Text.splitOnce equals line with
  | none => none
  | some (k, v) => if h : isKey k then (if newline ∈ v then none else some (⟨k, h⟩, v)) else none

/-- `len(v) >= 2 and v[0] == v[-1] == mark` -/
def isQuoted (mark : CodePoint) (v : PyStr) : Bool :=
  2 ≤ v.length && v.head? == some mark && v.getLast? == some mark

/-- `v[1:-1]` -/
def inner (v : PyStr) : PyStr := v.tail.dropLast

section
variable (names : List UInt8 → Option CodePoint)

/-- The value of a raw value. -/
def parseValue (v : PyStr) : Option PyStr :=
  if isQuoted doubleQuote v then (encode (inner v)).bind (Lib.UnicodeEscape.decode names)
  else if isQuoted singleQuote v then some (inner v)
  else some v

/-- The pair of a line, if it has one. -/
def parseLine (line : PyStr) : Option (Option (Key × PyStr)) :=
  let line := rstripNewline line
  if strip line = [] ∨ (lit "#").isPrefixOf (lstrip line) then some none
  else
    let line := if (lit "export ").isPrefixOf line then line.drop 7 else line
    match matchLine line with
    | none => some none
    | some (k, v) =>
      -- sops' own trailing metadata rows
      if (lit "sops_").isPrefixOf k.val then some none
      else (parseValue names v).map fun v => some (k, v)

/-- `parse` -/
def parse : List PyStr → Option (List (Key × PyStr))
  | [] => some []
  | line :: stream => do
    let pair ← parseLine names line
    let out ← parse stream
    return pair.toList ++ out

/-! ## `main` -/

inductive Mode where
  | shell
  | envfile
  | k8s
  deriving DecidableEq

/-- `"'" + v.replace("'", "'\\''") + "'"` -/
def quote (v : PyStr) : PyStr :=
  lit "'" ++ v.flatMap (fun c => if c = singleQuote then lit "'\\''" else [c]) ++ lit "'"

/-- A line of shell mode. -/
def shellLine (p : Key × PyStr) : PyStr :=
  lit "export " ++ p.1.val ++ lit "=" ++ quote p.2 ++ lit "\n"

/-- A line of envfile mode. -/
def envfileLine (p : Key × PyStr) : PyStr := p.1.val ++ lit "=" ++ p.2 ++ lit "\n"

/-- A value that envfile mode refuses. -/
def isBad (v : PyStr) : Bool := newline ∈ v || carriageReturn ∈ v

/-- The Secret up to its data, with its name. -/
def secretHeader (name : PyStr) : PyStr :=
  lit "apiVersion: v1\nkind: Secret\nmetadata:\n  name: " ++ name ++
    lit "\ntype: Opaque\ndata:" ++ lit "\n"

/-- `base64.b64encode(v.encode()).decode()` -/
def b64encode (v : PyStr) : Option PyStr :=
  (encode v).map fun bs => (Lib.Base64.encode bs).map ofChar

/-- A line of the Secret's data. -/
def secretLine (p : Key × PyStr) : Option PyStr :=
  (b64encode p.2).map fun b64 => lit "  " ++ p.1.val ++ lit ": " ++ b64 ++ lit "\n"

/-- What a mode prints for the parsed pairs. -/
def render (mode : Mode) (name : PyStr) (pairs : List (Key × PyStr)) : Option PyStr :=
  match mode with
  | .shell => some (pairs.flatMap shellLine)
  | .envfile => if pairs.any (fun p => isBad p.2) then none else some (pairs.flatMap envfileLine)
  | .k8s => ((sorted pairs).mapM secretLine).map fun lines => secretHeader name ++ lines.flatten

/-- The output of `dotenv.py mode name` on an input. -/
def mainWith (errors : Errors) (mode : Mode) (name stdin : PyStr) : Option (List UInt8) :=
  ((parse names (lines stdin)).bind (render mode name)).bind errors.encode

/-- The output on strict streams, which Python has in every UTF-8 locale but
C.UTF-8 (and C and POSIX, which it takes for that one). -/
def main (mode : Mode) (name stdin : PyStr) : Option (List UInt8) :=
  mainWith names .strict mode name stdin

end

end Fiducia.Dotenv
