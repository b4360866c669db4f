import RouteGuard.Json.Value
import RouteGuard.Log.Event
import RouteGuard.Text.Blank
import RouteGuard.Text.Digit

/-! # Log lines

An event is written on one line, plain or as a JSON object, or set off by blank
lines. The time stands first where it is wanted.
-/

namespace RouteGuard.Log

def Level.name : Level → String
  | trace => "TRACE"
  | debug => "DEBUG"
  | info => "INFO"
  | warn => "WARN"
  | error => "ERROR"

/-- The name of a level, five characters wide. -/
def Level.column (l : Level) : String :=
  String.ofList (List.replicate (5 - l.name.length) ' ') ++ l.name

/-- Blocks of characters that do not show on their own: control and format
characters, private ones, and marks that join the character before them. -/
def hiddenBlocks : List (Nat × Nat) :=
  [(0, 0x1F), (0x7F, 0xA0), (0xAD, 0xAD), (0x300, 0x36F), (0x483, 0x489), (0x591, 0x5BD),
   (0x600, 0x605), (0x610, 0x61A), (0x61C, 0x61C), (0x64B, 0x65F), (0x6DD, 0x6DD),
   (0x70F, 0x70F), (0x180E, 0x180E), (0x1AB0, 0x1ACE), (0x1DC0, 0x1DFF), (0x200B, 0x200F),
   (0x2028, 0x202E), (0x2060, 0x206F), (0x20D0, 0x20F0), (0xE000, 0xF8FF), (0xFE00, 0xFE0F),
   (0xFE20, 0xFE2F), (0xFEFF, 0xFEFF), (0xFFF0, 0xFFFB), (0xFFFE, 0xFFFF),
   (0xE0000, 0x10FFFF)]

/-- A character between quotes, escaped if it is a quote, a backslash, or does
not show. -/
def quotedChar (c : Char) : String :=
  if c = '"' then "\\\""
  else if c = '\\' then "\\\\"
  else if c = '\n' then "\\n"
  else if c = '\r' then "\\r"
  else if c = '\t' then "\\t"
  else if c.toNat = 0 then "\\0"
  else if c ≠ ' ' && (Text.isBlank c || Text.inBlocks hiddenBlocks c.toNat) then
    "\\u\x7b" ++ Text.hexText c.toNat ++ "\x7d"
  else c.toString

namespace Field

def plain : Field → String
  | text s => s
  | quoted s => "\"" ++ String.join (s.toList.map quotedChar) ++ "\""
  | count n => toString n

def json : Field → Json.Value
  | text s => .text s
  | quoted s => .text s
  | count n => .nat n

end Field

namespace Event

def compactLine (time : Option String) (e : Event) : String :=
  let stamp := (time.map (· ++ " ")).getD ""
  let facts := e.fields.map fun (k, v) => " " ++ k ++ "=" ++ v.plain
  stamp ++ e.level.column ++ " " ++ e.target ++ ": " ++ e.message ++ String.join facts ++ "\n"

/-- The event as a JSON object; the message counts as the first of the facts. -/
def jsonLine (time : Option String) (e : Event) : String :=
  let stamp := (time.map fun t => ("timestamp", Json.Value.text t)).toList
  (Json.Value.object (stamp ++
    [("level", .text e.level.name),
     ("fields", .object (("message", .text e.message) :: e.fields.map fun (k, v) => (k, v.json))),
     ("target", .text e.target)])).compact ++ "\n"

/-- The event with its facts in prose, and a blank line after it. -/
def prettyLine (time : Option String) (e : Event) : String :=
  let stamp := (time.map (· ++ " ")).getD ""
  let facts := e.fields.map fun (k, v) => ", " ++ k ++ ": " ++ v.plain
  "  " ++ stamp ++ e.level.column ++ " " ++ e.target ++ ": " ++ e.message ++ String.join facts ++
    "\n\n"

end Event

end RouteGuard.Log
