import RunoffAudit.Document.Value

/-! # Indented JSON

Documents as JSON text in ASCII: two spaces per level, keys in the order of their code points, all other
characters escaped by their UTF-16 units.
-/
namespace RunoffAudit.Json

/-- The escape of one UTF-16 unit. -/
def unit (n : Nat) : List Char := '\\' :: 'u' :: Text.hex 4 n

def escapeChar (c : Char) : List Char :=
  if c = '"' then ['\\', '"']
  else if c = '\\' then ['\\', '\\']
  else if c = '\n' then ['\\', 'n']
  else if c = '\r' then ['\\', 'r']
  else if c = '\t' then ['\\', 't']
  else if c.toNat = 0x08 then ['\\', 'b']
  else if c.toNat = 0x0c then ['\\', 'f']
  else if 0x20 ≤ c.toNat ∧ c.toNat < 0x7f then [c]
  else if c.toNat < 0x10000 then unit c.toNat
  else
    let above := c.toNat - 0x10000
    unit (0xd800 + above / 0x400) ++ unit (0xdc00 + above % 0x400)

/-- Halves of pairs are units already. -/
def escapeCode (code : Nat) : List Char := if Text.isCharacter code then escapeChar (Char.ofNat code) else unit code

def string (t : Text) : String := String.ofList ('"' :: t.points.flatMap escapeCode ++ ['"'])

/-- Doubles as in messages, but for the names of the values that are no numbers. -/
def layout : Decimal.Layout := { Decimal.Layout.message with nan := "NaN", infinity := "Infinity" }

def newline (level : Nat) : String := "\n" ++ String.ofList (List.replicate (2 * level) ' ')

def block (left right : String) (level : Nat) (parts : List String) : String :=
  if parts = [] then left ++ right
  else left ++ newline (level + 1) ++ ("," ++ newline (level + 1)).intercalate parts ++ newline level ++ right

def sortByKey (parts : List (Text × String)) : List (Text × String) :=
  parts.mergeSort fun x y => !decide (y.1.points < x.1.points)

mutual

/-- A value as JSON text whose first line stands at `level`. -/
def write (level : Nat) : Value → String
  | .null => "null"
  | .bool b => if b then "true" else "false"
  | .int n => toString n
  | .float x => layout.text x
  | .text s => string s
  | .codes points => string ⟨points⟩
  | .date d => string d.text
  | .dateTime t => string t.text
  | .list items => block "[" "]" level (writeItems (level + 1) items)
  | .mapping entries =>
    block "\x7b" "\x7d" level
      ((sortByKey (writeEntries (level + 1) entries)).map fun (k, v) => string k ++ ": " ++ v)

def writeItems (level : Nat) : List Value → List String
  | [] => []
  | v :: rest => write level v :: writeItems level rest

def writeEntries (level : Nat) : List (Value × Value) → List (Text × String)
  | [] => []
  | (k, v) :: rest => (k.plain, write level v) :: writeEntries level rest

end

def text (v : Value) : String := write 0 v

end RunoffAudit.Json
