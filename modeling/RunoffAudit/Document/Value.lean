import RunoffAudit.Decimal.Shortest
import RunoffAudit.Document.Calendar
import RunoffAudit.Text.CodePoint
import RunoffAudit.Text.Digit

/-! # Document values

The values a problem file can hold. Integers are unbounded and stay apart from doubles and from
truth values; a mapping keeps its entries in the order in which their keys first appeared.
-/
namespace RunoffAudit

inductive Value where
  | null
  | bool (b : Bool)
  | int (n : Int)
  | float (x : Float)
  | text (s : String)
  /-- A text in which some code point is half of a UTF-16 pair. -/
  | codes (points : List Nat)
  | date (d : Date)
  | dateTime (t : DateTime)
  | list (items : List Value)
  | mapping (entries : List (Value × Value))
deriving Inhabited

namespace Value

def ints (ns : List Int) : Value := .list (ns.map .int)

def record (fields : List (String × Value)) : Value := .mapping (fields.map fun f => (.text f.1, f.2))

def ofText (t : Text) : Value :=
  if t.isEncodable then .text (String.ofList (t.points.map Char.ofNat)) else .codes t.points

def isText (s : String) : Value → Bool
  | .text t => t = s
  | _ => false

def find (key : String) : List (Value × Value) → Option Value
  | [] => none
  | (k, v) :: rest => if k.isText key then some v else find key rest

/-- An integer; truth values do not count. -/
def int? : Value → Option Int
  | .int n => some n
  | _ => none

def isNull : Value → Bool
  | .null => true
  | _ => false

mutual

/-- How a value is shown in messages: texts are quoted, lists and mappings bracketed. -/
def shown : Value → String
  | .null => "None"
  | .bool b => if b then "True" else "False"
  | .int n => toString n
  | .float x => Decimal.Layout.message.text x
  | .text s => Text.quoted s
  | .codes points => Text.quotedCodes points
  | .date d => d.shown
  | .dateTime t => t.shown
  | .list items => "[" ++ ", ".intercalate (shownItems items) ++ "]"
  | .mapping entries => "\x7b" ++ ", ".intercalate (shownEntries entries) ++ "\x7d"

def shownItems : List Value → List String
  | [] => []
  | v :: rest => v.shown :: shownItems rest

def shownEntries : List (Value × Value) → List String
  | [] => []
  | (k, v) :: rest => (k.shown ++ ": " ++ v.shown) :: shownEntries rest

end

mutual

/-- Can all integers of a value be written? They may have no more than `Text.maxDigits` digits. -/
def isWritable : Value → Bool
  | .int n => n.natAbs < Text.digitBound
  | .list items => itemsWritable items
  | .mapping entries => entriesWritable entries
  | _ => true

def itemsWritable : List Value → Bool
  | [] => true
  | v :: rest => v.isWritable && itemsWritable rest

def entriesWritable : List (Value × Value) → Bool
  | [] => true
  | (k, v) :: rest => k.isWritable && v.isWritable && entriesWritable rest

end

mutual

/-- Are two values the same? Doubles are compared as numbers, so one that is none differs from itself. -/
def same : Value → Value → Bool
  | .null, .null => true
  | .bool a, .bool b => a == b
  | .int a, .int b => a == b
  | .float a, .float b => a == b
  | .text a, .text b => a == b
  | .codes a, .codes b => a == b
  | .date a, .date b => a == b
  | .dateTime a, .dateTime b => a.same b
  | .list as, .list bs => sameItems as bs
  | .mapping as, .mapping bs => sameEntries as bs
  | _, _ => false

def sameItems : List Value → List Value → Bool
  | [], [] => true
  | a :: as, b :: bs => a.same b && sameItems as bs
  | _, _ => false

def sameEntries : List (Value × Value) → List (Value × Value) → Bool
  | [], [] => true
  | (j, a) :: as, (k, b) :: bs => j.same k && a.same b && sameEntries as bs
  | _, _ => false

end

/-- A value used as a name: a text stands for itself, a date or time for how it is written, anything else for
how it is shown. -/
def plain : Value → Text
  | .text s => s
  | .codes points => ⟨points⟩
  | .date d => d.text
  | .dateTime t => t.text
  | v => v.shown

/-- Zero, the empty text, the empty list, the empty mapping, null and false say nothing. -/
def isEmpty : Value → Bool
  | .null => true
  | .bool b => !b
  | .int n => n = 0
  | .float x => x == 0
  | .text s => s = ""
  | .codes points => points.isEmpty
  | .date _ => false
  | .dateTime _ => false
  | .list items => items.isEmpty
  | .mapping entries => entries.isEmpty

end Value
end RunoffAudit
