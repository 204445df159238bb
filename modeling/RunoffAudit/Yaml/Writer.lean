import RunoffAudit.Document.Value
import RunoffAudit.Yaml.Style

/-! # YAML texts from values

Values are written in block style, one entry or item per line; a sequence under a key is not indented.
-/
namespace RunoffAudit.Yaml

/-- Doubles as in messages, but with a point before every exponent. -/
def layout : Decimal.Layout :=
  { Decimal.Layout.message with pointBeforeExponent := true, nan := ".nan", infinity := ".inf" }

def indentation (level : Nat) : String := String.ofList (List.replicate (2 * level) ' ')

/-- The place of a scalar on a line of its collection, behind `used` characters and a space. -/
def placeBehind (level used : Nat) : Place := ⟨2 * level + 2, 2 * level + used + 1⟩

/-- A value that is no collection with entries. -/
def inline? (p : Place) (v : Value) : Option String :=
  match v with
  | .null => some "null"
  | .bool b => some (if b then "true" else "false")
  | .int n => some (toString n)
  | .float x => some (layout.text x)
  | .text s => some (scalarText p s)
  | .codes points => some (scalarCodes p points)
  | .date d => some d.text
  | .dateTime t => some t.text
  | .list items => if items.isEmpty then some "[]" else none
  | .mapping entries => if entries.isEmpty then some "\x7b\x7d" else none

def keyText (k : Value) : String := (inline? ⟨0, 0⟩ k).getD ""

mutual

def lines (level : Nat) : Value → List String
  | .list items => itemLines level items
  | .mapping entries => entryLines level entries
  | v => (inline? ⟨2 * level, 2 * level⟩ v).toList

def itemLines (level : Nat) : List Value → List String
  | [] => []
  | v :: rest =>
    let here := match inline? (placeBehind level 1) v with
      | some s => [indentation level ++ "- " ++ s]
      | none => match lines (level + 1) v with
        | [] => []
        | first :: others =>
          (indentation level ++ "- " ++ String.ofList (first.toList.drop (2 * (level + 1)))) :: others
    here ++ itemLines level rest

def entryLines (level : Nat) : List (Value × Value) → List String
  | [] => []
  | (k, v) :: rest =>
    let key := keyText k ++ ":"
    let here := match inline? (placeBehind level key.length) v with
      | some s => [indentation level ++ key ++ " " ++ s]
      | none => match v with
        | .list items => (indentation level ++ key) :: itemLines level items
        | v => (indentation level ++ key) :: lines (level + 1) v
    here ++ entryLines level rest

end

def write (v : Value) : String := String.join ((lines 0 v).map (· ++ "\n"))

end RunoffAudit.Yaml
