import RunoffAudit.Yaml.Node

/-! # Values from YAML texts

Each node of a text stands for a value. A mapping first takes over the entries of the mappings under its merge
keys, then come its own; an entry whose key comes again keeps its place and takes the later value. The key
of an entry is a scalar.

A well laid out text may still hold scalars that stand for nothing. Of several such errors the one that is
nearest to the root counts, and among those the first.
-/
namespace RunoffAudit.Yaml

/-- A number, with truth values as zero and one. -/
def number? : Value → Option Int
  | .int n => some n
  | .bool b => some (if b then 1 else 0)
  | _ => none

def isInteger (x : Float) (n : Int) : Bool :=
  match Decimal.Double.ofFloat x with
  | .finite negative m e =>
    let r := Decimal.Ratio.ofBinary m e
    r.num = n.natAbs * r.den && (n = 0 || negative = decide (n < 0))
  | _ => false

/-- Are two keys the same? Numbers are compared by value, and a double that is no number is the same as
itself. -/
def sameKey (a b : Value) : Bool :=
  match a, b with
  | .null, .null => true
  | .text s, .text t => s = t
  | .codes s, .codes t => s = t
  | .date d, .date e => d = e
  | .dateTime t, .dateTime u => t.same u
  | .float x, .float y => x == y || (x.isNaN && y.isNaN)
  | .float x, n => (number? n).any (isInteger x ·)
  | n, .float x => (number? n).any (isInteger x ·)
  | m, n => (number? m).isSome && number? m = number? n

/-- Puts an entry at the end of a mapping, or in the place of the entry with the same key. -/
def putEntry (k v : Value) : List (Value × Value) → List (Value × Value)
  | [] => [(k, v)]
  | (k', v') :: rest => if sameKey k k' then (k', v) :: rest else (k', v') :: putEntry k v rest

def mappingOf (entries : List (Value × Value)) : Value :=
  .mapping (entries.foldl (fun m e => putEntry e.1 e.2 m) [])

namespace Node

/-- Is this the key under which a mapping takes over other entries? -/
def isMerge : Node → Bool
  | plain s => s = mergeWord
  | _ => false

def scalarValue : Node → Value
  | plain s =>
    match resolve s with
    | .value v => v
    | _ => .text s
  | quoted codes => .ofText ⟨codes⟩
  | _ => .null

/-! The entries of a mapping come in two lists: those taken over, and its own. -/

mutual

/-- The value that a node stands for, if `fault?` finds nothing wrong with it. -/
def value : Node → Value
  | sequence items => .list (values items)
  | mapping entries => mappingOf ((entryValues entries).1 ++ (entryValues entries).2)
  | plain s => scalarValue (plain s)
  | quoted codes => scalarValue (quoted codes)

def values : List Node → List Value
  | [] => []
  | x :: rest => x.value :: values rest

def entryValues : List (Node × Node) → List (Value × Value) × List (Value × Value)
  | [] => ([], [])
  | (k, v) :: rest =>
    let (taken, own) := entryValues rest
    if k.isMerge then (lentValues v ++ taken, own) else (taken, (k.scalarValue, v.value) :: own)

/-- The entries that the value of a merge key lends. Of several mappings the first comes last, so that its
entries win. -/
def lentValues : Node → List (Value × Value)
  | mapping entries => (entryValues entries).1 ++ (entryValues entries).2
  | sequence items => lentByAll items
  | _ => []

def lentByAll : List Node → List (Value × Value)
  | [] => []
  | x :: rest => lentByAll rest ++ lentValues x

end

mutual

/-- Are the values of all merge keys mappings or lists of mappings, here and in what they lend? -/
def canMerge : List (Node × Node) → Bool
  | [] => true
  | (k, v) :: rest => (!k.isMerge || canLend v) && canMerge rest

def canLend : Node → Bool
  | mapping entries => canMerge entries
  | sequence items => canLendAll items
  | _ => false

def canLendAll : List Node → Bool
  | [] => true
  | mapping entries :: rest => canMerge entries && canLendAll rest
  | _ :: _ => false

end

/-- What is wrong with a scalar that is no key. -/
def scalarFault? : Node → Option ReadError
  | plain s =>
    match resolve s with
    | .value _ => none
    | .error e => some (.scalar e)
    | .merge => some .malformed
    | .default => some .malformed
  | _ => none

def keyFault? (k : Node) : Option ReadError :=
  if k.isCollection then some .malformed
  else match k with
    | plain s => if s = defaultWord then none else k.scalarFault?
    | _ => none

/-- The first fault at each distance from a node: at the node itself, right below it, and so on. -/
abbrev Faults := List (Option ReadError)

def Faults.beside : Faults → Faults → Faults
  | [], there => there
  | here, [] => here
  | a :: here, b :: there => a.orElse (fun _ => b) :: beside here there

mutual

def faults : Node → Faults
  | sequence items => none :: allFaults items
  | mapping entries =>
    none :: if canMerge entries then (entryFaults entries).1.beside (entryFaults entries).2 else [some .malformed]
  | plain s => [scalarFault? (plain s)]
  | quoted _ => []

def allFaults : List Node → Faults
  | [] => []
  | x :: rest => Faults.beside x.faults (allFaults rest)

/-- The faults in entries taken over and in a mapping's own. -/
def entryFaults : List (Node × Node) → Faults × Faults
  | [] => ([], [])
  | (k, v) :: rest =>
    let (taken, own) := entryFaults rest
    if k.isMerge then ((lentFaults v).beside taken, own)
    else (taken, (Faults.beside [k.keyFault?] v.faults).beside own)

def lentFaults : Node → Faults
  | mapping entries => (entryFaults entries).1.beside (entryFaults entries).2
  | sequence items => lentFaultsOfAll items
  | _ => []

def lentFaultsOfAll : List Node → Faults
  | [] => []
  | x :: rest => (lentFaultsOfAll rest).beside (lentFaults x)

end

def fault? (x : Node) : Option ReadError := x.faults.findSome? id

end Node

/-- Carriage returns, alone or before a line feed, become line feeds. -/
def normalizeBreaks : List Char → List Char
  | '\r' :: '\n' :: rest => '\n' :: normalizeBreaks rest
  | '\r' :: rest => '\n' :: normalizeBreaks rest
  | c :: rest => c :: normalizeBreaks rest
  | [] => []

def read (text : String) : Except ReadError Value := do
  let node ← orMalformed (Node.ofTokens? (← tokens (normalizeBreaks text.toList)))
  match node.fault? with
  | some e => throw e
  | none => return node.value

end RunoffAudit.Yaml
