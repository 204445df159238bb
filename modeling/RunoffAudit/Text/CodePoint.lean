import RunoffAudit.Text.Quoted

/-! # Texts

A text is a sequence of code points. They need not be characters: an escape in a file can write half of a UTF-16
pair. A text that holds such a half can be kept and escaped, but not encoded.
-/
namespace RunoffAudit

structure Text where
  points : List Nat
deriving DecidableEq

namespace Text

def ofString (s : String) : Text := ⟨s.toList.map Char.toNat⟩

instance : Coe String Text := ⟨ofString⟩

instance : Append Text := ⟨fun s t => ⟨s.points ++ t.points⟩⟩

def intercalate (separator : Text) (ts : List Text) : Text := ⟨separator.points.intercalate (ts.map points)⟩

def isCharacter (code : Nat) : Bool := code.isValidChar

def isEncodable (t : Text) : Bool := t.points.all isCharacter

/-- The first halves of pairs in a text, which stand side by side, and how many code points come before. -/
structure EncodeError where
  halves : List Nat
  position : Nat

def EncodeError.message (e : EncodeError) : String :=
  let what := match e.halves with
    | [code] => " '\\u" ++ String.ofList (hex 4 code) ++ "' in position " ++ toString e.position
    | codes => "s in position " ++ toString e.position ++ "-" ++ toString (e.position + codes.length - 1)
  "'utf-8' codec can't encode character" ++ what ++ ": surrogates not allowed"

def encode (t : Text) : Except EncodeError String :=
  if t.isEncodable then .ok (String.ofList (t.points.map Char.ofNat))
  else
    let position := (t.points.takeWhile isCharacter).length
    .error ⟨(t.points.drop position).takeWhile (!isCharacter ·), position⟩

def escapeHalf (code : Nat) : List Char :=
  if isCharacter code then [Char.ofNat code] else '\\' :: 'u' :: hex 4 code

def escaped (t : Text) : String := String.ofList (t.points.flatMap escapeHalf)

def escapeCode (quote : Char) (code : Nat) : List Char :=
  if isCharacter code then escapeChar quote (Char.ofNat code) else '\\' :: 'u' :: hex 4 code

/-- Code points between quotes, as `quoted` puts a text. Halves of pairs are escaped one by one. -/
def quotedCodes (codes : List Nat) : String :=
  let q := quoteFor (codes.map Char.ofNat)
  String.ofList (q :: codes.flatMap (escapeCode q) ++ [q])

end Text
end RunoffAudit
