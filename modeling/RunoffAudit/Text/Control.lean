import RunoffAudit.Text.CodePoint

/-! # Control sequences

A control sequence tells a terminal how to show what follows: an escape character, a bracket, parameters,
and a letter. Texts that are not meant for a terminal are written without them.
-/
namespace RunoffAudit.Text

def isParameter (code : Nat) : Bool :=
  ('0'.toNat ≤ code && code ≤ '9'.toNat) || code = ';'.toNat || code = '?'.toNat

def isLetter (code : Nat) : Bool :=
  ('A'.toNat ≤ code && code ≤ 'Z'.toNat) || ('a'.toNat ≤ code && code ≤ 'z'.toNat)

/-- How many code points behind an escape character belong to a control sequence, if one begins there. -/
def controlLength? (codes : List Nat) : Option Nat :=
  match codes with
  | bracket :: rest =>
    if bracket = '['.toNat then
      match rest.dropWhile isParameter with
      | last :: _ => if isLetter last then some ((rest.takeWhile isParameter).length + 2) else none
      | [] => none
    else none
  | [] => none

/-- Drops `skip` code points and leaves the control sequences behind them out. -/
def dropControls : (skip : Nat) → List Nat → List Nat
  | _, [] => []
  | skip + 1, _ :: rest => dropControls skip rest
  | 0, code :: rest =>
    if code = '\x1b'.toNat then
      match controlLength? rest with
      | some k => dropControls k rest
      | none => code :: dropControls 0 rest
    else code :: dropControls 0 rest

def withoutControls (t : Text) : Text := ⟨dropControls 0 t.points⟩

def line (s : String) : String := (ofString s).withoutControls.escaped

end RunoffAudit.Text
