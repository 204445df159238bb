import RunoffAudit.Contest
import RunoffAudit.Explanation
import RunoffAudit.Ordering.PruningPower
import RunoffAudit.Trim.Result

/-! # Screened contests

Before anything is searched, what is wrong with a contest is put in words. An integer that is too long for its
message ends the command there and then.
-/
namespace RunoffAudit

/-- The faults, if their messages can be written. -/
def screen (faults : List Fault) : Except Text.DigitError (List Fault) :=
  if faults.all Fault.isWritable then .ok faults else .error .tooMany

def screenContest (n : Int) (winner : Option Candidate) (assertions : List Assertion) :
    Except Text.DigitError (List Fault) :=
  screen (contestFaults n winner assertions)

def screenSearch (n : Int) (candidate : Candidate) (assertions : List Assertion) :
    Except Text.DigitError (List Fault) :=
  screen (searchFaults n candidate assertions)

/-- Carries a command out, if the faults that it is to answer with can be put in words. -/
def afterScreen {m : Type → Type} [Monad m] {α : Type} (faults : List Fault) (command : m α) :
    m (Except Text.DigitError α) :=
  match screen faults with
  | .error e => pure (.error e)
  | .ok _ => .ok <$> command

def verifyScreened (n : Int) (assertions : List Assertion) (candidate : Candidate) :
    Metered (Except Text.DigitError Verdict) :=
  afterScreen (searchFaults n candidate assertions) (verify n assertions candidate)

def verifyContestScreened (n : Int) (winner : Option Candidate) (assertions : List Assertion) (checkWinner : Bool) :
    StateM Budget (Except Text.DigitError ContestReport) :=
  afterScreen (contestFaults n winner assertions) (verifyContest n winner assertions checkWinner)

def trimScreened (n : Int) (winner : Option Candidate) (assertions : List Assertion) (request : TrimRequest) :
    StateM Budget (Except Text.DigitError (Except TrimError TrimResult)) :=
  afterScreen (contestFaults n winner assertions) (trim n winner assertions request)

/-- That nobody's orders can be hidden is found out before the faults. -/
def explainScreened (n : Int) (winner : Option Candidate) (assertions : List Assertion) (style : ExplanationStyle) :
    Metered (Except Text.DigitError (Except ExplanationError Explanation)) :=
  let faults := if style.hideWinner && winner.isNone then [] else contestFaults n winner assertions
  afterScreen faults (explain n winner assertions style)

def pruningOrderScreened (n : Int) (winner : Option Candidate) (assertions : List Assertion) :
    Metered (Except Text.DigitError (Except (List Fault) PruningOrder)) :=
  afterScreen (contestFaults n winner assertions) (pruningOrder n winner assertions)

end RunoffAudit
