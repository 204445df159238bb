/-! # Log lines

What a search has to say to somebody who follows it. Log lines are computed from finished results.
-/
namespace RunoffAudit

inductive LogLevel where
  | debug
  | info
  | warning
deriving DecidableEq

def LogLevel.word : LogLevel → String
  | debug => "DEBUG"
  | info => "INFO"
  | warning => "WARNING"

structure LogLine where
  level : LogLevel
  source : String
  message : String
deriving DecidableEq

def LogLine.text (l : LogLine) : String := l.level.word ++ " " ++ l.source ++ ": " ++ l.message

end RunoffAudit
