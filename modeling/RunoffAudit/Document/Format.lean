import RunoffAudit.Yaml.Reader
import RunoffAudit.Yaml.Writer

/-! # Document formats -/
namespace RunoffAudit

/-- How documents are written as texts. Values of further kinds, which a problem can use for names only, are read as
their texts. -/
structure DocumentFormat where
  read : String → Except Yaml.ReadError Value
  write : Value → String

def DocumentFormat.yaml : DocumentFormat := ⟨Yaml.read, Yaml.write⟩

end RunoffAudit
