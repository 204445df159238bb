import RunoffAudit.Text.Quoted

/-! # Errors of the file system -/
namespace RunoffAudit

inductive FileError where
  | missing (path : String)
  | exists_ (path : String)
  | notDirectory (path : String)
  | isDirectory (path : String)
  | nameTooLong (path : String)

def FileError.message : FileError → String
  | missing path => "[Errno 2] No such file or directory: " ++ Text.quoted path
  | exists_ path => "[Errno 17] File exists: " ++ Text.quoted path
  | notDirectory path => "[Errno 20] Not a directory: " ++ Text.quoted path
  | isDirectory path => "[Errno 21] Is a directory: " ++ Text.quoted path
  | nameTooLong path => "[Errno 36] File name too long: " ++ Text.quoted path

end RunoffAudit
