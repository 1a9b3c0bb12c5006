import Replatform.Number.Integer
import Replatform.Text.Quoted
/-!
# Failures

Everything that can stop an operation, as a cause, and the wording of those that have one.
-/

namespace Replatform

/-- What can go wrong. -/
inductive Failure
  /-- A record lacks the entry `key`. -/
  | noEntry (key : String)
  /-- A list is shorter than a position in it. -/
  | noItem
  /-- A text is shorter than a position in it. -/
  | noCharacter
  /-- A text is no whole number. -/
  | notInteger (text : String)
  /-- A whole number has too many digits to be read. -/
  | longInteger (count : Nat)
  | notNumber (text : String)
  /-- Files with this suffix are no workflows. -/
  | fileType (suffix : String)
  /-- There is no workflow file at this path. -/
  | noWorkflow (path : String)
  /-- There are no macros to copy at this path. -/
  | noMacros (path : String)
  /-- A document is not well formed; the fault is in words. -/
  | malformed (fault : String)
  /-- A document declares an encoding that is not known. -/
  | unknownEncoding (name : String)
  | noTool
  | divisionByZero
  /-- A quotient too large for a number. -/
  | tooLarge
  /-- A file or one of its directories does not exist. -/
  | noFile
  /-- A file stands where a directory is needed. -/
  | notDirectory
  /-- A directory stands where a file is needed. -/
  | isDirectory
  /-- There is a file already. -/
  | alreadyThere
  | longName
  /-- The name of a file holds a zero byte. -/
  | nulByte
  /-- A table has no delimiter. -/
  | noDelimiter
  /-- Parts contain each other without end. -/
  | endless
  | notText
deriving DecidableEq, Repr

/-- The wording of a failure, for those that have one. -/
def Failure.message? : Failure → Option String
  | .noEntry key => some (String.ofList (Text.quoted key.toList))
  | .noItem => some "list index out of range"
  | .noCharacter => some "string index out of range"
  | .notInteger text =>
    some ("invalid literal for int() with base 10: "
      ++ String.ofList ((Text.quoted text.toList).take 200))
  | .longInteger count =>
    some ("Exceeds the limit (" ++ toString Number.digitLimit
      ++ " digits) for integer string conversion: value has " ++ toString count
      ++ " digits; use sys.set_int_max_str_digits() to increase the limit")
  | .notNumber text =>
    some ("could not convert string to float: " ++ String.ofList (Text.quoted text.toList))
  | .nulByte => some "embedded null byte"
  | .fileType suffix => some ("Unsupported file type: " ++ suffix)
  | .noWorkflow path => some ("Workflow file not found: " ++ path)
  | .noMacros path =>
    some ("Migration macros directory not found at " ++ path
      ++ ". The dbt_macros/ directory is required for DBT generation. "
      ++ "Please ensure it exists in the same directory as dbt_generator.py.")
  | _ => none

/-- A failure in words, as far as there are any. -/
def Failure.wording (e : Failure) : String :=
  match e with
  | .malformed fault => fault
  | .unknownEncoding name => "unknown encoding: " ++ name
  | _ => e.message?.getD ""

end Replatform
