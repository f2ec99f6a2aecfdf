/-! # Log records

What lowering reports while it works: a message with named values. -/

namespace GraphLowering

inductive LogLevel where
  | debug
  | info
  | error
deriving DecidableEq, Repr, Inhabited

def LogLevel.name : LogLevel → String
  | debug => "DEBUG"
  | info => "INFO"
  | error => "ERROR"

structure LogRecord where
  level : LogLevel
  message : String
  fields : List (String × String)
deriving DecidableEq, Repr, Inhabited

def LogRecord.text (r : LogRecord) : String :=
  " ".intercalate (r.level.name :: r.message :: r.fields.map fun (k, v) => k ++ "=" ++ v)

end GraphLowering
