/-! What a run notes about itself. -/

namespace SourceLayout

/-- How much a note matters. -/
inductive Level where
  | debug
  | info
  | warning
  | error
  deriving DecidableEq, Repr

inductive Component where
  | outline
  | declarations
  | engine
  | files
  | settings
  | commandLine
  deriving DecidableEq, Repr

structure Note where
  level : Level
  component : Component
  message : String
  deriving DecidableEq, Repr

namespace Level

def name : Level → String
  | .debug => "DEBUG"
  | .info => "INFO"
  | .warning => "WARNING"
  | .error => "ERROR"

def rank : Level → Nat
  | .debug => 10
  | .info => 20
  | .warning => 30
  | .error => 40

end Level

end SourceLayout
