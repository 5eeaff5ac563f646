/-! Errors of the operating system. -/

namespace SourceLayout

/-- An error of the operating system: its number, its symbol and its text. -/
structure SystemError where
  number : Nat
  symbol : String
  text : String
  deriving DecidableEq, Repr

namespace SystemError

def noEntry : SystemError := ⟨2, "ENOENT", "No such file or directory"⟩
def notDirectory : SystemError := ⟨20, "ENOTDIR", "Not a directory"⟩
def isDirectory : SystemError := ⟨21, "EISDIR", "Is a directory"⟩
def busy : SystemError := ⟨16, "EBUSY", "Device or resource busy"⟩

/-- Whether the error passes when a program that holds the file lets it go. -/
def isBusy (e : SystemError) : Bool := ["EBUSY", "EAGAIN", "EACCES", "EPERM"].contains e.symbol

/-- Whether the error says that there is nothing at a path. -/
def isAbsence (e : SystemError) : Bool := ["ENOENT", "ENOTDIR", "EBADF", "ELOOP"].contains e.symbol

/-- The error as it is told, without the files it is about. -/
def message (e : SystemError) : String := s!"[Errno {e.number}] {e.text}"

end SystemError

end SourceLayout
