import DesignDocs.Error.Kind

namespace DesignDocs

structure Report where
  message : String
  kind : ErrorKind
  deriving DecidableEq

/-- `causes` lists what led to the error, the nearest first. -/
structure DesignError extends Report where
  causes : List Report
  deriving DecidableEq

namespace DesignError

def of (kind : ErrorKind) (message : String) : DesignError := ⟨⟨message, kind⟩, []⟩

def because (kind : ErrorKind) (message : String) (cause : DesignError) : DesignError :=
  ⟨⟨message, kind⟩, cause.toReport :: cause.causes⟩

def cause? (e : DesignError) : Option DesignError :=
  match e.causes with
  | [] => none
  | r :: rest => some ⟨r, rest⟩

def chain (e : DesignError) : List Report := e.toReport :: e.causes

def root (e : DesignError) : Report := (e.causes.getLast?).getD e.toReport

def rootKind (e : DesignError) : ErrorKind := e.root.kind

def describe (e : DesignError) : String :=
  String.intercalate "\nCaused by: " (e.chain.map (·.message))

def ofMessage (message : String) : DesignError := of (.ofMessage message) message

def internal (message : String) : DesignError := of .internal message

end DesignError

end DesignDocs
