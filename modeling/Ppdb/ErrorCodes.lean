/-!
The result codes of the infrastructure layer.
-/

namespace Ppdb.ErrorCodes

inductive ErrorCode
  | ok
  | invalid
  | invalidParam
  | noMemory
  | existing
  | notReady
  | io
  | timeout
  | busy
  | dependency
  | notFound
  | system
  | wouldBlock
  | closed
  | notSupported
  | alreadyExists
  | invalidOperation
  deriving DecidableEq, Repr

end Ppdb.ErrorCodes
