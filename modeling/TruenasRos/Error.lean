import TruenasRos.Lib.Fallible

/-! # Errors

The error values the modelled parts of the crate return. A syscall failure
carries its number, a refused walk position the level and path it broke at, and
the others the text shown to the caller.
-/

namespace TruenasRos

abbrev Bytes := List UInt8

/-- The error numbers the modelled code tells apart from the rest. -/
inductive Errno
  | EPERM
  | ENOENT
  | EACCES
  | EINVAL
  | other (code : ℕ)
  deriving DecidableEq

inductive Error
  | errno (e : Errno)
  | validation (msg : String)
  | parse (msg : String)
  | iteratorRestore (depth : ℕ) (path : Bytes)
  deriving DecidableEq

end TruenasRos
