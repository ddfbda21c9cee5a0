import TreeCompiler.CommandLine.Basic

/-!
# Main — the compiler as a program
-/

namespace TreeCompiler

/-- The file error behind an error of the system. -/
def FileError.ofSystem (e : IO.Error) : FileError :=
  match e with
  | .noFileOrDirectory _ _ _ => .notFound
  | .inappropriateType _ code _ => if code.toNat = 20 then .notDirectory else .isDirectory
  | .permissionDenied _ code details => ⟨details, some code.toNat⟩
  | other => ⟨toString other, none⟩

/-- Catch an error of the system. -/
def catchFileError {α : Type} (action : IO α) : IO (Except FileError α) := do
  try
    return .ok (← action)
  catch e =>
    return .error (.ofSystem e)

/-- The surroundings of the program. -/
def Host.system : Host IO where
  readFile path := catchFileError (IO.FS.readFile path)
  writeFile path text := catchFileError (IO.FS.writeFile path text)
  print text := IO.print text
  report text := IO.eprint text
  timed f := do
    let start ← IO.monoNanosNow
    let result ← IO.lazyPure f
    let stop ← IO.monoNanosNow
    return (result, toString ((stop - start) / 1000))

end TreeCompiler

def main (args : List String) : IO UInt32 := do
  let code ← TreeCompiler.CommandLine.run TreeCompiler.Host.system args
  return code.toUInt32
