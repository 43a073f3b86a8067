import Assembler.CommandLine.Program

namespace Assembler.CommandLine

-- Some calls of the system report the number of an error as a negative one.
def errorNumber (code : UInt32) : UInt32 := if code < 0x80000000 then code else -code

def fileErrorOf : IO.Error → FileError
  | .noFileOrDirectory .. => .missing
  | .inappropriateType _ code _ => if errorNumber code = 20 then .noFolder else .folder
  | e@(.invalidArgument _ code _) =>
      if errorNumber code = 36 then .longName else .other (toString e)
  | e => .other (toString e)

instance : FileStore IO where
  read path := do
    try return .ok (← IO.FS.readBinFile (String.ofList path)).data.toList
    catch e => return .error (fileErrorOf e)
  write path content := do
    try
      IO.FS.writeBinFile (String.ofList path) ⟨content.toArray⟩
      return .ok ()
    catch e => return .error (fileErrorOf e)

end Assembler.CommandLine

def main (args : List String) : IO UInt32 := do
  let outcome ← Assembler.CommandLine.run (m := IO) (args.map String.toList)
  (← IO.getStdout).putStr (String.ofList outcome.output)
  (← IO.getStderr).putStr (String.ofList outcome.errors)
  return UInt32.ofNat outcome.code
