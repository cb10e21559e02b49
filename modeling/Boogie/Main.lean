import Boogie.Command.Run

/-! The program itself. What a run may ask for is read first, and what it leaves behind is written. -/
namespace Boogie.Command

def ReadError.ofNumber (text : String) : Nat → ReadError
  | 2 => .notFound
  | 20 => .notDirectory
  | 21 => .isDirectory
  | 36 => .nameTooLong
  | number => .other text number

def ReadError.ofSystem : IO.Error → ReadError
  | .noFileOrDirectory _ number text | .interrupted _ number text => .ofNumber text number.toNat
  | .alreadyExists _ number text | .invalidArgument _ number text | .permissionDenied _ number text
  | .resourceExhausted _ number text | .inappropriateType _ number text | .noSuchThing _ number text =>
    .ofNumber text number.toNat
  | .otherError number text | .resourceBusy number text | .resourceVanished number text
  | .unsupportedOperation number text | .hardwareFault number text
  | .unsatisfiedConstraints number text | .illegalOperation number text | .protocolError number text
  | .timeExpired number text => .ofNumber text number.toNat
  | .unexpectedEof => .other "unexpected end of file" 0
  | .userError text => .other text 0

def readPath (path : String) : IO (Except ReadError ByteArray) := do
  try return .ok (← IO.FS.withFile path .read fun file => file.readBinToEnd)
  catch e => return .error (.ofSystem e)

partial def readStream (stream : IO.FS.Stream) (found : ByteArray) : IO ByteArray := do
  let bytes ← stream.read 65536
  if bytes.isEmpty then return found else readStream stream (found ++ bytes)

def surroundings (arguments : List String) : IO Surroundings := do
  let paths := match parseArguments arguments with
    | .ok (.read o) => o.files
    | _ => []
  let found ← (paths.filter fun p => !Path.same p standardInput).mapM fun p => return (p, ← readPath p)
  let input ← if paths.any fun p => Path.same p standardInput then
      readStream (← IO.getStdin) ByteArray.empty
    else pure ByteArray.empty
  return ⟨fun path => (found.lookup path).getD (.error .notFound), input⟩

end Boogie.Command

def main (arguments : List String) : IO UInt32 := do
  let env ← Boogie.Command.surroundings arguments
  let outcome := Boogie.Command.run (← (← IO.getStderr).isTty) env arguments
  IO.eprint outcome.errors
  IO.print outcome.output
  return outcome.exitCode.toUInt32
