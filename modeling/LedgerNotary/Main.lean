import LedgerNotary.Command.Run
import Std.Time.DateTime.Timestamp

/-! The program on a real system. An index is kept in one file, as the list of its cells. -/

namespace LedgerNotary.Command

def bytesOf (a : ByteArray) : Bytes := a.toList

def arrayOf (s : Bytes) : ByteArray := ⟨s.toArray⟩

/-- The text by which the system explains a failed operation. -/
def explained : IO.Error → String
  | .noFileOrDirectory .. => "No such file or directory (os error 2)"
  | .permissionDenied .. => "Permission denied (os error 13)"
  | .inappropriateType _ _ "not a directory" => "Not a directory (os error 20)"
  | .inappropriateType .. => "Is a directory (os error 21)"
  | .invalidArgument _ _ "name too long" => "File name too long (os error 36)"
  | e => toString e

def readIndex (path : String) : IO (Except String DurableIndex) := do
  match ← (IO.FS.readBinFile path).toBaseIO with
  | .error (.noFileOrDirectory ..) => return .ok .empty
  | .error e => return .error (explained e)
  | .ok a =>
    match (Wire.read (bytesOf a) : Except Wire.Fault (List (Bytes × Bytes))) with
    | .ok cells => return .ok ⟨.ofList cells⟩
    | .error f => return .error f.message

def system : Host IO where
  environment name := IO.getEnv name
  fetch path := do
    return (← (IO.FS.readBinFile path).toBaseIO).map bytesOf |>.mapError explained
  store path s := do
    return (← (IO.FS.writeBinFile path (arrayOf s)).toBaseIO).mapError explained
  openIndex := readIndex
  saveIndex path index := IO.FS.writeBinFile path (arrayOf (Wire.pack index.cells.entries))
  random n := do
    let s := bytesOf (← IO.getRandomBytes n.toUSize)
    return (Octets.ofBytes? n s).getD (.zero n)
  now := do
    let t ← Std.Time.Timestamp.now
    return .ofNanos t.toNanosecondsSinceUnixEpoch.val

end LedgerNotary.Command

def main (args : List String) : IO UInt32 := do
  let outcome ← LedgerNotary.Command.run LedgerNotary.Command.system args
  (← IO.getStdout).putStr outcome.output
  (← IO.getStderr).putStr outcome.complaint
  return outcome.exitCode.toUInt32
