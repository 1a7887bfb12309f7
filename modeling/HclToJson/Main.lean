import HclToJson.Command.Run

namespace HclToJson.Program

def textOf (bytes : ByteArray) : Command.Input :=
  match String.fromUTF8? bytes with
  | some text => .ok text
  | none => .error "stream did not contain valid UTF-8"

partial def readAll (stream : IO.FS.Stream) (bytes : ByteArray) : IO ByteArray := do
  let chunk ← stream.read 65536
  if chunk.isEmpty then return bytes else readAll stream (bytes ++ chunk)

def readInput (command : Command) : IO Command.Input := do
  match command.file with
  | none => return textOf (← readAll (← IO.getStdin) .empty)
  | some file =>
      try
        return textOf (← IO.FS.readBinFile file)
      catch
        | .noFileOrDirectory .. => return .error Command.missingFile
        | error => return .error error.toString

end HclToJson.Program

open HclToJson in
def main (arguments : List String) : IO UInt32 := do
  let report ← Command.call Program.readInput arguments
  IO.print report.stdout
  IO.eprint report.stderr
  return report.exitCode.toUInt32
