import Semicolon.CommandLine

/-!
# The program
-/

open Semicolon

def main (args : List String) : IO UInt32 := do
  let reply := CommandLine.reply CommandLine.defaultName (args.map CommandLine.encode)
  (← IO.getStdout).putStr reply.stdout
  (← IO.getStderr).putStr reply.stderr
  return reply.code.toUInt32
