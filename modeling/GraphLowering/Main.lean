import GraphLowering.Command.LowerFunctions
import GraphLowering.Command.ReportTiming

/-! # The program

The first argument names the command, and the others are for the command. -/

namespace GraphLowering.Command

def faultOf : IO.Error → FileFault
  | .noFileOrDirectory .. => .missing
  | .inappropriateType .. => .isDirectory
  | .permissionDenied .. => .other "permission denied"
  | e => .other (toString e)

def machine : Host IO where
  read path := do
    try return .ok (← IO.FS.readBinFile path).toList
    catch e => return .error (faultOf e)
  create path := do
    try
      IO.FS.writeBinFile path .empty
      return .ok ()
    catch e => return .error (faultOf e)
  clock := {
    timed := fun f => do
      let start ← IO.monoNanosNow
      let a ← IO.lazyPure f
      let stop ← IO.monoNanosNow
      return (a, Int64.ofNat (stop - start)) }

def deliver {ε : Type} (r : Reporting ε) (o : Outcome ε) : IO UInt32 := do
  o.log.forM fun record => IO.eprintln record.text
  if let some (path, bytes) := o.file then IO.FS.writeBinFile path ⟨bytes.toArray⟩
  IO.print o.output
  if o.showsUsage r then IO.eprint (usageText r.command r.flags)
  let text := o.errorText r
  if !text.isEmpty then IO.eprintln text
  return o.exitCode

end GraphLowering.Command

open GraphLowering.Command in
def main (args : List String) : IO UInt32 := do
  match args with
  | "usimlower" :: args => deliver LowerFunctions.reporting (← LowerFunctions.run machine args)
  | "timeslice" :: args => deliver ReportTiming.reporting (← ReportTiming.run machine args)
  | _ =>
    IO.eprintln "usage: usimlower [flags] funcs.yaml | timeslice [flags] file"
    return 1
