import GraphLowering.Timing.Stream

/-! # Recording

Records go to a buffer that is written when it is full and when the recording ends. Only one
recording is open at a time. Writing can fail, and then what was not written is lost. -/

namespace GraphLowering.Timing

structure Sink where
  written : List UInt8 := []
  /-- How many more writes succeed, if there is a bound. -/
  allowed : Option Nat := none

/-- Writes bytes; false if the write failed. -/
def Sink.write (s : Sink) (bytes : List UInt8) : Sink × Bool :=
  match s.allowed with
  | some 0 => (s, false)
  | some (n + 1) => ({ written := s.written ++ bytes, allowed := some n }, true)
  | none => ({ s with written := s.written ++ bytes }, true)

structure OpenRecording where
  id : Nat
  /-- The records that are not written yet. -/
  buffered : List Record := []
  failed : Bool := false

structure Recorder where
  kinds : KindTable
  sink : Sink := {}
  current : Option OpenRecording := none
  /-- How many recordings were begun. -/
  begun : Nat := 0

inductive RecordingFault where
  | alreadyRecording
  | alreadyClosed
  | writeHeader
  | writeKinds
  | writeRecords
deriving DecidableEq, Repr

def writeFailure : String := "disk full"

def RecordingFault.message : RecordingFault → String
  | alreadyRecording => "timeslice: already recording"
  | alreadyClosed => "timeslice: already closed"
  | writeHeader => "timeslice: write header: " ++ writeFailure
  | writeKinds => "timeslice: write kinds: " ++ writeFailure
  | writeRecords => "timeslice: write records: " ++ writeFailure

def bufferSize : Nat := 256

namespace Recorder

def isOpen (r : Recorder) : Bool := r.current.isSome

/-- Writes the header and opens a recording; gives its number. -/
def start (r : Recorder) : Recorder × Except RecordingFault Nat :=
  if r.isOpen then (r, .error .alreadyRecording)
  else
    let (sink, ok) := r.sink.write (headerBytes r.kinds)
    if !ok then ({ r with sink }, .error .writeHeader)
    else
      let (sink, ok) := sink.write (tableBytes r.kinds)
      if !ok then ({ r with sink }, .error .writeKinds)
      else ({ r with sink, current := some { id := r.begun }, begun := r.begun + 1 }, .ok r.begun)

def flush (sink : Sink) (o : OpenRecording) : Sink × OpenRecording :=
  if o.failed || o.buffered.isEmpty then (sink, o)
  else
    let (sink, ok) := sink.write (o.buffered.flatMap Record.bytes)
    (sink, { o with buffered := [], failed := !ok })

/-- Records a duration, if a recording is open. -/
def record (r : Recorder) (sample : Record) : Recorder :=
  match r.current with
  | none => r
  | some o =>
    let (sink, o) := if o.buffered.length < bufferSize then (r.sink, o) else flush r.sink o
    let o := if o.failed then o else { o with buffered := o.buffered ++ [sample] }
    { r with sink, current := some o }

/-- Ends recording number `id`. -/
def close (r : Recorder) (id : Nat) : Recorder × Except RecordingFault Unit :=
  match r.current with
  | none => (r, .error .alreadyClosed)
  | some o =>
    if o.id ≠ id then (r, .error .alreadyClosed)
    else
      let (sink, o) := flush r.sink o
      ({ r with sink, current := none }, if o.failed then .error .writeRecords else .ok ())

end Recorder

end GraphLowering.Timing
