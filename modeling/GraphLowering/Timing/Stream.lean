import GraphLowering.JsonText.Tree

/-! # Streams of timing records

A stream starts with a header of three words and a table of kinds in JSON; records of two words of
eight bytes follow, a kind and a duration. All words have their low byte first. -/

namespace GraphLowering.Timing

structure Kind where
  name : String := ""
  flags : UInt32 := 0
deriving DecidableEq, Repr, Inhabited

namespace Kind

def flagText (k : Kind) : String :=
  Text.join "," ((if k.flags &&& 1 ≠ 0 then ["phase"] else []) ++
    if k.flags &&& 2 ≠ 0 then ["target"] else [])

end Kind

/-- Kinds by number; a later entry stands before an earlier one. -/
abbrev KindTable := List (UInt64 × Kind)

structure Record where
  kind : UInt64
  duration : Int64
deriving DecidableEq, Repr, Inhabited

/-! ## Words -/

/-- The low `width` bytes of a number, low byte first. -/
def bytesOf (width n : Nat) : List UInt8 :=
  match width with
  | 0 => []
  | w + 1 => UInt8.ofNat (n % 256) :: bytesOf w (n / 256)

/-- The number that bytes stand for, low byte first. -/
def numberOf : List UInt8 → Nat
  | [] => 0
  | b :: rest => b.toNat + 256 * numberOf rest

/-! ## Writing -/

def magic : Nat := 0x55534c54

def version : Nat := 1

def Record.bytes (r : Record) : List UInt8 :=
  bytesOf 8 r.kind.toNat ++ bytesOf 8 r.duration.toUInt64.toNat

/-- The table in JSON, with its keys in the order of their texts. -/
def KindTable.text (t : KindTable) : String :=
  let sorted := t.mergeSort fun a b => toString a.1.toNat ≤ toString b.1.toNat
  "\x7b" ++ Text.join "," (sorted.map fun (n, k) =>
    "\"" ++ toString n.toNat ++ "\":\x7b\"Name\":" ++ JsonText.quote k.name ++ ",\"Flags\":" ++
      toString k.flags.toNat ++ "\x7d") ++ "\x7d"

def tableBytes (t : KindTable) : List UInt8 := t.text.toUTF8.toList

def headerBytes (t : KindTable) : List UInt8 :=
  bytesOf 4 magic ++ bytesOf 4 version ++ bytesOf 4 (tableBytes t).length

def streamBytes (t : KindTable) (rs : List Record) : List UInt8 :=
  headerBytes t ++ tableBytes t ++ rs.flatMap Record.bytes

/-! ## Reading -/

inductive StreamFault where
  /-- The header is not there, or not all of it. -/
  | header (begun : Bool)
  | magic (n : Nat)
  | version (n : Nat)
  /-- The table of kinds is not there, or not all of it. -/
  | kinds (begun : Bool)
  /-- The table of kinds cannot be read. -/
  | table
  /-- The last record is not complete. -/
  | record
  | unknownKind (n : Nat)
deriving DecidableEq, Repr

/-- How bytes can end too early: before the first one, or later. -/
def endText (begun : Bool) : String := if begun then "unexpected EOF" else "EOF"

def StreamFault.message : StreamFault → String
  | header begun => "timeslice: read header: " ++ endText begun
  | magic n => "timeslice: invalid magic 0x" ++ Text.hex n
  | version n => "timeslice: unsupported version " ++ toString n
  | kinds begun => "timeslice: read kinds: " ++ endText begun
  | table => "timeslice: decode kinds"
  | record => "timeslice: read record: " ++ endText true
  | unknownKind n => "timeslice: unknown kind " ++ toString n

/-- A field name with letters that differ only in case made equal. -/
def foldCase (s : String) : String :=
  String.ofList (s.toList.map fun c => if c.toNat = 0x17f then 's' else c.toLower)

open JsonText (Tree)

/-- Takes a field of a kind over; unknown fields say nothing. -/
def setField (k : Kind) (field : String × Tree) : Option Kind :=
  match foldCase field.1, field.2 with
  | "name", .text s => some { k with name := s }
  | "flags", .number digits =>
    match Text.readNat? digits with
    | some n => if n < UInt32.size then some { k with flags := UInt32.ofNat n } else none
    | none => none
  | "name", .null | "flags", .null => some k
  | "name", _ | "flags", _ => none
  | _, _ => some k

def kindOf? : Tree → Option Kind
  | .null => some {}
  | .object fields => fields.foldlM setField {}
  | _ => none

def entryOf? (field : String × Tree) : Option (UInt64 × Kind) := do
  let n ← Text.readNat? field.1.toList
  if n < UInt64.size then return (UInt64.ofNat n, ← kindOf? field.2) else none

def tableOf? (bytes : List UInt8) : Option KindTable :=
  match JsonText.read? (Text.decode bytes) with
  | some .null => some []
  | some (.object fields) => (fields.mapM entryOf?).map List.reverse
  | _ => none

/-- A record as it is read: its kind and its duration. -/
structure Sample where
  kind : Kind
  duration : Int64
deriving DecidableEq, Repr, Inhabited

/-- The samples of a stream up to its end or to its first fault. -/
structure Reading where
  samples : List Sample := []
  fault : Option StreamFault := none
deriving DecidableEq, Repr, Inhabited

def readRecords (t : KindTable) (bytes : List UInt8) (samples : List Sample) : Reading :=
  if bytes.isEmpty then { samples := samples.reverse }
  else if _h : bytes.length < 16 then { samples := samples.reverse, fault := some .record }
  else
    let kind := numberOf (bytes.take 8)
    let duration := (UInt64.ofNat (numberOf ((bytes.drop 8).take 8))).toInt64
    match t.lookup (UInt64.ofNat kind) with
    | none => { samples := samples.reverse, fault := some (.unknownKind kind) }
    | some k => readRecords t (bytes.drop 16) ({ kind := k, duration } :: samples)
termination_by bytes.length
decreasing_by simp only [List.length_drop]; omega

def readStream (bytes : List UInt8) : Reading :=
  if bytes.length < 12 then { fault := some (.header (!bytes.isEmpty)) }
  else
    let word (i : Nat) : Nat := numberOf ((bytes.drop (4 * i)).take 4)
    if word 0 ≠ magic then { fault := some (.magic (word 0)) }
    else if word 1 ≠ version then { fault := some (.version (word 1)) }
    else
      let rest := bytes.drop 12
      let size := word 2
      if rest.length < size then { fault := some (.kinds (!rest.isEmpty)) }
      else match tableOf? (rest.take size) with
        | none => { fault := some .table }
        | some t => readRecords t (rest.drop size) []

end GraphLowering.Timing
