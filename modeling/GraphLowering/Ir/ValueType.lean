import GraphLowering.Text.Quoted

/-! # Types of values

A value is a chain (an ordering token), glue (an adjacency token), an integer or a float. Numbers
beyond the named types denote types without a name. -/

namespace GraphLowering

inductive ValueType where
  | chain
  | glue
  | i1
  | i8
  | i16
  | i32
  | i64
  | i128
  | f32
  | f64
  /-- The type whose number is `n` beyond the named ones. -/
  | unnamed (n : Nat)
deriving DecidableEq, Repr, Inhabited

namespace ValueType

def named : List ValueType := [.chain, .glue, .i1, .i8, .i16, .i32, .i64, .i128, .f32, .f64]

def number : ValueType → Nat
  | unnamed n => named.length + n
  | vt => named.idxOf vt

def ofNumber (n : Nat) : ValueType := named[n]?.getD (unnamed (n - named.length))

def name : ValueType → String
  | chain => "ch"
  | glue => "glue"
  | i1 => "i1"
  | i8 => "i8"
  | i16 => "i16"
  | i32 => "i32"
  | i64 => "i64"
  | i128 => "i128"
  | f32 => "f32"
  | f64 => "f64"
  | unnamed n => "vt" ++ toString (named.length + n)

def parse? (s : String) : Option ValueType := named.find? (·.name = s)

/-- The storage width; tokens have none. -/
def bits : ValueType → Nat
  | i1 => 1
  | i8 => 8
  | i16 => 16
  | i32 | f32 => 32
  | i64 | f64 => 64
  | i128 => 128
  | _ => 0

def isInteger : ValueType → Bool
  | i1 | i8 | i16 | i32 | i64 | i128 => true
  | _ => false

def isFloat : ValueType → Bool
  | f32 | f64 => true
  | _ => false

/-- Chains and glue order nodes and carry no data. -/
def isToken : ValueType → Bool
  | chain | glue => true
  | _ => false

def isWide : ValueType → Bool
  | i64 | f64 => true
  | _ => false

def isNarrow : ValueType → Bool
  | i1 | i8 | i16 => true
  | _ => false

def listName (vts : List ValueType) : String :=
  "[" ++ " ".intercalate (vts.map name) ++ "]"

end ValueType

end GraphLowering
