import GraphLowering.Machine.Listing
import GraphLowering.Subtarget.Description

/-! # Instructions of the machine -/

namespace GraphLowering.Usim

open Machine (Op)

/-- The instructions in the order of their numbers. -/
def instrNames : List String := [
  "MOVri", "MOVrr", "ADDrr", "ADDri", "SUBrr", "CMPrr", "CMPri", "FCMPrr", "Bcc", "B", "LL", "SC",
  "LDW", "STW", "CALL", "RET", "SELECT", "ATOMIC_LOAD_ADD"]

namespace Instr

def addRR : Op := .machine 2

def cmpRR : Op := .machine 5

def cmpRI : Op := .machine 6

def fcmpRR : Op := .machine 7

/-- Branches if a condition holds. -/
def bcc : Op := .machine 8

def loadLinked : Op := .machine 10

/-- Stores a word if nothing was stored at the watched address, and gives zero if it did. -/
def storeConditional : Op := .machine 11

/-- Pseudo instruction: destination, left, right, value if true, value if false, condition. -/
def select : Op := .machine 16

/-- Pseudo instruction: destination, pointer, increment. -/
def atomicLoadAdd : Op := .machine 17

end Instr

def instrName : Op → String
  | .machine n => instrNames[n]?.getD (Machine.Names.generic.op (.machine n))
  | op => Machine.Names.generic.op op

def instrListing (d : Subtarget.Description) : Machine.Names where
  op := instrName
  register := d.registerName

end GraphLowering.Usim
