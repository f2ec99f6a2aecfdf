import GraphLowering.Graph.Basic

/-! # Building nodes

One function per kind of node. Nodes that need leaves as operands make those first. The forms with a
question mark take the type from an operand and give `none` if the operand has none. -/

namespace GraphLowering.Graph

def operandType? (g : Graph) (v : Option Value) : Option ValueType := v.bind g.type?

/-! ## Leaves -/

def leaf (g : Graph) (op : Opcode) (vt : ValueType) (payload : Payload) : Graph × Value :=
  let (g, id) := g.newNode op [vt] [] payload
  (g, ⟨id, 0⟩)

def constant (g : Graph) (n : Int64) (vt : ValueType) : Graph × Value :=
  g.leaf .constant vt (.integer n)

def targetConstant (g : Graph) (n : Int64) (vt : ValueType) : Graph × Value :=
  g.leaf .targetConstant vt (.integer n)

def register (g : Graph) (r : Register) (vt : ValueType) : Graph × Value :=
  g.leaf .register vt (.register r)

def registerMask (g : Graph) (rs : List Register) : Graph × Value :=
  g.leaf .registerMask .chain (.registers rs)

def basicBlock (g : Graph) (name : String) : Graph × Value :=
  g.leaf .basicBlock .chain (.symbol name 0)

def frameIndex (g : Graph) (i : Int) (vt : ValueType) : Graph × Value :=
  g.leaf .frameIndex vt (.index i)

def globalAddress (g : Graph) (name : String) (offset : Int64) (vt : ValueType) : Graph × Value :=
  g.leaf .globalAddress vt (.symbol name offset)

def targetGlobalAddress (g : Graph) (name : String) (offset : Int64) (vt : ValueType) :
    Graph × Value :=
  g.leaf .targetGlobalAddress vt (.symbol name offset)

def externalSymbol (g : Graph) (name : String) (vt : ValueType) : Graph × Value :=
  g.leaf .externalSymbol vt (.symbol name 0)

def targetExternalSymbol (g : Graph) (name : String) (vt : ValueType) : Graph × Value :=
  g.leaf .targetExternalSymbol vt (.symbol name 0)

def condCode (g : Graph) (cc : CondCode) : Graph × Value :=
  g.leaf .condCode .chain (.condition cc)

def undef (g : Graph) (vt : ValueType) : Graph × Value := g.leaf .undef vt .none

def argument (g : Graph) (i : Int) (vt : ValueType) : Graph × Value :=
  g.leaf .argument vt (.index i)

/-! ## Values -/

def single (g : Graph) (op : Opcode) (vt : ValueType) (operands : List (Option Value)) :
    Graph × Value :=
  let (g, id) := g.newNode op [vt] operands
  (g, ⟨id, 0⟩)

def unary (g : Graph) (op : Opcode) (vt : ValueType) (a : Option Value) : Graph × Value :=
  g.single op vt [a]

def binary (g : Graph) (op : Opcode) (vt : ValueType) (a b : Option Value) : Graph × Value :=
  g.single op vt [a, b]

def mergeValues? (g : Graph) (values : List (Option Value)) : Option (Graph × Nat) := do
  let types ← values.mapM g.operandType?
  return g.newNode .mergeValues types values

def buildPair (g : Graph) (vt : ValueType) (low high : Option Value) : Graph × Value :=
  g.single .buildPair vt [low, high]

def extractElement (g : Graph) (vt : ValueType) (pair : Option Value) (i : Int64) :
    Graph × Value :=
  let (g, i) := g.constant i .i32
  g.single .extractElement vt [pair, some i]

def setCC (g : Graph) (vt : ValueType) (a b : Option Value) (cc : CondCode) : Graph × Value :=
  let (g, cc) := g.condCode cc
  g.single .setCC vt [a, b, some cc]

def select (g : Graph) (vt : ValueType) (cond ifTrue ifFalse : Option Value) : Graph × Value :=
  g.single .select vt [cond, ifTrue, ifFalse]

def select? (g : Graph) (cond ifTrue ifFalse : Option Value) : Option (Graph × Value) := do
  return g.select (← g.operandType? ifTrue) cond ifTrue ifFalse

def selectCC (g : Graph) (vt : ValueType) (a b ifTrue ifFalse : Option Value) (cc : CondCode) :
    Graph × Value :=
  let (g, cc) := g.condCode cc
  g.single .selectCC vt [a, b, ifTrue, ifFalse, some cc]

def selectCC? (g : Graph) (a b ifTrue ifFalse : Option Value) (cc : CondCode) :
    Option (Graph × Value) := do
  return g.selectCC (← g.operandType? ifTrue) a b ifTrue ifFalse cc

def frameAddr (g : Graph) (depth : Int64) (vt : ValueType) : Graph × Value :=
  let (g, depth) := g.constant depth .i32
  g.single .frameAddr vt [some depth]

def returnAddr (g : Graph) (depth : Int64) (vt : ValueType) : Graph × Value :=
  let (g, depth) := g.constant depth .i32
  g.single .returnAddr vt [some depth]

/-! ## Chained operations -/

/-- Joins chains; a single chain stays as it is. -/
def tokenFactor (g : Graph) (chains : List (Option Value)) : Graph × Value :=
  match (chains.filterMap (·)).eraseDups with
  | [c] => (g, c)
  | cs => g.single .tokenFactor .chain (cs.map some)

/-- Copies a value into a register; gives a chain and glue. -/
def copyToReg? (g : Graph) (chain : Option Value) (r : Register) (v glue : Option Value) :
    Option (Graph × Nat) := do
  let vt ← g.operandType? v
  let (g, r) := g.register r vt
  return g.newNode .copyToReg [.chain, .glue] [chain, some r, v, glue]

/-- Reads a register; gives a value, a chain and glue. -/
def copyFromReg (g : Graph) (chain : Option Value) (r : Register) (vt : ValueType)
    (glue : Option Value) : Graph × Nat :=
  let (g, r) := g.register r vt
  g.newNode .copyFromReg [vt, .chain, .glue] [chain, some r, glue]

/-- Reads memory; gives a value and a chain. -/
def load (g : Graph) (chain ptr : Option Value) (vt : ValueType) : Graph × Nat :=
  g.newNode .load [vt, .chain] [chain, ptr]

def store (g : Graph) (chain v ptr : Option Value) : Graph × Value :=
  g.single .store .chain [chain, v, ptr]

/-- Adds to memory; gives the value before and a chain. -/
def atomicLoadAdd (g : Graph) (vt : ValueType) (chain ptr inc : Option Value) : Graph × Nat :=
  g.newNode .atomicLoadAdd [vt, .chain] [chain, ptr, inc]

def atomicLoadAdd? (g : Graph) (chain ptr inc : Option Value) : Option (Graph × Nat) := do
  return g.atomicLoadAdd (← g.operandType? inc) chain ptr inc

def br (g : Graph) (chain : Option Value) (block : String) : Graph × Value :=
  let (g, block) := g.basicBlock block
  g.single .br .chain [chain, some block]

def brCond (g : Graph) (chain cond : Option Value) (block : String) : Graph × Value :=
  let (g, block) := g.basicBlock block
  g.single .brCond .chain [chain, cond, some block]

def brCC (g : Graph) (chain : Option Value) (cc : CondCode) (a b : Option Value) (block : String) :
    Graph × Value :=
  let (g, cc) := g.condCode cc
  let (g, block) := g.basicBlock block
  g.single .brCC .chain [chain, some cc, a, b, some block]

/-- Calls; gives the results and then a chain. -/
def call (g : Graph) (chain callee : Option Value) (args : List (Option Value))
    (results : List ValueType) (info : CallInfo) : Graph × Nat :=
  g.newNode .call (results ++ [.chain]) (chain :: callee :: args) (.call info)

def ret (g : Graph) (chain : Option Value) (values : List (Option Value)) : Graph × Value :=
  g.single .ret .chain (chain :: values)

def callSeqStart (g : Graph) (chain : Option Value) (bytes : Int64) : Graph × Value :=
  let (g, bytes) := g.targetConstant bytes .i32
  g.single .callSeqStart .chain [chain, some bytes]

/-- Ends a call sequence; gives a chain and glue. -/
def callSeqEnd (g : Graph) (chain : Option Value) (bytes : Int64) (glue : Option Value) :
    Graph × Nat :=
  let (g, bytes) := g.targetConstant bytes .i32
  let (g, zero) := g.targetConstant 0 .i32
  g.newNode .callSeqEnd [.chain, .glue] [chain, some bytes, some zero, glue]

end GraphLowering.Graph
