import GraphLowering.Yaml.Scalar

/-! # From characters to tokens

A block collection starts where the indentation grows and ends where it shrinks. That a word is a
key shows only at the colon after it, so the scanner remembers where a key may have started and puts
the key token there when the colon comes. -/

namespace GraphLowering.Yaml

/-- A place where a key without the `?` indicator may have started. -/
structure SimpleKey where
  /-- A block mapping cannot go on without it. -/
  required : Bool
  /-- The number of tokens before it. -/
  position : Nat
  index : Nat
  line : Nat
  column : Nat

structure Scanner where
  cur : Cursor
  /-- The tokens so far, the last one first. -/
  tokens : List Token
  /-- How many tokens there are. -/
  count : Nat
  /-- The column of the innermost open block collection, or -1. -/
  indent : Int
  /-- The columns of the block collections around it. -/
  outer : List Int
  /-- How many flow collections are open. -/
  flow : Nat
  keyAllowed : Bool
  /-- The possible key of each flow level, innermost first. -/
  keys : List (Option SimpleKey)

namespace Scanner

def emit (s : Scanner) (kind : TokenKind) (line : Nat) : Scanner :=
  { s with tokens := ⟨kind, line + 1⟩ :: s.tokens, count := s.count + 1 }

/-- Puts a token before the one with number `position`. -/
def emitAt (s : Scanner) (position : Nat) (kind : TokenKind) (line : Nat) : Scanner :=
  { s with
    tokens := s.tokens.insertIdx (s.count - position) ⟨kind, line + 1⟩
    count := s.count + 1 }

def emitChar (s : Scanner) (kind : TokenKind) : Scanner :=
  { s.emit kind s.cur.line with cur := s.cur.skip }

/-- Opens a block collection at `column` if it lies deeper than the current one. -/
def openBlock (s : Scanner) (column : Nat) (position : Option Nat) (kind : TokenKind)
    (line : Nat) : Scanner :=
  if s.flow = 0 && s.indent < (column : Int) then
    let s := { s with outer := s.indent :: s.outer, indent := (column : Int) }
    match position with
    | some p => s.emitAt p kind line
    | none => s.emit kind line
  else s

/-- Closes the block collections that lie deeper than `column`. -/
def closeBlocks (s : Scanner) (column : Int) : Scanner :=
  if s.flow ≠ 0 then s else go s.outer s
where
  go : List Int → Scanner → Scanner
    | [], s => s
    | o :: os, s =>
      if column < s.indent then
        go os { s.emit .blockEnd s.cur.line with indent := o, outer := os }
      else s

def expectedColon (k : SimpleKey) : Fault := ⟨"could not find expected ':'", k.line + 1⟩

def dropKey (s : Scanner) : Except Fault Scanner :=
  match s.keys with
  | some k :: ks => if k.required then .error (expectedColon k) else .ok { s with keys := none :: ks }
  | _ => .ok s

def saveKey (s : Scanner) : Except Fault Scanner :=
  if s.keyAllowed then do
    let s ← s.dropKey
    let k : SimpleKey := {
      required := s.flow = 0 && s.indent = (s.cur.column : Int)
      position := s.count
      index := s.cur.index
      line := s.cur.line
      column := s.cur.column }
    return { s with keys := some k :: s.keys.drop 1 }
  else .ok s

/-- The possible key of this level, if the colon at the cursor can still belong to it: it stands on
the same line and not too far back. -/
def currentKey (s : Scanner) : Except Fault (Option SimpleKey) :=
  match s.keys with
  | some k :: _ =>
    if k.line < s.cur.line || k.index + 1024 < s.cur.index then
      if k.required then .error (expectedColon k) else .ok none
    else .ok (some k)
  | _ => .ok none

/-! ## Between tokens -/

/-- Over a comment and the comment lines that follow it; ends at the line break after the last. -/
def skipComments : Nat → Cursor → Cursor
  | 0, cur => cur
  | n + 1, cur =>
    let cur := cur.skipWhile (!isBreak ·)
    let gap := cur.rest.takeWhile fun c => isBlank c || isBreak c
    if (cur.rest.drop gap.length).head? = some '#' then skipComments n (overGap gap.length cur)
    else cur
where
  /-- Over `k` blanks and breaks. -/
  overGap : Nat → Cursor → Cursor
    | 0, cur => cur
    | k + 1, cur =>
      match cur.rest with
      | '\r' :: '\n' :: _ => overGap (k - 1) cur.skipBreak
      | c :: _ => overGap k (if isBreak c then cur.skipBreak else cur.skip)
      | [] => cur

/-- Over blanks, comments and line breaks. A tab may not indent a block line. -/
def skipToToken : Nat → Scanner → Scanner
  | 0, s => s
  | n + 1, s =>
    let cur := s.cur
    let cur := if cur.column = 0 && cur.peek.any (·.toNat = 0xfeff) then cur.skip else cur
    let cur := cur.skipWhile fun c => c = ' ' || ((s.flow ≠ 0 || !s.keyAllowed) && c = '\t')
    let cur := if cur.peek = some '#' then skipComments cur.rest.length cur else cur
    if cur.atBreak then
      skipToToken n { s with cur := cur.skipBreak, keyAllowed := s.keyAllowed || s.flow = 0 }
    else { s with cur := cur }

/-! ## Tokens of several characters -/

def scanAnchor (s : Scanner) (kind : String → TokenKind) : Except Fault Scanner := do
  let s ← s.saveKey
  let start := s.cur
  let name := start.skip.rest.takeWhile isWordChar
  let cur := start.skip.skipMany name.length
  let ended := isGap cur.peek || cur.peek.any ("?:,]\x7d%@\x60".toList.contains ·)
  if name.isEmpty || !ended then
    cur.fault "did not find expected alphabetic or numeric character"
  else
    return { s.emit (kind (String.ofList name)) start.line with cur := cur, keyAllowed := false }

def decodeUri : List Char → Option (List Char)
  | [] => some []
  | '%' :: a :: b :: rest => do
    let x ← hexValue? a
    let y ← hexValue? b
    return Char.ofNat (16 * x + y) :: (← decodeUri rest)
  | '%' :: _ => none
  | c :: rest => do return c :: (← decodeUri rest)

def scanTag (s : Scanner) : Except Fault Scanner := do
  let s ← s.saveKey
  let start := s.cur
  let uri (cur : Cursor) : Except Fault (List Char × Cursor) :=
    let text := cur.rest.takeWhile isUriChar
    match decodeUri text with
    | some cs => .ok (cs, cur.skipMany text.length)
    | none => cur.fault "did not find URI escaped octet"
  let word := start.skip.rest.takeWhile isWordChar
  let afterWord := start.skip.skipMany word.length
  let (handle, suffix, cur) ←
    if start.peekAt 1 = some '<' then do
      let (text, cur) ← uri (start.skipMany 2)
      if text.isEmpty then cur.fault "did not find expected tag URI"
      else if cur.peek = some '>' then pure ("", text, cur.skip)
      else cur.fault "did not find the expected '>'"
    else if afterWord.peek = some '!' then do
      let (text, cur) ← uri afterWord.skip
      if text.isEmpty then cur.fault "did not find expected tag URI"
      else pure (String.ofList ('!' :: word ++ ['!']), text, cur)
    else do
      let (text, cur) ← uri afterWord
      let text := word ++ text
      if text.isEmpty then pure ("", ['!'], cur) else pure ("!", text, cur)
  if isGap cur.peek then
    return { s.emit (.tag handle (String.ofList suffix)) start.line with
      cur := cur, keyAllowed := false }
  else cur.fault "did not find expected whitespace or line break"

def scanDirective (s : Scanner) : Except Fault Scanner := do
  let s ← (s.closeBlocks (-1)).dropKey
  let start := s.cur
  let name := start.skip.rest.takeWhile isWordChar
  let cur := start.skip.skipMany name.length
  if !isGap cur.peek then
    return ← cur.fault "found unexpected non-alphabetical character"
  let cur := cur.skipWhile isBlank
  let number (cs : List Char) : Nat := cs.foldl (fun n c => 10 * n + (c.toNat - 48)) 0
  let (kind, cur) ←
    if name = "YAML".toList then do
      let major := cur.rest.takeWhile Char.isDigit
      let cur := cur.skipMany major.length
      if major.isEmpty || cur.peek ≠ some '.' then
        cur.fault "did not find expected digit or '.' character"
      else
        let minor := cur.skip.rest.takeWhile Char.isDigit
        if minor.isEmpty then cur.fault "did not find expected version number"
        else pure (TokenKind.versionDirective (number major) (number minor),
          cur.skip.skipMany minor.length)
    else if name = "TAG".toList then do
      let word := cur.skip.rest.takeWhile isWordChar
      let closed := (cur.skip.skipMany word.length).peek = some '!'
      let handle := '!' :: word ++ (if closed then ['!'] else [])
      if cur.peek ≠ some '!' || (!closed && !word.isEmpty) then
        cur.fault "did not find expected '!'"
      else
        let cur := cur.skipMany handle.length
        if !cur.atBlank then cur.fault "did not find expected whitespace"
        else
          let cur := cur.skipWhile isBlank
          let text := cur.rest.takeWhile isUriChar
          let cur := cur.skipMany text.length
          if text.isEmpty || !isGap cur.peek then
            cur.fault "did not find expected whitespace or line break"
          else pure (TokenKind.tagDirective (String.ofList handle) (String.ofList text), cur)
    else cur.fault "found unknown directive name"
  let cur := cur.skipWhile isBlank
  let cur := if cur.peek = some '#' then cur.skipWhile (!isBreak ·) else cur
  if !isLineEnd cur.peek then
    return ← cur.fault "did not find expected comment or line break"
  let cur := if cur.atBreak then cur.skipBreak else cur
  return { s.emit kind start.line with cur := cur, keyAllowed := false }

/-! ## One token -/

def scanDocumentMarker (s : Scanner) (kind : TokenKind) : Except Fault Scanner := do
  let s ← (s.closeBlocks (-1)).dropKey
  return { s.emit kind s.cur.line with cur := s.cur.skipMany 3, keyAllowed := false }

def scanFlowStart (s : Scanner) (kind : TokenKind) : Except Fault Scanner := do
  let s ← s.saveKey
  return { s.emitChar kind with keys := none :: s.keys, flow := s.flow + 1, keyAllowed := true }

def scanFlowEnd (s : Scanner) (kind : TokenKind) : Except Fault Scanner := do
  let s ← s.dropKey
  let keys := if s.flow = 0 then s.keys else s.keys.drop 1
  return { s.emitChar kind with keys := keys, flow := s.flow - 1, keyAllowed := false }

def scanFlowEntry (s : Scanner) : Except Fault Scanner := do
  let s ← s.dropKey
  return { s.emitChar .flowEntry with keyAllowed := true }

def scanBlockEntry (s : Scanner) : Except Fault Scanner := do
  if s.flow = 0 && !s.keyAllowed then
    return ← s.cur.fault "block sequence entries are not allowed in this context"
  let s := s.openBlock s.cur.column none .blockSequenceStart s.cur.line
  let s ← s.dropKey
  return { s.emitChar .blockEntry with keyAllowed := true }

def scanKey (s : Scanner) : Except Fault Scanner := do
  if s.flow = 0 && !s.keyAllowed then
    return ← s.cur.fault "mapping keys are not allowed in this context"
  let s := s.openBlock s.cur.column none .blockMappingStart s.cur.line
  let s ← s.dropKey
  return { s.emitChar .key with keyAllowed := s.flow = 0 }

def scanValue (s : Scanner) : Except Fault Scanner := do
  match ← s.currentKey with
  | some k =>
    let s := s.emitAt k.position .key k.line
    let s := s.openBlock k.column (some k.position) .blockMappingStart k.line
    return { s.emitChar .value with keys := none :: s.keys.drop 1, keyAllowed := false }
  | none =>
    if s.flow = 0 && !s.keyAllowed then
      return ← s.cur.fault "mapping values are not allowed in this context"
    let s := s.openBlock s.cur.column none .blockMappingStart s.cur.line
    return { s.emitChar .value with keyAllowed := s.flow = 0 }

def scanQuotedToken (s : Scanner) (quote : Char) (style : Style) : Except Fault Scanner := do
  let s ← s.saveKey
  let (text, cur) ← scanQuoted quote s.cur
  return { s.emit (.scalar text style) s.cur.line with cur := cur, keyAllowed := false }

def scanPlainToken (s : Scanner) : Except Fault Scanner := do
  let s ← s.saveKey
  let (text, cur, freshLine) ← scanPlain (s.flow ≠ 0) s.indent s.cur
  return { s.emit (.scalar text .plain) s.cur.line with cur := cur, keyAllowed := freshLine }

def scanBlockToken (s : Scanner) (fold : Bool) : Except Fault Scanner := do
  let s ← s.dropKey
  let (text, cur) ← scanBlock fold s.indent s.cur
  let style := if fold then Style.folded else Style.literal
  return { s.emit (.scalar text style) s.cur.line with cur := cur, keyAllowed := true }

/-- Whether a plain scalar can start with `c`. -/
def startsPlain (inFlow : Bool) (c : Char) (next : Option Char) : Bool :=
  !(isBlank c || isBreak c || "-?:,[]\x7b\x7d#&*!|>'\"%@\x60".toList.contains c) ||
    (c = '-' && !next.any isBlank) ||
    (!inFlow && (c = '?' || c = ':') && !isGap next)

/-- The token at the cursor, which stands on the character `c`. -/
def scanToken (s : Scanner) (c : Char) : Except Fault Scanner :=
  let next := s.cur.peekAt 1
  let inFlow := s.flow ≠ 0
  if s.cur.column = 0 && c = '%' then s.scanDirective
  else if s.cur.atMarker '-' then s.scanDocumentMarker .documentStart
  else if s.cur.atMarker '.' then s.scanDocumentMarker .documentEnd
  else if c = '[' then s.scanFlowStart .flowSequenceStart
  else if c = '\x7b' then s.scanFlowStart .flowMappingStart
  else if c = ']' then s.scanFlowEnd .flowSequenceEnd
  else if c = '\x7d' then s.scanFlowEnd .flowMappingEnd
  else if c = ',' then s.scanFlowEntry
  else if c = '-' && isGap next then s.scanBlockEntry
  else if c = '?' && (inFlow || isGap next) then s.scanKey
  else if c = ':' && (inFlow || isGap next) then s.scanValue
  else if c = '*' then s.scanAnchor .alias
  else if c = '&' then s.scanAnchor .anchor
  else if c = '!' then s.scanTag
  else if c = '|' && !inFlow then s.scanBlockToken false
  else if c = '>' && !inFlow then s.scanBlockToken true
  else if c = '\'' then s.scanQuotedToken '\'' .singleQuoted
  else if c = '"' then s.scanQuotedToken '"' .doubleQuoted
  else if startsPlain inFlow c next then s.scanPlainToken
  else s.cur.fault "found character that cannot start any token"

def scanEnd (s : Scanner) : Except Fault Scanner := do
  let s ← (s.closeBlocks (-1)).dropKey
  return s.emit .streamEnd s.cur.line

/-- Scans on for at most `n` tokens. A fault hides the two tokens before it, because the reader of
the tokens looks that far ahead. -/
def run : Nat → Scanner → List Token × Option Fault
  | 0, s => (s.tokens.reverse, none)
  | n + 1, s =>
    let ready := skipToToken (s.cur.rest.length + 1) s
    let ready := ready.closeBlocks ready.cur.column
    match ready.cur.peek with
    | none =>
      match ready.scanEnd with
      | .ok done => (done.tokens.reverse, none)
      | .error f => ((s.tokens.drop 2).reverse, some f)
    | some c =>
      match ready.scanToken c with
      | .ok s => run n s
      | .error f => ((s.tokens.drop 2).reverse, some f)

end Scanner

/-- The tokens of a text, and the fault that ends them early if there is one. -/
def tokenize (cs : List Char) : List Token × Option Fault :=
  let cs := if cs.head?.any (·.toNat = 0xfeff) then cs.drop 1 else cs
  match cs.find? (!isAllowed ·) with
  | some _ => ([], some ⟨"control characters are not allowed", 1⟩)
  | none =>
    let start : Scanner := {
      cur := ⟨cs, 0, 0, 0⟩, tokens := [⟨.streamStart, 1⟩], count := 1, indent := -1, outer := []
      flow := 0, keyAllowed := true, keys := [none] }
    Scanner.run (cs.length + 2) start

end GraphLowering.Yaml
