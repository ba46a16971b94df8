import Fieldbus.Yaml.Scalar

/-!
# Tokens of a YAML document

Tokens are scalars, marks, and the starts and ends of block collections.  The
latter are not written: they are read off the columns.  Outside brackets a dash
or a key further to the right than the collection around it starts a collection,
and a token further to the left ends those that it has left.

Whether a scalar or a bracket starts a key is known only at the colon.  Until
then it is a *candidate*, one for each depth of brackets.  At the colon the mark
of a key is put in front of it, and the start of a mapping if the column asks for
one.  A candidate has to meet its colon on its own line, and within 1024
characters.  Where only a key can stand, a candidate that does not is an error.

Anchors, aliases, tags, directives and block scalars are refused.
-/

namespace Fieldbus.Yaml

/-! ## Tokens -/

/-- What a token is. -/
inductive Lexeme where
  /-- A scalar's text, and whether it is plain. -/
  | scalar (text : String) (plain : Bool)
  | blockList
  | blockMap
  | blockEnd
  /-- The mark of a block sequence's item. -/
  | dash
  | key
  /-- The mark between key and value. -/
  | colon
  /-- The mark between items in brackets. -/
  | comma
  /-- The start of a flow sequence. -/
  | openList
  /-- The end of a flow sequence. -/
  | closeList
  /-- The start of a flow mapping. -/
  | openMap
  /-- The end of a flow mapping. -/
  | closeMap
  | documentStart
  | documentEnd
deriving DecidableEq, Repr

/-- A lexeme on its line. -/
structure Token where
  lexeme : Lexeme
  /-- The line, from zero. -/
  line : Nat
deriving DecidableEq, Repr

/-! ## State -/

/-- A token that may turn out to start a key. -/
structure Candidate where
  number : Nat
  place : Place
  /-- Whether nothing but a key may stand there. -/
  isRequired : Bool
deriving Repr

/-- Characters from the start of a key to its colon, at most. -/
def maxKeySize : Nat := 1024

/-- Whether a candidate may still meet its colon at a place. -/
def Candidate.reaches (c : Candidate) (p : Place) : Bool :=
  p.line ≤ c.place.line && p.column ≤ c.place.column + maxKeySize

/-- What is known in front of a token. -/
structure Lexer where
  place : Place := {}
  /-- The columns of the open block collections, innermost first. -/
  indents : List Nat := []
  /-- Whether a key may start here. -/
  keyAllowed : Bool := true
  /-- The candidate in the innermost brackets. -/
  candidate : Option Candidate := none
  /-- The candidates around each open bracket, innermost first. -/
  outer : List (Option Candidate) := []
  /-- The tokens so far, newest first. -/
  tokens : List Token := []
  /-- The number of tokens so far. -/
  count : Nat := 0
deriving Repr

namespace Lexer

/-- Whether the place is in brackets. -/
def inFlow (s : Lexer) : Bool := !s.outer.isEmpty

/-- The lexer behind one more token. -/
def emit (s : Lexer) (lexeme : Lexeme) : Lexer :=
  { s with tokens := ⟨lexeme, s.place.line⟩ :: s.tokens, count := s.count + 1 }

/-- The lexer with tokens put in behind the first `number`. -/
def insert (s : Lexer) (number line : Nat) (lexemes : List Lexeme) : Lexer :=
  let later := s.count - number
  let new := (lexemes.map fun l => Token.mk l line).reverse
  { s with
    tokens := s.tokens.take later ++ new ++ s.tokens.drop later
    count := s.count + lexemes.length }

/-- Whether a block collection in a column lies inside the open ones. -/
def isDeeper (s : Lexer) (column : Nat) : Bool := s.indents.head?.all (· < column)

/-- Opens a block collection here, if the column asks for one. -/
def roll (s : Lexer) (start : Lexeme) : Lexer :=
  if !s.inFlow && s.isDeeper s.place.column then
    { s.emit start with indents := s.place.column :: s.indents }
  else s

/-- Ends the block collections that a column has left.  In brackets columns do not count. -/
def unroll (s : Lexer) (hasLeft : Nat → Bool) : Lexer :=
  if s.inFlow then s
  else
    let ended := s.indents.takeWhile hasLeft
    { ended.foldl (fun s _ => s.emit .blockEnd) s with indents := s.indents.dropWhile hasLeft }

/-- Gives the innermost candidate up. -/
def dropCandidate (s : Lexer) : Except Error Lexer :=
  if s.candidate.any Candidate.isRequired then .error (.key s.place.line)
  else .ok { s with candidate := none }

/-- Gives up the candidates that can no longer meet their colon. -/
def expire (s : Lexer) : Except Error Lexer :=
  let isLate (c : Option Candidate) : Bool := c.any fun c => !c.reaches s.place
  if (s.candidate :: s.outer).any fun c => isLate c && c.any Candidate.isRequired then
    .error (.key s.place.line)
  else
    let keep (c : Option Candidate) : Option Candidate := if isLate c then none else c
    .ok { s with candidate := keep s.candidate, outer := s.outer.map keep }

/-- Makes the next token a candidate, if a key may start here. -/
def propose (s : Lexer) : Except Error Lexer := do
  if !s.keyAllowed then return s
  let s ← s.dropCandidate
  return { s with candidate := some {
    number := s.count, place := s.place
    isRequired := !s.inFlow && s.indents.head? == some s.place.column } }

/-! ## Marks -/

/-- The start of a collection in brackets. -/
def openFlow (s : Lexer) (lexeme : Lexeme) : Except Error Lexer := do
  let s ← s.propose
  return { s.emit lexeme with
    candidate := none, outer := s.candidate :: s.outer, keyAllowed := true }

/-- The end of a collection in brackets. -/
def closeFlow (s : Lexer) (lexeme : Lexeme) : Except Error Lexer := do
  let s ← s.dropCandidate
  let s := match s.outer with
    | c :: outer => { s with candidate := c, outer := outer }
    | [] => s
  return { s.emit lexeme with keyAllowed := false }

def comma (s : Lexer) : Except Error Lexer := do
  return { (← s.dropCandidate).emit .comma with keyAllowed := true }

/-- A dash.  In brackets it is a token too, for the parser to refuse. -/
def dash (s : Lexer) : Except Error Lexer := do
  if !s.inFlow && !s.keyAllowed then throw (.place s.place.line)
  return { (← (s.roll .blockList).dropCandidate).emit .dash with keyAllowed := true }

/-- The question mark of a key that is written out. -/
def question (s : Lexer) : Except Error Lexer := do
  if !s.inFlow && !s.keyAllowed then throw (.place s.place.line)
  return { (← (s.roll .blockMap).dropCandidate).emit .key with keyAllowed := !s.inFlow }

/-- A colon.  It makes the candidate a key, and without one it belongs to a key that is
written out. -/
def colon (s : Lexer) : Except Error Lexer := do
  match s.candidate with
  | some c =>
    let isNew := !s.inFlow && s.isDeeper c.place.column
    let s := s.insert c.number c.place.line (if isNew then [.blockMap, .key] else [.key])
    return { s.emit .colon with
      candidate := none, keyAllowed := false
      indents := if isNew then c.place.column :: s.indents else s.indents }
  | none =>
    if !s.inFlow && !s.keyAllowed then throw (.place s.place.line)
    return { (s.roll .blockMap).emit .colon with keyAllowed := !s.inFlow }

/-- A marker between documents. -/
def marker (s : Lexer) (lexeme : Lexeme) : Except Error Lexer := do
  return { (← (s.unroll fun _ => true).dropCandidate).emit lexeme with keyAllowed := false }

/-! ## Scalars -/

/-- A scalar, and what follows it. -/
def scalar (s : Lexer) (plain : Bool) (run : Run) : Except Error (Lexer × List Char) := do
  let s ← s.propose
  let s := s.emit (.scalar (String.ofList run.text) plain)
  return ({ s with place := run.place, keyAllowed := run.isBroken }, run.rest)

def quoted (s : Lexer) (run : Option Run) : Except Error (Lexer × List Char) :=
  match run with
  | some run => s.scalar false run
  | none => .error (.quoted s.place.line)

/-- Whether a character that is no mark may start a plain scalar. -/
def startsPlain (s : Lexer) (c : Char) (rest : List Char) : Bool :=
  if c = '-' then true
  else if c = '?' || c = ':' then !s.inFlow && !endsWord rest
  else !("#&*!|>'\"%@".toList.contains c || c.toNat = 0x60 || isBlank c)

/-- A plain scalar, if it is one. -/
def plain (s : Lexer) (c : Char) (rest : List Char) : Except Error (Lexer × List Char) := do
  if !s.startsPlain c rest then throw (.start s.place.line)
  let indent := match s.indents with
    | column :: _ => column + 1
    | [] => 0
  s.scalar true (← plainRun s.inFlow indent .empty s.place (c :: rest))

/-! ## Lexing -/

/-- Reads the token that starts with a character. -/
def token (s : Lexer) (c : Char) (rest : List Char) : Except Error (Lexer × List Char) :=
  let mark (taken : Nat) (next : Except Error Lexer) : Except Error (Lexer × List Char) :=
    next.map fun t => ({ t with place := s.place.skip taken }, rest.drop (taken - 1))
  if startsMarker '-' s.place (c :: rest) then mark 3 (s.marker .documentStart)
  else if startsMarker '.' s.place (c :: rest) then mark 3 (s.marker .documentEnd)
  else match c with
    | '[' => mark 1 (s.openFlow .openList)
    | '{' => mark 1 (s.openFlow .openMap)
    | ']' => mark 1 (s.closeFlow .closeList)
    | '}' => mark 1 (s.closeFlow .closeMap)
    | ',' => mark 1 s.comma
    | '\'' => s.quoted (singleQuoted .empty s.place.next rest)
    | '"' => s.quoted (doubleQuoted .empty s.place.next rest)
    | '-' => if endsWord rest then mark 1 s.dash else s.plain c rest
    | '?' => if s.inFlow || endsWord rest then mark 1 s.question else s.plain c rest
    | ':' => if s.inFlow || endsWord rest then mark 1 s.colon else s.plain c rest
    | _ => s.plain c rest

/-- Passes blanks, comments and line ends up to the next token.  Where a key may start
outside brackets a tab is no blank. -/
def pass (s : Lexer) : (inComment : Bool) → List Char → Lexer × List Char
  | _, [] => (s, [])
  | inComment, c :: rest =>
    let next : Lexer := { s with place := s.place.after c }
    if isBreak c then pass { next with keyAllowed := s.keyAllowed || !s.inFlow } false rest
    else if inComment || c = '#' then pass next true rest
    else if (c = byteOrderMark && s.place.column = 0) || c = ' ' ||
        (c = '\t' && (s.inFlow || !s.keyAllowed)) then pass next false rest
    else (s, c :: rest)

/-- The tokens of a text.  Every token takes at least one character, so the number of
characters bounds the steps. -/
def run : (fuel : Nat) → Lexer → List Char → Except Error (List Token)
  | 0, s, _ => .error (.start s.place.line)
  | fuel + 1, s, chars => do
    let (s, chars) := s.pass false chars
    let s ← s.expire
    match chars with
    | [] => return (← (s.unroll fun _ => true).dropCandidate).tokens.reverse
    | c :: rest =>
      let (s, rest) ← (s.unroll (s.place.column < ·)).token c rest
      run fuel s rest

end Lexer

def tokensOf (text : String) : Except Error (List Token) :=
  let chars := text.toList
  if chars.all isPrintable then Lexer.run (chars.length + 1) {} (unifyBreaks chars)
  else .error .character

end Fieldbus.Yaml
