import Fieldbus.Yaml.Token

/-!
# Nodes of a YAML document

The parser reads tokens as a tree of scalars, sequences and mappings.  The next
token always decides, so every reader is one match on it.

A value may be missing wherever the next token shows that none was written.  A
sequence under a key need not be further to the right than its key: it has no
start of its own then, and ends where its dashes do.  In brackets a key with a
colon makes a mapping of one entry out of an item.

Each step takes a token or goes one level down, so twice the number of tokens
bounds the steps.
-/

namespace Fieldbus.Yaml

/-- A tree of scalars. -/
inductive Node where
  /-- A scalar's text, and whether it is plain. -/
  | scalar (text : String) (plain : Bool)
  | sequence (items : List Node)
  | mapping (entries : List (Node × Node))
deriving Repr, Inhabited

/-- The node of a missing value. -/
def Node.missing : Node := .scalar "" true

/-- The error at a token, or at the end of the text. -/
def unexpectedAt {α : Type} : List Token → Except Error α
  | t :: _ => .error (.unexpected t.line)
  | [] => .error .ended

/-- Whether the next token is one of some lexemes. -/
def comesNext (lexemes : List Lexeme) (tokens : List Token) : Bool :=
  tokens.head?.any fun t => lexemes.contains t.lexeme

/-- Where a node may stand. -/
inductive Position where
  | flow
  /-- At the start of a document, or behind a dash. -/
  | block
  /-- Behind a question mark or a colon outside brackets. -/
  | entry
deriving DecidableEq, Repr

mutual

def nodeAt : (fuel : Nat) → Position → List Token → Except Error (Node × List Token)
  | fuel + 1, position, t :: rest =>
    match t.lexeme, position with
    | .scalar text plain, _ => .ok (.scalar text plain, rest)
    | .openList, _ => (flowItems fuel rest).map fun (items, after) => (.sequence items, after)
    | .openMap, _ => (flowEntries fuel rest).map fun (es, after) => (.mapping es, after)
    | .blockList, .block | .blockList, .entry =>
      (blockItems fuel rest).map fun (items, after) => (.sequence items, after)
    | .blockMap, .block | .blockMap, .entry =>
      (blockEntries fuel rest).map fun (es, after) => (.mapping es, after)
    | .dash, .entry =>
      (looseItems fuel (t :: rest)).map fun (items, after) => (.sequence items, after)
    | _, _ => .error (.unexpected t.line)
  | _, _, tokens => unexpectedAt tokens

/-- A node, or nothing in front of some lexemes. -/
def nodeUnless : (fuel : Nat) → List Lexeme → Position → List Token →
    Except Error (Node × List Token)
  | 0, _, _, tokens => unexpectedAt tokens
  | fuel + 1, enders, position, tokens =>
    if comesNext enders tokens then .ok (.missing, tokens) else nodeAt fuel position tokens

/-- The value behind a colon, or nothing without a colon. -/
def valueUnless : (fuel : Nat) → List Lexeme → Position → List Token →
    Except Error (Node × List Token)
  | fuel + 1, enders, position, ⟨.colon, _⟩ :: rest => nodeUnless fuel enders position rest
  | _, _, _, tokens => .ok (.missing, tokens)

/-- The items of a block sequence, up to its end. -/
def blockItems : (fuel : Nat) → List Token → Except Error (List Node × List Token)
  | fuel + 1, ⟨.dash, _⟩ :: rest => do
    let (item, after) ← nodeUnless fuel [.dash, .blockEnd] .block rest
    let (items, after) ← blockItems fuel after
    return (item :: items, after)
  | _, ⟨.blockEnd, _⟩ :: rest => .ok ([], rest)
  | _, tokens => unexpectedAt tokens

/-- The items of a sequence in the column of its key. -/
def looseItems : (fuel : Nat) → List Token → Except Error (List Node × List Token)
  | fuel + 1, ⟨.dash, _⟩ :: rest => do
    let (item, after) ← nodeUnless fuel [.dash, .key, .colon, .blockEnd] .block rest
    let (items, after) ← looseItems fuel after
    return (item :: items, after)
  | 0, tokens => unexpectedAt tokens
  | _, tokens => .ok ([], tokens)

/-- The entries of a block mapping, up to its end. -/
def blockEntries : (fuel : Nat) → List Token → Except Error (List (Node × Node) × List Token)
  | fuel + 1, ⟨.key, _⟩ :: rest => do
    let (key, after) ← nodeUnless fuel [.key, .colon, .blockEnd] .entry rest
    let (value, after) ← valueUnless fuel [.key, .colon, .blockEnd] .entry after
    let (entries, after) ← blockEntries fuel after
    return ((key, value) :: entries, after)
  | _, ⟨.blockEnd, _⟩ :: rest => .ok ([], rest)
  | _, tokens => unexpectedAt tokens

/-- The items of a sequence in brackets, up to its end. -/
def flowItems : (fuel : Nat) → List Token → Except Error (List Node × List Token)
  | 0, tokens => unexpectedAt tokens
  | _, ⟨.closeList, _⟩ :: rest => .ok ([], rest)
  | fuel + 1, tokens => do
    let (item, after) ← match tokens with
      | ⟨.key, _⟩ :: rest =>
        (flowPair fuel rest).map fun (entry, after) => (.mapping [entry], after)
      | _ => nodeAt fuel .flow tokens
    match after with
    | ⟨.comma, _⟩ :: rest => (flowItems fuel rest).map fun (items, after) => (item :: items, after)
    | ⟨.closeList, _⟩ :: rest => .ok ([item], rest)
    | _ => unexpectedAt after

/-- The entry that is an item of a sequence in brackets.  A token in place of its key is
passed over. -/
def flowPair : (fuel : Nat) → List Token → Except Error ((Node × Node) × List Token)
  | 0, tokens => unexpectedAt tokens
  | fuel + 1, tokens => do
    let (key, after) ←
      if comesNext [.colon, .comma, .closeList] tokens then .ok (.missing, tokens.tail)
      else nodeAt fuel .flow tokens
    let (value, after) ← valueUnless fuel [.comma, .closeList] .flow after
    return ((key, value), after)

/-- The entries of a mapping in brackets, up to its end.  A node that is no key has no
value. -/
def flowEntries : (fuel : Nat) → List Token → Except Error (List (Node × Node) × List Token)
  | 0, tokens => unexpectedAt tokens
  | _, ⟨.closeMap, _⟩ :: rest => .ok ([], rest)
  | fuel + 1, tokens => do
    let (entry, after) ← match tokens with
      | ⟨.key, _⟩ :: rest => do
        let (key, after) ← nodeUnless fuel [.colon, .comma, .closeMap] .flow rest
        let (value, after) ← valueUnless fuel [.comma, .closeMap] .flow after
        pure ((key, value), after)
      | _ => (nodeAt fuel .flow tokens).map fun (key, after) => ((key, .missing), after)
    match after with
    | ⟨.comma, _⟩ :: rest => (flowEntries fuel rest).map fun (es, after) => (entry :: es, after)
    | ⟨.closeMap, _⟩ :: rest => .ok ([entry], rest)
    | _ => unexpectedAt after

end

/-! ## Documents -/

/-- The end of a document: nothing, or end marks. -/
def documentEnds : List Token → Except Error Unit
  | [] => .ok ()
  | ⟨.documentEnd, _⟩ :: rest => documentEnds rest
  | ⟨.documentStart, _⟩ :: _ => .error .documents
  | tokens => unexpectedAt tokens

/-- The node of a document, if there is one. -/
def documentOf (tokens : List Token) : Except Error (Option Node) := do
  let fuel := 2 * tokens.length + 2
  let (node, after) ← match tokens with
    | [] => return none
    | ⟨.documentStart, _⟩ :: rest =>
      if rest.isEmpty || comesNext [.documentStart, .documentEnd] rest then
        pure (.missing, rest)
      else nodeAt fuel .block rest
    | _ => nodeAt fuel .block tokens
  documentEnds after
  return some node

def parse (text : String) : Except Error (Option Node) := do documentOf (← tokensOf text)

end Fieldbus.Yaml
