import TypeBounds.TypeExpr.Token

/-!
# Type expressions and their grammar

    expr  = inter ('|' inter)*
    inter = atom ('&' atom)*
    atom  = 'as' atom | '(' expr ')' | identifier

`as` is an ordinary identifier unless an atom follows it. The parser takes one step of its budget
per rule; a text with `n` tokens never needs more than `3 * n + 3` steps below one another.
-/

namespace TypeBounds

/-- A type expression. Unions and intersections have two parts or more; parentheses are kept, since
the target of `as` is looked up differently when it is a bare name. -/
inductive TypeExpr where
  | name (name : String)
  | convertible (target : TypeExpr)
  | group (inner : TypeExpr)
  | union (parts : List TypeExpr)
  | inter (parts : List TypeExpr)

namespace TypeExpr

instance : Inhabited TypeExpr := ⟨.name ""⟩

/-- A union of several parts, or the only part. -/
def ofUnion : List TypeExpr → TypeExpr
  | [e] => e
  | es => .union es

/-- An intersection of several parts, or the only part. -/
def ofInter : List TypeExpr → TypeExpr
  | [e] => e
  | es => .inter es

/-- Whether an atom can start with the next token. -/
def atomFollows : List Token → Bool
  | .word _ :: _ => true
  | .opening :: _ => true
  | _ => false

mutual

/-- Reads the parts of a union. -/
def readUnion : Nat → List Token → Option (List TypeExpr × List Token)
  | 0, _ => none
  | budget + 1, ts => do
    let (parts, ts) ← readInter budget ts
    match ts with
    | .bar :: ts => do
      let (more, ts) ← readUnion budget ts
      pure (ofInter parts :: more, ts)
    | ts => pure ([ofInter parts], ts)

/-- Reads the parts of an intersection. -/
def readInter : Nat → List Token → Option (List TypeExpr × List Token)
  | 0, _ => none
  | budget + 1, ts => do
    let (part, ts) ← readAtom budget ts
    match ts with
    | .amp :: ts => do
      let (more, ts) ← readInter budget ts
      pure (part :: more, ts)
    | ts => pure ([part], ts)

/-- Reads an atom. -/
def readAtom : Nat → List Token → Option (TypeExpr × List Token)
  | 0, _ => none
  | budget + 1, .word w :: ts =>
    if w = "as" && atomFollows ts then do
      let (target, ts) ← readAtom budget ts
      pure (.convertible target, ts)
    else pure (.name w, ts)
  | budget + 1, .opening :: ts => do
    let (parts, ts) ← readUnion budget ts
    match ts with
    | .closing :: ts => pure (.group (ofUnion parts), ts)
    | _ => none
  | _, _ => none

end

/-- **The expression** that the tokens derive from, all of them used up. -/
def ofTokens? (ts : List Token) : Option TypeExpr :=
  match readUnion (3 * ts.length + 3) ts with
  | some (parts, []) => some (ofUnion parts)
  | _ => none

/-- The expression that a text stands for. -/
def ofChars? (cs : List Char) : Option TypeExpr := (Token.scan cs).bind ofTokens?

end TypeExpr

end TypeBounds
