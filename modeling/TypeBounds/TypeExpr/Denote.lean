import TypeBounds.Graph.Basic
import TypeBounds.TypeExpr.Basic
import TypeBounds.Universe

/-!
# The types that expressions denote

Names denote the types of a universe. `as T` denotes a convertible to the type variable `T` of the
graph if there is one, and a convertible to a fixed type otherwise.
-/

namespace TypeBounds.TypeExpr

/-- Why a text denotes no type. -/
inductive Error where
  | empty
  | dangling (text sign : String)
  | malformed (text : String)
  | unknownType (name : String)
  | badTarget (cause : Error)
  deriving DecidableEq

def Error.message : Error → String
  | empty => "empty type expression"
  | dangling text sign =>
    "type expression " ++ Text.quote text ++ " ends with " ++ sign ++ ", a type must follow it"
  | malformed text => "type expression " ++ Text.quote text
  | unknownType n => "unknown type " ++ n
  | badTarget cause =>
    "convertible target is neither a type variable nor a type: " ++ cause.message

/-- Whether the text as a whole did not fit the grammar. -/
def Error.isMalformed : Error → Bool
  | malformed _ => true
  | _ => false

/-- The declared type of a name. -/
def lookUp (u : Universe) (n : String) : Except Error Ty :=
  match u.find? n with
  | some t => .ok t
  | none => .error (.unknownType n)

/-- A convertible to a fixed type, if that type is known. -/
def convertibleTo : Except Error Ty → Except Error Ty
  | .ok t => .ok (.asType t)
  | .error e => .error (.badTarget e)

mutual

/-- **The type** that an expression denotes. Of several unknown names the first is reported. -/
def denote (u : Universe) (g : Graph) : TypeExpr → Except Error Ty
  | .name n => lookUp u n
  | .convertible (.name n) =>
    if g.hasTypeVariable n then .ok (.asVar none g.tag n) else convertibleTo (lookUp u n)
  | .convertible target => convertibleTo (denote u g target)
  | .group inner => denote u g inner
  | .union parts => (denoteAll u g parts).map Ty.unionOf
  | .inter parts => (denoteAll u g parts).map Ty.interOf

/-- The types of several expressions in order. -/
def denoteAll (u : Universe) (g : Graph) : List TypeExpr → Except Error (List Ty)
  | [] => .ok []
  | e :: es => do
    let t ← denote u g e
    let ts ← denoteAll u g es
    pure (t :: ts)

end

/-- **Reading a type.** Blanks around the text do not count. -/
def read (u : Universe) (g : Graph) (text : String) : Except Error Ty :=
  let cs := Text.trim text.toList
  let trimmed := String.ofList cs
  match cs.getLast? with
  | none => .error .empty
  | some '|' => .error (.dangling trimmed "|")
  | some '&' => .error (.dangling trimmed "&")
  | some _ =>
    match ofChars? cs with
    | none => .error (.malformed trimmed)
    | some e => denote u g e

end TypeBounds.TypeExpr
