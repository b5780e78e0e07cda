import StackCompiler.Syntax.Store

/-!
# Outlines

An outline shows a unit as indented text: a line for the unit, then every definition with the tree
of its body. A handle that does not resolve is shown by its number.

* `outlineBlock`: a block and everything below it.
* `outlineDef`: a definition.
* `outline`: a unit.
-/

namespace StackCompiler

/-- The texts of tokens with blanks between them. -/
def joinedTexts (tokens : List Token) : String := " ".intercalate (tokens.map Token.text)

/-- A line at some depth, two blanks a level. -/
def indented (depth : Nat) (text : String) : String :=
  String.ofList (List.replicate (2 * depth) ' ') ++ text

/-- The number of the alternative that a branch is joined to. -/
def alternativeIndex? (store : Store) (next : Option BlockId) : Option Nat :=
  match next.bind store.block? with
  | some (.alternative _ _ index) => some index
  | _ => none

/-- **The line that shows a block by itself.** -/
def blockLine (store : Store) : Block → String
  | .expression token => "expr " ++ token.text
  | .reference token target =>
    "ident " ++ token.text ++ " -> " ++ ((store.def? target).map Definition.keyword).getD "?"
  | .call _ _ => "call"
  | .cast _ types => "as " ++ joinedTexts types
  | .scope bracket _ _ => "scope " ++ bracket.delimiters
  | .branch _ _ _ next index =>
    let joined := match alternativeIndex? store next with
      | some number => ", else: " ++ toString number
      | none => ""
    "if (index: " ++ toString index ++ joined ++ ")"
  | .alternative _ _ index => "else (index: " ++ toString index ++ ")"
  | .loop _ _ _ index => "loop (index: " ++ toString index ++ ")"
  | .assembly token => "asm " ++ token.text

/-- **A block and everything below it**, at most `levels` levels deep. -/
def outlineBlock (store : Store) : (levels depth : Nat) → BlockId → List String
  | 0, _, _ => []
  | levels + 1, depth, id =>
    match store.block? id with
    | none => [indented depth ("<dangling block " ++ toString id.index ++ ">")]
    | some block =>
      indented depth (blockLine store block) ::
        block.children.flatMap (outlineBlock store levels (depth + 1))

/-- Levels that no tree of blocks exceeds: every block once, and a handle below the last. -/
def outlineLevels (store : Store) : Nat := store.blocks.size + 1

/-- A clause of a signature, if it names any type. -/
def clauseLines (keyword : String) (types : List Token) : List String :=
  if types.isEmpty then [] else [indented 2 (keyword ++ " " ++ joinedTexts types)]

/-- **A definition with its body.** -/
def outlineDef (store : Store) (d : Definition) : List String :=
  let head := d.keyword ++ " " ++ d.name ++ " (index: " ++ toString d.index ++ ", section: " ++
    d.sectionName ++ (if d.isEntry then ", entry" else "") ++ (if d.used then ", used" else "") ++ ")"
  indented 1 head :: match d.body with
    | .function f =>
      clauseLines "req" f.requires ++ clauseLines "ret" f.returns ++
        outlineBlock store (outlineLevels store) 2 f.body
    | .memory capacity => [indented 2 ("capacity " ++ capacity.text)]
    | .string literal => [indented 2 ("literal " ++ literal.text)]

/-- The lines of a unit. -/
def outlineLines (store : Store) (unit : List DefId) : List String :=
  ("unit (" ++ toString unit.length ++ " defs)") :: unit.flatMap fun id =>
    match store.def? id with
    | none => [indented 1 ("<dangling def " ++ toString id.index ++ ">")]
    | some d => outlineDef store d

/-- **A unit as indented text.** -/
def outline (store : Store) (unit : List DefId) : String :=
  String.join ((outlineLines store unit).map (· ++ "\n"))

end StackCompiler
