import Loom.Script.Grammar

/-!
Modifiers: the words before a declaration, a member or a parameter that say more about it.

All of them are also names, so a word is a modifier only if what it would modify follows it. A rule
takes every modifier and complains afterwards about those that it has no use for.
-/

namespace Loom.Script

structure Modifier where
  word : String
  place : Nat
deriving Inhabited

namespace Modifier

open Loom.Script.Parser

def words : List String :=
  ["abstract", "accessor", "async", "const", "declare", "default", "export", "in", "out",
    "override", "private", "protected", "public", "readonly", "static"]

def accessibility : List String := ["private", "protected", "public"]

/-- Whether what a modifier modifies can start with the lexeme. -/
def canPrecede (l : Lexeme) : Bool :=
  l.isPropertyName || l.isPrivateName || l.isAnyMark ["[", openBrace, "*", "..."]

def defaultFollows : Parser Bool := do
  if (← seesAnyWord ["class", "function", "interface"]) || (← sees "@") then return true
  if ← seesWord "abstract" then return ← nextIs fun l => l.lexeme.isWord "class" && !l.newline
  if ← seesWord "async" then return ← nextIs fun l => l.lexeme.isWord "function" && !l.newline
  return false

/-- Whether `export` is a modifier of what follows it, and does not stand by itself. -/
def exportFollows : Parser Bool := do
  let l ← lexeme
  return l.isMark "@" || (canPrecede l && !l.isAnyMark ["*", openBrace] && !l.isWord "as")

def seesDeclaration : Parser Bool := do
  if !(← seesAnyWord words) then return false
  if ← seesWord "const" then return (← nextLexeme).isWord "enum"
  lookahead do
    if ← seesWord "export" then
      pass
      if ← seesWord "default" then
        pass
        return ← defaultFollows
      if ← seesWord "type" then pass
      return ← exportFollows
    if ← seesWord "default" then
      pass
      return ← defaultFollows
    let sameLine := !(← seesAnyWord ["accessor", "static"])
    pass
    return canPrecede (← lexeme) && !(sameLine && (← onNewLine))

/-- Whether the current word is a modifier of a member. A second `static` is a name. With
`constant`, also `const` modifies; with `block`, a block that runs with the class is no member that
`static` modifies. -/
def seesMember (constant block : Bool) (seen : List Modifier) : Parser Bool := do
  if !(← seesAnyWord words) then return false
  if ← seesWord "static" then
    if seen.any (·.word == "static") then return false
    if block && (← nextLexeme).isMark openBrace then return false
    return canPrecede (← nextLexeme)
  if (← seesWord "const") && !constant then return false
  nextIs fun l => canPrecede l.lexeme && !l.newline

def agree (a b : String) : Bool := a == b || (accessibility.contains a && accessibility.contains b)

def takeWhile (test : List Modifier → Parser Bool)
    (check : List Modifier → Modifier → Parser Unit) : Parser (List Modifier) := do
  let found ← iterate (fun (seen : List Modifier) => do
    match ← lexeme, ← test seen with
    | .word word _, true =>
      let modifier : Modifier := ⟨word, ← here⟩
      advance
      check seen modifier
      return some (modifier :: seen)
    | _, _ => return none) []
  return found.reverse

def ofMember (constant block : Bool) : Parser (List Modifier) :=
  takeWhile (seesMember constant block) fun seen m => do
    if seen.any fun e => agree e.word m.word then complain m.place

def ofDeclaration : Parser (List Modifier) :=
  takeWhile (fun _ => seesDeclaration) fun seen m => do
    if seen.any (·.word == m.word) then complain m.place

def contains (modifiers : List Modifier) (word : String) : Bool := modifiers.any (·.word == word)

def allow (allowed : List String) (modifiers : List Modifier) : Parser Unit := do
  for m in modifiers do
    if !allowed.contains m.word then complain m.place

def refuse (refused : List String) (modifiers : List Modifier) : Parser Unit := do
  for m in modifiers do
    if refused.contains m.word then complain m.place

end Modifier

end Loom.Script
