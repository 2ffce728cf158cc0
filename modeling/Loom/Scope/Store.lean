import Loom.Scope.Edit

/-!
Stores: a free name `$name` reads the store held by the variable `name` of the top scope.
-/

namespace Loom.ScopeGraph

def isNameStart (c : Char) : Bool := c.isAlpha || c = '_'

def isNamePart (c : Char) : Bool := c.isAlphanum || c = '_' || c = '$'

/-- The name of the variable that a store name leads to: a dollar sign, then an ASCII identifier
that does not start with one. -/
def storeName? (name : String) : Option String :=
  match name.toList with
  | '$' :: c :: cs => if isNameStart c && cs.all isNamePart then some (String.ofList (c :: cs))
    else none
  | _ => none

def dedupSorted : List String → List String
  | x :: y :: rest => if x = y then dedupSorted (y :: rest) else x :: dedupSorted (y :: rest)
  | xs => xs

/-- The names of free references that are store names, in order. -/
def storeCandidates (g : ScopeGraph) : List String :=
  dedupSorted (((g.throughNames globalScope).filter (storeName? · |>.isSome)).mergeSort (· ≤ ·))

/-- Binds the free references of a store name to a variable of the top scope, and gives the variable
behind it a read at each of them. Answers with that variable's name, if the top scope has it. -/
def resolveStore (g : ScopeGraph) (storeName : String) : Option String × ScopeGraph :=
  let top := g.topScope
  let name := String.ofList (storeName.toList.drop 1)
  match g.declared? top name with
  | none => (none, g)
  | some underlying =>
    let (store, g) := g.declareImplicit top storeName
    let sites := (g.variableAt store).references.map fun r =>
      ((g.referenceAt r).identifier, (g.referenceAt r).source)
    (some name, sites.foldl (fun g site => (g.synthesizeReference site.1 underlying site.2 .read).2)
      g)

/-- Binds all free store names, and answers with the names of the stores. -/
def resolveStores (g : ScopeGraph) : List String × ScopeGraph :=
  g.storeCandidates.foldl (fun (names, g) storeName =>
    let (name, g) := g.resolveStore storeName
    (names ++ name.toList, g)) ([], g)

end Loom.ScopeGraph
