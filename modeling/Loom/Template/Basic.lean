import Loom.Text

/-!
Template documents: what a markup front end reports about one component.

A document lists the script blocks and the tree of markup nodes. Every embedded expression, pattern
or name is given as a byte range of the source; nothing of the embedded language is parsed here.
-/

namespace Loom

inductive ElementKind where
  | html
  | component
  | special
deriving DecidableEq, Repr, Inhabited

namespace ElementKind

def all : List ElementKind := [.html, .component, .special]

def name : ElementKind → String
  | .html => "html"
  | .component => "component"
  | .special => "special"

end ElementKind

/-- The directives that an element may carry, such as `on:click` or `bind:value`. -/
inductive DirectiveKind where
  | on
  | bind
  | classToggle
  | style
  | use
  | transition
  | in
  | out
  | animate
  | let
deriving DecidableEq, Repr

namespace DirectiveKind

def all : List DirectiveKind :=
  [.on, .bind, .classToggle, .style, .use, .transition, .in, .out, .animate, .let]

def keyword : DirectiveKind → String
  | .on => "on"
  | .bind => "bind"
  | .classToggle => "class"
  | .style => "style"
  | .use => "use"
  | .transition => "transition"
  | .in => "in"
  | .out => "out"
  | .animate => "animate"
  | .let => "let"

/-- The name of the directive in the exported tree. -/
def label : DirectiveKind → String
  | .on => "EventHandler"
  | .bind => "Binding"
  | .classToggle => "Class"
  | .style => "StyleDirective"
  | .use => "Action"
  | .transition | .in | .out => "Transition"
  | .animate => "Animation"
  | .let => "Let"

/-- Directives whose name is itself a reference to a binding of the script. -/
def nameIsReference : DirectiveKind → Bool
  | .use | .transition | .in | .out | .animate => true
  | _ => false

/-- Directives that stand for their own name when they have no expression, such as `bind:value`. -/
def nameIsFallback : DirectiveKind → Bool
  | .bind | .classToggle | .style | .let => true
  | _ => false

end DirectiveKind

namespace Template

structure ScriptBlock where
  content : Range
  /-- Whether the block runs once per module rather than once per component. -/
  module : Bool
  lang : Option String
deriving DecidableEq, Repr, Inhabited

def ScriptBlock.isTypescript (s : ScriptBlock) : Bool :=
  s.lang == some "ts" || s.lang == some "typescript"

inductive AttributeValue where
  | text (range : Range) (value : String)
  | mustache (range : Range) (expression : Range)
deriving DecidableEq, Repr

/-- A directive; `nameRange` is the name after the colon. -/
structure Directive where
  range : Range
  kind : DirectiveKind
  name : String
  nameRange : Option Range
  modifiers : List String
  expression : Option Range
deriving DecidableEq, Repr

/-- The expression of a directive, which for the shorthand forms is its name. -/
def Directive.effectiveExpression (d : Directive) : Option Range :=
  if d.kind.nameIsFallback then d.expression.or d.nameRange else d.expression

inductive Attribute where
  | plain (range : Range) (name : String) (value : List AttributeValue)
  | shorthand (range : Range) (name : String) (expression : Range)
  | spread (range : Range) (expression : Range)
  | directive (directive : Directive)
deriving DecidableEq, Repr

def Attribute.range : Attribute → Range
  | .plain r .. | .shorthand r .. | .spread r .. => r
  | .directive d => d.range

mutual

inductive Markup where
  | element (name : String) (kind : ElementKind) (range : Range) (nameRange : Option Range)
      (attributes : List Attribute) (children : List Markup)
  | text (range : Range) (value : String)
  /-- A value written into the page; `raw` when it is markup itself. -/
  | mustache (range : Range) (expression : Range) (raw : Bool)
  | ifBlock (range : Range) (test : Range) (elseIf : Bool) (children : List Markup)
      (elseBranch : Option Branch)
  | eachBlock (range : Range) (expression : Range) (context index key : Option Range)
      (children : List Markup) (elseBranch : Option Branch)
  | awaitBlock (range : Range) (expression : Range) (pending : Option Branch)
      (fulfilled rejected : Option AwaitBranch)
  | keyBlock (range : Range) (expression : Range) (children : List Markup)
  | snippetBlock (range : Range) (name : Range) (params : List Range) (children : List Markup)
  /-- A declaration inside markup; the range is that of the declarator. -/
  | constTag (range : Range) (declaration : Range)
  | renderTag (range : Range) (expression : Range)

/-- The content of an `else` or `pending` branch. -/
inductive Branch where
  | mk (range : Range) (children : List Markup)

/-- The content of a `then` or `catch` branch, with the pattern that binds its value. -/
inductive AwaitBranch where
  | mk (range : Range) (binding : Option Range) (children : List Markup)

end

instance : Inhabited Markup := ⟨.text default ""⟩

def Markup.range : Markup → Range
  | .element _ _ r .. | .text r .. | .mustache r .. | .ifBlock r .. | .eachBlock r ..
  | .awaitBlock r .. | .keyBlock r .. | .snippetBlock r .. | .constTag r .. | .renderTag r .. => r

def Branch.range : Branch → Range
  | .mk r _ => r

def Branch.children : Branch → List Markup
  | .mk _ cs => cs

def AwaitBranch.range : AwaitBranch → Range
  | .mk r _ _ => r

def AwaitBranch.binding : AwaitBranch → Option Range
  | .mk _ b _ => b

def AwaitBranch.children : AwaitBranch → List Markup
  | .mk _ _ cs => cs

structure Document where
  scripts : List ScriptBlock
  nodes : List Markup
deriving Inhabited

def Document.isTypescript (d : Document) : Bool := d.scripts.any ScriptBlock.isTypescript

end Template

end Loom
