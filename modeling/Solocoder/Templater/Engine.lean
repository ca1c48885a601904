import Mathlib.Data.List.Basic

/-!
# Rendering a template

`Render` of a template that may extend another one. A registered source is given by what
`parseTemplate` and `extendsPattern` make of it; the cache, which repeats the former, is left out,
and so are the blocks that are handed to `renderNodes`, which does not read them.
-/

namespace Solocoder.Templater

inductive Err where
  | templateNotFound
  | variableNotFound
  | templateInheritanceLoop
  | parentTemplateNotFound
  | blockNotFound
  | other (message : String)

inductive Node where
  | textNode (content : String)
  | variableNode (path : String)
  | functionNode (name : String) (arguments : List String)
  | ifNode (condition : String) (trueNodes falseNodes : List Node)
  | rangeNode (iterable indexVar valueVar : String) (nodes : List Node)
  | blockNode (name : String) (nodes : List Node)

structure Template where
  nodes : List Node
  parentName : Option String

/-- The blocks on the top level; the last one of a name counts. -/
def Template.blocks (t : Template) (name : String) : Option (List Node) :=
  t.nodes.reverse.findSome? fun
    | .blockNode b nodes => if b = name then some nodes else none
    | _ => none

def Template.blockNames (t : Template) : List String :=
  t.nodes.filterMap fun
    | .blockNode b _ => some b
    | _ => none

structure Source where
  template : Except Err Template
  extendsPattern : Option String

structure Engine where
  templates : String → Option Source
  strictVariables : Bool

/-- Reflection on the data. -/
structure Values (δ ν : Type) where
  resolveVariable : String → δ → Except Err ν
  callFunction : String → List String → δ → Except Err ν
  evaluateCondition : String → δ → Except Err Bool
  items : String → δ → Except Err (List ν)
  scopeData : String → String → Nat → ν → δ → δ
  stringifyValue : ν → String

namespace Engine

variable {δ ν : Type} (e : Engine) (vs : Values δ ν)

mutual

def renderNode : Node → δ → Except Err String
  | .textNode content, _ => .ok content
  | .variableNode path, data =>
    match vs.resolveVariable path data with
    | .ok val => .ok (vs.stringifyValue val)
    | .error .variableNotFound =>
      if e.strictVariables then .error .variableNotFound else .ok ""
    | .error err => .error err
  | .functionNode name arguments, data =>
    (vs.callFunction name arguments data).map vs.stringifyValue
  | .ifNode condition trueNodes falseNodes, data => do
    if ← vs.evaluateCondition condition data then renderNodes trueNodes data
    else renderNodes falseNodes data
  | .rangeNode iterable indexVar valueVar nodes, data => do
    let items ← vs.items iterable data
    let rendered ← items.zipIdx.mapM fun item =>
      renderNodes nodes (vs.scopeData indexVar valueVar item.2 item.1 data)
    return String.join rendered
  | .blockNode _ nodes, data => renderNodes nodes data

def renderNodes : List Node → δ → Except Err String
  | [], _ => .ok ""
  | node :: nodes, data => do return (← renderNode node data) ++ (← renderNodes nodes data)

end

def getExtendsParent (name : String) : Except Err (Option String) :=
  match e.templates name with
  | none => .error .templateNotFound
  | some source => .ok source.extendsPattern

def getTemplate (name : String) : Except Err Template :=
  match e.templates name with
  | none => .error .templateNotFound
  | some source => source.template

def parentErr : Err → Err
  | .templateNotFound => .parentTemplateNotFound
  | err => err

/-- The loop over the ancestors of the parent; without end if the fuel runs out. -/
def checkAncestors : Nat → String → List String → Option (Except Err Unit)
  | 0, _, _ => none
  | fuel + 1, currentParent, visited =>
    match e.getExtendsParent currentParent with
    | .error err => some (.error (parentErr err))
    | .ok none => some (.ok ())
    | .ok (some grandparent) =>
      if grandparent ∈ visited then some (.error .templateInheritanceLoop)
      else checkAncestors fuel grandparent (grandparent :: visited)

/-- `mergedNodes`: the top-level blocks are replaced where `blocks` has them. -/
def mergedNodes (blocks : String → Option (List Node)) (nodes : List Node) : List Node :=
  nodes.map fun
    | .blockNode b body => .blockNode b ((blocks b).getD body)
    | node => node

def renderWithVisited (fuel : Nat) (name : String) (data : δ) (visited : List String) :
    Option (Except Err String) :=
  if name ∈ visited then some (.error .templateInheritanceLoop)
  else match e.getTemplate name with
  | .error err => some (.error err)
  | .ok tmpl => match tmpl.parentName with
    | none => some (e.renderNodes vs tmpl.nodes data)
    | some parentName =>
      if parentName ∈ name :: visited then some (.error .templateInheritanceLoop)
      else match e.getTemplate parentName with
      | .error err => some (.error (parentErr err))
      | .ok parentTmpl =>
        (e.checkAncestors fuel parentName (parentName :: name :: visited)).map fun checked => do
          checked
          if ∀ b ∈ tmpl.blockNames, (parentTmpl.blocks b).isSome then
            e.renderNodes vs (mergedNodes tmpl.blocks parentTmpl.nodes) data
          else throw .blockNotFound

def render (fuel : Nat) (name : String) (data : δ) : Option (Except Err String) :=
  e.renderWithVisited vs fuel name data []

end Engine

end Solocoder.Templater
