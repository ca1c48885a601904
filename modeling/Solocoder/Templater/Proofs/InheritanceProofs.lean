import Solocoder.Templater.Engine

/-!
# Inheritance

A template is rendered with the nodes of its parent. The further ancestors are only looked at to
find a loop, so that inheritance is resolved along chains of at most two templates.
-/

namespace Solocoder.Templater

open List

/-- No block is in the node. -/
inductive BlockFree : Node → Prop where
  | textNode {content} : BlockFree (.textNode content)
  | variableNode {path} : BlockFree (.variableNode path)
  | functionNode {name arguments} : BlockFree (.functionNode name arguments)
  | ifNode {c ts fs} (h : ∀ node ∈ ts ++ fs, BlockFree node) : BlockFree (.ifNode c ts fs)
  | rangeNode {i x v ns} (h : ∀ node ∈ ns, BlockFree node) : BlockFree (.rangeNode i x v ns)

/-- The blocks of a template are on its top level, and they are blocks of all its ancestors. -/
def Inherits (chain : List (String × Template)) : Prop :=
  chain.Pairwise fun t ancestor =>
    (∀ node ∈ t.2.nodes, BlockFree node ∨
      ∃ b body, node = .blockNode b body ∧ ∀ n ∈ body, BlockFree n) ∧
    ∀ b ∈ t.2.blockNames, b ∈ ancestor.2.blockNames

/-- Each template extends the next one, and the last one extends `last`. -/
def Engine.Links (e : Engine) (last : Option String) : List (String × Template) → Prop
  | [] => True
  | t :: ts => e.templates t.1 = some ⟨.ok t.2, t.2.parentName⟩ ∧
      t.2.parentName = (ts.head?.map Prod.fst).or last ∧ e.Links last ts

/-- The nodes of the root, with the definition of each block that comes first in the chain. -/
def resolved (t : String × Template) (ts : List (String × Template)) : List Node :=
  Engine.mergedNodes (fun b => (t :: ts).dropLast.findSome? (·.2.blocks b)) (ts.getLastD t).2.nodes

/-- Inheritance is resolved along all chains of at most `n` templates, and all loops are reported. -/
def Resolves (n : Nat) : Prop :=
  ∀ (e : Engine) (t : String × Template) (ts : List (String × Template)) {δ ν : Type}
    (vs : Values δ ν) (data : δ) (fuel : Nat), ((t :: ts).map Prod.fst).Nodup → ts.length ≤ fuel →
    ((t :: ts).length ≤ n → e.Links none (t :: ts) → Inherits (t :: ts) →
      e.render vs fuel t.1 data = some (e.renderNodes vs (resolved t ts) data)) ∧
    ∀ p ∈ (t :: ts).map Prod.fst, e.Links (some p) (t :: ts) →
      e.render vs fuel t.1 data = some (.error .templateInheritanceLoop)

namespace Engine

variable {e : Engine} {t u : String × Template} {ts : List (String × Template)}
  {last : Option String}

/-- The ancestors are followed to the end of the chain, or to where it closes. -/
theorem checkAncestors_links {visited : List String} {fuel : Nat} (hl : e.Links last (t :: ts))
    (hnd : (ts.map Prod.fst ++ visited).Nodup) (hlast : ∀ q ∈ last, q ∈ ts.map Prod.fst ++ visited)
    (hfuel : ts.length < fuel) : e.checkAncestors fuel t.1 visited =
      some (if last = none then .ok () else .error .templateInheritanceLoop) := by
  induction ts generalizing t fuel visited with
  | nil =>
    obtain ⟨f, rfl⟩ := Nat.exists_eq_add_one.2 hfuel
    obtain ⟨hsource, hparent, -⟩ := hl
    cases last <;> simp_all [checkAncestors, getExtendsParent]
  | cons u ts ih =>
    obtain ⟨f, rfl⟩ := Nat.exists_eq_add_one.2 (Nat.zero_lt_of_lt hfuel)
    obtain ⟨hsource, hparent, hl⟩ := hl
    have hperm : ((u :: ts).map Prod.fst ++ visited).Perm (ts.map Prod.fst ++ u.1 :: visited) :=
      perm_middle.symm
    have hnew : u.1 ∉ visited := fun h => (nodup_cons.1 hnd).1 (mem_append_right _ h)
    have hrest := ih hl (hperm.nodup_iff.1 hnd) (fun q hq => hperm.mem_iff.1 (hlast q hq))
      (Nat.lt_of_succ_lt_succ hfuel)
    simp [checkAncestors, getExtendsParent, hsource, hparent, hnew, hrest]

/-- A template is rendered with its own blocks in the nodes of its parent. -/
theorem render_links {δ ν : Type} {vs : Values δ ν} {data : δ} {fuel : Nat}
    (hl : e.Links last (t :: u :: ts)) (hnd : ((t :: u :: ts).map Prod.fst).Nodup)
    (hlast : ∀ q ∈ last, q ∈ (t :: u :: ts).map Prod.fst) (hfuel : ts.length < fuel) :
    e.render vs fuel t.1 data = some (if last = none then
        if ∀ b ∈ t.2.blockNames, (u.2.blocks b).isSome then
          e.renderNodes vs (mergedNodes t.2.blocks u.2.nodes) data
        else .error .blockNotFound
      else .error .templateInheritanceLoop) := by
  obtain ⟨hsource, hparent, hl⟩ := hl
  have hperm : ((t :: u :: ts).map Prod.fst).Perm (ts.map Prod.fst ++ [u.1, t.1]) :=
    (Perm.swap ..).trans (perm_append_comm : ([u.1, t.1] ++ _).Perm _)
  have hcheck := checkAncestors_links hl (hperm.nodup_iff.1 hnd)
    (fun q hq => hperm.mem_iff.1 (hlast q hq)) hfuel
  have hne : u.1 ≠ t.1 := fun h => (nodup_cons.1 hnd).1 (by simp [h])
  simp [render, renderWithVisited, getTemplate, hsource, hparent, hne, hl.1, hcheck]
  cases last <;> rfl

theorem isSome_blocks {tmpl : Template} {b : String} (h : b ∈ tmpl.blockNames) :
    (tmpl.blocks b).isSome := by
  obtain ⟨node, hnode, hb⟩ := mem_filterMap.1 h
  rw [Template.blocks, findSome?_isSome_iff]
  refine ⟨node, mem_reverse.2 hnode, ?_⟩
  cases node with
  | blockNode b' body => simp_all
  | _ => cases hb

end Engine

open Engine

def child : String × Template := ("child", ⟨[], some "parent"⟩)

def parent : String × Template := ("parent", ⟨[], some "root"⟩)

def root : String × Template := ("root", ⟨[.textNode "text"], none⟩)

/-- Three templates without blocks, of which only the last one has text. -/
def nested : Engine where
  templates name := ([child, parent, root].lookup name).map fun t => ⟨.ok t, t.parentName⟩
  strictVariables := false

def noValues : Values Unit Unit where
  resolveVariable _ _ := .error .variableNotFound
  callFunction _ _ _ := .error (.other "")
  evaluateCondition _ _ := .ok false
  items _ _ := .ok []
  scopeData _ _ _ _ data := data
  stringifyValue _ := ""

theorem nested_chain : nested.Links none [child, parent, root] ∧ Inherits [child, parent, root] :=
  ⟨⟨rfl, rfl, rfl, rfl, rfl, rfl, trivial⟩,
    by simp [Inherits, child, parent, Template.blockNames]⟩

end Solocoder.Templater
