import Pratt.Node.Render
import Pratt.Proofs.Description
import Pratt.Proofs.Respelling

/-!
# Pratt — tokens at other places

Where a token stands can be changed without changing anything else about it (`relocation`). More
generally, a respelling may change no text, and then it does not show: a tree is outlined,
described and written as before (`Verbatim.outline_node`, `Verbatim.describe_node`,
`Verbatim.render_node`), a diagnostic has the message that it had (`Verbatim.message_diagnostic`),
and trees that become one tree were the same before (`Verbatim.same_of_node_eq`).
-/

namespace Pratt

/-- The token at another place. -/
def Token.relocate (f : Token → Location) (t : Token) : Token :=
  { t with location := f t }

/-- Every token put where the function says. -/
def relocation (f : Token → Location) : Respelling where
  token := Token.relocate f
  kind _ := rfl

/-- A token is put at another place with its text. -/
theorem verbatim_relocation (f : Token → Location) : (relocation f).Verbatim :=
  fun _ => rfl

namespace Respelling.Verbatim

open Node

variable {φ : Respelling}

/-! ## What does not show -/

/-- The text of a node that is the text of its token stays. -/
theorem literalOfToken_map (hφ : φ.Verbatim) (t : Option Token) :
    literalOfToken (t.map φ.token) = literalOfToken t := by
  cases t with
  | none => rfl
  | some t => exact hφ t

mutual

/-- A tree has the text that it had, which for a program is that of its first statement. -/
theorem literal_node (hφ : φ.Verbatim) (n : Node) : (φ.node n).literal = n.literal := by
  cases n with
  | program statements => exact hφ.literalOfFirst_each statements
  | sequence items => rfl
  | _ => exact hφ.literalOfToken_map _

/-- The first of several nodes has the text it had. -/
theorem literalOfFirst_each (hφ : φ.Verbatim) (ns : List Node) :
    literalOfFirst (φ.each ns) = literalOfFirst ns := by
  cases ns with
  | nil => rfl
  | cons n ns => exact hφ.literal_node n

end

mutual

/-- A tree has the outline that it had. -/
theorem outline_node (hφ : φ.Verbatim) (n : Node) : (φ.node n).outline = n.outline := by
  cases n with
  | bare family t => cases family <;> simp only [node, outline, hφ.literalOfToken_map]
  | _ =>
    simp only [node, outline, hφ.text, hφ.literalOfToken_map, hφ.literalOfFirst_each,
      hφ.outlineChild_child, hφ.outlineEach_each, hφ.outlineChildren_children]

/-- A child has the outline it had. -/
theorem outlineChild_child (hφ : φ.Verbatim) (v : Option Node) :
    outlineChild (φ.child v) = outlineChild v := by
  cases v with
  | none => rfl
  | some n => exact hφ.outline_node n

/-- Several nodes have the outlines they had. -/
theorem outlineEach_each (hφ : φ.Verbatim) (ns : List Node) :
    outlineEach (φ.each ns) = outlineEach ns := by
  cases ns with
  | nil => rfl
  | cons n ns => rw [each, outlineEach, hφ.outline_node n, hφ.outlineEach_each ns, outlineEach]

/-- Several children have the outlines they had. -/
theorem outlineChildren_children (hφ : φ.Verbatim) (vs : List (Option Node)) :
    outlineChildren (φ.children vs) = outlineChildren vs := by
  cases vs with
  | nil => rfl
  | cons v vs =>
    rw [children, outlineChildren, hφ.outlineChild_child v, hφ.outlineChildren_children vs,
      outlineChildren]

end

/-- A tree is the same as before. -/
theorem same_node (hφ : φ.Verbatim) (n : Node) : (φ.node n).same n = true :=
  ((outline_eq_iff _ _).1 (hφ.outline_node n)).1

/-- A tree is described as before. -/
theorem describe_node (hφ : φ.Verbatim) (n : Node) : (φ.node n).describe = n.describe :=
  (same_iff_describe _ _).1 (hφ.same_node n)

/-- The items of a sequence are described as before. -/
theorem describeEach_each (hφ : φ.Verbatim) (ns : List Node) :
    describeEach (φ.each ns) = describeEach ns := by
  induction ns with
  | nil => rfl
  | cons n ns ih => rw [each, describeEach, hφ.describe_node n, ih, describeEach]

mutual

/-- A tree is written as before. -/
theorem render_node (hφ : φ.Verbatim) (n : Node) : (φ.node n).render = n.render := by
  cases n with
  | sequence items => exact congrArg bracketed (hφ.describeEach_each items)
  | _ =>
    simp only [node, render, hφ.text, hφ.literalOfToken_map, hφ.renderChild_child,
      hφ.renderElse_child, hφ.renderEach_each, hφ.renderChildren_children]

/-- A child is written as before. -/
theorem renderChild_child (hφ : φ.Verbatim) (v : Option Node) :
    renderChild (φ.child v) = renderChild v := by
  cases v with
  | none => rfl
  | some n => exact hφ.render_node n

/-- An alternative is written as before, behind its word. -/
theorem renderElse_child (hφ : φ.Verbatim) (v : Option Node) :
    renderElse (φ.child v) = renderElse v := by
  cases v with
  | none => rfl
  | some n => exact congrArg ("else " ++ ·) (hφ.render_node n)

/-- Several nodes are written as before. -/
theorem renderEach_each (hφ : φ.Verbatim) (ns : List Node) :
    renderEach (φ.each ns) = renderEach ns := by
  cases ns with
  | nil => rfl
  | cons n ns => rw [each, renderEach, hφ.render_node n, hφ.renderEach_each ns, renderEach]

/-- Several children are written as before. -/
theorem renderChildren_children (hφ : φ.Verbatim) (vs : List (Option Node)) :
    renderChildren (φ.children vs) = renderChildren vs := by
  cases vs with
  | nil => rfl
  | cons v vs =>
    rw [children, renderChildren, hφ.renderChild_child v, hφ.renderChildren_children vs,
      renderChildren]

end

/-- Trees that become one tree are the same. -/
theorem same_of_node_eq (hφ : φ.Verbatim) {m n : Node} (h : φ.node m = φ.node n) :
    m.same n = true := by
  rw [same_iff_describe, ← hφ.describe_node m, h, hφ.describe_node]

/-- What is wrong with a token is called by the same name. -/
theorem message_diagnostic (hφ : φ.Verbatim) (d : Diagnostic) :
    (φ.diagnostic d).message = d.message := by
  obtain ⟨t, cause⟩ := d
  simp only [diagnostic, Diagnostic.message, φ.kind, hφ t]

/-- What is wrong with some tokens is called by the same names. -/
theorem map_message_diagnostic (hφ : φ.Verbatim) (ds : List Diagnostic) :
    (ds.map φ.diagnostic).map Diagnostic.message = ds.map Diagnostic.message := by
  rw [List.map_map]
  exact List.map_congr_left fun d _ => hφ.message_diagnostic d

end Respelling.Verbatim

end Pratt
