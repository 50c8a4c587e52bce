import MiddleEnd.Proofs.Settled.Change

/-! No edit moves a node to another place of the source. -/

namespace MiddleEnd.Program

variable {p q : Program}

theorem span_of_node {n : NodeId} (same : q.node n = p.node n) : q.span n = p.span n := by
  rw [span, same, span]

theorem span_modifyNode (id n : NodeId) (f : Node → Node) (kept : ∀ node, (f node).span = node.span) :
    (p.modifyNode id f).span n = p.span n := by
  rw [span, node_modifyNode, span]
  split
  · rename_i here
    rw [kept, here.1]
  · rfl

theorem span_setKind (id : NodeId) (k : NodeKind) (n : NodeId) : (p.setKind id k).span n = p.span n :=
  span_modifyNode id n (fun node => { node with kind := k }) fun _ => rfl

theorem span_setParent (id : NodeId) (owner : Option NodeId) (n : NodeId) :
    (p.setParent id owner).span n = p.span n :=
  span_modifyNode id n (fun node => { node with parent := owner }) fun _ => rfl

theorem span_rescope (depth : Nat) (id : NodeId) (scope : Option SymbolId) (p : Program) (n : NodeId) :
    (rescope depth id scope p).span n = p.span n :=
  rescope_keeps (·.span n) (fun _ id scope =>
    span_modifyNode id n (fun node => { node with scope := scope }) fun _ => rfl) depth id scope p

theorem span_touch (scope : Option SymbolId) (n : NodeId) : (p.touch scope).span n = p.span n :=
  span_of_node (node_of_nodes (nodes_touch ..) n)

theorem span_adopt (owner node n : NodeId) : (p.adopt owner node).span n = p.span n := by
  have entered (t : Program) :
      (if t.isAttached owner then t.registerSubtree node else t).span n = t.span n := by
    split <;> rfl
  rw [adopt, span_touch, entered, span_rescope, span_setParent]

theorem span_cut (owner : NodeId) (k : NodeKind) (node n : NodeId) :
    (p.cut owner k node).span n = p.span n := by
  have parted : ((p.setKind owner k).setParent node none).span n = p.span n := by
    rw [span_setParent, span_setKind]
  unfold cut
  dsimp only
  split
  · exact (span_of_node (node_of_nodes (nodes_deregisterSubtree ..) n)).trans parted
  · exact parted

theorem span_destroy (root n : NodeId) : (p.destroy root).span n = p.span n := by
  rw [span, (destroy_spec p root).node, span]
  split <;> rfl

/-! Edits. -/

theorem span_of_append {owner node : NodeId} (result : p.append owner node = .ok q) (n : NodeId) :
    q.span n = p.span n := by
  obtain ⟨_, _, _, rfl⟩ := of_append result
  rw [span_adopt, span_setKind]

theorem span_of_insertBefore (forest : p.Forest) {anchor node : NodeId}
    (result : p.insertBefore anchor node = .ok q) (n : NodeId) : q.span n = p.span n := by
  obtain ⟨_, _, _, _, _, _, rfl⟩ := (insertNear_eq_ok_iff forest).mp result
  rw [span_adopt, span_setKind]

theorem span_of_replace (forest : p.Forest) {old new : NodeId} (result : p.replace old new = .ok q)
    (n : NodeId) : q.span n = p.span n := by
  obtain ⟨_, _, _, equal⟩ := (replace_eq_ok_iff forest).mp result
  rw [equal, span_adopt, span_destroy, span_cut]

theorem span_of_detach {node : NodeId} (result : p.detach node = .ok q) (n : NodeId) :
    q.span n = p.span n := by
  obtain ⟨_, _, _, _, rfl⟩ := detach_eq_ok_iff.mp result
  rw [span_touch, span_cut]

theorem span_of_setRef {node : NodeId} {v : SymbolId} (result : p.setRef node v = .ok q) (n : NodeId) :
    q.span n = p.span n := by
  obtain ⟨_, _, rfl⟩ := setRef_eq_ok_iff.mp result
  rw [span_touch, span_setKind]

/-! New nodes. -/

theorem span_addNode (k : NodeKind) (span : Span) {n : NodeId} (known : n.index < p.nodes.size) :
    (p.addNode k span).2.span n = p.span n := by
  have pushed := node_push (p := p) { kind := k, span := span } n
  rw [if_neg (by rintro rfl; exact Nat.lt_irrefl _ known)] at pushed
  have adopted (ids : List NodeId) (owner : NodeId) (t : Program) :
      (ids.foldl (fun t c => t.setParent c (some owner)) t).span n = t.span n := by
    induction ids generalizing t with
    | nil => rfl
    | cons c ids ih => rw [List.foldl_cons, ih, span_setParent]
  simp only [addNode]
  split
  · rw [Program.span, node_modifySymbol, ← Program.span, adopted]
    exact span_of_node pushed
  · rw [adopted]
    exact span_of_node pushed

end MiddleEnd.Program
