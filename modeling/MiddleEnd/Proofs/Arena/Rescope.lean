import MiddleEnd.Proofs.Arena.Preorder
import MiddleEnd.Proofs.Arena.Reached

namespace MiddleEnd.Program

/-- Two programs whose nodes have the same children, owners and live marks. -/
structure SameLinks (p q : Program) : Prop where
  size : q.nodes.size = p.nodes.size
  children (n : NodeId) : q.children n = p.children n
  parent (n : NodeId) : q.parent? n = p.parent? n
  live (n : NodeId) : (q.node n).live = (p.node n).live

variable {p q : Program}

namespace SameLinks

theorem symm (same : SameLinks p q) : SameLinks q p :=
  ⟨same.size.symm, fun n => (same.children n).symm, fun n => (same.parent n).symm,
    fun n => (same.live n).symm⟩

theorem above (same : SameLinks p q) {a n : NodeId} (above : p.Above a n) : q.Above a n := by
  induction above with
  | refl => exact .refl
  | up link _ ih => exact .up ((same.parent _).trans link) ih

theorem above_iff (same : SameLinks p q) {a n : NodeId} : q.Above a n ↔ p.Above a n :=
  ⟨same.symm.above, same.above⟩

theorem live_iff (same : SameLinks p q) {n : NodeId} : q.Live n ↔ p.Live n := by
  rw [Live, same.live]

theorem forest (same : SameLinks p q) (forest : p.Forest) : q.Forest where
  child_live {n c} live child := by
    rw [same.children] at child
    exact same.live_iff.mpr (forest.child_live (same.live_iff.mp live) child)
  child_parent {n c} live child := by
    rw [same.children] at child
    rw [same.parent]
    exact forest.child_parent (same.live_iff.mp live) child
  children_nodup {n} live := by
    rw [same.children]
    exact forest.children_nodup (same.live_iff.mp live)
  owner_live {n m} live link := by
    rw [same.parent] at link
    exact same.live_iff.mpr (forest.owner_live (same.live_iff.mp live) link)
  owner_lists {n m} live link := by
    rw [same.parent] at link
    rw [same.children]
    exact forest.owner_lists (same.live_iff.mp live) link
  owner_known {n m} link := by
    rw [same.parent] at link
    rw [same.size]
    exact forest.owner_known link
  acyclic {n m} link := by
    rw [same.parent] at link
    rw [same.above_iff]
    exact forest.acyclic link

theorem path (same : SameLinks p q) (n : NodeId) : q.path n = p.path n := by
  have level (fuel : Nat) (n : NodeId) : q.pathUp fuel n = p.pathUp fuel n := by
    induction fuel generalizing n with
    | zero => rfl
    | succ fuel ih =>
      rw [pathUp_succ, pathUp_succ, same.parent]
      cases p.parent? n with
      | none => rfl
      | some owner => simp only [Option.elim_some, ih]
  rw [Program.path, same.size, level, Program.path]

theorem reached (same : SameLinks p q) (roots : q.roots = p.roots) {n : NodeId}
    (reached : p.Reached n) : q.Reached n := by
  induction reached with
  | root isRoot => exact .root (roots ▸ isRoot)
  | child _ member ih => exact .child ih (same.children _ ▸ member)

theorem reached_iff (same : SameLinks p q) (roots : q.roots = p.roots) {n : NodeId} :
    q.Reached n ↔ p.Reached n :=
  ⟨same.symm.reached roots.symm, same.reached roots⟩

end SameLinks

/-- Two programs with the same nodes up to scopes and spans. -/
structure SameTree (p q : Program) : Prop extends SameLinks p q where
  kind (n : NodeId) : q.kind n = p.kind n

/-- The program `q` is `p` with new scopes at and below `top`: `scope` at `top` itself, and further
down what each node hands on to its children. -/
structure Rescoped (p : Program) (top : NodeId) (scope : Option SymbolId) (q : Program) : Prop where
  rest : q = { p with nodes := q.nodes }
  size : q.nodes.size = p.nodes.size
  node (n : NodeId) : q.node n = { p.node n with scope := q.scope? n }
  scope_kept {n : NodeId} : ¬ p.Above top n → q.scope? n = p.scope? n
  scope_top : q.scope? top = scope
  scope_inside {m c : NodeId} :
    p.Live m → p.Above top m → c ∈ p.children m → q.scope? c = q.scopeBelow m

theorem sameTree_of_node (size : q.nodes.size = p.nodes.size)
    (node : ∀ n, q.node n = { p.node n with scope := q.scope? n }) : SameTree p q where
  size := size
  children n := by rw [children, kind, node, children, kind]
  parent n := by rw [parent?, node]
  live n := by rw [node]
  kind n := by rw [kind, node, kind]

theorem Rescoped.sameTree {top : NodeId} {scope : Option SymbolId}
    (rescoped : Rescoped p top scope q) : SameTree p q :=
  sameTree_of_node rescoped.size rescoped.node

theorem scopeBelow_congr {m : NodeId} (kind : q.kind m = p.kind m)
    (scope : q.scope? m = p.scope? m) : q.scopeBelow m = p.scopeBelow m := by
  unfold scope? at scope
  rw [scopeBelow, scopeBelow, kind, scope]

/-- Setting the scopes below the children of a node one after the other, each below its own
children: no child's subtree is touched for another child. -/
theorem rescope_children {f : NodeId → Program → Program} (inner : Option SymbolId) {n : NodeId}
    (forest : p.Forest) (live : p.Live n) (ids : List NodeId) (distinct : ids.Nodup)
    (listed : ids ⊆ p.children n)
    (each : ∀ {r : Program}, SameTree p r → ∀ c ∈ ids, Rescoped r c inner (f c r)) :
    let q := ids.foldr f p
    q = { p with nodes := q.nodes } ∧ q.nodes.size = p.nodes.size ∧
      (∀ m, q.node m = { p.node m with scope := q.scope? m }) ∧
      (∀ m, (∀ c ∈ ids, ¬ p.Above c m) → q.scope? m = p.scope? m) ∧
      (∀ c ∈ ids, q.scope? c = inner) ∧
      (∀ c ∈ ids, ∀ m d, p.Live m → p.Above c m → d ∈ p.children m →
        q.scope? d = q.scopeBelow m) := by
  induction ids with
  | nil => exact ⟨rfl, rfl, fun _ => rfl, fun _ _ => rfl, by simp, by simp⟩
  | cons c ids ih =>
    obtain ⟨new, distinct⟩ := List.nodup_cons.mp distinct
    obtain ⟨ofC, listed⟩ := List.cons_subset.mp listed
    obtain ⟨rest, size, node, kept, tops, inside⟩ :=
      ih distinct listed fun same d member => each same d (List.mem_cons_of_mem _ member)
    simp only [List.foldr_cons]
    generalize ids.foldr f p = r at *
    have same : SameTree p r := sameTree_of_node size node
    have step := each same c List.mem_cons_self
    have disjoint {d m : NodeId} (member : d ∈ ids) (above : p.Above d m) : ¬ r.Above c m := by
      intro aboveC
      have equal := forest.children_disjoint live ofC (listed member) (same.above_iff.mp aboveC) above
      exact new (equal ▸ member)
    refine ⟨?_, step.size.trans size, fun m => ?_, fun m apart => ?_, fun d member => ?_,
      fun d member m e liveM above child => ?_⟩
    · rw [step.rest, rest]
    · rw [step.node, node]
    · rw [step.scope_kept fun above => apart c List.mem_cons_self (same.above_iff.mp above)]
      exact kept m fun d member => apart d (List.mem_cons_of_mem _ member)
    · rcases List.mem_cons.mp member with rfl | later
      · exact step.scope_top
      · rw [step.scope_kept (disjoint later .refl)]
        exact tops d later
    · rcases List.mem_cons.mp member with rfl | later
      · exact step.scope_inside (same.live_iff.mpr liveM) (same.above_iff.mpr above)
          (same.children m ▸ child)
      · have below := above.trans (Above.of_parent (forest.child_parent liveM child))
        rw [step.scope_kept (disjoint later below), inside d later m e liveM above child]
        exact (scopeBelow_congr (step.sameTree.kind m)
          (step.scope_kept (disjoint later above))).symm

/-- Setting scopes changes nothing that does not depend on them. -/
theorem rescope_keeps {α : Type} (view : Program → α)
    (same : ∀ p id scope, view (p.modifyNode id fun node => { node with scope := scope }) = view p)
    (depth : Nat) (id : NodeId) (scope : Option SymbolId) (p : Program) :
    view (rescope depth id scope p) = view p := by
  induction depth generalizing id scope p with
  | zero => rfl
  | succ depth ih =>
    have first := same p id scope
    rw [rescope]
    generalize p.modifyNode id (fun node => { node with scope := scope }) = t at *
    rw [← first]
    generalize t.scopeBelow id = inner
    induction t.children id with
    | nil => rfl
    | cons c ids ihIds => rw [List.foldr_cons, ih, ihIds]

theorem rescope_spec (forest : p.Forest) {n : NodeId} (live : p.Live n) {depth : Nat}
    (deep : p.nodes.size - (p.path n).length < depth) (scope : Option SymbolId) :
    Rescoped p n scope (rescope depth n scope p) := by
  induction depth generalizing n scope p with
  | zero => omega
  | succ depth ih =>
    rw [rescope]
    generalize first : p.modifyNode n (fun node => { node with scope := scope }) = r
    have nodeR (m : NodeId) : r.node m = { p.node m with scope := r.scope? m } := by
      rw [scope?, ← first, node_modifyNode]
      split <;> rfl
    have size : r.nodes.size = p.nodes.size := by rw [← first, size_modifyNode]
    have same : SameTree p r := sameTree_of_node size nodeR
    have scopeN : r.scope? n = scope := by
      rw [scope?, ← first, node_modifyNode_self live.known]
    have scopeR {m : NodeId} (different : m ≠ n) : r.scope? m = p.scope? m := by
      rw [scope?, ← first, node_modifyNode_of_ne different]
    have forestR := same.forest forest
    have liveR := same.live_iff.mpr live
    obtain ⟨rest, sizeQ, node, kept, tops, inside⟩ :=
      rescope_children (f := fun child p => rescope depth child (r.scopeBelow n) p)
        (r.scopeBelow n) forestR liveR (r.children n) (forestR.children_nodup liveR)
        (List.Subset.refl _) fun {s} sameS c member => by
          have liveC := sameS.live_iff.mpr (forestR.child_live liveR member)
          refine ih (sameS.forest forestR) liveC ?_ _
          have closer := forestR.room_child liveR member
          rw [sameS.size, sameS.path]
          rw [size, same.path, same.path] at closer
          rw [size, same.path]
          omega
    generalize (r.children n).foldr (fun child p => rescope depth child (r.scopeBelow n) p) r = q at *
    have keptN : q.scope? n = r.scope? n := kept n fun c member above =>
      forestR.acyclic (forestR.child_parent liveR member) above
    refine ⟨?_, sizeQ.trans size, fun m => ?_, fun {m} apart => ?_, keptN.trans scopeN,
      fun {m c} liveM above child => ?_⟩
    · rw [rest, ← first]
      rfl
    · rw [node, nodeR]
    · have different : m ≠ n := by
        rintro rfl
        exact apart .refl
      rw [kept m fun c member aboveC => apart (same.above_iff.mp
        (forestR.above_of_child liveR member aboveC)), scopeR different]
    · have liveM' := same.live_iff.mpr liveM
      have child' : c ∈ r.children m := (same.children m).symm ▸ child
      by_cases equal : n = m
      · subst equal
        rw [tops c child']
        exact (scopeBelow_congr (by rw [kind, node, kind]) keptN).symm
      · obtain ⟨d, ofN, aboveD⟩ :=
          forestR.child_above (same.above_iff.mpr above) liveM' equal
        exact inside d ofN m c liveM' aboveD child'

end MiddleEnd.Program
