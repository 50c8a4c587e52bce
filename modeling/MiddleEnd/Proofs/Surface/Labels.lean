import MiddleEnd.Check.Returns
import MiddleEnd.Proofs.Surface.Additions

/-! Labels for nodes: in which function each was made, whether it is attached yet or not. -/

namespace MiddleEnd

theorem Check.retVar?_of_bare {p q : Program} {f : SymbolId}
    (same : (q.symbol f).kind.bare = (p.symbol f).kind.bare) : retVar? q f = retVar? p f := by
  unfold retVar? Symbol.fnData?
  cases kindP : (p.symbol f).kind <;> cases kindQ : (q.symbol f).kind <;>
    simp_all [SymbolKind.bare]

/-- The function that holds what stands directly below a node, where `f` holds the node. -/
def NodeKind.below (f : Option SymbolId) (k : NodeKind) : Option SymbolId :=
  if k.isFnDef then k.defines? else f

namespace Program

variable {p q r : Program} {f g : Option SymbolId} {c n : NodeId} {s : SymbolId}

/-- The variable for the return value of a function is a variable, and where its definition can be
reached it stands in the function. -/
def Returning (p : Program) : Prop :=
  ∀ f v, Check.retVar? p f = some v → (p.symbol v).kind.sort = .var ∧
    ∃ d, (p.kind d).defines? = some v ∧ (p.Reached d → p.scope? d = some f)

/-! Labels. -/

/-- Labels say in which function each node was made. What stands directly below a node was made in
the function that the node opens, or where the node was made. -/
def inside (labels : NodeId → Option SymbolId) (p : Program) (n : NodeId) : Option SymbolId :=
  (p.kind n).below (labels n)

/-- The labels fit the tree, and top levels are in no function. -/
structure Wired (labels : NodeId → Option SymbolId) (p : Program) : Prop where
  child {o c : NodeId} : c ∈ p.children o → c.index < p.nodes.size ∧ labels c = inside labels p o
  top {m : SymbolId} {n : NodeId} : p.moduleBlock? m = some n →
    n.index < p.nodes.size ∧ labels n = none ∧ (p.kind n).isFnDef = false

/-- The variable for the return value of `f` is defined in `f`. -/
def DefinedIn (labels : NodeId → Option SymbolId) (p : Program) (f v : SymbolId) : Prop :=
  v.index < p.symbols.size ∧ (p.symbol v).kind.sort = .var ∧
    ∃ d, (p.kind d).defines? = some v ∧ labels d = some f

structure Labelled (labels : NodeId → Option SymbolId) (p : Program) : Prop
    extends Wired labels p where
  bound {f v : SymbolId} : Check.retVar? p f = some v → DefinedIn labels p f v

/-- What can be known of a labelled program. -/
inductive Fact where
  | stands (f : Option SymbolId) (n : NodeId)
  | opens (f : Option SymbolId) (n : NodeId)
  | isVar (v : SymbolId)

def Fact.Holds (labels : NodeId → Option SymbolId) (p : Program) : Fact → Prop
  | stands f n => n.index < p.nodes.size ∧ labels n = f
  | opens f n => n.index < p.nodes.size ∧ inside labels p n = f
  | isVar v => v.index < p.symbols.size ∧ (p.symbol v).kind.sort = .var

/-- Symbols stay what they are. -/
structure Steady (p q : Program) : Prop where
  symbols_size : p.symbols.size ≤ q.symbols.size
  sort {s : SymbolId} : s.index < p.symbols.size → (q.symbol s).kind.sort = (p.symbol s).kind.sort

/-- There are no new modules, and no function gets a variable for its return value. -/
structure Spares (p q : Program) : Prop extends Steady p q where
  moduleBlock (s : SymbolId) : q.moduleBlock? s = p.moduleBlock? s
  retVar (s : SymbolId) : Check.retVar? q s = Check.retVar? p s

/-- Nodes keep their labels, and new ones have come. -/
structure Enlarges (labels : NodeId → Option SymbolId) (p : Program)
    (labels' : NodeId → Option SymbolId) (q : Program) : Prop extends Steady p q where
  size : p.nodes.size ≤ q.nodes.size
  label {n : NodeId} : n.index < p.nodes.size → labels' n = labels n
  fnDef {n : NodeId} : n.index < p.nodes.size → (q.kind n).isFnDef = (p.kind n).isFnDef
  defines {n : NodeId} : n.index < p.nodes.size → (q.kind n).defines? = (p.kind n).defines?

variable {labels labels' labels'' : NodeId → Option SymbolId}

theorem Steady.refl : Steady p p := ⟨le_refl _, fun _ => rfl⟩

theorem Steady.trans (first : Steady p q) (second : Steady q r) : Steady p r where
  symbols_size := first.symbols_size.trans second.symbols_size
  sort known := (second.sort (known.trans_le first.symbols_size)).trans (first.sort known)

theorem known_of_child {o : NodeId} (child : c ∈ p.children o) : o.index < p.nodes.size := by
  by_contra unknown
  rw [children, kind, node_of_not_known (Nat.not_lt.mp unknown)] at child
  cases child

namespace Enlarges

theorem of_nodes (nodes : q.nodes = p.nodes) (steady : Steady p q) : Enlarges labels p labels q where
  toSteady := steady
  size := (congrArg Array.size nodes).ge
  label _ := rfl
  fnDef _ := by rw [kind, node_of_nodes nodes, kind]
  defines _ := by rw [kind, node_of_nodes nodes, kind]

theorem refl : Enlarges labels p labels p := .of_nodes rfl .refl

variable (enlarges : Enlarges labels p labels' q)

include enlarges

theorem trans (second : Enlarges labels' q labels'' r) : Enlarges labels p labels'' r where
  toSteady := enlarges.toSteady.trans second.toSteady
  size := enlarges.size.trans second.size
  label known := (second.label (known.trans_le enlarges.size)).trans (enlarges.label known)
  fnDef known := (second.fnDef (known.trans_le enlarges.size)).trans (enlarges.fnDef known)
  defines known := (second.defines (known.trans_le enlarges.size)).trans (enlarges.defines known)

theorem inside_eq (known : n.index < p.nodes.size) : inside labels' q n = inside labels p n := by
  rw [inside, inside, NodeKind.below, NodeKind.below, enlarges.fnDef known, enlarges.defines known,
    enlarges.label known]

theorem holds {fact : Fact} (holds : fact.Holds labels p) : fact.Holds labels' q := by
  cases fact with
  | stands f n => exact ⟨holds.1.trans_le enlarges.size, (enlarges.label holds.1).trans holds.2⟩
  | opens f n => exact ⟨holds.1.trans_le enlarges.size, (enlarges.inside_eq holds.1).trans holds.2⟩
  | isVar v =>
    exact ⟨holds.1.trans_le enlarges.symbols_size, (enlarges.sort holds.1).trans holds.2⟩

theorem definedIn {f v : SymbolId} (defined : DefinedIn labels p f v) :
    DefinedIn labels' q f v := by
  obtain ⟨known, sort, d, defines, label⟩ := defined
  have knownD : d.index < p.nodes.size := by
    by_contra unknown
    rw [kind, node_of_not_known (Nat.not_lt.mp unknown)] at defines
    cases defines
  exact ⟨known.trans_le enlarges.symbols_size, (enlarges.sort known).trans sort, d,
    (enlarges.defines knownD).trans defines, (enlarges.label knownD).trans label⟩

/-- The labels still fit if they fit new children and new top levels. -/
theorem wired (wired : Wired labels p)
    (blocks : ∀ m n, q.moduleBlock? m = some n → p.moduleBlock? m = some n ∨
      n.index < q.nodes.size ∧ labels' n = none ∧ (q.kind n).isFnDef = false)
    (children : ∀ o, ∀ c ∈ q.children o, c ∈ p.children o ∨
      c.index < q.nodes.size ∧ labels' c = inside labels' q o) : Wired labels' q where
  child {o c} child := by
    rcases children o c child with old | new
    · obtain ⟨known, label⟩ := wired.child old
      exact ⟨known.trans_le enlarges.size, (enlarges.label known).trans
        (label.trans (enlarges.inside_eq (known_of_child old)).symm)⟩
    · exact new
  top {m n} block := by
    rcases blocks m n block with old | new
    · obtain ⟨known, label, noFn⟩ := wired.top old
      exact ⟨known.trans_le enlarges.size, (enlarges.label known).trans label,
        (enlarges.fnDef known).trans noFn⟩
    · exact new

theorem labelled (spares : Spares p q) (labelled : Labelled labels p)
    (children : ∀ o, ∀ c ∈ q.children o, c ∈ p.children o ∨
      c.index < q.nodes.size ∧ labels' c = inside labels' q o) : Labelled labels' q where
  toWired := enlarges.wired labelled.toWired
    (fun m n block => .inl (spares.moduleBlock m ▸ block)) children
  bound isRet := by
    rw [spares.retVar] at isRet
    exact enlarges.definedIn (labelled.bound isRet)

end Enlarges

theorem Labelled.of_nodes (labelled : Labelled labels p) (nodes : q.nodes = p.nodes)
    (spares : Spares p q) : Enlarges labels p labels q ∧ Labelled labels q := by
  have enlarges : Enlarges labels p labels q := .of_nodes nodes spares.toSteady
  refine ⟨enlarges, enlarges.labelled spares labelled fun o c child => .inl ?_⟩
  rwa [children, kind, node_of_nodes nodes] at child

/-! What lowering does. -/

theorem Spares.refl : Spares p p := ⟨.refl, fun _ => rfl, fun _ => rfl⟩

theorem Spares.trans (first : Spares p q) (second : Spares q r) : Spares p r where
  toSteady := first.toSteady.trans second.toSteady
  moduleBlock s := (second.moduleBlock s).trans (first.moduleBlock s)
  retVar s := (second.retVar s).trans (first.retVar s)

theorem Spares.of_kinds (size : q.symbols.size = p.symbols.size)
    (kinds : ∀ s, (q.symbol s).kind = (p.symbol s).kind) : Spares p q where
  symbols_size := size.ge
  sort _ := by rw [kinds]
  retVar s := by rw [Check.retVar?, Symbol.fnData?, kinds, Check.retVar?, Symbol.fnData?]
  moduleBlock s := by
    rw [moduleBlock?, Symbol.moduleBlock?, kinds, moduleBlock?, Symbol.moduleBlock?]

theorem spares_addSymbol {sym : Symbol} (noRet : sym.fnData?.bind (·.retVar) = none)
    (noModule : sym.moduleBlock? = none) : Spares p (p.addSymbol sym).2 where
  symbols_size := by simp [addSymbol]
  sort known := by rw [symbol_addSymbol_of_known sym known]
  retVar s := by
    rw [Check.retVar?, symbol_addSymbol, Check.retVar?]
    split
    · rename_i here
      rw [noRet, symbol_of_not_known (here ▸ Nat.le_refl p.symbols.size)]
      rfl
    · rfl
  moduleBlock s := by
    rw [moduleBlock?, symbol_addSymbol, moduleBlock?]
    split
    · rename_i here
      rw [noModule, symbol_of_not_known (here ▸ Nat.le_refl p.symbols.size)]
      rfl
    · rfl

theorem spares_modifySymbol (s : SymbolId) {change : Symbol → Symbol}
    (kind : ∀ sym, (change sym).kind = sym.kind) : Spares p (p.modifySymbol s change) := by
  refine .of_kinds (size_modifySymbol ..) fun v => ?_
  rw [symbol_modifySymbol]
  split
  · exact kind _
  · rfl

theorem spares_attachFlags (s : SymbolId) (flags : List Flag) : Spares p (p.attachFlags s flags) := by
  unfold attachFlags
  induction flags generalizing p with
  | nil => exact .refl
  | cons flag flags ih =>
    have first : Spares p (p.attachFlag s flag) := spares_modifySymbol s fun _ => rfl
    exact first.trans ih

theorem spares_addNode (k : NodeKind) (span : Span) : Spares p (p.addNode k span).2 :=
  .of_kinds (size_addNode k span).2 fun s => by rw [symbol_addNode]

theorem ne_of_known (known : n.index < p.nodes.size) : n ≠ ⟨p.nodes.size⟩ := by
  rintro rfl
  exact Nat.lt_irrefl _ known

section

variable (f : Option SymbolId) (k : NodeKind) (span : Span)

theorem addNode_enlarges :
    Enlarges labels p (Function.update labels ⟨p.nodes.size⟩ f) (p.addNode k span).2 where
  toSteady := (spares_addNode k span).toSteady
  size := by rw [(size_addNode k span).1]; omega
  label known := Function.update_of_ne (ne_of_known known) ..
  fnDef known := by rw [kind_addNode, if_neg (ne_of_known known)]
  defines known := by rw [kind_addNode, if_neg (ne_of_known known)]

theorem addNode_facts : (Fact.stands f ⟨p.nodes.size⟩).Holds
      (Function.update labels ⟨p.nodes.size⟩ f) (p.addNode k span).2 ∧
    (Fact.opens (k.below f) ⟨p.nodes.size⟩).Holds
      (Function.update labels ⟨p.nodes.size⟩ f) (p.addNode k span).2 := by
  have known : p.nodes.size < (p.addNode k span).2.nodes.size := by
    rw [(size_addNode k span).1]
    omega
  refine ⟨⟨known, Function.update_self ..⟩, known, ?_⟩
  rw [inside, kind_addNode, if_pos rfl, Function.update_self]

/-- A new node may be added whose children stand where it puts them. -/
theorem addNode_children (fits : ∀ c ∈ k.children, (Fact.stands (k.below f) c).Holds labels p) :
    ∀ o, ∀ c ∈ (p.addNode k span).2.children o, c ∈ p.children o ∨
      c.index < (p.addNode k span).2.nodes.size ∧ Function.update labels ⟨p.nodes.size⟩ f c =
        inside (Function.update labels ⟨p.nodes.size⟩ f) (p.addNode k span).2 o := by
  intro o c child
  have enlarges : Enlarges labels p _ (p.addNode k span).2 := addNode_enlarges f k span
  rw [children, kind_addNode] at child
  split at child
  · rename_i here
    subst here
    have stands := enlarges.holds (fits c child)
    exact .inr ⟨stands.1, stands.2.trans (addNode_facts f k span).2.2.symm⟩
  · exact .inl child

end

theorem append_enlarges {owner node : NodeId} (result : p.append owner node = .ok q) :
    Enlarges labels p labels q ∧ Spares p q := by
  obtain ⟨known, ids, list, equal⟩ := of_append result
  obtain ⟨_, _, kinds⟩ := kind_of_append result
  have head (n : NodeId) : (p.kind n).SameHead (q.kind n) := by
    rw [kinds]
    split
    · rename_i here
      rw [here]
      exact NodeKind.withChildList_head ..
    · exact .refl _
  obtain ⟨symbols, symbols_size, _, size⟩ := adopt_same owner node
    (p.setKind owner ((p.kind owner).withChildList (ids ++ [node])))
  rw [← equal] at symbols symbols_size size
  have spares : Spares p q := .of_kinds symbols_size symbols
  refine ⟨⟨spares.toSteady, ?_, fun _ => rfl, fun _ => (head _).isFnDef, fun _ => (head _).defines⟩,
    spares⟩
  rw [size, size_setKind]

/-- The definition of a variable that has become the one for the return value of `f`. -/
theorem Labelled.define (labelled : Labelled labels p) (change : Relabel p q) {v : SymbolId}
    {value : Option NodeId} (span : Span)
    (binds : ∀ g u, Check.retVar? q g = some u → Check.retVar? p g = some u ∨ u = v ∧ f = some g)
    (isVar : (Fact.isVar v).Holds labels p)
    (fits : ∀ c ∈ value.toList, (Fact.stands f c).Holds labels p) :
    Enlarges labels p (Function.update labels ⟨q.nodes.size⟩ f) (q.addDefinition v value span).2 ∧
      Labelled (Function.update labels ⟨q.nodes.size⟩ f) (q.addDefinition v value span).2 := by
  have marked : Enlarges labels p labels q :=
    .of_nodes change.nodes ⟨change.symbols_size.ge, fun _ => change.sort _⟩
  have enlarges : Enlarges labels p _ (q.addDefinition v value span).2 :=
    marked.trans (addNode_enlarges f (.define v value) span)
  have spares : Spares q (q.addDefinition v value span).2 := spares_addNode ..
  have blocks (m : SymbolId) : (q.addDefinition v value span).2.moduleBlock? m = p.moduleBlock? m :=
    (spares.moduleBlock m).trans (change.moduleBlock m)
  refine ⟨enlarges, enlarges.wired labelled.toWired (fun m n block => .inl (blocks m ▸ block))
    fun o c child => ?_, fun {g u} isRet => ?_⟩
  · have stand : ∀ c ∈ (NodeKind.define v value).children,
        (Fact.stands ((NodeKind.define v value).below f) c).Holds labels q :=
      fun c child => marked.holds (fits c child)
    refine (addNode_children f _ span stand o c child).imp_left fun old => ?_
    rwa [children, change.kind] at old
  · rw [spares.retVar] at isRet
    rcases binds g u isRet with old | ⟨rfl, around⟩
    · exact enlarges.definedIn (labelled.bound old)
    · obtain ⟨known, sort⟩ := enlarges.holds isVar
      refine ⟨known, sort, ⟨q.nodes.size⟩, ?_, ?_⟩
      · rw [addDefinition, kind_addNode, if_pos rfl]
        rfl
      · rw [Function.update_self, around]

/-- A new top level is in no function. -/
theorem Labelled.addModule (labelled : Labelled labels p) (name : String) (span : Span) :
    Labelled (Function.update labels ⟨p.nodes.size⟩ none) (p.addModule name span).2 := by
  let q := (p.addModule name span).2
  let sym : Symbol := { name := name, kind := .moduleRoot ⟨p.nodes.size⟩, ty := .void }
  have node (n : NodeId) : q.node n = if n = ⟨p.nodes.size⟩ then
      { kind := .block [], span := span, scope := some ⟨p.symbols.size⟩ } else p.node n :=
    node_push { kind := .block [], span := span, scope := some ⟨p.symbols.size⟩ } n
  have symbol (s : SymbolId) : q.symbol s = if s = ⟨p.symbols.size⟩ then sym else p.symbol s :=
    symbol_addSymbol sym s
  have kinds {n : NodeId} (known : n.index < p.nodes.size) : q.kind n = p.kind n := by
    rw [kind, node, if_neg (ne_of_known known), kind]
  have enlarges : Enlarges labels p (Function.update labels ⟨p.nodes.size⟩ none) q :=
    { symbols_size := by simp [q, Program.addModule, addSymbol]
      sort := fun {s} known => by
        rw [symbol, if_neg]
        rintro rfl
        exact Nat.lt_irrefl _ known
      size := by simp [q, Program.addModule, addSymbol]
      label := fun known => Function.update_of_ne (ne_of_known known) ..
      fnDef := fun known => by rw [kinds known]
      defines := fun known => by rw [kinds known] }
  refine ⟨enlarges.wired labelled.toWired (fun m n block => ?_) fun o c child => .inl ?_,
    fun {f v} isRet => enlarges.definedIn (labelled.bound ?_)⟩
  · rw [moduleBlock?, symbol] at block
    split at block
    · cases block
      refine .inr ⟨by simp [q, Program.addModule, addSymbol], Function.update_self .., ?_⟩
      rw [kind, node, if_pos rfl]
      rfl
    · exact .inl block
  · rw [children, kind, node] at child
    split at child
    · cases child
    · exact child
  · rw [Check.retVar?, symbol] at isRet
    split at isRet
    · cases isRet
    · exact isRet

/-- Labels say where the code of a function is. -/
theorem Labelled.scope {labels : NodeId → Option SymbolId} {p : Program}
    (labelled : Labelled labels p) (sound : p.Sound) {n : NodeId} {f : SymbolId}
    (reached : p.Reached n) (label : labels n = some f) : p.scope? n = some f := by
  induction reached with
  | root root =>
    obtain ⟨m, _, block⟩ := mem_roots.mp root
    rw [(labelled.top block).2.1] at label
    cases label
  | @child owner n reached child ih =>
    rw [sound.scope_below reached child, scopeBelow_eq]
    rw [(labelled.child child).2, inside, NodeKind.below] at label
    split
    · rename_i fn
      rwa [if_pos fn] at label
    · rename_i noFn
      rw [if_neg noFn] at label
      exact ih label

theorem Labelled.returning {labels : NodeId → Option SymbolId} {p : Program}
    (labelled : Labelled labels p) (sound : p.Sound) : p.Returning := by
  intro f v isRet
  obtain ⟨_, sort, d, defines, label⟩ := labelled.bound isRet
  exact ⟨sort, d, defines, fun reached => labelled.scope sound reached label⟩

theorem Retarget.returning {p q : Program} (change : p.Retarget q)
    (returning : p.Returning) : q.Returning := by
  intro f v isRet
  have same := Check.retVar?_of_bare (Symbol.bare_of_core (change.core f))
  obtain ⟨sort, d, defines, scope⟩ := returning f v (same ▸ isRet)
  refine ⟨(Symbol.sort_of_core (change.core v)).trans sort, d, (change.defines d).trans defines, ?_⟩
  intro reached
  rw [change.scope]
  exact scope ((change.reached_iff change.roots).mp reached)

end Program

end MiddleEnd
