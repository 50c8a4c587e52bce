import MiddleEnd.Proofs.Flow.Source

/-! A function has a flow graph exactly if its jumps lead to its own labels. -/

namespace MiddleEnd

namespace NodeKind

def gotoName? : NodeKind → Option String
  | goto name => some name
  | _ => none

def labelName? : NodeKind → Option String
  | label name => some name
  | _ => none

variable {k : NodeKind} {name : String}

theorem gotoName?_eq_some : k.gotoName? = some name ↔ k = .goto name := by
  cases k <;> simp [gotoName?]

theorem labelName?_eq_some : k.labelName? = some name ↔ k = .label name := by
  cases k <;> simp [labelName?]

/-- The construct is neither a jump nor a label, and it has no blocks. -/
structure Quiet (k : NodeKind) : Prop where
  goto : k.tag ≠ .goto
  label : k.tag ≠ .label
  block : k.isBlock = false
  bodies : k.bodies = []

theorem Quiet.of_expr {k : NodeKind} (expr : k.isExpr = true) : k.Quiet := by
  cases k <;> simp [isExpr] at expr <;>
    exact ⟨by simp [tag], by simp [tag], rfl, rfl⟩

theorem Quiet.of_defines {k : NodeKind} {s : SymbolId} (defines : k.defines? = some s) : k.Quiet := by
  cases k <;> simp [defines?] at defines <;>
    exact ⟨by simp [tag], by simp [tag], rfl, rfl⟩

/-- What is kept of a construct, if it is kept of jumps and labels only. -/
def OfJumps {α : Type} (keep : NodeKind → Option α) : Prop :=
  ∀ k : NodeKind, k.tag ≠ .goto → k.tag ≠ .label → keep k = none

theorem ofJumps_gotoName? : OfJumps gotoName? := fun k goto _ => by
  cases k <;> simp [tag, gotoName?] at goto ⊢

theorem ofJumps_labelName? : OfJumps labelName? := fun k _ label => by
  cases k <;> simp [tag, labelName?] at label ⊢

end NodeKind

namespace Flow

open Program

variable {p : Program}

/-- Between two builders the jumps and the labels of some statements are noted. -/
structure Notes (p : Program) (b c : Builder) (ids : List NodeId) : Prop where
  gotos : c.gotos.map Prod.snd =
    b.gotos.map Prod.snd ++ ids.filterMap fun n => (p.kind n).gotoName?
  labels : c.labels.map Prod.fst =
    (ids.filterMap fun n => (p.kind n).labelName?).reverse ++ b.labels.map Prod.fst

namespace Notes

variable {b c d : Builder} {id : NodeId} {ids more : List NodeId}

theorem nil (gotos : c.gotos = b.gotos) (labels : c.labels = b.labels) : Notes p b c [] :=
  ⟨by simp [gotos], by simp [labels]⟩

theorem trans (first : Notes p b c ids) (second : Notes p c d more) : Notes p b d (ids ++ more) :=
  ⟨by simp [second.gotos, first.gotos], by simp [second.labels, first.labels]⟩

theorem before (gotos : c.gotos = b.gotos) (labels : c.labels = b.labels)
    (notes : Notes p c d ids) : Notes p b d ids := (nil gotos labels).trans notes

theorem after (notes : Notes p b c ids) (gotos : d.gotos = c.gotos) (labels : d.labels = c.labels) :
    Notes p b d ids := by
  simpa using notes.trans (nil gotos labels)

theorem cons (goto : (p.kind id).gotoName? = none) (label : (p.kind id).labelName? = none)
    (notes : Notes p b c ids) : Notes p b c (id :: ids) :=
  ⟨by simp [notes.gotos, goto], by simp [notes.labels, label]⟩

theorem foldl {f : Builder → NodeId → Builder} {of : NodeId → List NodeId}
    (each : ∀ b id, Notes p b (f b id) (of id)) (ids : List NodeId) (b : Builder) :
    Notes p b (ids.foldl f b) (ids.flatMap of) := by
  induction ids generalizing b with
  | nil => exact nil rfl rfl
  | cons id rest ih => exact (each b id).trans (ih _)

theorem headedLoop {inner : Builder → Builder} {item : Item} (inside : ∀ b, Notes p b (inner b) ids) :
    Notes p b (b.headedLoop item inner) ids := by
  rw [Builder.headedLoop_eq]
  exact ((inside (b.enterHeaded item)).before (by simp) (by simp)).after (by simp) (by simp)

theorem testedLoop {inner : Builder → Builder} {item : Item} (inside : ∀ b, Notes p b (inner b) ids) :
    Notes p b (b.testedLoop item inner) ids := by
  rw [Builder.testedLoop_eq]
  exact ((inside b.enterTested).before (by simp) (by simp)).after (by simp) (by simp)

theorem choice {thenInner : Builder → Builder} {elseInner : Option (Builder → Builder)} {item : Item}
    (inside : ∀ b, Notes p b (thenInner b) ids)
    (insideElse : ∀ inner ∈ elseInner, ∀ b, Notes p b (inner b) more)
    (none : elseInner = none → more = []) :
    Notes p b (b.choice item thenInner elseInner) (ids ++ more) := by
  have first : Notes p b (thenInner ((b.push item).arm b.current)) ids :=
    (inside _).before (by simp) (by simp)
  cases elseInner with
  | none =>
    rw [Builder.choice_none_eq, none rfl, List.append_nil]
    exact first.after (by simp) (by simp)
  | some inner =>
    rw [Builder.choice_some_eq]
    have second := insideElse inner rfl ((thenInner ((b.push item).arm b.current)).arm b.current)
    exact (first.trans (second.before (by simp) (by simp))).after (by simp) (by simp)

theorem stmt (depth : Nat) (id : NodeId) (b : Builder) :
    Notes p b (Builder.stmt p depth id b) (stmtsIn p depth id) := by
  induction depth generalizing id b with
  | zero => exact nil rfl rfl
  | succ depth ih =>
    have inside (block : NodeId) (b : Builder) := foldl (p := p)
      (f := fun b child => Builder.stmt p depth child b) (fun b child => ih child b)
      (p.children block) b
    rw [Builder.stmt, stmtsIn]
    cases kind : p.kind id with
    | block ids =>
      refine .cons (by rw [kind]; rfl) (by rw [kind]; rfl) ?_
      simpa [NodeKind.isBlock] using inside id b
    | cond test thenBlock elseBlock =>
      refine .cons (by rw [kind]; rfl) (by rw [kind]; rfl) ?_
      simp only [NodeKind.isBlock, NodeKind.bodies, Bool.false_eq_true, if_false, List.flatMap_cons]
      refine choice (inside thenBlock) (fun inner member => ?_) fun none => ?_
      · obtain ⟨block, rfl, rfl⟩ := Option.map_eq_some_iff.mp member
        rw [Option.toList_some, List.flatMap_singleton]
        exact inside block
      · rw [Option.map_eq_none_iff.mp none]
        rfl
    | loop test body testFirst =>
      refine .cons (by rw [kind]; rfl) (by rw [kind]; rfl) ?_
      simp only [NodeKind.isBlock, NodeKind.bodies, Bool.false_eq_true, if_false,
        List.flatMap_singleton]
      cases testFirst with
      | true => exact headedLoop (inside body)
      | false => exact testedLoop (inside body)
    | forLoop index iterable body =>
      refine .cons (by rw [kind]; rfl) (by rw [kind]; rfl) ?_
      simp only [NodeKind.isBlock, NodeKind.bodies, Bool.false_eq_true, if_false,
        List.flatMap_singleton]
      exact headedLoop (inside body)
    | brk | cont =>
      refine .cons (by rw [kind]; rfl) (by rw [kind]; rfl) ?_
      dsimp only
      split <;> exact nil (by simp [Builder.afterJump, Builder.newBlock, Builder.goTo])
        (by simp [Builder.afterJump, Builder.newBlock, Builder.goTo])
    | label name =>
      constructor <;> simp [kind, NodeKind.bodies, NodeKind.isBlock, NodeKind.gotoName?,
        NodeKind.labelName?, Builder.newBlock, Builder.goTo]
    | goto name =>
      constructor <;> simp [kind, NodeKind.bodies, NodeKind.isBlock, NodeKind.gotoName?,
        NodeKind.labelName?, Builder.afterJump, Builder.newBlock, Builder.goTo]
    | symRef | call | namedArg | literal | prim | assign | define | ret | fnDef =>
      exact .cons (by rw [kind]; rfl) (by rw [kind]; rfl) (nil rfl rfl)

end Notes

/-- The names in the jumps of a body outside the functions defined in it, in source order. -/
def gotoNames (p : Program) (body : NodeId) : List String :=
  (p.collectOwn .goto body).filterMap fun n => (p.kind n).gotoName?

/-- The names of the labels of a body outside the functions defined in it. -/
def labelNames (p : Program) (body : NodeId) : List String :=
  (p.collectOwn .label body).filterMap fun n => (p.kind n).labelName?

/-- Edges are made for the jumps in order; the first one without a label ends that. -/
theorem Builder.resolveGotos_eq_error (b : Builder) (function : String) {e : FlowError} :
    b.resolveGotos function = .error e ↔
      ∃ name, (b.gotos.map Prod.snd).find? (· ∉ b.labels.map Prod.fst) = some name ∧
        e = .unknownLabel function name := by
  have known {b : Builder} {name : String} :
      name ∈ b.labels.map Prod.fst ↔ (b.labels.lookup name).isSome = true := by
    simp [List.lookup_isSome_iff]
  unfold resolveGotos
  generalize b.gotos = jumps
  induction jumps generalizing b with
  | nil => simp [pure, Except.pure]
  | cons j rest ih =>
    obtain ⟨source, name⟩ := j
    rw [List.foldlM_cons, List.map_cons, List.find?_cons]
    cases found : b.labels.lookup name with
    | none =>
      have unknown : name ∉ b.labels.map Prod.fst := by simp [known, found]
      simp [unknown, bind, Except.bind, found, eq_comm]
    | some target =>
      have listed : name ∈ b.labels.map Prod.fst := by simp [known, found]
      have others := ih (b := b.edge source target)
      rw [labels_edge] at others
      simp only [listed, not_true_eq_false, decide_false, found]
      exact others

section

variable (tidy : p.Tidy) {body : NodeId} (live : p.Live body) (isBlock : (p.kind body).isBlock = true)

include tidy live isBlock

/-- The jumps and the labels of a body are found among its statements. -/
theorem names_eq :
    gotoNames p body = (statements p body).filterMap (fun n => (p.kind n).gotoName?) ∧
      labelNames p body = (statements p body).filterMap fun n => (p.kind n).labelName? := by
  have block : (p.kind body).tag = .block := NodeKind.isBlock_iff.mp isBlock
  have stands {n : NodeId} {slot : Slot} (tag : (p.kind n).tag = .goto ∨ (p.kind n).tag = .label)
      (fits : p.Fits n slot) : slot = .stmt := by
    cases slot <;> rcases tag with tag | tag <;>
      simp [Fits, NodeKind.isExpr_iff, NodeKind.isBlock_iff, tag] at fits ⊢
  constructor
  · exact filterMap_collectOwn tidy live .goto NodeKind.gotoName?
      (fun {k} other => by cases k <;> simp [NodeKind.tag, NodeKind.gotoName?] at other ⊢)
      (by simp [block]) fun tag fits => stands (.inl tag) fits
  · exact filterMap_collectOwn tidy live .label NodeKind.labelName?
      (fun {k} other => by cases k <;> simp [NodeKind.tag, NodeKind.labelName?] at other ⊢)
      (by simp [block]) fun tag fits => stands (.inr tag) fits

/-- The names that the graph of a body is built with. -/
theorem names_of_stmts (top : p.inBlock body = false) :
    (Builder.stmts p body {}).gotos.map Prod.snd = gotoNames p body ∧
      (Builder.stmts p body {}).labels.map Prod.fst = (labelNames p body).reverse := by
  have notes := Notes.foldl (p := p) (f := fun b child => Builder.stmt p (p.nodes.size + 1) child b)
    (fun b child => Notes.stmt _ child b) (p.children body) {}
  rw [flatMap_stmtsIn tidy live isBlock top] at notes
  obtain ⟨gotos, labels⟩ := names_eq tidy live isBlock
  rw [gotos, labels]
  exact ⟨notes.gotos, notes.labels.trans (List.append_nil _)⟩

end

/-! What statements have in the way of jumps and labels, block by block. -/

section

variable {α : Type} {keep : NodeKind → Option α} {n body : NodeId}

/-- What is kept of the statements of a statement, down to a depth. -/
def keptIn (p : Program) (keep : NodeKind → Option α) (depth : Nat) (n : NodeId) : List α :=
  (stmtsIn p depth n).filterMap fun m => keep (p.kind m)

theorem keptIn_succ (depth : Nat) : keptIn p keep (depth + 1) n = (keep (p.kind n)).toList ++
    (if (p.kind n).isBlock then [n] else (p.kind n).bodies).flatMap fun block =>
      (p.children block).flatMap (keptIn p keep depth) := by
  rw [keptIn, stmtsIn, List.filterMap_cons]
  simp only [List.filterMap_flatMap]
  cases keep (p.kind n) <;> rfl

theorem keptIn_of_quiet (ofJumps : NodeKind.OfJumps keep) (quiet : (p.kind n).Quiet) (depth : Nat) :
    keptIn p keep depth n = [] := by
  cases depth with
  | zero => rfl
  | succ depth =>
    rw [keptIn_succ, ofJumps _ quiet.goto quiet.label, quiet.block, quiet.bodies]
    rfl

theorem keptIn_of_block (ofJumps : NodeKind.OfJumps keep) (isBlock : (p.kind n).isBlock = true)
    (depth : Nat) : keptIn p keep (depth + 1) n = (p.children n).flatMap (keptIn p keep depth) := by
  have tag := NodeKind.isBlock_iff.mp isBlock
  rw [keptIn_succ, ofJumps _ (by simp [tag]) (by simp [tag]), if_pos isBlock, List.flatMap_singleton]
  rfl

/-- What is kept of the statements of a body is found block by block. -/
theorem filterMap_statements (tidy : p.Tidy) (live : p.Live body)
    (isBlock : (p.kind body).isBlock = true) (top : p.inBlock body = false)
    (ofJumps : NodeKind.OfJumps keep) {depth : Nat} (room : p.nodes.size < depth) :
    (statements p body).filterMap (fun n => keep (p.kind n)) = keptIn p keep (depth + 1) body := by
  rw [keptIn_of_block ofJumps isBlock, ← flatMap_stmtsIn_of_room tidy live isBlock top room,
    List.filterMap_flatMap]
  rfl

end

/-- There is no graph exactly if some jump names no label, and the error has the first such name. -/
theorem Graph.build_eq_error (tidy : p.Tidy) {f : SymbolId} {d : NodeId} (placed : p.Placed f d)
    {body : NodeId} (found : p.fnBody? f = some body) {e : FlowError} :
    Graph.build p f = .error e ↔
      ∃ name, (gotoNames p body).find? (· ∉ labelNames p body) = some name ∧
        e = .unknownLabel (p.name f) name := by
  obtain ⟨live, isBlock, top⟩ := tidy.body_of_placed placed found
  obtain ⟨gotos, labels⟩ := names_of_stmts tidy live isBlock top
  have resolves := Builder.resolveGotos_eq_error (Builder.stmts p body {}) (p.name f) (e := e)
  simp only [gotos, labels, List.mem_reverse] at resolves
  rw [← resolves, Graph.build, found]
  dsimp only
  cases (Builder.stmts p body {}).resolveGotos (p.name f) <;> simp [Except.map]

/-- A function has its body in both programs, under the same name and with the same jumps and labels. -/
structure SameJumps (p q : Program) (f : SymbolId) : Prop where
  name : q.name f = p.name f
  body {body : NodeId} : p.fnBody? f = some body → q.fnBody? f = some body ∧
    gotoNames q body = gotoNames p body ∧ labelNames q body = labelNames p body

/-- What is kept of the statements says which jumps and labels there are. -/
theorem SameJumps.of_kept {q : Program} {f : SymbolId} {body : NodeId} (tidy : p.Tidy)
    (tidyQ : q.Tidy) {d d' : NodeId} (placed : p.Placed f d) (placedQ : q.Placed f d')
    (name : q.name f = p.name f) (found : p.fnBody? f = some body) (foundQ : q.fnBody? f = some body)
    (same : ∀ keep : NodeKind → Option String, NodeKind.OfJumps keep → ∀ depth,
      keptIn q keep depth body = keptIn p keep depth body) : SameJumps p q f := by
  obtain ⟨live, isBlock, top⟩ := tidy.body_of_placed placed found
  obtain ⟨liveQ, isBlockQ, topQ⟩ := tidyQ.body_of_placed placedQ foundQ
  obtain ⟨gotos, labels⟩ := names_eq tidy live isBlock
  obtain ⟨gotosQ, labelsQ⟩ := names_eq tidyQ liveQ isBlockQ
  have kept (keep : NodeKind → Option String) (ofJumps : NodeKind.OfJumps keep) :
      (statements q body).filterMap (fun n => keep (q.kind n)) =
        (statements p body).filterMap fun n => keep (p.kind n) := by
    have room : p.nodes.size < p.nodes.size + q.nodes.size + 1 := by omega
    have roomQ : q.nodes.size < p.nodes.size + q.nodes.size + 1 := by omega
    rw [filterMap_statements tidyQ liveQ isBlockQ topQ ofJumps roomQ,
      filterMap_statements tidy live isBlock top ofJumps room, same keep ofJumps]
  refine ⟨name, fun {body'} found' => ?_⟩
  cases found.symm.trans found'
  rw [gotosQ, labelsQ, gotos, labels]
  exact ⟨foundQ, kept _ NodeKind.ofJumps_gotoName?, kept _ NodeKind.ofJumps_labelName?⟩

/-- Then it has a flow graph in the one if it has one in the other, or it has none for the same reason. -/
theorem SameJumps.build_eq_error {q : Program} {f : SymbolId} (same : SameJumps p q f) (tidy : p.Tidy)
    (tidyQ : q.Tidy) {d d' : NodeId} (placed : p.Placed f d) (placedQ : q.Placed f d') {e : FlowError} :
    Graph.build q f = .error e ↔ Graph.build p f = .error e := by
  obtain ⟨_, _, body, _, found⟩ := tidy.fnBody?_eq placed
  obtain ⟨foundQ, gotos, labels⟩ := same.body found
  rw [Graph.build_eq_error tidyQ placedQ foundQ, Graph.build_eq_error tidy placed found, gotos, labels,
    same.name]

/-- The programs have the same functions, and the same of them have no flow graph, for the same reasons. -/
structure KeepsJumps (p q : Program) : Prop where
  fns {f : SymbolId} : f ∈ q.registries.fns ↔ f ∈ p.registries.fns
  external {f : SymbolId} : f ∈ p.registries.fns → q.hasFlag f .external = p.hasFlag f .external
  build_eq_error {f : SymbolId} {e : FlowError} : f ∈ p.registries.fns →
    (Graph.build q f = .error e ↔ Graph.build p f = .error e)

namespace KeepsJumps

variable {q r : Program}

theorem refl : KeepsJumps p p := ⟨.rfl, fun _ => rfl, fun _ => .rfl⟩

theorem trans (first : KeepsJumps p q) (second : KeepsJumps q r) : KeepsJumps p r where
  fns := second.fns.trans first.fns
  external member := (second.external (first.fns.mpr member)).trans (first.external member)
  build_eq_error member :=
    (second.build_eq_error (first.fns.mpr member)).trans (first.build_eq_error member)

end KeepsJumps

/-- Every jump in the code of a function names a label there. -/
def Labelled (p : Program) (f : SymbolId) : Prop :=
  ∀ n name, p.Reached n → p.scope? n = some f → p.kind n = .goto name →
    ∃ m, p.Reached m ∧ p.scope? m = some f ∧ p.kind m = .label name

/-- Does every jump in the code of a function name a label there? -/
def isLabelled (p : Program) (f : SymbolId) : Bool :=
  let own := (p.roots.flatMap p.preorder).filter (p.scope? · == some f)
  own.all fun n => (p.kind n).gotoName?.all fun name => own.any fun m => (p.kind m).labelName? == some name

theorem isLabelled_iff (sound : p.Sound) {f : SymbolId} : isLabelled p f = true ↔ Labelled p f := by
  have inside {n : NodeId} : n ∈ (p.roots.flatMap p.preorder).filter (p.scope? · == some f) ↔
      p.Reached n ∧ p.scope? n = some f := by
    rw [List.mem_filter, beq_iff_eq, List.mem_flatMap, sound.reached_iff]
    simp only [sound.forest.mem_preorder]
    grind
  simp only [isLabelled, List.all_eq_true, List.any_eq_true, inside, Option.all_eq_true, beq_iff_eq,
    NodeKind.gotoName?_eq_some, NodeKind.labelName?_eq_some, Labelled, and_imp, and_assoc]
  exact ⟨fun all n name reached scope => all n reached scope name,
    fun all n reached scope name => all n name reached scope⟩

/-- If every jump of a function names a label of the function, there is a graph. -/
theorem Graph.exists_of_labelled (tidy : p.Tidy) {f : SymbolId} {d : NodeId} (placed : p.Placed f d)
    (labelled : Labelled p f) : ∃ g, Graph.build p f = .ok g := by
  obtain ⟨_, _, body, kind, found⟩ := tidy.fnBody?_eq placed
  obtain ⟨live, isBlock, _⟩ := tidy.body_of_placed placed found
  cases built : Graph.build p f with
  | ok g => exact ⟨g, rfl⟩
  | error e =>
    obtain ⟨name, bad, _⟩ := (build_eq_error tidy placed found).mp built
    obtain ⟨n, jump, goes⟩ := List.mem_filterMap.mp (List.mem_of_find?_eq_some bad)
    have goto := NodeKind.gotoName?_eq_some.mp goes
    have own := ((tidy.sound.forest.mem_collectOwn live).mp jump).1
    have different : d ≠ n := by
      rintro rfl
      cases kind.symm.trans goto
    obtain ⟨reached, scope⟩ := (tidy.own_iff placed.1 placed.2.1 placed.2.2).mp
      ⟨(own_body kind).trans (NodeKind.not_fnDef_of_block isBlock) own, different⟩
    obtain ⟨m, reachedM, scopeM, label⟩ := labelled n name reached scope goto
    have inside := tidy.own_of_scope placed found reachedM scopeM (by rw [label]; rfl)
      (by simp [label, NodeKind.tag])
    have listed : name ∈ labelNames p body := List.mem_filterMap.mpr
      ⟨m, (tidy.sound.forest.mem_collectOwn live).mpr ⟨inside, by rw [label]; rfl⟩, by rw [label]; rfl⟩
    simpa [listed] using List.find?_some bad

end Flow

end MiddleEnd
