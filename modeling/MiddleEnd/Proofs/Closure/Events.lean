import MiddleEnd.Proofs.Closure.Redirect

/-! What the evaluation of a statement does to captured variables, and which calls it makes, one after
the other. -/

namespace MiddleEnd

/-- What an operand is evaluated for. -/
inductive Mode where
  | value
  /-- Something is stored to it. -/
  | target
  | address
  deriving DecidableEq, Repr

namespace NodeKind

/-- The operands of a construct in the order in which they are evaluated, of a call only the first
`arity`. What stands in the blocks inside is evaluated for itself. -/
def evaluates (arity : Nat) : NodeKind → List (Mode × NodeId)
  | call _ _ args => (args.take arity).map (Mode.value, ·)
  | prim .addrOf args => args.map (Mode.address, ·)
  | prim _ args => args.map (Mode.value, ·)
  | assign target value => [(.value, value), (.target, target)]
  | cond test _ _ => [(.value, test)]
  | loop test _ _ => [(.value, test)]
  | forLoop index iterable _ => [(.value, index), (.value, iterable)]
  | namedArg _ value => [(.value, value)]
  | ret value => value.toList.map (Mode.value, ·)
  | define _ value => value.toList.map (Mode.value, ·)
  | _ => []

variable {k : NodeKind} {arity : Nat} {mode : Mode} {c : NodeId}

theorem evaluates_prim {op : PrimOp} {args : List NodeId} : (prim op args).evaluates arity =
    args.map ((if op = .addrOf then Mode.address else Mode.value), ·) := by
  cases op <;> rfl

theorem child_of_evaluates (member : (mode, c) ∈ k.evaluates arity) : c ∈ k.children := by
  cases k with
  | call callee name args =>
    obtain ⟨d, taken, same⟩ := List.mem_map.mp member
    cases same
    exact List.mem_of_mem_take taken
  | prim op args =>
    rw [evaluates_prim] at member
    obtain ⟨d, there, same⟩ := List.mem_map.mp member
    cases same
    exact there
  | _ => simp_all [evaluates, children] <;> grind

theorem evaluates_nodup (distinct : k.children.Nodup) :
    ((k.evaluates arity).map Prod.snd).Nodup := by
  cases k with
  | call callee name args =>
    rw [evaluates, List.map_map]
    exact (List.map_id'' (fun _ => rfl) _).symm ▸ (List.take_sublist _ _).nodup distinct
  | prim op args =>
    rw [evaluates_prim, List.map_map]
    exact (List.map_id'' (fun _ => rfl) _).symm ▸ distinct
  | ret value => cases value <;> simp [evaluates]
  | define sym value => cases value <;> simp [evaluates]
  | _ => simp_all [evaluates, children, eq_comm]

theorem block_of_evaluates (member : (mode, c) ∈ k.evaluates arity) :
    k.isBlock = false ∧ k.isFnDef = false := by
  cases k <;> simp_all [evaluates, isBlock, isFnDef]

end NodeKind

/-- What stands in the places of the operands is evaluated as they were. -/
theorem Rework.evaluates_kind (w : Rework) (n : NodeId) (k : NodeKind) :
    (w.kind n k).evaluates k.children.length =
      (k.evaluates k.children.length).map (Prod.map id w.swap) := by
  cases k with
  | call callee name args =>
    simp [Rework.kind, NodeKind.evaluates, NodeKind.children, Function.comp_def]
  | prim op args =>
    have kind : w.kind n (.prim op args) = .prim op (args.map w.swap) := rfl
    rw [kind, NodeKind.evaluates_prim, NodeKind.evaluates_prim]
    simp [Function.comp_def]
  | ret value => cases value <;> rfl
  | define sym value => cases value <;> rfl
  | _ => rfl

namespace Closure

open Program

/-- What a name stands for. -/
inductive Meaning where
  | var (v : SymbolId)
  | address (v : SymbolId)
  deriving DecidableEq, Repr

namespace Meaning

def var? : Meaning → Option SymbolId
  | var v => some v
  | address _ => none

def address? : Meaning → Option SymbolId
  | var _ => none
  | address v => some v

end Meaning

/-- One step of an evaluation. -/
inductive Event where
  /-- The reference reads the variable. -/
  | read (ref : NodeId) (v : SymbolId)
  /-- The variable is read through its address. -/
  | load (v : SymbolId)
  | write (v : SymbolId)
  | call (call : NodeId)
  deriving DecidableEq, Repr

/-- What happens to a variable when it is evaluated. -/
def Event.of? (read : SymbolId → Event) : Mode → SymbolId → Option Event
  | .value, v => some (read v)
  | .target, v => some (.write v)
  | .address, _ => none

/-- What a use of a reference evaluates it for. -/
def Use.mode : Use → Mode
  | addressOf _ => .address
  | store => .target
  | read => .value

section

variable (p : Program) (arity : NodeId → Nat) (means : SymbolId → Option Meaning)

/-- What is evaluated for a node, its operands before the node itself, down to a depth. -/
def evaluated : Nat → Mode × NodeId → List (Mode × NodeId)
  | 0, _ => []
  | depth + 1, (mode, n) =>
    ((p.kind n).evaluates (arity n)).flatMap (evaluated depth) ++ [(mode, n)]

/-- The variable that the node is, by its name. -/
def named? (n : NodeId) : Option SymbolId :=
  match p.kind n with
  | .symRef x => (means x).bind Meaning.var?
  | _ => none

/-- The variable of which the node is the address. -/
def addressed? (n : NodeId) : Option SymbolId :=
  match p.kind n with
  | .symRef x => (means x).bind Meaning.address?
  | .prim .addrOf [ref] => named? p means ref
  | _ => none

/-- What a node does after its operands. -/
def event? : Mode × NodeId → Option Event
  | (mode, n) =>
    match p.kind n with
    | .call .. => some (.call n)
    | .symRef _ => (named? p means n).bind (Event.of? (.read n) mode)
    | .prim .deref [a] => (addressed? p means a).bind (Event.of? .load mode)
    | _ => none

/-- What happens down to a depth when a node is evaluated. -/
def happens (depth : Nat) (place : Mode × NodeId) : List Event :=
  (evaluated p arity depth place).filterMap (event? p means)

/-- What happens when a statement is evaluated. -/
def events (n : NodeId) : List Event := happens p arity means (p.nodes.size + 1) (.value, n)

end

variable {p : Program} {arity : NodeId → Nat} {means : SymbolId → Option Meaning} {mode : Mode}
  {n m c S : NodeId} {f : SymbolId}

theorem happens_succ (depth : Nat) (mode : Mode) (n : NodeId) :
    happens p arity means (depth + 1) (mode, n) =
      ((p.kind n).evaluates (arity n)).flatMap (happens p arity means depth) ++
        (event? p means (mode, n)).toList := by
  rw [happens, evaluated, List.filterMap_append, List.filterMap_flatMap]
  cases found : event? p means (mode, n) <;> simp [found] <;> rfl

theorem event?_of_address {x : SymbolId} (ref : p.kind n = .symRef x) :
    event? p means (.address, n) = none := by
  simp [event?, ref, Option.bind_eq_none_iff, Event.of?]

theorem happens_of_silent {x : SymbolId} (ref : p.kind n = .symRef x)
    (silent : event? p means (mode, n) = none) (depth : Nat) :
    happens p arity means depth (mode, n) = [] := by
  cases depth with
  | zero => rfl
  | succ depth =>
    rw [happens_succ, ref, silent]
    rfl

/-! Everything that is evaluated, from the operands up. -/

section

variable (forest : p.Forest)

include forest

theorem above_of_evaluated {depth : Nat} {mode' : Mode} (live : p.Live n)
    (member : (mode', m) ∈ evaluated p arity depth (mode, n)) : p.Above n m := by
  induction depth generalizing mode n with
  | zero => cases member
  | succ depth ih =>
    rw [evaluated, List.mem_append, List.mem_flatMap, List.mem_singleton] at member
    rcases member with ⟨⟨mode₁, c⟩, operand, below⟩ | same
    · have child := NodeKind.child_of_evaluates operand
      exact forest.above_of_child live child (ih (forest.child_live live child) below)
    · cases same
      exact .refl

/-- Nothing is evaluated twice. -/
theorem evaluated_nodup {depth : Nat} (live : p.Live n) :
    ((evaluated p arity depth (mode, n)).map Prod.snd).Nodup := by
  induction depth generalizing mode n with
  | zero => exact List.nodup_nil
  | succ depth ih =>
    have child {mode' : Mode} {c : NodeId} (operand : (mode', c) ∈ (p.kind n).evaluates (arity n)) :
        c ∈ p.children n ∧ p.Live c := by
      have child := NodeKind.child_of_evaluates operand
      exact ⟨child, forest.child_live live child⟩
    have distinct : (((p.kind n).evaluates (arity n)).map Prod.snd).Nodup :=
      NodeKind.evaluates_nodup (forest.children_nodup live)
    rw [evaluated, List.map_append, List.map_flatMap, List.map_singleton, List.nodup_append]
    refine ⟨List.nodup_flatMap.mpr ⟨fun ⟨mode', c⟩ operand => ih (child operand).2, ?_⟩,
      List.nodup_singleton n, ?_⟩
    · rw [List.Nodup, List.pairwise_map] at distinct
      refine distinct.imp_of_mem fun {x y} inX inY different => ?_
      obtain ⟨modeX, x⟩ := x
      obtain ⟨modeY, y⟩ := y
      refine List.disjoint_left.mpr fun m ofX ofY => different ?_
      obtain ⟨⟨_, m'⟩, belowX, rfl⟩ := List.mem_map.mp ofX
      obtain ⟨⟨_, m'⟩, belowY, rfl⟩ := List.mem_map.mp ofY
      exact forest.children_disjoint live (child inX).1 (child inY).1
        (above_of_evaluated forest (child inX).2 belowX)
        (above_of_evaluated forest (child inY).2 belowY)
    · intro m inside other last same
      rw [List.mem_singleton.mp last] at same
      obtain ⟨⟨mode', c⟩, operand, ofC⟩ := List.mem_flatMap.mp inside
      obtain ⟨⟨_, m'⟩, below, rfl⟩ := List.mem_map.mp ofC
      have up := above_of_evaluated forest (child operand).2 below
      simp only at same
      rw [same] at up
      exact forest.child_ne live (child operand).1
        (forest.above_antisymm up (forest.above_of_child live (child operand).1 .refl))

/-- Below a depth that is enough nothing comes any more. -/
theorem evaluated_succ_of_room {depth : Nat} (live : p.Live n)
    (room : p.nodes.size - (p.path n).length < depth) :
    evaluated p arity (depth + 1) (mode, n) = evaluated p arity depth (mode, n) := by
  induction depth generalizing mode n with
  | zero => omega
  | succ depth ih =>
    rw [evaluated, evaluated]
    congr 1
    refine List.flatMap_congr fun ⟨mode', c⟩ operand => ?_
    have child := NodeKind.child_of_evaluates operand
    have closer := forest.room_child live child
    exact ih (forest.child_live live child) (by omega)

theorem events_eq {depth : Nat} (live : p.Live n) (room : p.nodes.size < depth) :
    events p arity means n = happens p arity means depth (.value, n) := by
  obtain ⟨more, rfl⟩ : ∃ more, depth = p.nodes.size + 1 + more :=
    ⟨depth - (p.nodes.size + 1), by omega⟩
  clear room
  induction more with
  | zero => rfl
  | succ more ih =>
    rw [ih, happens, happens, ← Nat.add_assoc, evaluated_succ_of_room forest live (by omega)]

/-- The operands of what is evaluated are evaluated. -/
theorem evaluated_closed {depth : Nat} {mode' mode₁ : Mode} (live : p.Live n)
    (room : p.nodes.size - (p.path n).length < depth)
    (member : (mode', m) ∈ evaluated p arity depth (mode, n))
    (operand : (mode₁, c) ∈ (p.kind m).evaluates (arity m)) :
    (mode₁, c) ∈ evaluated p arity depth (mode, n) := by
  induction depth generalizing mode n with
  | zero => cases member
  | succ depth ih =>
    rw [← evaluated_succ_of_room forest live room, evaluated, List.mem_append, List.mem_flatMap]
    rw [evaluated, List.mem_append, List.mem_flatMap, List.mem_singleton] at member
    rcases member with ⟨⟨mode₂, d⟩, ofN, below⟩ | same
    · have child := NodeKind.child_of_evaluates ofN
      have closer := forest.room_child live child
      have liveD := forest.child_live live child
      have inside := ih liveD (by omega) below
      rw [← evaluated_succ_of_room forest liveD (by omega)] at inside
      exact .inl ⟨_, ofN, inside⟩
    · cases same
      refine .inl ⟨_, operand, ?_⟩
      rw [evaluated, List.mem_append, List.mem_singleton]
      exact .inr rfl

end

/-! What is evaluated for a statement. -/

/-- The node is evaluated for the statement `S` of the function `f`. -/
structure Serves (p : Program) (f : SymbolId) (S : NodeId) (mode : Mode) (n : NodeId) : Prop where
  reached : p.Reached n
  scope : p.scope? n = some f
  found : p.enclosingStmt? n = some S
  mode_eq : (useOf p n).mode = mode

namespace Serves

theorem read (serves : Serves p f S .value n) : useOf p n = .read := by
  have mode := serves.mode_eq
  cases use : useOf p n <;> simp [use, Use.mode] at mode
  rfl

theorem store (serves : Serves p f S .target n) : useOf p n = .store := by
  have mode := serves.mode_eq
  cases use : useOf p n <;> simp [use, Use.mode] at mode
  rfl

theorem addressOf (serves : Serves p f S .address n) : ∃ prim, useOf p n = .addressOf prim := by
  have mode := serves.mode_eq
  cases use : useOf p n <;> simp [use, Use.mode] at mode
  exact ⟨_, rfl⟩

end Serves

theorem mode_of_evaluates {a : Nat} (link : p.parent? c = some n) (distinct : (p.children n).Nodup)
    (operand : (mode, c) ∈ (p.kind n).evaluates a) : (useOf p c).mode = mode := by
  have parent : (p.node c).parent = some n := link
  rw [useOf, parent]
  rw [children] at distinct
  cases kind : p.kind n with
  | call callee name args =>
    rw [kind] at operand
    obtain ⟨d, _, same⟩ := List.mem_map.mp operand
    cases same
    simp [kind, Use.mode]
  | prim op args =>
    rw [kind, NodeKind.evaluates_prim] at operand
    obtain ⟨d, _, same⟩ := List.mem_map.mp operand
    cases same
    cases op <;> simp [kind, Use.mode]
  | assign target value =>
    rw [kind, NodeKind.children] at distinct
    rw [kind] at operand
    simp only [NodeKind.evaluates, List.mem_cons, List.not_mem_nil, or_false] at operand
    rcases operand with same | same
    · cases same
      have other : target ≠ c := by simpa using distinct
      simp [kind, other, Use.mode]
    · cases same
      simp [kind, Use.mode]
  | _ => simp_all [NodeKind.evaluates, Use.mode] <;> grind

theorem serves_statement (standing : p.Standing S) (scope : p.scope? S = some f) (forest : p.Forest) :
    Serves p f S .value S := by
  obtain ⟨reached, b, link, isBlock⟩ := standing
  refine ⟨reached, scope, ?_, ?_⟩
  · rw [forest.enclosingStmt?_of_parent link, isBlock, if_pos rfl]
  · rcases useOf_cases p S with ⟨prim, args, _, here, kind⟩ | ⟨owner, value, _, here, kind⟩ | use
    · cases link.symm.trans here
      rw [kind] at isBlock
      cases isBlock
    · cases link.symm.trans here
      rw [kind] at isBlock
      cases isBlock
    · rw [use, Use.mode]

theorem Serves.operand (serves : Serves p f S mode n) (sound : p.Sound) {a : Nat} {mode' : Mode}
    (operand : (mode', c) ∈ (p.kind n).evaluates a) : Serves p f S mode' c := by
  have live := sound.live_of_reached serves.reached
  have child : c ∈ p.children n := NodeKind.child_of_evaluates operand
  have link := sound.forest.child_parent live child
  obtain ⟨noBlock, noFn⟩ := NodeKind.block_of_evaluates operand
  refine ⟨serves.reached.child child, ?_, ?_,
    mode_of_evaluates link (sound.forest.children_nodup live) operand⟩
  · rw [sound.scope_below serves.reached child, scopeBelow_eq, noFn, if_neg Bool.false_ne_true,
      serves.scope]
  · rw [sound.forest.enclosingStmt?_of_parent link, noBlock, if_neg Bool.false_ne_true, serves.found]

theorem serves_of_evaluated (sound : p.Sound) {depth : Nat} {mode' : Mode}
    (serves : Serves p f S mode n) (member : (mode', m) ∈ evaluated p arity depth (mode, n)) :
    Serves p f S mode' m := by
  induction depth generalizing mode n with
  | zero => cases member
  | succ depth ih =>
    rw [evaluated, List.mem_append, List.mem_flatMap, List.mem_singleton] at member
    rcases member with ⟨⟨mode₁, c⟩, operand, below⟩ | same
    · exact ih (serves.operand sound operand) below
    · cases same
      exact serves

/-- The children of a construct that are no blocks are evaluated with it. -/
theorem evaluates_of_child (tidy : p.Tidy) (live : p.Live n) (child : c ∈ p.children n)
    (noBlock : (p.kind n).isBlock = false) (noFn : (p.kind n).isFnDef = false)
    (plain : (p.kind c).isBlock = false) :
    ∃ mode, (mode, c) ∈ (p.kind n).evaluates (p.children n).length := by
  obtain ⟨slot, member, fits⟩ := tidy.slot_of_child live child
  have other : slot ≠ .block := by
    rintro rfl
    exact Bool.false_ne_true (plain.symm.trans fits)
  rw [children]
  cases kind : p.kind n <;> simp [kind, NodeKind.isBlock, NodeKind.isFnDef] at noBlock noFn <;>
    rw [kind] at member
  case prim op args =>
    rw [NodeKind.evaluates_prim]
    obtain ⟨d, inside, same⟩ := List.mem_map.mp member
    cases same
    exact ⟨_, List.mem_map_of_mem inside⟩
  all_goals simp_all [NodeKind.slots, NodeKind.evaluates, NodeKind.children]
  all_goals grind

/-- Whatever is no block and stands in the statement is evaluated for it. -/
theorem evaluated_of_enclosing (tidy : p.Tidy) (reached : p.Reached n)
    (found : p.enclosingStmt? n = some S) (noFn : (p.kind S).isFnDef = false)
    (plain : (p.kind n).isBlock = false) {depth : Nat} (room : p.nodes.size < depth) :
    ∃ mode', (mode', n) ∈ evaluated p (fun n => (p.children n).length) depth (mode, S) := by
  have sound := tidy.sound
  have forest := sound.forest
  obtain ⟨depth, rfl⟩ : ∃ d, depth = d + 1 := ⟨depth - 1, by omega⟩
  induction reached with
  | root root =>
    rw [forest.enclosingStmt?_of_top (sound.rooted.top_of_root root)] at found
    cases found
  | @child owner n reached child ih =>
    have live := sound.live_of_reached reached
    rw [forest.enclosingStmt?_of_parent (forest.child_parent live child)] at found
    by_cases isBlock : (p.kind owner).isBlock = true
    · rw [if_pos isBlock] at found
      cases found
      exact ⟨mode, by simp [evaluated]⟩
    · rw [if_neg isBlock] at found
      rw [Bool.not_eq_true] at isBlock
      have plainOwner : (p.kind owner).isFnDef = false := by
        -- A function stands in a block, so it would be the statement itself.
        by_contra fnDef
        rw [Bool.not_eq_false] at fnDef
        obtain ⟨b, link, _⟩ := sound.exists_owner reached isBlock
        have isBlock := tidy.block_of_fnDef live link fnDef
        rw [forest.enclosingStmt?_of_parent link, isBlock, if_pos rfl] at found
        cases found
        rw [fnDef] at noFn
        cases noFn
      obtain ⟨mode₁, inside⟩ := ih found isBlock
      obtain ⟨mode', operand⟩ := evaluates_of_child tidy live child isBlock plainOwner plain
      have liveS : p.Live S :=
        forest.live_of_above (forest.enclosingStmt?_eq_some found).1 live
      exact ⟨mode', evaluated_closed forest liveS (by omega) inside operand⟩

end Closure

end MiddleEnd
