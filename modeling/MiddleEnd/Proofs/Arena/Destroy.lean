import MiddleEnd.Proofs.Arena.Entries
import MiddleEnd.Proofs.Arena.Subtree

namespace MiddleEnd

/-- A kind of symbol without the calls that it lists. -/
def SymbolKind.bare : SymbolKind → SymbolKind
  | fn data => fn { data with calledBy := [] }
  | kind => kind

namespace Symbol

/-- What no edit of the tree changes in a symbol: all but its calls, its live mark and its epoch. -/
def core (s : Symbol) : Symbol := { s with kind := s.kind.bare, live := true, epoch := 0 }

/-- The calls that a function lists. -/
def callers (s : Symbol) : List NodeId := (s.fnData?.map FnData.calledBy).getD []

variable {s t : Symbol}

theorem core_eq_iff : s.core = t.core ↔
    s.name = t.name ∧ s.kind.bare = t.kind.bare ∧ s.ty = t.ty ∧ s.decl = t.decl ∧
      s.flags = t.flags := by
  simp [core]

theorem decl_of_core (same : s.core = t.core) : s.decl = t.decl :=
  (core_eq_iff.mp same).2.2.2.1

theorem bare_of_core (same : s.core = t.core) : s.kind.bare = t.kind.bare :=
  (core_eq_iff.mp same).2.1

theorem sort_bare (kind : SymbolKind) : kind.bare.sort = kind.sort := by cases kind <;> rfl

theorem sort_of_core (same : s.core = t.core) : s.kind.sort = t.kind.sort := by
  rw [← sort_bare, bare_of_core same, sort_bare]

theorem isFn_iff : s.isFn = true ↔ s.kind.sort = .fn := by
  unfold isFn fnData?
  cases s.kind <;> simp [SymbolKind.sort]

theorem isFn_of_core (same : s.core = t.core) : s.isFn = t.isFn := by
  rw [Bool.eq_iff_iff, isFn_iff, isFn_iff, sort_of_core same]

theorem isValue_iff : s.isValue = true ↔ s.kind.sort = .var ∨ s.kind.sort = .arg := by
  unfold isValue
  cases s.kind <;> simp [SymbolKind.sort]

theorem isValue_of_core (same : s.core = t.core) : s.isValue = t.isValue := by
  rw [Bool.eq_iff_iff, isValue_iff, isValue_iff, sort_of_core same]

theorem moduleBlock?_of_core (same : s.core = t.core) : s.moduleBlock? = t.moduleBlock? := by
  have bare (u : Symbol) : u.moduleBlock? = u.core.moduleBlock? := by
    simp only [moduleBlock?, core]
    cases u.kind <;> rfl
  rw [bare s, same, ← bare]

theorem core_mapFnData (s : Symbol) (f : List NodeId → List NodeId) :
    (s.mapFnData fun data => { data with calledBy := f data.calledBy }).core = s.core := by
  unfold mapFnData core
  cases kind : s.kind <;> simp [SymbolKind.bare, kind]

theorem live_mapFnData (s : Symbol) (f : FnData → FnData) : (s.mapFnData f).live = s.live := by
  unfold mapFnData
  split <;> rfl

theorem callers_mapFnData (s : Symbol) (f : List NodeId → List NodeId) :
    (s.mapFnData fun data => { data with calledBy := f data.calledBy }).callers =
      if s.isFn then f s.callers else [] := by
  unfold mapFnData callers isFn fnData?
  cases kind : s.kind <;> simp [kind]

theorem callers_of_not_fn (other : s.isFn = false) : s.callers = [] := by
  rw [isFn, Option.isSome_eq_false_iff, Option.isNone_iff_eq_none] at other
  simp [callers, other]

end Symbol

namespace Program

/-- The program `q` is `p` after the nodes of a list have been destroyed, each with the symbol that
it defines and its place on the call list of its callee. -/
structure Destroyed (p : Program) (ids : List NodeId) (q : Program) : Prop where
  modules : q.modules = p.modules
  registries : q.registries = p.registries
  size : q.nodes.size = p.nodes.size
  symbols_size : q.symbols.size = p.symbols.size
  node (n : NodeId) : q.node n = if n ∈ ids then { p.node n with live := false } else p.node n
  core (s : SymbolId) : (q.symbol s).core = (p.symbol s).core
  symbol_live (s : SymbolId) : (q.symbol s).live = true ↔
    (p.symbol s).live = true ∧ ∀ n ∈ ids, (p.kind n).defines? ≠ some s
  callers (f : SymbolId) (c : NodeId) : c ∈ (q.symbol f).callers ↔
    c ∈ (p.symbol f).callers ∧ ¬ (c ∈ ids ∧ (p.kind c).callee? = some f)

variable {p q r : Program}

namespace Destroyed

theorem nil : Destroyed p [] p := by
  constructor <;> simp

theorem kind {ids : List NodeId} (destroyed : Destroyed p ids q) (n : NodeId) :
    q.kind n = p.kind n := by
  rw [Program.kind, destroyed.node]
  split <;> rfl

theorem trans {first second : List NodeId} (left : Destroyed p first q)
    (right : Destroyed q second r) : Destroyed p (first ++ second) r where
  modules := right.modules.trans left.modules
  registries := right.registries.trans left.registries
  size := right.size.trans left.size
  symbols_size := right.symbols_size.trans left.symbols_size
  node n := by
    rw [right.node, left.node]
    by_cases early : n ∈ first <;> by_cases late : n ∈ second <;> simp [early, late]
  core s := (right.core s).trans (left.core s)
  symbol_live s := by
    rw [right.symbol_live, left.symbol_live, and_assoc, List.forall_mem_append]
    simp only [left.kind]
  callers f c := by
    rw [right.callers, left.callers, and_assoc, left.kind, List.mem_append, or_and_right, not_or]

end Destroyed

/-- Taking a call off the list of its callee changes nothing else in any symbol. -/
theorem symbol_dropCaller (p : Program) (call : NodeId) (callee : Option SymbolId) (s : SymbolId) :
    ((p.dropCaller call callee).symbol s).core = (p.symbol s).core ∧
      ((p.dropCaller call callee).symbol s).live = (p.symbol s).live ∧
      ∀ c, c ∈ ((p.dropCaller call callee).symbol s).callers ↔
        c ∈ (p.symbol s).callers ∧ ¬ (c = call ∧ callee = some s) := by
  cases callee with
  | none => simp [dropCaller]
  | some f =>
    simp only [dropCaller, symbol_modifySymbol]
    split
    · rename_i here
      obtain ⟨rfl, _⟩ := here
      refine ⟨Symbol.core_mapFnData .., Symbol.live_mapFnData .., fun c => ?_⟩
      rw [Symbol.callers_mapFnData]
      cases fn : (p.symbol s).isFn with
      | true => simp
      | false => simp [Symbol.callers_of_not_fn fn]
    · rename_i elsewhere
      refine ⟨rfl, rfl, fun c => ⟨fun listed => ⟨listed, ?_⟩, And.left⟩⟩
      rintro ⟨rfl, same⟩
      cases same
      have unknown : p.symbols.size ≤ s.index := by simpa using elsewhere
      rw [symbol_of_not_known unknown] at listed
      simp [Symbol.absent, Symbol.callers, Symbol.fnData?] at listed

/-- Putting a call on the list of a function changes nothing else in any symbol. -/
theorem symbol_addCaller {f : SymbolId} (fn : p.isFn f = true) (call : NodeId) (s : SymbolId) :
    ((p.addCaller call f).symbol s).core = (p.symbol s).core ∧
      ((p.addCaller call f).symbol s).live = (p.symbol s).live ∧
      ∀ c, c ∈ ((p.addCaller call f).symbol s).callers ↔
        c ∈ (p.symbol s).callers ∨ c = call ∧ f = s := by
  unfold isFn at fn
  simp only [addCaller, symbol_modifySymbol]
  split
  · rename_i here
    obtain ⟨rfl, _⟩ := here
    refine ⟨Symbol.core_mapFnData _ (Registries.insertNew · call), Symbol.live_mapFnData ..,
      fun c => ?_⟩
    rw [Symbol.callers_mapFnData _ (Registries.insertNew · call), if_pos fn,
      Registries.mem_insertNew]
    simp
  · rename_i elsewhere
    refine ⟨rfl, rfl, fun c => ⟨.inl, ?_⟩⟩
    rintro (listed | ⟨rfl, rfl⟩)
    · exact listed
    · have unknown : p.symbols.size ≤ f.index := by simpa using elsewhere
      rw [symbol_of_not_known unknown] at fn
      cases fn

/-- Clears the live mark of a symbol, if there is one. -/
def retire (p : Program) : Option SymbolId → Program
  | some sym => p.modifySymbol sym fun s => { s with live := false }
  | none => p

theorem destroyNode_spec (p : Program) (id : NodeId) : Destroyed p [id] (p.destroyNode id) := by
  let first := p.dropCaller id (p.kind id).callee?
  let second := first.retire (p.kind id).defines?
  have result : p.destroyNode id = second.modifyNode id fun node => { node with live := false } :=
    rfl
  have nodes1 : first.nodes = p.nodes := by
    simp only [first, dropCaller]
    split <;> rfl
  have nodes2 : second.nodes = p.nodes := by
    simp only [second, retire]
    split
    · exact nodes1
    · exact nodes1
  have node2 (n : NodeId) : second.node n = p.node n := by rw [node, nodes2, node]
  have symbol1 (s : SymbolId) := symbol_dropCaller p id (p.kind id).callee? s
  have symbol2 (s : SymbolId) : (second.symbol s).core = (first.symbol s).core ∧
      (second.symbol s).callers = (first.symbol s).callers ∧
      ((second.symbol s).live = true ↔
        (first.symbol s).live = true ∧ (p.kind id).defines? ≠ some s) := by
    simp only [second, retire]
    cases defines : (p.kind id).defines? with
    | none => simp
    | some sym =>
      simp only [symbol_modifySymbol]
      split
      · rename_i here
        obtain ⟨rfl, _⟩ := here
        exact ⟨rfl, rfl, by simp⟩
      · rename_i elsewhere
        refine ⟨rfl, rfl, fun live => ⟨live, ?_⟩, And.left⟩
        intro same
        cases same
        exact elsewhere ⟨rfl, symbol_known_of_live live⟩
  rw [result]
  constructor
  case modules =>
    simp only [modifyNode, second, first, retire, dropCaller]
    split <;> split <;> rfl
  case registries =>
    simp only [modifyNode, second, first, retire, dropCaller]
    split <;> split <;> rfl
  case size => rw [size_modifyNode, nodes2]
  case symbols_size =>
    simp only [modifyNode, second, first, retire, dropCaller]
    split <;> split <;> simp
  case node =>
    intro n
    rw [node_modifyNode, node2, nodes2]
    by_cases same : n = id
    · subst same
      by_cases known : n.index < p.nodes.size
      · simp [known]
      · simp [known, node_of_not_known (Nat.not_lt.mp known), Node.absent]
    · simp [same]
  case core => exact fun s => (symbol2 s).1.trans (symbol1 s).1
  case symbol_live =>
    intro s
    rw [symbol_modifyNode, (symbol2 s).2.2, (symbol1 s).2.1]
    simp
  case callers =>
    intro f c
    rw [symbol_modifyNode, (symbol2 f).2.1, (symbol1 f).2.2]
    refine and_congr_right fun _ => not_congr ⟨?_, ?_⟩
    · rintro ⟨rfl, callee⟩
      exact ⟨List.mem_singleton_self _, callee⟩
    · rintro ⟨same, callee⟩
      cases List.mem_singleton.mp same
      exact ⟨rfl, callee⟩

theorem foldl_destroyNode_spec (ids : List NodeId) (p : Program) :
    Destroyed p ids (ids.foldl destroyNode p) := by
  induction ids generalizing p with
  | nil => exact .nil
  | cons id ids ih => exact (destroyNode_spec p id).trans (ih _)

theorem destroy_spec (p : Program) (root : NodeId) :
    Destroyed p (p.preorder root) (p.destroy root) :=
  foldl_destroyNode_spec _ _

end Program

end MiddleEnd
