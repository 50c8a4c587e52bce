import MiddleEnd.Proofs.Arena.Edits

namespace MiddleEnd.Program

open Outcome

/-- The program `q` differs from `p` only in what references and calls name, in call lists and in
epochs. -/
structure Retarget (p q : Program) : Prop extends SameLinks p q where
  scope (n : NodeId) : q.scope? n = p.scope? n
  tag (n : NodeId) : (q.kind n).tag = (p.kind n).tag
  defines (n : NodeId) : (q.kind n).defines? = (p.kind n).defines?
  modules : q.modules = p.modules
  symbols_size : q.symbols.size = p.symbols.size
  core (s : SymbolId) : (q.symbol s).core = (p.symbol s).core
  symbol_live (s : SymbolId) : (q.symbol s).live = (p.symbol s).live
  registries : q.registries = p.registries

variable {p q : Program}

namespace Retarget

theorem moduleBlock? (change : Retarget p q) (s : SymbolId) : q.moduleBlock? s = p.moduleBlock? s :=
  Symbol.moduleBlock?_of_core (change.core s)

theorem roots (change : Retarget p q) : q.roots = p.roots := by
  rw [Program.roots, change.modules, Program.roots]
  congr 1
  funext s
  exact change.moduleBlock? s

theorem isCall (change : Retarget p q) (n : NodeId) : (q.kind n).isCall = (p.kind n).isCall :=
  NodeKind.isCall_of_tag (change.tag n)

theorem isFnDef (change : Retarget p q) (n : NodeId) :
    (q.kind n).isFnDef = (p.kind n).isFnDef :=
  NodeKind.isFnDef_of_tag (change.tag n)

theorem scopeBelow (change : Retarget p q) (n : NodeId) : q.scopeBelow n = p.scopeBelow n := by
  rw [scopeBelow_eq, scopeBelow_eq, change.isFnDef, change.defines, change.scope]

theorem rooted (change : Retarget p q) (rooted : p.Rooted) : q.Rooted where
  modules_nodup := change.modules ▸ rooted.modules_nodup
  symbol_live {m} member := by
    rw [change.modules] at member
    rw [change.symbol_live]
    exact rooted.symbol_live member
  sort_module {m} member := by
    rw [change.modules] at member
    rw [change.moduleBlock?]
    exact rooted.sort_module member
  root_live {m r} member block := by
    rw [change.modules] at member
    rw [change.moduleBlock?] at block
    exact change.live_iff.mpr (rooted.root_live member block)
  root_top {m r} member block := by
    rw [change.modules] at member
    rw [change.moduleBlock?] at block
    rw [change.parent]
    exact rooted.root_top member block
  root_block {m r} member block := by
    rw [change.modules] at member
    rw [change.moduleBlock?] at block
    rw [NodeKind.isBlock_iff, change.tag, ← NodeKind.isBlock_iff]
    exact rooted.root_block member block
  root_scope {m r} member block := by
    rw [change.modules] at member
    rw [change.moduleBlock?] at block
    rw [change.scope]
    exact rooted.root_scope member block

theorem reached (change : Retarget p q) {n : NodeId} : q.Reached n ↔ p.Reached n :=
  change.reached_iff change.roots

theorem sound (change : Retarget p q) (sound : p.Sound) : q.Sound where
  forest := change.forest sound.forest
  rooted := change.rooted sound.rooted
  scope_below {n c} reached child := by
    rw [change.children] at child
    rw [change.scope, change.scopeBelow]
    exact sound.scope_below (change.reached.mp reached) child
  bound {n s} defines := by
    rw [change.defines] at defines
    rw [Symbol.decl_of_core (change.core s)]
    exact sound.bound defines
  bound_known {n s} defines := by
    rw [change.defines] at defines
    rw [change.symbols_size]
    exact sound.bound_known defines
  bound_local {n s} defines := by
    rw [change.defines] at defines
    rw [change.modules]
    exact sound.bound_local defines
  symbol_live {s} known live := by
    rw [change.symbols_size] at known
    rw [change.symbol_live]
    refine sound.symbol_live known fun n defines => ?_
    exact change.live_iff.mp (live n ((change.defines n).trans defines))
  exact := by
    rw [change.registries]
    exact sound.exact.congr (fun _ => change.reached) change.modules change.isCall change.defines
      fun s => Symbol.sort_of_core (change.core s)

end Retarget

/-- Another kind at a node, with the same children, that defines the same. -/
theorem retarget_setKind {node : NodeId} {kind : NodeKind} (live : p.Live node)
    (children : kind.children = p.children node) (tag : kind.tag = (p.kind node).tag)
    (defines : kind.defines? = (p.kind node).defines?) : Retarget p (p.setKind node kind) where
  size := size_setKind ..
  children n := by
    rw [Program.children, kind_setKind live.known]
    split
    · rename_i same
      rw [same, children]
    · rfl
  parent n := parent?_setKind ..
  live n := live_setKind ..
  scope n := scope?_setKind ..
  tag n := by
    rw [kind_setKind live.known]
    split
    · rename_i same
      rw [same, tag]
    · rfl
  defines n := by
    rw [kind_setKind live.known]
    split
    · rename_i same
      rw [same, defines]
    · rfl
  modules := rfl
  symbols_size := rfl
  core s := rfl
  symbol_live s := rfl
  registries := rfl

/-- New symbols that have the core and the live mark of the old ones. -/
theorem Retarget.of_symbols {t : Program} (change : Retarget p t) (nodes : q.nodes = t.nodes)
    (modules : q.modules = t.modules) (registries : q.registries = t.registries)
    (size : q.symbols.size = t.symbols.size) (core : ∀ s, (q.symbol s).core = (t.symbol s).core)
    (live : ∀ s, (q.symbol s).live = (t.symbol s).live) : Retarget p q where
  size := (congrArg Array.size nodes).trans change.size
  children n := by
    rw [← change.children, Program.children, kind, node_of_nodes nodes]
    rfl
  parent n := by
    rw [← change.parent, parent?, node_of_nodes nodes]
  live n := by
    rw [← change.live, node_of_nodes nodes]
  scope n := by
    rw [← change.scope, scope?, node_of_nodes nodes]
  tag n := by
    rw [← change.tag, kind, node_of_nodes nodes]
    rfl
  defines n := by
    rw [← change.defines, kind, node_of_nodes nodes]
    rfl
  modules := modules.trans change.modules
  symbols_size := size.trans change.symbols_size
  core s := (core s).trans (change.core s)
  symbol_live s := (live s).trans (change.symbol_live s)
  registries := registries.trans change.registries

theorem setRef_eq_ok_iff {node : NodeId} {sym : SymbolId} :
    p.setRef node sym = .ok q ↔ p.Live node ∧ (∃ old, p.kind node = .symRef old) ∧
      q = (p.setKind node (.symRef sym)).touch (p.scope? node) := by
  simp only [setRef, bind_eq_ok_iff, checkLive_eq_ok_iff, exists_const]
  refine and_congr_right fun _ => ?_
  cases p.kind node <;> simp [pure_eq_ok_iff, throw_eq_ok_iff]

theorem setRef_retarget {node : NodeId} {sym : SymbolId} (result : p.setRef node sym = .ok q) :
    Retarget p q := by
  obtain ⟨live, ⟨old, kind⟩, rfl⟩ := setRef_eq_ok_iff.mp result
  have change : Retarget p (p.setKind node (.symRef sym)) :=
    retarget_setKind live (by rw [Program.children, kind]; rfl) (by rw [kind]; rfl)
      (by rw [kind]; rfl)
  refine change.of_symbols (nodes_touch ..) (modules_touch ..) (registries_touch ..)
    (symbols_size_touch ..) (fun s => ?_) fun s => ?_
  · rw [symbol_touch]
    rfl
  · rw [symbol_touch]

theorem setCallee_eq_ok_iff {call : NodeId} {target : Option SymbolId} :
    p.setCallee call target = .ok q ↔ p.Live call ∧
      (∀ f, target = some f → p.hasSymbol f = true ∧ p.isFn f = true) ∧
      ∃ previous name args, p.kind call = .call previous name args ∧
        q = target.elim ((p.setKind call (.call target name args)).dropCaller call previous)
          (((p.setKind call (.call target name args)).dropCaller call previous).addCaller call) := by
  simp only [setCallee, bind_eq_ok_iff, checkLive_eq_ok_iff, exists_const]
  refine and_congr_right fun _ => ?_
  cases target with
  | none => cases p.kind call <;> simp [pure_eq_ok_iff, throw_eq_ok_iff]
  | some f =>
    by_cases known : p.hasSymbol f = true
    · by_cases fn : p.isFn f = true
      · cases p.kind call <;> simp [known, fn, pure_eq_ok_iff, throw_eq_ok_iff]
      · simp [known, fn, bind_eq_ok_iff, throw_eq_ok_iff]
    · simp [known, bind_eq_ok_iff, throw_eq_ok_iff]

/-- The program after a call has been given another target: but for the call itself and the call
lists nothing has changed. -/
structure Resolved (p : Program) (call : NodeId) (target : Option SymbolId) (q : Program) : Prop
    extends Retarget p q where
  kind_of_ne {n : NodeId} : n ≠ call → q.kind n = p.kind n
  kind_call : ∃ previous name args,
    p.kind call = .call previous name args ∧ q.kind call = .call target name args
  mem_callers {f : SymbolId} {c : NodeId} : c ∈ (q.symbol f).callers ↔
    c ∈ (p.symbol f).callers ∧ ¬ (c = call ∧ p.callee? call = some f) ∨ c = call ∧ target = some f

theorem setCallee_resolved {call : NodeId} {target : Option SymbolId}
    (result : p.setCallee call target = .ok q) : Resolved p call target q := by
  obtain ⟨live, targetFn, previous, name, args, kind, equal⟩ := setCallee_eq_ok_iff.mp result
  have change : Retarget p (p.setKind call (.call target name args)) :=
    retarget_setKind live (by rw [Program.children, kind]; rfl) (by rw [kind]; rfl)
      (by rw [kind]; rfl)
  have kinds (n : NodeId) := kind_setKind live.known (.call target name args) n
  have symbols (s : SymbolId) : (p.setKind call (.call target name args)).symbol s = p.symbol s :=
    rfl
  generalize p.setKind call (.call target name args) = t at *
  have dropped (s : SymbolId) := symbol_dropCaller t call previous s
  have nodesU : (t.dropCaller call previous).nodes = t.nodes := by cases previous <;> rfl
  have changeU : Retarget p (t.dropCaller call previous) := by
    refine change.of_symbols nodesU ?_ ?_ ?_ (fun s => (dropped s).1) fun s => (dropped s).2.1
    · cases previous <;> rfl
    · cases previous <;> rfl
    · cases previous with
      | none => rfl
      | some f => exact size_modifySymbol ..
  generalize t.dropCaller call previous = u at *
  have calleeEq : p.callee? call = previous := by
    rw [callee?, kind]
    rfl
  have kindU (n : NodeId) : u.kind n = if n = call then .call target name args else p.kind n := by
    rw [← kinds, Program.kind, node_of_nodes nodesU, Program.kind]
  have whole : Retarget p q ∧ q.nodes = u.nodes ∧ ∀ f c, c ∈ (q.symbol f).callers ↔
      c ∈ (u.symbol f).callers ∨ c = call ∧ target = some f := by
    cases target with
    | none =>
      cases equal
      exact ⟨changeU, rfl, by simp⟩
    | some g =>
      have fn : u.isFn g = true := by
        rw [isFn, Symbol.isFn_of_core (changeU.core g)]
        exact (targetFn g rfl).2
      have added (s : SymbolId) := symbol_addCaller fn call s
      rw [Option.elim_some] at equal
      subst equal
      refine ⟨changeU.of_symbols rfl rfl rfl (size_modifySymbol ..) (fun s => (added s).1)
        fun s => (added s).2.1, rfl, fun f c => ?_⟩
      rw [(added f).2.2, Option.some.injEq]
  obtain ⟨changeQ, nodesQ, callersQ⟩ := whole
  have kindQ (n : NodeId) : q.kind n = if n = call then .call target name args else p.kind n := by
    rw [← kindU, Program.kind, node_of_nodes nodesQ, Program.kind]
  refine { changeQ with
    kind_of_ne := fun different => by rw [kindQ, if_neg different]
    kind_call := ⟨previous, name, args, kind, by rw [kindQ, if_pos rfl]⟩
    mem_callers := fun {f c} => ?_ }
  rw [callersQ, (dropped f).2.2, symbols, calleeEq]

end MiddleEnd.Program
