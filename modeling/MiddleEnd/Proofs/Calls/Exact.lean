import MiddleEnd.Proofs.Arena.Upright
import MiddleEnd.Proofs.Calls.Sites
import MiddleEnd.Proofs.Surface.Lowering

/-! What computing the call lists leaves, entry by entry, whatever the lists held before. -/

namespace MiddleEnd

/-- A call with another target; anything else stays as it is. -/
def NodeKind.withCallee (target : Option SymbolId) : NodeKind → NodeKind
  | .call _ name args => .call target name args
  | k => k

namespace NodeKind

variable {k : NodeKind} {target : Option SymbolId}

@[simp] theorem children_withCallee : (k.withCallee target).children = k.children := by
  cases k <;> rfl

@[simp] theorem tag_withCallee : (k.withCallee target).tag = k.tag := by
  cases k <;> rfl

@[simp] theorem defines?_withCallee : (k.withCallee target).defines? = k.defines? := by
  cases k <;> rfl

theorem withCallee_callee? : k.withCallee k.callee? = k := by
  cases k <;> rfl

end NodeKind

namespace Symbol

variable {s : Symbol} {ids ids' : List NodeId}

/-- A function with another call list; any other symbol stays as it is. -/
def withCallers (s : Symbol) (ids : List NodeId) : Symbol :=
  s.mapFnData fun data => { data with calledBy := ids }

theorem mapFnData_eq_withCallers (f : List NodeId → List NodeId) :
    (s.mapFnData fun data => { data with calledBy := f data.calledBy }) =
      s.withCallers (f s.callers) := by
  unfold withCallers mapFnData callers fnData?
  cases kind : s.kind <;> rfl

@[simp] theorem withCallers_withCallers : (s.withCallers ids).withCallers ids' = s.withCallers ids' := by
  unfold withCallers mapFnData
  cases kind : s.kind <;> simp [kind]

@[simp] theorem withCallers_callers : s.withCallers s.callers = s := by
  obtain ⟨name, kind, ty, decl, flags, live, epoch⟩ := s
  cases kind <;> rfl

theorem core_withCallers : (s.withCallers ids).core = s.core := core_mapFnData s fun _ => ids

theorem live_withCallers : (s.withCallers ids).live = s.live := live_mapFnData ..

theorem withCallers_of_not_fn (other : s.isFn = false) : s.withCallers ids = s := by
  unfold isFn fnData? at other
  unfold withCallers mapFnData
  cases kind : s.kind <;> simp [kind] at other ⊢

theorem callers_withCallers (fn : s.isFn = true) : (s.withCallers ids).callers = ids := by
  rw [withCallers, callers_mapFnData s fun _ => ids, if_pos fn]

end Symbol

/-- Programs with the same entries are one. -/
theorem Program.eq_of_entries {p q : Program} (size : q.nodes.size = p.nodes.size)
    (node : ∀ n, q.node n = p.node n) (symbols_size : q.symbols.size = p.symbols.size)
    (symbol : ∀ s, q.symbol s = p.symbol s) (modules : q.modules = p.modules)
    (registries : q.registries = p.registries) : q = p := by
  have nodes : q.nodes = p.nodes := by
    refine Array.ext size fun i here there => ?_
    have same := node ⟨i⟩
    unfold Program.node at same
    simpa [here, there] using same
  have symbols : q.symbols = p.symbols := by
    refine Array.ext symbols_size fun i here there => ?_
    have same := symbol ⟨i⟩
    unfold Program.symbol at same
    simpa [here, there] using same
  cases q
  cases p
  simp_all

/-- Taking a call off the list of a function and putting it there again moves it to the end. -/
theorem Program.symbol_rebound {p : Program} {c : NodeId} {f : SymbolId} {previous : Option SymbolId}
    (fn : p.isFn f = true)
    (listed : previous = some f ∨ previous = none ∧ c ∉ (p.symbol f).callers) (s : SymbolId) :
    ((p.dropCaller c previous).addCaller c f).symbol s =
      if s = f then (p.symbol s).withCallers ((p.symbol s).callers.filter (· != c) ++ [c])
      else p.symbol s := by
  have known := known_of_isFn fn
  have dropped : (p.dropCaller c previous).symbols.size = p.symbols.size ∧
      (p.dropCaller c previous).symbol s =
        if s = f then (p.symbol s).withCallers ((p.symbol s).callers.filter (· != c))
        else p.symbol s := by
    rcases listed with rfl | ⟨rfl, new⟩
    · refine ⟨size_modifySymbol .., ?_⟩
      rw [dropCaller, symbol_modifySymbol]
      by_cases same : s = f
      · rw [if_pos ⟨same, known⟩, if_pos same,
          Symbol.mapFnData_eq_withCallers fun ids => ids.filter (· != c)]
      · rw [if_neg fun both => same both.1, if_neg same]
    · refine ⟨rfl, ?_⟩
      rw [dropCaller]
      split
      · rename_i same
        have all : (p.symbol s).callers.filter (· != c) = (p.symbol s).callers := by
          refine List.filter_eq_self.mpr fun d member => ?_
          rw [bne_iff_ne]
          rintro rfl
          exact new (same ▸ member)
        rw [all, Symbol.withCallers_callers]
      · rfl
  rw [addCaller, symbol_modifySymbol, dropped.1, dropped.2]
  by_cases same : s = f
  · subst same
    have fnS : (p.symbol s).isFn = true := fn
    rw [if_pos ⟨rfl, known⟩, if_pos rfl, if_pos rfl,
      Symbol.mapFnData_eq_withCallers fun ids => Registries.insertNew ids c,
      Symbol.withCallers_withCallers, Symbol.callers_withCallers fnS, Registries.insertNew, if_neg]
    simp
  · rw [if_neg fun both => same both.1, if_neg same, if_neg same]

namespace Calls

open Outcome Program

variable {p q : Program} {w : Workspace} {done : List NodeId}

/-- The function that a call is bound to: the one it has, or else the one that its name stands for. -/
def target? (p : Program) (call : NodeId) : Option SymbolId :=
  match p.kind call with
  | .call none name _ => (resolve p call name).toOption
  | k => k.callee?

/-- What is said of a call that cannot be bound. -/
def complaint? (p : Program) (call : NodeId) : Option Diagnostic :=
  match p.kind call with
  | .call none name _ =>
    match resolve p call name with
    | .ok _ => none
    | .error e => some e.diagnostic
  | _ => none

section

variable {c : NodeId} {name : String} {args : List NodeId}

theorem target?_of_named (kind : p.kind c = .call none name args) :
    target? p c = (resolve p c name).toOption := by
  rw [target?, kind]

theorem complaint?_of_named (kind : p.kind c = .call none name args) :
    complaint? p c = match resolve p c name with
      | .ok _ => none
      | .error e => some e.diagnostic := by
  rw [complaint?, kind]

theorem target?_of_callee {f : SymbolId} (callee : p.callee? c = some f) : target? p c = some f := by
  rw [callee?] at callee
  unfold target?
  split
  · rename_i kind
    rw [kind] at callee
    cases callee
  · exact callee

end

/-- The call list of a function once the calls of `done` have been entered: the registered functions
began anew, the others with what they had. -/
def listAfter (p : Program) (done : List NodeId) (f : SymbolId) : List NodeId :=
  ((if f ∈ p.registries.fns then [] else (p.symbol f).callers).filter fun c =>
    !(done.contains c && target? p c == some f)) ++ done.filter (target? p · == some f)

/-- A call goes to the end of its target's list. -/
theorem listAfter_append {c : NodeId} (new : c ∉ done) (f : SymbolId) :
    listAfter p (done ++ [c]) f =
      if target? p c = some f then (listAfter p done f).filter (· != c) ++ [c]
      else listAfter p done f := by
  have others : (done.filter (target? p · == some f)).filter (· != c) =
      done.filter (target? p · == some f) := by
    refine List.filter_eq_self.mpr fun d member => ?_
    simp only [bne_iff_ne]
    rintro rfl
    exact new (List.mem_of_mem_filter member)
  unfold listAfter
  generalize (if f ∈ p.registries.fns then [] else (p.symbol f).callers) = before
  split
  · rename_i here
    rw [List.filter_append, List.filter_append, others, List.filter_filter, List.append_assoc]
    congr 1
    · refine List.filter_congr fun d _ => ?_
      by_cases same : d = c
      · subst same
        simp [here]
      · simp [same]
    · simp [here]
  · rename_i elsewhere
    rw [List.filter_append]
    congr 1
    · refine List.filter_congr fun d _ => ?_
      by_cases same : d = c
      · subst same
        simp [elsewhere]
      · simp [same]
    · simp [elsewhere]

/-- The program after the calls of `done` have been entered. -/
structure Entered (p : Program) (done : List NodeId) (q : Program) : Prop where
  node (n : NodeId) : q.node n =
    if n ∈ done then { p.node n with kind := (p.kind n).withCallee (target? p n) } else p.node n
  size : q.nodes.size = p.nodes.size
  symbol (s : SymbolId) : q.symbol s = (p.symbol s).withCallers (listAfter p done s)
  symbols_size : q.symbols.size = p.symbols.size
  modules : q.modules = p.modules
  registries : q.registries = p.registries

namespace Entered

theorem kind (entered : Entered p done q) (n : NodeId) :
    q.kind n = if n ∈ done then (p.kind n).withCallee (target? p n) else p.kind n := by
  rw [Program.kind, entered.node]
  split <;> rfl

theorem span (entered : Entered p done q) (n : NodeId) : q.span n = p.span n := by
  rw [Program.span, entered.node, Program.span]
  split <;> rfl

theorem retarget (entered : Entered p done q) : Retarget p q where
  size := entered.size
  children n := by
    rw [children, entered.kind, children]
    split <;> simp
  parent n := by
    rw [parent?, entered.node]
    split <;> rfl
  live n := by
    rw [entered.node]
    split <;> rfl
  scope n := by
    rw [scope?, entered.node]
    split <;> rfl
  tag n := by
    rw [entered.kind]
    split <;> simp
  defines n := by
    rw [entered.kind]
    split <;> simp
  modules := entered.modules
  symbols_size := entered.symbols_size
  core s := by rw [entered.symbol, Symbol.core_withCallers]
  symbol_live s := by rw [entered.symbol, Symbol.live_withCallers]
  registries := entered.registries

theorem name (entered : Entered p done q) (s : SymbolId) : q.name s = p.name s :=
  (Symbol.core_eq_iff.mp (entered.retarget.core s)).1

/-- Entering calls changes nothing of what names stand for. -/
theorem resolve_eq (entered : Entered p done q) (c : NodeId) (name : String) :
    resolve q c name = resolve p c name := by
  have same : candidates q name = candidates p name := by
    unfold candidates
    rw [entered.registries]
    simp only [entered.name, entered.retarget.declaringFn?]
  have names : q.name = p.name := funext entered.name
  have scope : (q.node c).scope = (p.node c).scope := entered.retarget.scope c
  unfold resolve
  rw [same, entered.span, scope, names]

theorem callers (entered : Entered p done q) {f : SymbolId} (fn : p.isFn f = true) :
    (q.symbol f).callers = listAfter p done f := by
  rw [entered.symbol, Symbol.callers_withCallers fn]

end Entered

/-- Before the first call is entered, the registered functions have no calls. -/
theorem entered_start (p : Program) : Entered p [] (p.registries.fns.foldl clearCallers p) := by
  have cleared (fs : List SymbolId) (t : Program) :
      (fs.foldl clearCallers t).nodes = t.nodes ∧
      (fs.foldl clearCallers t).symbols.size = t.symbols.size ∧
      (fs.foldl clearCallers t).modules = t.modules ∧
      (fs.foldl clearCallers t).registries = t.registries ∧
      ∀ s, (fs.foldl clearCallers t).symbol s =
        if s ∈ fs then (t.symbol s).withCallers [] else t.symbol s := by
    induction fs generalizing t with
    | nil => exact ⟨rfl, rfl, rfl, rfl, fun s => rfl⟩
    | cons f fs ih =>
      obtain ⟨nodes, size, modules, registries, symbol⟩ := ih (clearCallers t f)
      refine ⟨nodes, size.trans (size_modifySymbol ..), modules, registries, fun s => ?_⟩
      have one : (clearCallers t f).symbol s =
          if s = f then (t.symbol s).withCallers [] else t.symbol s := by
        rw [clearCallers, symbol_modifySymbol]
        by_cases same : s = f
        · by_cases known : f.index < t.symbols.size
          · rw [if_pos ⟨same, known⟩, if_pos same]
            rfl
          · rw [if_neg fun both => known both.2, if_pos same, same,
              symbol_of_not_known (Nat.not_lt.mp known)]
            rfl
        · rw [if_neg fun both => same both.1, if_neg same]
      rw [List.foldl_cons, symbol, one]
      by_cases same : s = f <;> by_cases later : s ∈ fs <;> simp [same, later]
  obtain ⟨nodes, size, modules, registries, symbol⟩ := cleared p.registries.fns p
  exact
    { node := fun n => by simpa using node_of_nodes nodes n
      size := congrArg Array.size nodes
      symbol := fun s => by
        rw [symbol, listAfter]
        split <;> simp
      symbols_size := size
      modules := modules
      registries := registries }

/-- Binding a call to its target enters it. -/
theorem Entered.bound (entered : Entered p done q) {c : NodeId} {f : SymbolId} (new : c ∉ done)
    (live : p.Live c) (isCall : (p.kind c).isCall = true) (fn : p.isFn f = true)
    (target : target? p c = some f)
    (known : p.callee? c = some f ∨ p.callee? c = none ∧ f ∈ p.registries.fns) :
    ∃ q', q.setCallee c (some f) = .ok q' ∧ Entered p (done ++ [c]) q' := by
  have change := entered.retarget
  have fnQ : q.isFn f = true := (change.isFn f).trans fn
  have same : q.kind c = p.kind c := by rw [entered.kind, if_neg new]
  obtain ⟨previous, name, args, kind⟩ := NodeKind.exists_of_isCall isCall
  have callee : p.callee? c = previous := by rw [callee?, kind]; rfl
  refine ⟨_, setCallee_eq_ok_iff.mpr ⟨(change.live c).trans live, ?_, previous, name, args,
    same.trans kind, rfl⟩, ?_⟩
  · rintro _ ⟨⟩
    exact ⟨hasSymbol_iff.mpr (known_of_isFn fnQ), fnQ⟩
  have listed : previous = some f ∨
      previous = none ∧ c ∉ (q.symbol f).callers := by
    rcases known with resolved | ⟨unresolved, registered⟩
    · exact .inl (callee.symm.trans resolved)
    · refine .inr ⟨callee.symm.trans unresolved, ?_⟩
      rw [entered.callers fn, listAfter, if_pos registered]
      simp [new]
  have symbol (s : SymbolId) := symbol_rebound
    (p := q.setKind c (.call (some f) name args)) fnQ listed s
  have nodes : ((q.setKind c (.call (some f) name args)).dropCaller c previous).nodes =
      (q.setKind c (.call (some f) name args)).nodes := by
    cases previous <;> rfl
  exact
    { node := fun n => by
        have knownQ : c.index < q.nodes.size := (change.live_iff.mpr live).known
        rw [Option.elim_some, addCaller, node_modifySymbol, node_of_nodes nodes, setKind,
          node_modifyNode, entered.node]
        by_cases same : n = c
        · subst same
          simp [new, knownQ, kind, target, NodeKind.withCallee]
        · simp [same]
      size := by
        rw [Option.elim_some, addCaller]
        show ((q.setKind c (.call (some f) name args)).dropCaller c previous).nodes.size = _
        rw [nodes, size_setKind, entered.size]
      symbol := fun s => by
        rw [Option.elim_some, symbol, listAfter_append new]
        by_cases same : s = f
        · subst same
          rw [if_pos rfl, if_pos target]
          show (q.symbol s).withCallers ((q.symbol s).callers.filter (· != c) ++ [c]) = _
          rw [entered.callers fn, entered.symbol, Symbol.withCallers_withCallers]
        · have other : target? p c ≠ some s := by
            rw [target]
            exact fun equal => same (Option.some.inj equal).symm
          rw [if_neg same, if_neg other]
          exact entered.symbol s
      symbols_size := by
        rw [Option.elim_some, addCaller, size_modifySymbol, ← entered.symbols_size]
        cases previous with
        | none => rfl
        | some g => exact size_modifySymbol ..
      modules := by
        rw [← entered.modules]
        cases previous <;> rfl
      registries := by
        rw [← entered.registries]
        cases previous <;> rfl }

/-- A call without a target leaves everything as it was. -/
theorem Entered.unbound (entered : Entered p done q) {c : NodeId} (new : c ∉ done)
    (target : target? p c = none) (callee : p.callee? c = none) : Entered p (done ++ [c]) q where
  node n := by
    rw [entered.node]
    by_cases same : n = c
    · subst same
      have stays : (p.node n).kind.withCallee none = (p.node n).kind := by
        rw [callee?] at callee
        rw [← callee]
        exact NodeKind.withCallee_callee?
      simp [new, target, Program.kind, stays]
    · simp [same]
  size := entered.size
  symbol s := by rw [listAfter_append new, if_neg (by simp [target]), entered.symbol]
  symbols_size := entered.symbols_size
  modules := entered.modules
  registries := entered.registries

/-- What has been counted once the calls of `done` have been entered. -/
def tally (p : Program) (done : List NodeId) : SiteStats where
  calls := done.length
  lateBound := done.countP fun c => (p.callee? c).isNone && (target? p c).isSome
  unresolved := done.countP fun c => (target? p c).isNone

/-- How far the run is once the calls of `done` have been entered. -/
structure Progress (w : Workspace) (done : List NodeId) (stats : SiteStats) (t : Workspace) : Prop where
  entered : Entered w.program done t.program
  diagnostics : t.diagnostics =
    (done.filterMap (complaint? w.program)).foldl Diagnostics.emit w.diagnostics
  stats : stats = tally w.program done

theorem ends_bind_of_ok {call : NodeId} {f : SymbolId} {Q : Unit → Workspace → Prop}
    {E : Workspace → Prop} (result : w.program.setCallee call (some f) = .ok q)
    (done : Q () (w.withProgram q)) : Ends (bind call f) w Q E := by
  unfold Calls.bind
  refine Ends.get_bind ?_
  rw [result]
  exact Ends.set done

/-- A call that is entered is bound, or it is reported and left alone. -/
theorem computeSite_progress {c : NodeId} {stats : SiteStats} {t : Workspace}
    (before : Progress w done stats t) (new : c ∉ done) (live : w.program.Live c)
    (isCall : (w.program.kind c).isCall = true)
    (functions : ∀ f ∈ w.program.registries.fns, w.program.isFn f = true)
    (callee : ∀ f, w.program.callee? c = some f → w.program.isFn f = true) :
    Ends (computeSite stats c) t (Progress w (done ++ [c])) fun _ => False := by
  have entered := before.entered
  have same : t.program.kind c = w.program.kind c := by rw [entered.kind, if_neg new]
  obtain ⟨previous, name, args, kind⟩ := NodeKind.exists_of_isCall isCall
  have calleeEq : w.program.callee? c = previous := by rw [callee?, kind]; rfl
  unfold computeSite
  refine Ends.get_bind ?_
  rw [same, kind]
  cases previous with
  | some f =>
    have target := target?_of_callee calleeEq
    have quiet : complaint? w.program c = none := by rw [complaint?, kind]
    obtain ⟨q, result, next⟩ := entered.bound new live isCall (callee f calleeEq) target
      (.inl calleeEq)
    refine Ends.bind (ends_bind_of_ok result (Q := fun _ u => u = t.withProgram q) rfl) ?_
    rintro _ _ rfl
    refine Ends.pure ⟨next, ?_, ?_⟩
    · simp [List.filterMap_append, quiet, Workspace.withProgram, before.diagnostics]
    · simp [before.stats, tally, calleeEq, target]
  | none =>
    simp only
    rw [entered.resolve_eq]
    cases resolved : resolve w.program c name with
    | ok f =>
      have target : target? w.program c = some f := by rw [target?_of_named kind, resolved]; rfl
      have quiet : complaint? w.program c = none := by rw [complaint?_of_named kind, resolved]
      have registered := (resolve_eq_ok resolved).1
      obtain ⟨q, result, next⟩ := entered.bound new live isCall (functions f registered) target
        (.inr ⟨calleeEq, registered⟩)
      refine Ends.bind (ends_bind_of_ok result (Q := fun _ u => u = t.withProgram q) rfl) ?_
      rintro _ _ rfl
      refine Ends.pure ⟨next, ?_, ?_⟩
      · simp [List.filterMap_append, quiet, Workspace.withProgram, before.diagnostics]
      · simp [before.stats, tally, calleeEq, target]
    | error e =>
      have target : target? w.program c = none := by rw [target?_of_named kind, resolved]; rfl
      have report : complaint? w.program c = some e.diagnostic := by
        rw [complaint?_of_named kind, resolved]
      refine Ends.bind (Ends.set (Q := fun _ u => u = t.emit e.diagnostic) rfl) ?_
      rintro _ _ rfl
      refine Ends.pure ⟨entered.unbound new target calleeEq, ?_, ?_⟩
      · simp [List.filterMap_append, report, Workspace.emit, before.diagnostics]
      · simp [before.stats, tally, calleeEq, target]

theorem isFn_of_listed (sound : p.Sound) {f : SymbolId} (listed : f ∈ p.registries.fns) :
    p.isFn f = true := by
  have entry : f ∈ p.registries.entries .fn := listed
  exact Symbol.isFn_iff.mpr ((sound.exact.mem_entries).mp entry).2

/-- Computing the call lists succeeds once every call that has a target has a function. -/
theorem computeSites_progress (sound : w.program.Sound)
    (functions : ∀ c ∈ w.program.registries.calls, ∀ f,
      w.program.callee? c = some f → w.program.isFn f = true) :
    ∃ stats v, computeSites w = .ok stats v ∧ Progress w w.program.registries.calls stats v := by
  refine Ends.exists_ok ?_
  unfold computeSites
  refine Ends.bind (Ends.modified (Q := fun _ t =>
    t = w.withProgram (w.program.registries.fns.foldl clearCallers w.program)) rfl) ?_
  rintro _ _ rfl
  refine Ends.get_bind ?_
  have start := entered_start w.program
  have calls : (w.withProgram (w.program.registries.fns.foldl clearCallers
      w.program)).program.registries.calls = w.program.registries.calls :=
    congrArg Registries.calls start.registries
  rw [calls]
  refine (Ends.foldlM (I := fun rest stats t => ∃ done,
    done ++ rest = w.program.registries.calls ∧ Progress w done stats t) ?_ ?_).mono ?_ fun _ => id
  · exact ⟨[], rfl, start, rfl, rfl⟩
  · rintro c rest stats t ⟨done, whole, before⟩
    have member : c ∈ w.program.registries.calls := by
      rw [← whole]
      exact List.mem_append_right _ (List.mem_cons_self ..)
    have distinct := sound.exact.distinct.calls
    rw [← whole] at distinct
    have new : c ∉ done := fun again =>
      (List.nodup_append.mp distinct).2.2 c again c (List.mem_cons_self ..) rfl
    obtain ⟨reached, isCall⟩ := sound.exact.mem_calls.mp member
    refine (computeSite_progress before new (sound.live_of_reached reached) isCall
      (fun f => isFn_of_listed sound) (functions c member)).mono (fun stats t next => ?_) fun _ => id
    exact ⟨done ++ [c], by rw [List.append_assoc]; exact whole, next⟩
  · rintro stats t ⟨done, whole, progress⟩
    rw [List.append_nil] at whole
    exact whole ▸ progress

/-! What the run leaves. -/

theorem eq_singleton_iff {α : Type} {xs : List α} (distinct : xs.Nodup) {a : α} :
    xs = [a] ↔ a ∈ xs ∧ ∀ b ∈ xs, b = a := by
  constructor
  · rintro rfl
    simp
  · rintro ⟨member, only⟩
    have all := List.eq_replicate_of_mem only
    rw [all, List.nodup_replicate] at distinct
    rw [all] at member ⊢
    rw [Nat.le_antisymm distinct (Nat.pos_of_ne_zero fun none => by simp [none] at member)]
    rfl

/-- A name stands for a function that no other function declares if no other such function has it. -/
theorem resolve_eq_ok_iff (sound : p.Sound) {c : NodeId} {name : String} {f : SymbolId} :
    resolve p c name = .ok f ↔ (f ∈ p.registries.fns ∧ p.name f = name ∧ p.declaringFn? f = none) ∧
      ∀ g ∈ p.registries.fns, p.name g = name → p.declaringFn? g = none → g = f := by
  have mem_candidates (g : SymbolId) : g ∈ candidates p name ↔
      g ∈ p.registries.fns ∧ p.name g = name ∧ p.declaringFn? g = none := by
    simp [candidates]
  have single : resolve p c name = .ok f ↔ candidates p name = [f] := by
    unfold resolve
    split
    · rename_i only equal
      rw [equal]
      simp
    · rename_i none
      rw [none]
      simp
    · rename_i many _
      exact ⟨nofun, fun equal => (many f equal).elim⟩
  have distinct : (candidates p name).Nodup := (sound.exact.distinct.entries .fn).filter _
  rw [single, eq_singleton_iff distinct, mem_candidates]
  simp only [mem_candidates, and_imp]

theorem isFn_of_target (sound : p.Sound) {c : NodeId} {f : SymbolId}
    (functions : ∀ f, p.callee? c = some f → p.isFn f = true) (target : target? p c = some f) :
    p.isFn f = true := by
  unfold target? at target
  split at target
  · rename_i name args kind
    cases resolved : resolve p c name with
    | error e =>
      rw [resolved] at target
      cases target
    | ok g =>
      rw [resolved] at target
      cases target
      exact isFn_of_listed sound (resolve_eq_ok resolved).1
  · exact functions f target

namespace Entered

theorem callee (entered : Entered p done q) {c : NodeId} (member : c ∈ done)
    (isCall : (p.kind c).isCall = true) : q.callee? c = target? p c := by
  rw [callee?, entered.kind, if_pos member]
  cases kind : p.kind c <;> rw [kind] at isCall <;> cases isCall
  rfl

/-- A call that has been entered without a target would not get one now either. -/
theorem target (entered : Entered p done q) {c : NodeId} (member : c ∈ done)
    (isCall : (p.kind c).isCall = true) : target? q c = q.callee? c := by
  have callee := entered.callee member isCall
  cases found : target? p c with
  | some f => rw [callee, found, target?_of_callee (callee.trans found)]
  | none =>
    rw [callee, found]
    obtain ⟨previous, name, args, kind⟩ := NodeKind.exists_of_isCall isCall
    cases previous with
    | some f =>
      have known : p.callee? c = some f := by rw [callee?, kind]; rfl
      rw [target?_of_callee known] at found
      cases found
    | none =>
      have kindQ : q.kind c = .call none name args := by
        rw [entered.kind, if_pos member, found, kind]
        rfl
      rw [target?_of_named kindQ, entered.resolve_eq, ← target?_of_named kind, found]

/-- The list of a registered function holds the calls of it in the order in which they were entered. -/
theorem callers_of_registered (entered : Entered p done q)
    (calls : ∀ c ∈ done, (p.kind c).isCall = true) (sound : p.Sound) {f : SymbolId}
    (registered : f ∈ p.registries.fns) :
    (q.symbol f).callers = done.filter fun c => q.callee? c == some f := by
  rw [entered.callers (isFn_of_listed sound registered), listAfter, if_pos registered,
    List.filter_nil, List.nil_append]
  exact List.filter_congr fun c member => by rw [entered.callee member (calls c member)]

end Entered

/-- Computing the lists anew where they have just been computed changes nothing. -/
theorem Entered.again {r : Program} (entered : Entered p done q) (next : Entered q done r)
    (calls : ∀ c ∈ done, (p.kind c).isCall = true) : r = q := by
  have nodes (n : NodeId) : r.node n = q.node n := by
    rw [next.node]
    split
    · rename_i member
      have stays : (q.node n).kind.withCallee (target? q n) = (q.node n).kind := by
        rw [entered.target member (calls n member)]
        exact NodeKind.withCallee_callee?
      rw [Program.kind, stays]
    · rfl
  have same {c : NodeId} (member : c ∈ done) : target? q c = target? p c :=
    (entered.target member (calls c member)).trans (entered.callee member (calls c member))
  have symbols (s : SymbolId) : r.symbol s = q.symbol s := by
    rw [next.symbol]
    cases fn : p.isFn s with
    | false =>
      have other : q.isFn s = false := (entered.retarget.isFn s).trans fn
      exact Symbol.withCallers_of_not_fn other
    | true =>
      suffices settled : listAfter q done s = (q.symbol s).callers by
        rw [settled, Symbol.withCallers_callers]
      have bound : done.filter (target? q · == some s) = done.filter (target? p · == some s) :=
        List.filter_congr fun c member => by rw [same member]
      have left (c : NodeId) : (!(done.contains c && target? q c == some s)) =
          !(done.contains c && target? p c == some s) := by
        by_cases member : c ∈ done
        · rw [same member]
        · simp [member]
      have twice : (done.filter (target? p · == some s)).filter
          (fun c => !(done.contains c && target? p c == some s)) = [] := by
        simp only [List.filter_filter, List.filter_eq_nil_iff]
        intro c member
        simp [member]
      rw [listAfter, bound, entered.registries, entered.callers fn]
      simp only [left]
      unfold listAfter
      split
      · simp
      · rw [List.filter_append, twice, List.filter_filter, List.append_nil]
        simp only [Bool.and_self]
  exact eq_of_entries next.size nodes next.symbols_size symbols next.modules next.registries

/-- The verifier finds fault with the lists only where they name what cannot be reached or does not
call. -/
theorem staleCallSite_not_mem_verify (sound : p.Sound)
    (callers : ∀ f ∈ p.registries.fns, ∀ c ∈ (p.symbol f).callers,
      p.Reached c ∧ p.callee? c = some f) (f : SymbolId) (c : NodeId) :
    .staleCallSite f c ∉ p.verify := by
  intro found
  have survey : .staleCallSite f c ∉ (p.modules.foldl p.surveyModule {}).violations :=
    fun inside => nomatch staleCallSite_of_foldl_surveyModule inside
  simp only [verify, List.mem_append] at found
  rcases found with (inside | registry) | stale
  · exact survey inside
  · split at registry <;> simp at registry
  · obtain ⟨g, registered, here⟩ := List.mem_flatMap.mp stale
    have clean := staleCallSites_eq_nil_iff.mpr fun data found d member => by
      have listed : d ∈ (p.symbol g).callers := by
        rw [Symbol.callers, found]
        exact member
      obtain ⟨reached, callee⟩ := callers g registered d listed
      exact ⟨mem_foldl_surveyModule (fun _ => sound.live_of_reached) reached, callee⟩
    rw [clean] at here
    cases here

theorem brokenSites_eq_nil
    (listed : ∀ c ∈ p.registries.calls, ∀ f, p.callee? c = some f → c ∈ (p.symbol f).callers)
    (called : ∀ f ∈ p.registries.fns, ∀ c ∈ (p.symbol f).callers, p.callee? c = some f) :
    brokenSites p = [] := by
  unfold brokenSites
  refine List.append_eq_nil_iff.mpr ⟨List.filterMap_eq_nil_iff.mpr fun c member => ?_,
    List.flatMap_eq_nil_iff.mpr fun f member => ?_⟩
  · cases callee : p.callee? c with
    | none => rfl
    | some f =>
      have here := listed c member f callee
      unfold Symbol.callers at here
      cases found : (p.symbol f).fnData? with
      | none => simp [found] at here
      | some data => simpa [found] using here
  · cases found : (p.symbol f).fnData? with
    | none => rfl
    | some data =>
      simp only [List.map_eq_nil_iff, List.filter_eq_nil_iff, bne_iff_ne, ne_eq, not_not]
      intro c here
      refine called f member c ?_
      rw [Symbol.callers, found]
      exact here

theorem items_emitted (found : List Diagnostic) (ds : Diagnostics) :
    (found.foldl Diagnostics.emit ds).items =
      ds.items ++ found.map fun d => { d with pass := d.pass <|> ds.currentPass } := by
  induction found generalizing ds with
  | nil => simp
  | cons d found ih => rw [List.foldl_cons, ih]; simp [Diagnostics.emit]

/-- The diagnostic is about the call and stops the run. -/
def Reports (p : Program) (c : NodeId) (d : Diagnostic) : Prop :=
  d.severity = .error ∧ d.span = p.span c

theorem complaint?_of_target {c : NodeId} {f : SymbolId} (isCall : (p.kind c).isCall = true)
    (target : target? p c = some f) : complaint? p c = none := by
  obtain ⟨previous, name, args, kind⟩ := NodeKind.exists_of_isCall isCall
  cases previous with
  | some g => rw [complaint?, kind]
  | none =>
    rw [target?_of_named kind] at target
    rw [complaint?_of_named kind]
    cases resolved : resolve p c name with
    | ok g => rfl
    | error e =>
      rw [resolved] at target
      cases target

theorem exists_complaint {c : NodeId} (isCall : (p.kind c).isCall = true)
    (unbound : target? p c = none) : ∃ d, complaint? p c = some d ∧ Reports p c d := by
  obtain ⟨previous, name, args, kind⟩ := NodeKind.exists_of_isCall isCall
  cases previous with
  | some f =>
    rw [target?_of_callee (show p.callee? c = some f by rw [callee?, kind]; rfl)] at unbound
    cases unbound
  | none =>
    rw [target?_of_named kind] at unbound
    rw [complaint?_of_named kind]
    cases resolved : resolve p c name with
    | ok f =>
      rw [resolved] at unbound
      cases unbound
    | error e =>
      refine ⟨_, rfl, ?_⟩
      unfold resolve at resolved
      split at resolved <;> cases resolved <;> exact ⟨rfl, rfl⟩

/-- There is one complaint for each call that stays without a target, in their order. -/
theorem complaints_report {ids : List NodeId} (calls : ∀ c ∈ ids, (p.kind c).isCall = true) :
    List.Forall₂ (Reports p) (ids.filter fun c => (target? p c).isNone)
      (ids.filterMap (complaint? p)) := by
  induction ids with
  | nil => exact .nil
  | cons c ids ih =>
    obtain ⟨isCall, calls⟩ := List.forall_mem_cons.mp calls
    have rest := ih calls
    cases target : target? p c with
    | some f =>
      rwa [List.filter_cons_of_neg (by simp [target]),
        List.filterMap_cons_none (complaint?_of_target isCall target)]
    | none =>
      obtain ⟨d, complaint, reports⟩ := exists_complaint isCall target
      rw [List.filter_cons_of_pos (by simp [target]), List.filterMap_cons_some complaint]
      exact .cons reports rest

/-- Where nothing has been reported that stops a run, every call has a target. -/
theorem Progress.resolved {stats : SiteStats} {v : Workspace} (sound : w.program.Sound)
    (progress : Progress w w.program.registries.calls stats v)
    (passed : v.diagnostics.shouldAbort = false) :
    ∀ c ∈ v.program.registries.calls, (v.program.callee? c).isSome = true := by
  intro c member
  rw [progress.entered.registries] at member
  have isCall := (sound.exact.mem_calls.mp member).2
  rw [progress.entered.callee member isCall, Option.isSome_iff_ne_none]
  intro unbound
  obtain ⟨d, complaint, severity, _⟩ := exists_complaint isCall unbound
  have reported := List.mem_filterMap.mpr ⟨c, member, complaint⟩
  rw [progress.diagnostics, Diagnostics.shouldAbort, items_emitted, List.any_eq_false] at passed
  exact passed _ (List.mem_append_right _ (List.mem_map_of_mem reported)) (by simp [severity])

/-- A second run begins where a first one has ended. -/
theorem Progress.again {stats : SiteStats} {v : Workspace} (sound : w.program.Sound)
    (functions : ∀ c ∈ w.program.registries.calls, ∀ f,
      w.program.callee? c = some f → w.program.isFn f = true)
    (progress : Progress w w.program.registries.calls stats v) (ds : Diagnostics) :
    ∃ again u, computeSites { program := v.program, diagnostics := ds } = .ok again u ∧
      u.program = v.program ∧ again.lateBound = 0 ∧ again.unresolved = stats.unresolved := by
  have entered := progress.entered
  have calls (c : NodeId) (member : c ∈ w.program.registries.calls) :
      (w.program.kind c).isCall = true := (sound.exact.mem_calls.mp member).2
  have same : v.program.registries.calls = w.program.registries.calls :=
    congrArg Registries.calls entered.registries
  obtain ⟨again, u, result, next⟩ := computeSites_progress
    (w := { program := v.program, diagnostics := ds }) (entered.retarget.sound sound) (by
      intro c member f callee
      replace member : c ∈ w.program.registries.calls := same ▸ member
      have target := (entered.callee member (calls c member)).symm.trans callee
      rw [entered.retarget.isFn]
      exact isFn_of_target sound (functions c member) target)
  have settled := next.entered
  rw [show ({ program := v.program, diagnostics := ds } : Workspace).program = v.program from rfl,
    same] at settled
  refine ⟨again, u, result, entered.again settled calls, ?_, ?_⟩
  · rw [next.stats]
    refine List.countP_eq_zero.mpr fun c member => ?_
    replace member : c ∈ w.program.registries.calls := same ▸ member
    show ¬ ((v.program.callee? c).isNone && (target? v.program c).isSome) = true
    rw [entered.target member (calls c member)]
    cases v.program.callee? c <;> simp
  · rw [next.stats, progress.stats]
    show v.program.registries.calls.countP _ = _
    rw [same]
    refine List.countP_congr fun c member => ?_
    rw [entered.target member (calls c member), entered.callee member (calls c member)]

/-- What a run from `w` to `v` has made of the calls and the lists. -/
structure Recomputed (w : Workspace) (stats : SiteStats) (v : Workspace) : Prop where
  registries : v.program.registries = w.program.registries
  /-- A registered function lists the calls of it in the order of the registry. -/
  lists : ∀ f ∈ v.program.registries.fns, (v.program.symbol f).callers =
    v.program.registries.calls.filter fun c => v.program.callee? c == some f
  unbroken : brokenSites v.program = []
  fresh : ∀ f c, .staleCallSite f c ∉ v.program.verify
  kept : ∀ c ∈ w.program.registries.calls, ∀ f,
    w.program.callee? c = some f → v.program.callee? c = some f
  /-- A call without a target gets the only function that no other declares under its name. -/
  bound : ∀ c ∈ w.program.registries.calls, ∀ name args, w.program.kind c = .call none name args →
    ∀ f, v.program.callee? c = some f ↔
      (f ∈ w.program.registries.fns ∧ w.program.name f = name ∧ w.program.declaringFn? f = none) ∧
      ∀ g ∈ w.program.registries.fns, w.program.name g = name → w.program.declaringFn? g = none →
        g = f
  /-- Every call that stays without one is reported once. -/
  reported : ∃ reports, v.diagnostics.items = w.diagnostics.items ++ reports ∧
    List.Forall₂ (Reports w.program)
      (w.program.registries.calls.filter fun c => (v.program.callee? c).isNone) reports
  calls : stats.calls = w.program.registries.calls.length
  lateBound : stats.lateBound = w.program.registries.calls.countP fun c =>
    (w.program.callee? c).isNone && (v.program.callee? c).isSome
  unresolved : stats.unresolved =
    w.program.registries.calls.countP fun c => (v.program.callee? c).isNone

/-- Computing the call lists of a sound program succeeds once every call that has a target has a
function, whatever the lists held before, and computing them again changes nothing. -/
theorem computeSites_exact (sound : w.program.Sound)
    (functions : ∀ c ∈ w.program.registries.calls, ∀ f,
      w.program.callee? c = some f → w.program.isFn f = true) :
    ∃ stats v, computeSites w = .ok stats v ∧ Recomputed w stats v ∧
      ∀ ds, ∃ again u, computeSites { program := v.program, diagnostics := ds } = .ok again u ∧
        u.program = v.program ∧ again.lateBound = 0 ∧ again.unresolved = stats.unresolved := by
  obtain ⟨stats, v, result, progress⟩ := computeSites_progress sound functions
  have entered := progress.entered
  have reached {c : NodeId} (member : c ∈ w.program.registries.calls) :=
    sound.exact.mem_calls.mp member
  have calls (c : NodeId) (member : c ∈ w.program.registries.calls) := (reached member).2
  have callee {c : NodeId} (member : c ∈ w.program.registries.calls) :=
    entered.callee member (calls c member)
  have lists {f : SymbolId} (registered : f ∈ v.program.registries.fns) :
      (v.program.symbol f).callers =
        v.program.registries.calls.filter fun c => v.program.callee? c == some f := by
    rw [entered.registries] at registered ⊢
    exact entered.callers_of_registered calls sound registered
  have listed {f : SymbolId} (registered : f ∈ v.program.registries.fns) {c : NodeId}
      (member : c ∈ (v.program.symbol f).callers) :
      v.program.Reached c ∧ v.program.callee? c = some f := by
    rw [lists registered, entered.registries] at member
    obtain ⟨call, callee⟩ := List.mem_filter.mp member
    exact ⟨entered.retarget.reached.mpr (reached call).1, beq_iff_eq.mp callee⟩
  refine ⟨stats, v, result, ?_, progress.again sound functions⟩
  constructor
  case registries => exact entered.registries
  case lists => exact fun f => lists
  case unbroken =>
    refine brokenSites_eq_nil (fun c member f bound => ?_) fun f registered c member =>
      (listed registered member).2
    rw [entered.registries] at member
    have target := (callee member).symm.trans bound
    rw [entered.callers (isFn_of_target sound (functions c member) target), listAfter]
    exact List.mem_append_right _ (List.mem_filter.mpr ⟨member, beq_iff_eq.mpr target⟩)
  case fresh =>
    exact staleCallSite_not_mem_verify (entered.retarget.sound sound)
      fun f registered c => listed registered
  case kept => exact fun c member f known => (callee member).trans (target?_of_callee known)
  case bound =>
    intro c member name args kind f
    rw [callee member, target?_of_named kind, ← resolve_eq_ok_iff sound (c := c)]
    cases resolve w.program c name <;> simp [Except.toOption]
  case reported =>
    refine ⟨_, by rw [progress.diagnostics, items_emitted], ?_⟩
    have same : (w.program.registries.calls.filter fun c => (v.program.callee? c).isNone) =
        w.program.registries.calls.filter fun c => (target? w.program c).isNone :=
      List.filter_congr fun c member => by rw [callee member]
    rw [same, List.forall₂_map_right_iff]
    exact complaints_report calls
  case calls => rw [progress.stats, tally]
  case lateBound =>
    rw [progress.stats, tally]
    exact List.countP_congr fun c member => by rw [callee member]
  case unresolved =>
    rw [progress.stats, tally]
    exact List.countP_congr fun c member => by rw [callee member]

/-- A call by the name of a variable gets the function that has the name at module level, although the
variable is nearer. -/
example : (Surface.ProgramTree.lower { modules := [{ name := "m", items := [
    .fn .nowhere "h" [] none .value [] [],
    .fn .nowhere "f" [] none .value [] [.var .nowhere "h" (some "int") none [],
      .expr .nowhere (.call "h" [])]] }] }).toOption.bind (fun p =>
        match computeSites { program := p } with
        | .ok stats v => some (p.registries.calls.map p.callee?, stats,
            v.program.registries.calls.map v.program.callee?)
        | .error .. => none) =
      some ([none], { calls := 1, lateBound := 1, unresolved := 0 }, [some ⟨1⟩]) := by
  decide +kernel

/-- Two modules. The one calls its own function, a function of the other by name alone, and one that
is nowhere. -/
def scatteredTree : Surface.ProgramTree where
  modules := [
    { name := "main", items := [
      .fn .nowhere "own" [] none .value [] [],
      .fn .nowhere "use" [] none .value [] [
        .expr .nowhere (.call "helper" []), .expr .nowhere (.call "own" []),
        .expr .nowhere (.call "missing" [])]] },
    { name := "lib", items := [.fn .nowhere "helper" [] none .value [] []] }]

/-- Its program, in which one function lists a node that is no call. -/
@[irreducible] def staleProgram : Program :=
  (scatteredTree.lower.toOption.getD .empty).modifySymbol ⟨1⟩ (·.withCallers [⟨0⟩])

theorem retarget_withCallers (p : Program) (f : SymbolId) (ids : List NodeId) :
    Retarget p (p.modifySymbol f (·.withCallers ids)) := by
  have symbol (s : SymbolId) : ((p.modifySymbol f (·.withCallers ids)).symbol s).core =
      (p.symbol s).core ∧
      ((p.modifySymbol f (·.withCallers ids)).symbol s).live = (p.symbol s).live := by
    rw [symbol_modifySymbol]
    split
    · exact ⟨Symbol.core_withCallers, Symbol.live_withCallers⟩
    · exact ⟨rfl, rfl⟩
  exact Retarget.refl.of_symbols rfl rfl rfl (size_modifySymbol ..) (fun s => (symbol s).1)
    fun s => (symbol s).2

theorem staleProgram_sound : staleProgram.Sound := by
  unfold staleProgram
  have success : scatteredTree.lower.toOption.isSome = true := by decide +kernel
  have lowered := Surface.ProgramTree.lowered (Surface.ProgramTree.lower_eq_ok success)
  exact (retarget_withCallers ..).sound lowered.1.sound

theorem staleProgram_functions : ∀ c ∈ staleProgram.registries.calls, ∀ f,
    staleProgram.callee? c = some f → staleProgram.isFn f = true := by
  have fit : ∀ c ∈ staleProgram.registries.calls,
      (staleProgram.callee? c).all staleProgram.isFn = true := by decide +kernel
  intro c member f callee
  have here := fit c member
  rwa [callee] at here

/-- A list that is wrong, a call with a target, one that gets one and one that gets none. -/
theorem staleProgram_recomputed :
    (staleProgram.symbol ⟨1⟩).callers = [⟨0⟩] ∧
    staleProgram.registries.calls.map staleProgram.callee? = [none, some ⟨1⟩, none] ∧
    staleProgram.Sound ∧
    (∀ c ∈ staleProgram.registries.calls, ∀ f,
      staleProgram.callee? c = some f → staleProgram.isFn f = true) ∧
    ∃ stats v, computeSites { program := staleProgram } = .ok stats v ∧
      Recomputed { program := staleProgram } stats v ∧
      ∀ ds, ∃ again u, computeSites { program := v.program, diagnostics := ds } = .ok again u ∧
        u.program = v.program ∧ again.lateBound = 0 ∧ again.unresolved = stats.unresolved :=
  ⟨by decide +kernel, by decide +kernel, staleProgram_sound, staleProgram_functions,
    computeSites_exact (w := { program := staleProgram }) staleProgram_sound staleProgram_functions⟩

end Calls

end MiddleEnd
