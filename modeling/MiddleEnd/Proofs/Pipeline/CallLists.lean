import MiddleEnd.Pipeline.Pass
import MiddleEnd.Proofs.Surface.Linked
import MiddleEnd.Proofs.Surface.Tracked

/-! Whatever is done to a lowered program, each function lists live calls of its own, each once. -/

namespace MiddleEnd

open Outcome Program

variable {p q : Program}

namespace Calls

theorem bind_preserves (call : NodeId) (target : SymbolId) :
    Preserves (fun w : Workspace => w.program.Tracked) (bind call target) :=
  ⟨fun tracked => ends_bind (fun _ result => tracked.setCallee result) tracked⟩

theorem computeSite_preserves (stats : SiteStats) (call : NodeId) :
    Preserves (fun w : Workspace => w.program.Tracked) (computeSite stats call) where
  ends {w} tracked := by
    unfold computeSite
    refine Ends.get_bind ?_
    split
    · exact ((bind_preserves ..).bind fun _ => .pure _).ends tracked
    · split
      · exact ((bind_preserves ..).bind fun _ => .pure _).ends tracked
      · exact Ends.bind (Ends.set (Q := fun _ w => w.program.Tracked) tracked) fun _ _ kept =>
          Ends.pure kept
    · exact Ends.pure tracked

theorem computeSites_preserves : Preserves (fun w : Workspace => w.program.Tracked) computeSites := by
  refine (Preserves.modified fun w tracked => ?_).bind fun _ => Preserves.get.bind fun w =>
    .foldlM computeSite_preserves _ _
  show (w.program.registries.fns.foldl clearCallers w.program).Tracked
  generalize w.program.registries.fns = fs
  generalize w.program = p at tracked
  induction fs generalizing p with
  | nil => exact tracked
  | cons f fs ih => exact ih _ (tracked.clearCallers f)

end Calls

namespace Closure

open TransformM

theorem addRef_tracked (sym : SymbolId) (span : Span) : Preserves Tracked (build (·.addRef sym span)) :=
  preserves_build fun _ => (quiet_addNode ..).tracked

theorem addNode_tracked (kind : NodeKind) (span : Span) :
    Preserves Tracked (build (·.addNode kind span)) :=
  preserves_build fun _ => (quiet_addNode ..).tracked

theorem addTemp_tracked (ty : Ty) : Preserves Tracked (build (·.addTemp ty)) :=
  preserves_build fun _ => (quiet_addSymbol rfl).tracked

theorem addDefinition_tracked (sym : SymbolId) (value : Option NodeId) (span : Span) :
    Preserves Tracked (build (·.addDefinition sym value span)) :=
  preserves_build fun _ => (quiet_addNode ..).tracked

/-- An edit that is asked for keeps the call lists in order. -/
theorem request_tracked (request : Request) : Preserves Tracked (edit request.outcome) :=
  preserves_edit fun tracked result => tracked.request result

theorem attachFlag_tracked (s : SymbolId) (flag : Flag) :
    Preserves Tracked (modify (·.attachFlag s flag) : TransformM Unit) :=
  .modified fun _ => (relabel_attachFlag s flag).quiet.tracked

theorem supplyTemp_preserves (anchor : NodeId) (ty : Ty) (init : NodeId) (span : Span) :
    Preserves Tracked (supplyTemp anchor ty init span) :=
  (addTemp_tracked ty).bind fun temp => (addDefinition_tracked temp (some init) span).bind fun d =>
    (request_tracked (.insertBefore anchor d)).bind fun _ => addRef_tracked temp span

theorem supply_preserves (anchor : NodeId) (span : Span) (actual : Actual) :
    Preserves Tracked (supply anchor span actual) := by
  cases actual with
  | direct var => exact (addRef_tracked var span).bind fun _ => .pure _
  | addressOf var =>
    refine Preserves.get.bind fun p => (addRef_tracked var span).bind fun ref => ?_
    refine (addNode_tracked (.prim .addrOf [ref]) span).bind fun address => ?_
    exact (supplyTemp_preserves ..).bind fun _ => .pure _
  | copy var =>
    refine Preserves.get.bind fun p => (addRef_tracked var span).bind fun ref => ?_
    exact (supplyTemp_preserves ..).bind fun _ => .pure _

theorem extendCall_preserves (plan : CallPlan) : Preserves Tracked (extendCall plan) := by
  refine Preserves.get.bind fun p => ?_
  split
  · exact .throw _
  · refine Preserves.bind (.mapM (fun actual => ?_) _) fun _ => .pure _
    exact (supply_preserves ..).bind fun (arg, _) =>
      (request_tracked (.append plan.call arg)).bind fun _ => .pure _

theorem throughRef_preserves (f : SymbolId) (ref : NodeId) (formal : SymbolId) :
    Preserves Tracked (throughRef f ref formal) := by
  refine Preserves.get.bind fun p => (addRef_tracked ..).bind fun formalRef => ?_
  have deref (span : Span) : Preserves Tracked (derefOf formalRef span) := addNode_tracked ..
  split
  · rename_i prim _
    exact request_tracked (.replace prim formalRef)
  · exact (deref _).bind fun d => request_tracked (.replace ref d)
  · refine (deref _).bind fun d => Preserves.get.bind fun p => ?_
    dsimp only
    split
    · exact request_tracked (.replace ref d)
    · rename_i stmt _
      refine (addTemp_tracked _).bind fun temp => (addDefinition_tracked ..).bind fun tempDef => ?_
      refine (request_tracked (.insertBefore stmt tempDef)).bind fun _ => ?_
      exact (addRef_tracked ..).bind fun tempRef => request_tracked (.replace ref tempRef)

theorem redirect_preserves (f formal : SymbolId) (asItIs : NodeId → Bool) (ref : NodeId) :
    Preserves Tracked (redirect f formal asItIs ref) := by
  refine Preserves.get.bind fun p => ?_
  split
  · split
    · exact request_tracked (.setRef ref formal)
    · exact throughRef_preserves ..
  · exact .pure _

theorem captureVar_preserves (f : SymbolId) (fnDef : NodeId) (passedOn : List NodeId) (var : SymbolId) :
    Preserves Tracked (captureVar f fnDef passedOn var) := by
  refine Preserves.get.bind fun p => ?_
  refine (preserves_build fun _ => (quiet_addSymbol rfl).tracked).bind fun formal => ?_
  refine (addDefinition_tracked ..).bind fun formalDef => ?_
  refine (request_tracked (.append fnDef formalDef)).bind fun _ => ?_
  refine (attachFlag_tracked ..).bind fun _ => Preserves.get.bind fun p => ?_
  exact .forM (fun ref => redirect_preserves ..) _

theorem extendFunction_preserves (captures : Captures) (passedOn : List NodeId) (f : SymbolId) :
    Preserves Tracked (extendFunction captures passedOn f) := by
  refine Preserves.get.bind fun p => ?_
  split
  · exact .pure _
  · exact .forM (fun var => captureVar_preserves ..) _

theorem moveBefore_preserves (anchor node : NodeId) : Preserves Tracked (moveBefore anchor node) :=
  (request_tracked (.detach node)).bind fun _ => request_tracked (.insertBefore anchor node)

theorem relocate_preserves (m : Move) : Preserves Tracked (relocate m) := by
  refine (moveBefore_preserves ..).bind fun _ => (attachFlag_tracked ..).bind fun _ => ?_
  refine Preserves.get.bind fun p => ?_
  split
  · exact .pure _
  · exact (Preserves.forM (moveBefore_preserves m.fnDef) _).bind fun _ => .pure _

theorem flatten_preserves : Preserves Tracked flatten := by
  refine Preserves.get.bind fun p => ?_
  split
  · rename_i error _
    exact Preserves.throw (TransformError.flatten error)
  · dsimp only
    split
    · exact .pure _
    · split
      · exact .throw _
      · rename_i captures _ plans _
        refine Preserves.bind ((Preserves.mapM extendCall_preserves plans).bind fun passedOn => ?_) fun _ => ?_
        · exact .forM (fun f => extendFunction_preserves ..) _
        · exact Preserves.get.bind fun p => (Preserves.mapM relocate_preserves _).bind fun _ => .pure _

end Closure

namespace Store

open TransformM

theorem sweepFunction_preserves (f : SymbolId) (fuel : Nat) (tally : Tally) :
    Preserves Tracked (sweepFunction f fuel tally) := by
  induction fuel generalizing tally with
  | zero => exact .pure _
  | succ fuel ih =>
    unfold sweepFunction
    refine Preserves.get.bind fun p => ?_
    split
    · exact .throw _
    · exact .pure _
    · refine Preserves.bind (.forM (fun store => ?_) _) fun _ => ih _
      exact Closure.request_tracked (.remove store)

theorem eliminateDeadStores_preserves : Preserves Tracked eliminateDeadStores :=
  Preserves.get.bind fun _ =>
    (Preserves.foldlM (fun tally f => sweepFunction_preserves f _ tally) _ _).bind fun _ => .pure _

end Store

namespace Pipeline

/-- What a lowered program can become: it is handed to the arena, to the computation of the call
lists or to a pass that rewrites it, in any order and as often as one likes. A pass that fails leaves
what it has done so far. -/
inductive Handled (p : Program) : Program → Prop
  | start : Handled p p
  | mutation {q r : Program} : Handled p q → Mutation q r → Handled p r
  | computeSites {w : Workspace} :
    Handled p w.program → Handled p (left (Calls.computeSites w)).program
  | flatten {q : Program} : Handled p q → Handled p (left (Closure.flatten q))
  | eliminateDeadStores {q : Program} : Handled p q → Handled p (left (Store.eliminateDeadStores q))

theorem Handled.tracked (handled : Handled p q) (tracked : p.Tracked) : q.Tracked := by
  induction handled with
  | start => exact tracked
  | mutation _ mutation ih => exact mutation.tracked ih
  | computeSites _ ih => exact Calls.computeSites_preserves.left ih
  | flatten _ ih => exact Closure.flatten_preserves.left ih
  | eliminateDeadStores _ ih => exact Store.eliminateDeadStores_preserves.left ih

/-- Whatever a lowered program goes through: no function lists a call twice, and what it lists are
live calls of its own. So no call is on two lists, and none mentions a destroyed node. -/
theorem lists_live_calls {tree : Surface.ProgramTree} (lowered : tree.lower = .ok p)
    (handled : Handled p q) :
    (∀ f, (q.symbol f).callers.Nodup ∧ ∀ c ∈ (q.symbol f).callers,
      q.Live c ∧ ∃ name args, q.kind c = .call (some f) name args) ∧
    (∀ c f g, c ∈ (q.symbol f).callers → c ∈ (q.symbol g).callers → f = g) ∧
    ∀ c, ¬ q.Live c → ∀ f, c ∉ (q.symbol f).callers := by
  have tracked := handled.tracked (Surface.ProgramTree.lowered_tracked lowered)
  refine ⟨fun f => ⟨tracked.distinct f, fun c listed => ?_⟩, fun c f g inF inG => ?_,
    fun c dead f listed => dead (tracked.calls listed).1⟩
  · obtain ⟨live, callee⟩ := tracked.calls listed
    refine ⟨live, ?_⟩
    rw [callee?] at callee
    cases kind : q.kind c <;> rw [kind] at callee <;> cases callee
    exact ⟨_, _, rfl⟩
  · exact Option.some.inj ((tracked.calls inF).2.symm.trans (tracked.calls inG).2)

/-- The outer call of `nestedProgram` is bound to the function that stores, the function that held
the other call is destroyed, and then both passes that rewrite have their turn. -/
def reboundProgram : Program :=
  let linked := (left (Calls.computeSites { program := Surface.nestedProgram })).program
  let rebound := (Request.setCallee ⟨12⟩ (some ⟨3⟩)).after linked
  let pruned := (Request.remove ⟨11⟩).after rebound
  left (Store.eliminateDeadStores (left (Closure.flatten pruned)))

theorem reboundProgram_handled : Handled Surface.nestedProgram reboundProgram :=
  .eliminateDeadStores (.flatten (((Handled.computeSites (w := { program := Surface.nestedProgram })
    .start).mutation (.request (.setCallee ⟨12⟩ (some ⟨3⟩)))).mutation (.request (.remove ⟨11⟩))))

theorem reboundProgram_lists :
    Surface.nestedTree.lower = .ok Surface.nestedProgram ∧
    Handled Surface.nestedProgram reboundProgram ∧
    (reboundProgram.symbol ⟨3⟩).callers = [⟨12⟩] ∧ (reboundProgram.symbol ⟨4⟩).callers = [] ∧
    (∀ f, (reboundProgram.symbol f).callers.Nodup ∧ ∀ c ∈ (reboundProgram.symbol f).callers,
      reboundProgram.Live c ∧ ∃ name args, reboundProgram.kind c = .call (some f) name args) ∧
    (∀ c f g, c ∈ (reboundProgram.symbol f).callers → c ∈ (reboundProgram.symbol g).callers →
      f = g) ∧
    ∀ c, ¬ reboundProgram.Live c → ∀ f, c ∉ (reboundProgram.symbol f).callers :=
  ⟨Surface.nestedTree_lowers, reboundProgram_handled, by decide +kernel, by decide +kernel,
    lists_live_calls Surface.nestedTree_lowers reboundProgram_handled⟩

end Pipeline

end MiddleEnd
