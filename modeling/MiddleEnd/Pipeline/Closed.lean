import MiddleEnd.Check.Closed
import MiddleEnd.Pipeline.Pass

namespace MiddleEnd

/-! When a pass looks only at what is there. What a pass is refused for before it would look at
something that is missing counts as its answer, so the tests follow the order of the pass. -/

namespace Calls

/-- Are the declarations of all functions there that a call could be bound to by its name? -/
def bindingKnown (p : Program) (call : NodeId) : Bool :=
  match p.kind call with
  | .call none name _ => (p.registries.fns.filter fun f => p.name f == name).all p.declKnown
  | _ => true

/-- The program without the registered calls from the first on that is bound by looking at something
that is missing. -/
def untilUnknown (p : Program) : Program :=
  { p with registries :=
      { p.registries with calls := p.registries.calls.takeWhile (bindingKnown p) } }

/-- Does computing the call lists look only at what is there before it ends or is refused? -/
def sitesKnown (p : Program) : Bool :=
  p.registries.calls.all (bindingKnown p) ||
    match computeSites { program := untilUnknown p } with
    | .ok .. => false
    | .error .. => true

end Calls

namespace Closure

/-- Are the declarations of all functions there that are defined in the program? -/
def nestingKnown (p : Program) : Bool :=
  let defined := (p.roots.flatMap (p.collect .fnDef)).filterMap fun id => (p.kind id).defines?
  (defined.filter p.isFn).all p.declKnown

/-- Is all there that decides what functions capture? What a function refers to itself is looked at,
and what the functions capture that it calls. -/
def capturesKnown (p : Program) : Bool :=
  let g := Calls.CallGraph.build p
  let solution := (captureProblem p g).solve
  (g.functions.zip solution.outs.toList).all fun (f, fromCallees) =>
    p.declKnown f && (ownRefs p f).all (p.outerVarKnown · f) &&
      fromCallees.all (p.outerVarKnown · f)

/-- Are the calls of capturing functions there, up to the first that cannot be planned? -/
def plansKnown (p : Program) (captures : Captures) : Bool :=
  let calls := captures.capturing.flatMap fun callee => (callsOf p callee).map (callee, ·)
  let planned (callee : SymbolId) (call : NodeId) : Bool :=
    p.hasNode call && (planCall p captures callee call).toBool
  ((calls.find? fun (callee, call) => !planned callee call).map Prod.snd).all p.hasNode

/-- Do the address-of nodes that a capturing function loses call only functions that are there? -/
def usesKnown (p : Program) (captures : Captures) (f : SymbolId) : Bool :=
  let byRef (var : SymbolId) := (p.symbol var).ty.hasRefForm && !isIteratorHelper p f
  (p.fnDef? f).all fun fnDef =>
    ((captures.of f).filter byRef).all fun var =>
      (usesOf p fnDef var).all fun ref =>
        match useOf p ref with
        | .addressOf prim => p.calleesKnown prim
        | _ => true

/-- Does closure conversion look only at what is there before it ends or is refused? -/
def flattenKnown (p : Program) : Bool :=
  (unresolvedCall? p).isSome ||
    (nestingKnown p &&
      ((nestedFunctions p).isEmpty ||
        (capturesKnown p &&
          let captures := Captures.compute p (.build p)
          plansKnown p captures &&
            match planCalls p captures with
            | .error _ => true
            | .ok plans =>
              match passCaptures captures plans p with
              | .error .. => true
              | .ok .. =>
                captures.capturing.all (usesKnown p captures) &&
                  (nestedFunctions p).all p.declsAroundKnown)))

end Closure

namespace Store

/-- Are the declarations of all functions there whose stores may be looked at? -/
def storesKnown (p : Program) : Bool :=
  p.registries.fns.all fun f => p.hasFlag f .external || p.declKnown f

end Store

namespace Pipeline.Pass

/-- Does the standard pass of this name look only at what is there before it ends or is refused? -/
def known (name : String) (p : Program) : Bool :=
  match name with
  | "check-parsed" => Check.Suite.parsed.known p
  | "compute-call-sites" => Calls.sitesKnown p
  | "flatten-functions" => Closure.flattenKnown p
  | "check-resolved" => Check.Suite.resolved.known p
  | "dead-store-elimination" => Store.storesKnown p
  | _ => true

end Pipeline.Pass

end MiddleEnd
