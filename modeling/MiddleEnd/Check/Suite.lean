import MiddleEnd.Check.Returns
import MiddleEnd.Check.Rules
import MiddleEnd.Workspace

namespace MiddleEnd.Check

/-- One sweep over the whole program that finds everything of one kind. -/
inductive Rule where
  | duplicateNamedArgs
  | configAtModuleScope
  | paramsInitialized
  | localsTypedOrInitialized
  | iteratorSignatures
  | receiverNotInDefaults
  | returnCoverage
  | noNestedFunctions
  | arityAgreement
  deriving DecidableEq, Repr

namespace Rule

def all : List Rule :=
  [duplicateNamedArgs, configAtModuleScope, paramsInitialized, localsTypedOrInitialized,
    iteratorSignatures, receiverNotInDefaults, returnCoverage, noNestedFunctions, arityAgreement]

def name : Rule → String
  | duplicateNamedArgs => "duplicate-named-args"
  | configAtModuleScope => "config-at-module-scope"
  | paramsInitialized => "params-initialized"
  | localsTypedOrInitialized => "locals-typed-or-initialized"
  | iteratorSignatures => "iterator-signatures"
  | receiverNotInDefaults => "receiver-not-in-defaults"
  | returnCoverage => "return-coverage"
  | noNestedFunctions => "no-nested-functions"
  | arityAgreement => "arity-agreement"

def ofName? (name : String) : Option Rule := all.find? (·.name == name)

def check : Rule → Program → List Finding
  | duplicateNamedArgs => Check.duplicateNamedArgs
  | configAtModuleScope => Check.configAtModuleScope
  | paramsInitialized => Check.paramsInitialized
  | localsTypedOrInitialized => Check.localsTypedOrInitialized
  | iteratorSignatures => Check.iteratorSignatures
  | receiverNotInDefaults => Check.receiverNotInDefaults
  | returnCoverage => Check.returnCoverage
  | noNestedFunctions => Check.noNestedFunctions
  | arityAgreement => Check.arityAgreement

end Rule

/-- Rules that are run together. -/
structure Suite where
  name : String
  rules : List Rule
  deriving DecidableEq, Repr

namespace Suite

/-- Rules for a program as the front-end handed it over. -/
def parsed : Suite where
  name := "check-parsed"
  rules :=
    [.duplicateNamedArgs, .configAtModuleScope, .paramsInitialized, .localsTypedOrInitialized,
      .iteratorSignatures, .receiverNotInDefaults]

/-- Rules for a program whose functions are flat and whose calls are resolved. -/
def resolved : Suite where
  name := "check-resolved"
  rules := [.returnCoverage, .noNestedFunctions, .arityAgreement]

/-- Runs every rule and records all that they find, with the number of findings of each. -/
def run (suite : Suite) (w : Workspace) : Stats × Workspace :=
  let found := suite.rules.map fun rule => (rule.name, rule.check w.program)
  let emitted :=
    (found.flatMap Prod.snd).foldl (fun w finding => w.emit finding.diagnostic) w
  (found.map fun (name, findings) => (name, findings.length), emitted)

end Suite

end MiddleEnd.Check
