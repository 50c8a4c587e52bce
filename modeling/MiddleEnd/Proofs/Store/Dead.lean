import MiddleEnd.Proofs.Closure.Flat
import MiddleEnd.Proofs.Settled.Change
import MiddleEnd.Store.Dead

namespace MiddleEnd

open Outcome

namespace Program

variable {p q r : Program}

/-- Statements that define nothing may be gone; what is left stands as before. -/
structure Shrinks (p q : Program) : Prop where
  modules : q.modules = p.modules
  roots : q.roots = p.roots
  core (s : SymbolId) : (q.symbol s).core = (p.symbol s).core
  head (n : NodeId) : (p.kind n).SameHead (q.kind n)
  kind {n : NodeId} : (p.kind n).isBlock = false → q.kind n = p.kind n
  scope (n : NodeId) : q.scope? n = p.scope? n
  reached {n : NodeId} : q.Reached n → p.Reached n
  kept {n : NodeId} {s : SymbolId} : p.Reached n → (p.kind n).defines? = some s → q.Reached n

namespace Shrinks

theorem refl : Shrinks p p :=
  { modules := rfl
    roots := rfl
    core := fun _ => rfl
    head := fun _ => .refl _
    kind := fun _ => rfl
    scope := fun _ => rfl
    reached := id
    kept := fun reached _ => reached }

theorem trans (first : Shrinks p q) (second : Shrinks q r) : Shrinks p r where
  modules := second.modules.trans first.modules
  roots := second.roots.trans first.roots
  core s := (second.core s).trans (first.core s)
  head n :=
    { tag := (second.head n).tag.trans (first.head n).tag
      defines := (second.head n).defines.trans (first.head n).defines
      callee := (second.head n).callee.trans (first.head n).callee
      symRef := (second.head n).symRef.trans (first.head n).symRef }
  kind {n} other := by
    have same := first.kind other
    rw [second.kind (same ▸ other), same]
  scope n := (second.scope n).trans (first.scope n)
  reached := fun reached => first.reached (second.reached reached)
  kept {n s} reached defines :=
    second.kept (first.kept reached defines) ((first.head n).defines.trans defines)

theorem placed_iff (shrinks : Shrinks p q) {f : SymbolId} {d : NodeId} : q.Placed f d ↔ p.Placed f d := by
  rw [Placed, Placed, (shrinks.head d).isFnDef, (shrinks.head d).defines]
  constructor
  · rintro ⟨reached, rest⟩
    exact ⟨shrinks.reached reached, rest⟩
  · rintro ⟨reached, fnDef, defines⟩
    exact ⟨shrinks.kept reached defines, fnDef, defines⟩

theorem isFn (shrinks : Shrinks p q) (f : SymbolId) : q.isFn f = p.isFn f :=
  Symbol.isFn_of_core (shrinks.core f)

theorem hasFlag (shrinks : Shrinks p q) (f : SymbolId) (flag : Flag) :
    q.hasFlag f flag = p.hasFlag f flag := by
  rw [Program.hasFlag, Symbol.hasFlag, (Symbol.core_eq_iff.mp (shrinks.core f)).2.2.2.2]
  rfl

/-! Functions stay where they are. -/

theorem fnDef?_eq (shrinks : Shrinks p q) (f : SymbolId) : q.fnDef? f = p.fnDef? f := by
  rw [fnDef?, Symbol.decl_of_core (shrinks.core f), fnDef?]
  exact congrArg (Option.filter · _) (funext fun d => (shrinks.head d).isFnDef)

theorem kind_fnDef (shrinks : Shrinks p q) {f : SymbolId} {d : NodeId} (found : p.fnDef? f = some d) :
    q.kind d = p.kind d := by
  obtain ⟨_, fnDef⟩ := Option.filter_eq_some_iff.mp found
  refine shrinks.kind ?_
  cases kind : p.kind d <;> simp_all [NodeKind.isFnDef, NodeKind.isBlock]

theorem fnBody?_eq (shrinks : Shrinks p q) (f : SymbolId) : q.fnBody? f = p.fnBody? f := by
  rw [fnBody?, shrinks.fnDef?_eq, fnBody?]
  cases found : p.fnDef? f with
  | none => rfl
  | some d => rw [Option.bind_some, Option.bind_some, shrinks.kind_fnDef found]

theorem flat (shrinks : Shrinks p q) (flat : p.Flat) (settled : q.Settled) : q.Flat where
  settled := settled
  outer {f d} placed := by
    obtain ⟨_, m, member, scope⟩ := flat.outer (shrinks.placed_iff.mp placed)
    exact ⟨placed, m, shrinks.modules ▸ member, (shrinks.scope d).trans scope⟩

end Shrinks

theorem Tidy.silent_assign (tidy : p.Tidy) {store n : NodeId} (assign : (p.kind store).tag = .assign)
    (live : p.Live n) (above : p.Above store n) : (p.kind n).defines? = none := by
  by_cases same : store = n
  · subst same
    cases kind : p.kind store <;> simp [kind, NodeKind.tag] at assign
    rfl
  · exact NodeKind.defines?_of_expr
      (tidy.expr_below (NodeKind.slot_of_assign assign) live above same)

/-- Below an assignment there is nothing else but expressions. -/
theorem Tidy.eq_of_above_assign (tidy : p.Tidy) {store n : NodeId}
    (assign : (p.kind store).tag = .assign) (live : p.Live n) (above : p.Above store n)
    (notExpr : (p.kind n).isExpr = false) : store = n := by
  by_contra different
  rw [tidy.expr_below (NodeKind.slot_of_assign assign) live above different] at notExpr
  cases notExpr

/-- An assignment stands in a block. -/
theorem Tidy.block_of_assign (tidy : p.Tidy) {store owner : NodeId}
    (assign : (p.kind store).tag = .assign) (live : p.Live store)
    (link : p.parent? store = some owner) : (p.kind owner).isBlock = true := by
  refine tidy.block_of_owner live link fun slot fits => ?_
  cases kind : p.kind store <;> simp [kind, NodeKind.tag] at assign
  cases slot <;> simp [Fits, kind, NodeKind.isExpr, NodeKind.tag, NodeKind.isBlock] at fits ⊢

theorem remove_shrinks (settled : p.Settled) {store : NodeId} (assign : (p.kind store).tag = .assign)
    (result : p.remove store = .ok q) : q.Settled ∧ Shrinks p q := by
  have silent (n : NodeId) (live : p.Live n) (above : p.Above store n) :
      (p.kind n).defines? = none := settled.silent_assign assign live above
  refine ⟨remove_settled settled result silent, ?_⟩
  obtain ⟨owner, link, edit⟩ := remove_edit settled.sound result
  have isBlock := settled.block_of_assign assign (edit.gone_live rfl) link
  exact
    { modules := edit.modules
      roots := edit.roots
      core := edit.core
      head := edit.head
      kind := fun {n} other => by
        refine edit.kind_of_ne ?_
        rintro rfl
        rw [isBlock] at other
        cases other
      scope := fun n => edit.scope_kept not_under_none
      reached := fun {n} reached => by
        rcases (edit.reached_iff settled.sound).mp reached with ⟨before, _⟩ | ⟨_, _, below⟩
        · exact before
        · exact absurd below not_under_none
      kept := fun {n s} reached defines => by
        refine (edit.reached_iff settled.sound).mpr (.inl ⟨reached, ?_⟩)
        rintro ⟨_, same, above⟩
        cases same
        rw [silent n (settled.sound.live_of_reached reached) above] at defines
        cases defines }

end Program

namespace Store

open Program TransformM

variable {p : Program} {f : SymbolId}

theorem deadStore?_eq_some {l : Flow.Liveness} {escaped : List SymbolId} {item : Flow.Item}
    {live : Flow.BitSet l.locals.size} {store : NodeId}
    (dead : deadStore? p l escaped item live = some store) :
    item = .stmt store ∧ ∃ target value x bit, p.kind store = .assign target value ∧
      (p.kind target).symRef? = some x ∧ l.bit? x = some bit ∧ live.contains bit = false ∧
      removable p escaped x = true ∧ isPure p value = true := by
  unfold deadStore? at dead
  split at dead
  · split at dead
    · rename_i kind
      simp only [Option.bind_eq_bind, Option.bind_eq_some_iff] at dead
      obtain ⟨x, ref, bit, found, result⟩ := dead
      split at result
      · cases result
      · rename_i judged
        cases result
        simp only [Bool.or_eq_true, Bool.not_eq_true', not_or, Bool.not_eq_true, Bool.not_eq_false]
          at judged
        exact ⟨rfl, _, _, x, bit, kind, ref, found, judged.1.1, judged.1.2, judged.2⟩
    · cases dead
  · cases dead

theorem deadStores_assign {dead : List NodeId} (result : deadStores p f = .ok dead) {store : NodeId}
    (member : store ∈ dead) : (p.kind store).tag = .assign := by
  unfold deadStores at result
  obtain ⟨g, _, result⟩ := bind_eq_ok_iff.mp result
  obtain ⟨l, _, result⟩ := bind_eq_ok_iff.mp result
  obtain ⟨stores, each, result⟩ := bind_eq_ok_iff.mp result
  rw [pure_eq_ok_iff.mp result] at member
  obtain ⟨inBlock, listed, found⟩ := List.mem_flatten.mp member
  obtain ⟨block, _, ofBlock⟩ := exists_of_mapM_eq_ok each listed
  unfold deadStoresIn at ofBlock
  obtain ⟨live, _, ofBlock⟩ := bind_eq_ok_iff.mp ofBlock
  rw [pure_eq_ok_iff.mp ofBlock] at found
  obtain ⟨⟨item, liveAfter⟩, _, dead⟩ := List.mem_filterMap.mp found
  obtain ⟨_, _, _, _, _, kind, _⟩ := deadStore?_eq_some dead
  rw [kind]
  rfl

/-- What removing dead stores keeps. -/
def Swept (p q : Program) : Prop := q.Settled ∧ Shrinks p q

theorem remove_ends {q : Program} {dead : List NodeId} (swept : Swept p q)
    (assigns : ∀ store ∈ dead, (q.kind store).tag = .assign) :
    Ends (dead.forM fun store => edit (·.remove store)) q (fun _ => Swept p) Settled := by
  refine (Ends.forM (I := fun rest t => Swept p t ∧ ∀ store ∈ rest, (t.kind store).tag = .assign)
    ⟨swept, assigns⟩ ?_).mono (fun _ _ kept => kept.1) fun _ => id
  rintro store rest t ⟨before, assigns⟩
  refine ends_edit (fun q' result => ?_) before.1
  obtain ⟨settled, shrinks⟩ :=
    remove_shrinks before.1 (assigns store (List.mem_cons_self ..)) result
  refine ⟨⟨settled, before.2.trans shrinks⟩, fun other member => ?_⟩
  rw [(shrinks.head other).tag]
  exact assigns other (List.mem_cons_of_mem _ member)

theorem sweepFunction_ends (fuel : Nat) {q : Program} (swept : Swept p q) (tally : Tally) :
    Ends (sweepFunction f fuel tally) q (fun _ => Swept p) Settled := by
  induction fuel generalizing q tally with
  | zero => exact Ends.pure swept
  | succ fuel ih =>
    unfold sweepFunction
    refine Ends.get_bind ?_
    cases result : deadStores q f with
    | error e => exact Ends.throw swept.1
    | ok dead =>
      cases dead with
      | nil => exact Ends.pure swept
      | cons store more =>
        exact Ends.bind (remove_ends swept fun store member => deadStores_assign result member)
          fun _ t kept => ih kept _

theorem eliminateDeadStores_ends (settled : p.Settled) :
    Ends eliminateDeadStores p (fun _ => Swept p) Settled := by
  unfold eliminateDeadStores
  refine Ends.get_bind ?_
  refine Ends.bind (Ends.foldlM (I := fun _ _ => Swept p) ⟨settled, .refl⟩ ?_)
    fun _ _ kept => Ends.pure kept
  exact fun f _ tally t kept => sweepFunction_ends _ kept tally

end Store

end MiddleEnd
