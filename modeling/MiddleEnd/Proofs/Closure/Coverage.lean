import MiddleEnd.Proofs.Check.Tally
import MiddleEnd.Proofs.Closure.Converts
import MiddleEnd.Proofs.Closure.Fate

/-! Converting a function changes nothing in how often it defines its return value. -/

namespace MiddleEnd

open Outcome

theorem NodeKind.symRef?_eq_some {k : NodeKind} {v : SymbolId} :
    k.symRef? = some v ↔ k = .symRef v := by
  cases k <;> simp [symRef?]

namespace Check

namespace Tally

/-- Where statements come to stand in front of others, what they count for is what counts. -/
theorem sum_flatMap {of of' : NodeId → Tally} {become : NodeId → List NodeId} {stmts : List NodeId}
    (same : ∀ s ∈ stmts, ∀ rest, sum of' (become s ++ rest) = (of s).add (sum of' rest)) :
    sum of' (stmts.flatMap become) = sum of stmts := by
  induction stmts with
  | nil => rfl
  | cons s stmts ih =>
    rw [List.flatMap_cons, same s List.mem_cons_self, sum_cons,
      ih fun s member => same s (List.mem_cons_of_mem _ member)]

end Tally

variable {p t : Program} {retVar : Option SymbolId} {n n' : NodeId}

theorem tally_of_expr (depth : Nat) (expr : (p.kind n).isExpr = true) :
    tally p retVar (depth + 1) n = leaf p retVar n := by
  refine tally_of_leaf ?_ ?_ <;> cases kind : p.kind n <;> simp_all [NodeKind.isExpr] <;> rfl

theorem definitions_of_assign {target value : NodeId} (kind : p.kind n = .assign target value) :
    definitions p retVar 1 n =
      if retVar.any fun v => p.kind target = .symRef v then 1 else 0 := by
  rw [definitions, kind]
  cases retVar with
  | none => cases kindT : p.kind target <;> simp [kindT]
  | some v => cases kindT : p.kind target <;> simp [kindT]

theorem definitions_assign_congr {target value target' value' : NodeId}
    (kind : p.kind n = .assign target value) (kind' : t.kind n' = .assign target' value')
    (same : ∀ v, retVar = some v → (t.kind target' = .symRef v ↔ p.kind target = .symRef v)) :
    definitions t retVar 1 n' = definitions p retVar 1 n := by
  rw [definitions_of_assign kind, definitions_of_assign kind']
  cases retVar with
  | none => rfl
  | some v => simp only [Option.any_some, same v rfl]

end Check

namespace Closure

open Program Check

/-- The variable is defined, and it is none of those that are captured. -/
structure Uncaptured (p : Program) (captured : List SymbolId) (v : SymbolId) : Prop where
  known : v.index < p.symbols.size
  missing : v ∉ captured
  defined : ∃ d, d.index < p.nodes.size ∧ (p.kind d).defines? = some v

variable {p t q start : Program} {f : SymbolId} {n c : NodeId} {w first : Rework}
  {captures : Captures} {passed : List NodeId} {retVar : Option SymbolId}
  {given : SymbolId → List SymbolId}

theorem Within.child (within : Within p f n) (sound : p.Sound) (plain : (p.kind n).isExpr = false)
    (noFn : (p.kind n).isFnDef = false) (child : c ∈ p.children n) : Within p f c where
  below := ⟨n, within.reached, plain, child⟩
  scope := by
    rw [sound.scope_below within.reached child, scopeBelow_eq, noFn, if_neg Bool.false_ne_true,
      within.scope]

section

variable (settled : p.Settled) (supplying : Supplying p first passed start)
  (known : ∀ f, ∀ v ∈ captures.of f, v.index < p.symbols.size)
  (run : Converting p captures passed first start given w t)

/-- What takes the place of an expression is one. -/
theorem Fate.expr (fate : Fate p (captures.of f) w t n) (evolved : Evolved p w t)
    (within : Within p f n) (expr : (p.kind n).isExpr = true) :
    (t.kind (w.swap n)).isExpr = true := by
  cases fate with
  | turned before now => rcases now with ⟨_, _, kind⟩ | ⟨_, _, kind⟩ <;> rw [kind] <;> rfl
  | kept swap refs =>
    have known := (evolved.stage.base_sound.live_of_reached within.reached).known
    rw [swap, isExpr_of_tag (evolved.stage.frame.tag known), expr]

theorem Yielding.counts_nothing (yielding : Yielding p (captures.of f) n) :
    leaf p retVar n = .zero := by
  rcases yielding with ⟨v, _, kind⟩ | ⟨args, kind⟩ <;>
    simp [leaf, definitions, kind, NodeKind.isExit, Tally.zero]

theorem Coming.counts_nothing (coming : Coming p t n) : leaf t retVar n = .zero := by
  rcases coming with ⟨v, _, kind⟩ | ⟨_, args, kind⟩ <;>
    simp [leaf, definitions, kind, NodeKind.isExit, Tally.zero]

include settled supplying known run

theorem leaf_of_expr (within : Within p f n) (expr : (p.kind n).isExpr = true) :
    leaf t retVar (w.swap n) = leaf p retVar n := by
  have underway := run.underway supplying known
  have reworked := underway.evolved.reworked
  have live := underway.evolved.sound.live_of_reached (within.reached_swap underway.evolved)
  have liveP := settled.sound.live_of_reached within.reached
  cases run.fate supplying known within with
  | turned before now => rw [before.counts_nothing, now.counts_nothing]
  | kept swap refs =>
    rw [swap] at live ⊢
    cases kind : p.kind n with
    | symRef v => simp [leaf, definitions, kind, refs v kind, NodeKind.isExit]
    | call callee name args =>
      have kindT := reworked.kind liveP.known live (by rw [kind]; rfl)
      rw [kind] at kindT
      cases callee with
      | none => simp [leaf, definitions, kind, kindT, Rework.kind, NodeKind.isExit]
      | some g =>
        have knownG : g.index < p.symbols.size := by
          refine known_of_isFn ((settled.lawful liveP).callee_fn ?_)
          rw [kind]
          rfl
        have lasts := (supplying.retains.lasts knownG).trans
          (underway.retains.lasts (knownG.trans_le supplying.retains.symbols_size))
        have flag : t.hasFlag g .terminatesProgram = p.hasFlag g .terminatesProgram :=
          lasts.flags _ (by decide) (by decide)
        simp [leaf, definitions, kind, kindT, Rework.kind, NodeKind.isExit, flag]
    | prim op args =>
      have kindT := reworked.kind liveP.known live (by rw [kind]; rfl)
      rw [kind] at kindT
      cases op <;>
        simp [leaf, definitions, kind, kindT, Rework.kind, NodeKind.mapChildren, NodeKind.isExit]
    | literal | namedArg =>
      have kindT := reworked.kind liveP.known live (by rw [kind]; rfl)
      rw [kind] at kindT
      simp [leaf, definitions, kind, kindT, Rework.kind, NodeKind.mapChildren, NodeKind.isExit]
    | _ => simp [kind, NodeKind.isExpr] at expr

variable (uncaptured : ∀ v, retVar = some v → Uncaptured p (captures.of f) v)

include uncaptured

/-- A statement assigns the return value if it did. -/
theorem target_iff (within : Within p f n) {v : SymbolId} (isRet : retVar = some v) :
    t.kind (w.swap n) = .symRef v ↔ p.kind n = .symRef v := by
  have underway := run.underway supplying known
  have uncaptured := uncaptured v isRet
  cases run.fate supplying known within with
  | turned before now =>
    constructor
    · intro kindT
      rcases now with ⟨u, isNew, kind⟩ | ⟨_, args, kind⟩
      · cases kindT.symm.trans kind
        exact absurd uncaptured.known (Nat.not_lt.mpr isNew)
      · cases kindT.symm.trans kind
    · intro kindP
      rcases before with ⟨u, captured, kind⟩ | ⟨args, kind⟩
      · cases kindP.symm.trans kind
        exact absurd captured uncaptured.missing
      · cases kindP.symm.trans kind
  | kept swap refs =>
    rw [swap]
    refine ⟨fun kindT => ?_, refs v⟩
    have tag := underway.evolved.stage.frame.tag
      (settled.sound.live_of_reached within.reached).known
    rw [kindT] at tag
    cases kind : p.kind n <;> simp [kind, NodeKind.tag] at tag
    cases (refs _ kind).symm.trans kindT
    rfl

omit settled in
/-- What comes in front of a statement does not define the return value. -/
theorem front_counts_nothing {s e : NodeId} (member : e ∈ w.front s) (depth : Nat) :
    tally t retVar depth e = .zero := by
  have underway := run.underway supplying known
  obtain ⟨temp, init, kind⟩ := run.front_define supplying known member
  cases depth with
  | zero => rfl
  | succ depth =>
    have other : some temp ≠ retVar := by
      rintro rfl
      obtain ⟨d, knownD, defines⟩ := (uncaptured temp rfl).defined
      have definesT := (underway.evolved.stage.frame.defines knownD).trans defines
      have same := underway.evolved.sound.bound_unique definesT (n := e) (by rw [kind]; rfl)
      subst same
      exact absurd knownD (Nat.not_lt.mpr (underway.evolved.reworked.front member))
    simp [tally, leaf, definitions, kind, other, NodeKind.isExit, Tally.zero]

/-- A statement counts for what it counted for. -/
theorem tally_of_converting (depth : Nat) (within : Within p f n) :
    tally t retVar depth (w.swap n) = tally p retVar depth n := by
  have underway := run.underway supplying known
  have evolved := underway.evolved
  induction depth generalizing n with
  | zero => rfl
  | succ depth ih =>
    cases expr : (p.kind n).isExpr with
    | true =>
      have exprT := (run.fate supplying known within).expr evolved within expr
      rw [tally_of_expr depth expr, tally_of_expr depth exprT,
        leaf_of_expr settled supplying known run within expr]
    | false =>
      have swap := within.swap_of_plain evolved expr
      have liveP := settled.sound.live_of_reached within.reached
      have live := evolved.sound.live_of_reached (within.reached_swap evolved)
      have noRef : (p.kind n).symRef? = none := by
        cases kind : p.kind n <;> simp [kind, NodeKind.isExpr] at expr <;> rfl
      rw [swap] at live ⊢
      have kindT := evolved.reworked.kind liveP.known live noRef
      cases fn : (p.kind n).isFnDef with
      | true =>
        rw [tally_of_fnDef _ fn,
          tally_of_fnDef _ ((isFnDef_of_tag (evolved.stage.frame.tag liveP.known)).trans fn)]
      | false =>
        have inner {c : NodeId} (child : c ∈ (p.kind n).children) :=
          ih (within.child settled.sound expr fn child)
        have below {c : NodeId} (child : c ∈ (p.kind n).children) :=
          within.child settled.sound expr fn child
        cases kind : p.kind n with
        | block stmts =>
          rw [kind] at inner kindT
          simp only [tally, kindT, kind, Rework.kind]
          refine Tally.sum_flatMap fun s member rest => ?_
          rw [List.append_assoc, Tally.sum_append_of_zero fun e front =>
            front_counts_nothing supplying known run uncaptured front depth]
          rw [List.singleton_append, Tally.sum_cons, inner member]
        | cond test thenBlock elseBlock =>
          rw [kind] at inner kindT
          simp only [tally, kindT, kind, Rework.kind, NodeKind.mapChildren]
          rw [inner (by simp [NodeKind.children])]
          cases elseBlock with
          | none => rfl
          | some elseBlock =>
            simp only [Option.map_some]
            rw [inner (by simp [NodeKind.children])]
        | loop test body testFirst =>
          rw [kind] at inner kindT
          simp only [tally, kindT, kind, Rework.kind, NodeKind.mapChildren]
          rw [inner (by simp [NodeKind.children])]
        | forLoop index iterable body =>
          rw [kind] at inner kindT
          simp only [tally, kindT, kind, Rework.kind, NodeKind.mapChildren]
          rw [inner (by simp [NodeKind.children])]
        | assign target value =>
          rw [kind] at below kindT
          have same := definitions_assign_congr kind kindT fun v isRet =>
            target_iff settled supplying known run uncaptured
              (below (c := target) (by simp [NodeKind.children])) isRet
          simp [tally, leaf, kind, kindT, Rework.kind, NodeKind.mapChildren, same, NodeKind.isExit]
        | define sym value =>
          rw [kind] at kindT
          cases value <;>
            simp [tally, leaf, definitions, kind, kindT, Rework.kind, NodeKind.mapChildren,
              NodeKind.isExit]
        | ret value =>
          rw [kind] at kindT
          cases value <;>
            simp [tally, leaf, definitions, kind, kindT, Rework.kind, NodeKind.mapChildren,
              NodeKind.isExit]
        | brk | cont | label | goto =>
          rw [kind] at kindT
          simp [tally, leaf, definitions, kind, kindT, Rework.kind, NodeKind.mapChildren,
            NodeKind.isExit]
        | _ => simp_all [NodeKind.isExpr, NodeKind.isFnDef]

end

/-! Statements that move out of a function. -/

section

variable (moved : Relocates t q) (plain : ∀ v, retVar = some v → (t.symbol v).isType = false)

include plain

/-- What moves out counts nothing. -/
theorem tally_of_leaving (leaves : t.stays n = false) (depth : Nat) :
    tally t retVar depth n = .zero := by
  cases depth with
  | zero => rfl
  | succ depth =>
    cases fn : (t.kind n).isFnDef with
    | true => exact tally_of_fnDef _ fn
    | false =>
      obtain ⟨v, defines, isType⟩ : ∃ v, (t.kind n).defines? = some v ∧ (t.symbol v).isType = true := by
        simpa [stays, fn, Option.any_eq_true] using leaves
      have other : some v ≠ retVar := by
        rintro rfl
        rw [plain v rfl] at isType
        cases isType
      cases kind : t.kind n <;> simp [kind, NodeKind.defines?, NodeKind.isFnDef] at defines fn
      subst defines
      rename_i value
      cases value <;> simp [tally, leaf, definitions, kind, other, NodeKind.isExit, Tally.zero]

include moved

theorem tally_of_relocates (depth : Nat) (n : NodeId) :
    tally q retVar depth n = tally t retVar depth n := by
  have plainQ (v : SymbolId) (isRet : retVar = some v) : (q.symbol v).isType = false := by
    have same := plain v isRet
    rw [← Bool.not_eq_true, Symbol.isType_iff] at same ⊢
    rwa [moved.sort]
  induction depth generalizing n with
  | zero => rfl
  | succ depth ih =>
    cases isBlock : (t.kind n).isBlock with
    | true =>
      cases kind : t.kind n <;> simp [kind, NodeKind.isBlock] at isBlock
      rename_i stmts
      obtain ⟨stmts', kindQ, order⟩ := moved.order.block kind
      have leaves (s : NodeId) (out : t.stays s = false) : tally q retVar depth s = .zero :=
        tally_of_leaving plainQ (by rwa [moved.stays_eq]) depth
      simp only [tally, kind, kindQ]
      calc
        Tally.sum (tally q retVar depth) stmts'
            = Tally.sum (tally q retVar depth) (stmts'.filter t.stays) :=
          (Tally.sum_filter fun s _ => leaves s).symm
        _ = Tally.sum (tally q retVar depth) (stmts.filter t.stays) := by rw [order]
        _ = Tally.sum (tally q retVar depth) stmts := Tally.sum_filter fun s _ => leaves s
        _ = Tally.sum (tally t retVar depth) stmts := Tally.sum_congr fun s _ => ih s
    | false =>
      have same := moved.order.kind isBlock
      cases kind : t.kind n with
      | cond | loop | forLoop => simp only [tally, same, kind, funext ih]
      | assign target value =>
        have counts : definitions q retVar 1 n = definitions t retVar 1 n :=
          definitions_assign_congr kind (same.trans kind) fun v _ => by
            rw [← NodeKind.symRef?_eq_some, (moved.head target).symRef, NodeKind.symRef?_eq_some]
        simp [tally, leaf, same, kind, counts]
      | call callee name args =>
        cases callee with
        | none => simp [tally, leaf, definitions, same, kind]
        | some g =>
          have flag : q.hasFlag g .terminatesProgram = t.hasFlag g .terminatesProgram :=
            (moved.lasts g).flags _ (by decide) (by decide)
          simp [tally, leaf, definitions, same, kind, flag]
      | define sym value => cases value <;> simp [tally, leaf, definitions, same, kind]
      | ret value => cases value <;> simp [tally, leaf, definitions, same, kind]
      | prim op args => cases op <;> simp [tally, leaf, definitions, same, kind]
      | block => simp [kind, NodeKind.isBlock] at isBlock
      | _ => simp [tally, leaf, definitions, same, kind]

end

end Closure

end MiddleEnd
