import MiddleEnd.Check.Returns
import MiddleEnd.Proofs.Arena.Untouched
import MiddleEnd.Proofs.Flow.Jumps

/-! What the rule for missing returns counts, in one walk that also keeps track of jumps. -/

namespace MiddleEnd

namespace NodeKind

/-- The statements of a block, and the blocks inside any other statement. -/
def inner : NodeKind → List NodeId
  | block stmts => stmts
  | kind => kind.bodies

/-- Does control go on somewhere else in the function? -/
def isExit : NodeKind → Bool
  | brk | cont | goto _ => true
  | _ => false

variable {k : NodeKind} {c : NodeId}

theorem child_of_inner (member : c ∈ k.inner) : c ∈ k.children := by
  cases k with
  | block stmts => exact member
  | _ => exact child_of_body member

theorem isExit_iff : k.isExit = true ↔ k.tag = .brk ∨ k.tag = .cont ∨ k.tag = .goto := by
  cases k <;> simp [isExit, tag]

theorem not_expr_of_exit (exit : k.isExit = true) : k.isExpr = false := by
  cases k <;> simp [isExit] at exit <;> rfl

theorem not_fnDef_of_exit (exit : k.isExit = true) : k.isFnDef = false := by
  cases k <;> simp [isExit] at exit <;> rfl

theorem not_define_of_exit (exit : k.isExit = true) : k.tag ≠ .define := by
  cases k <;> simp [isExit] at exit <;> simp [tag]

end NodeKind

namespace Check

/-- How often a statement defines the return value at least, and whether it holds a jump. -/
@[ext] structure Tally where
  count : Nat
  exits : Bool

namespace Tally

def zero : Tally := ⟨0, false⟩

/-- One statement after another. -/
def add (first second : Tally) : Tally := ⟨first.count + second.count, first.exits || second.exits⟩

/-- One statement or another. -/
def branch (first second : Tally) : Tally :=
  ⟨min first.count second.count, first.exits || second.exits⟩

/-- A statement that a loop may leave out, or may leave before its end. -/
def turn (tally : Tally) (testFirst : Bool) : Tally :=
  ⟨if testFirst || tally.exits then 0 else tally.count, tally.exits⟩

@[simp] theorem zero_add (tally : Tally) : zero.add tally = tally := by
  simp [add, zero]

/-- Statements one after the other. -/
def sum (of : NodeId → Tally) (stmts : List NodeId) : Tally :=
  stmts.foldr (fun s rest => (of s).add rest) zero

section

variable {of of' : NodeId → Tally} {stmts more : List NodeId}

theorem sum_cons (s : NodeId) : sum of (s :: stmts) = (of s).add (sum of stmts) := rfl

theorem sum_congr (same : ∀ s ∈ stmts, of s = of' s) : sum of stmts = sum of' stmts := by
  induction stmts with
  | nil => rfl
  | cons s stmts ih =>
    rw [sum_cons, sum_cons, same s List.mem_cons_self,
      ih fun s member => same s (List.mem_cons_of_mem _ member)]

theorem sum_append_of_zero (idle : ∀ s ∈ more, of s = zero) : sum of (more ++ stmts) = sum of stmts := by
  induction more with
  | nil => rfl
  | cons s more ih =>
    rw [List.cons_append, sum_cons, idle s List.mem_cons_self, zero_add,
      ih fun s member => idle s (List.mem_cons_of_mem _ member)]

/-- What counts nothing may be left out. -/
theorem sum_filter {keep : NodeId → Bool} (idle : ∀ s ∈ stmts, keep s = false → of s = zero) :
    sum of (stmts.filter keep) = sum of stmts := by
  induction stmts with
  | nil => rfl
  | cons s stmts ih =>
    have rest := ih fun s member => idle s (List.mem_cons_of_mem _ member)
    cases kept : keep s with
    | true => rw [List.filter_cons_of_pos kept, sum_cons, sum_cons, rest]
    | false =>
      rw [List.filter_cons_of_neg (by simp [kept]), rest, sum_cons,
        idle s List.mem_cons_self kept, zero_add]

theorem exits_sum : (sum of stmts).exits = stmts.any fun s => (of s).exits := by
  induction stmts with
  | nil => rfl
  | cons s stmts ih => simp [sum_cons, add, ih]

theorem count_sum : (sum of stmts).count = stmts.foldr (fun s rest => (of s).count + rest) 0 := by
  induction stmts with
  | nil => rfl
  | cons s stmts ih => simp [sum_cons, add, ih]

end

end Tally

section

variable (p : Program) (retVar : Option SymbolId)

/-- What a statement counts that has no statement inside. -/
def leaf (id : NodeId) : Tally := ⟨definitions p retVar 1 id, (p.kind id).isExit⟩

/-- What a statement counts, down to a depth. -/
def tally : Nat → NodeId → Tally
  | 0, _ => .zero
  | depth + 1, id =>
    match p.kind id with
    | .block stmts => .sum (tally depth) stmts
    | .cond _ thenBlock elseBlock =>
      (tally depth thenBlock).branch ((elseBlock.map (tally depth)).getD .zero)
    | .loop _ body testFirst => (tally depth body).turn testFirst
    | .forLoop _ _ body => (tally depth body).turn true
    | _ => leaf p retVar id

end

variable {p : Program} {retVar : Option SymbolId}

theorem tally_of_leaf {depth : Nat} {id : NodeId} (plain : (p.kind id).isBlock = false)
    (bare : (p.kind id).bodies = []) : tally p retVar (depth + 1) id = leaf p retVar id := by
  rw [tally]
  cases kind : p.kind id <;> simp_all [NodeKind.isBlock, NodeKind.bodies]

theorem definitions_of_leaf {depth : Nat} {id : NodeId} (plain : (p.kind id).isBlock = false)
    (bare : (p.kind id).bodies = []) :
    definitions p retVar (depth + 1) id = definitions p retVar 1 id := by
  rw [definitions, definitions]
  generalize p.kind id = kind at *
  cases kind with
  | block | cond | loop => simp [NodeKind.isBlock, NodeKind.bodies] at plain bare
  | ret value | define sym value => cases value <;> rfl
  | call callee name args => cases callee <;> rfl
  | prim op args => cases op <;> rfl
  | _ => rfl

theorem exits_tally (depth : Nat) (id : NodeId) :
    (tally p retVar (depth + 1) id).exits =
      ((p.kind id).isExit || (p.kind id).inner.any fun c => (tally p retVar depth c).exits) := by
  rw [tally]
  cases kind : p.kind id with
  | block stmts => simp [NodeKind.isExit, NodeKind.inner, Tally.exits_sum]
  | cond test thenBlock elseBlock =>
    cases elseBlock <;>
      simp [NodeKind.isExit, NodeKind.inner, NodeKind.bodies, Tally.branch, Tally.zero]
  | loop | forLoop => simp [NodeKind.isExit, NodeKind.inner, NodeKind.bodies, Tally.turn]
  | _ => simp [NodeKind.inner, NodeKind.bodies, leaf, kind]

/-- The definition of a function counts nothing where it stands. -/
theorem tally_of_fnDef (depth : Nat) {id : NodeId} (fn : (p.kind id).isFnDef = true) :
    tally p retVar depth id = .zero := by
  cases depth with
  | zero => rfl
  | succ depth =>
    cases kind : p.kind id <;> simp [kind, NodeKind.isFnDef] at fn
    simp [tally, leaf, definitions, kind, NodeKind.isExit, Tally.zero]

section

variable (tidy : p.Tidy)

include tidy

theorem exits_iff (depth : Nat) {n : NodeId} (live : p.Live n) (plain : (p.kind n).isFnDef = false)
    (room : p.nodes.size - (p.path n).length < depth) :
    (tally p retVar depth n).exits = true ↔ ∃ m, p.Own n m ∧ (p.kind m).isExit = true := by
  have forest := tidy.sound.forest
  induction depth generalizing n with
  | zero => omega
  | succ depth ih =>
    rw [exits_tally, Bool.or_eq_true, List.any_eq_true]
    have inside {c : NodeId} (inner : c ∈ (p.kind n).inner) (fn : (p.kind c).isFnDef = false) :
        (tally p retVar depth c).exits = true ↔ ∃ m, p.Own c m ∧ (p.kind m).isExit = true := by
      have child := NodeKind.child_of_inner inner
      have closer := forest.room_child live child
      exact ih (forest.child_live live child) fn (by omega)
    constructor
    · rintro (exit | ⟨c, inner, exits⟩)
      · exact ⟨n, .refl, exit⟩
      · have fn : (p.kind c).isFnDef = false := by
          by_contra fn
          rw [tally_of_fnDef depth (Bool.not_eq_false _ ▸ fn)] at exits
          cases exits
        obtain ⟨m, own, exit⟩ := (inside inner fn).mp exits
        exact ⟨m, .trans (.down .refl (.inl rfl) (NodeKind.child_of_inner inner)) fn own, exit⟩
    · rintro ⟨m, own, exit⟩
      by_cases same : m = n
      · exact .inl (same ▸ exit)
      obtain ⟨c, child, ownC, enters⟩ := own.head same
      have liveC := forest.child_live live child
      have fn : (p.kind c).isFnDef = false := by
        rcases enters with rfl | fn
        · exact NodeKind.not_fnDef_of_exit exit
        · exact fn
      have inner : c ∈ (p.kind n).inner := by
        rcases Flow.inner_of_child tidy live plain child (forest.live_of_own liveC ownC)
          (forest.above_of_own liveC ownC) (NodeKind.not_expr_of_exit exit)
          (NodeKind.not_define_of_exit exit) with isBlock | ⟨_, member⟩
        · cases kind : p.kind n <;> simp [kind, NodeKind.isBlock] at isBlock
          rwa [Program.children, kind] at child
        · cases kind : p.kind n <;> simp_all [NodeKind.inner, NodeKind.bodies]
      exact .inr ⟨c, inner, (inside inner fn).mpr ⟨m, ownC, exit⟩⟩

theorem exitsEarly_iff {body : NodeId} (live : p.Live body) :
    exitsEarly p body = true ↔ ∃ m, p.Own body m ∧ (p.kind m).isExit = true := by
  have found (tag : NodeTag) : (!(p.collectOwn tag body).isEmpty) = true ↔
      ∃ m, p.Own body m ∧ (p.kind m).tag = tag := by
    rw [Bool.not_eq_true', List.isEmpty_eq_false_iff_exists_mem]
    simp only [tidy.sound.forest.mem_collectOwn live]
  simp only [exitsEarly, List.any_cons, List.any_nil, Bool.or_false, Bool.or_eq_true, found,
    NodeKind.isExit_iff]
  grind

/-- The rule counts what the walk counts, whatever the depths, if they suffice. -/
theorem definitions_eq_tally (depth depth' : Nat) {n : NodeId} (live : p.Live n)
    (room : p.nodes.size - (p.path n).length < depth)
    (room' : p.nodes.size - (p.path n).length < depth') :
    definitions p retVar depth n = (tally p retVar depth' n).count := by
  have forest := tidy.sound.forest
  induction depth generalizing depth' n with
  | zero => omega
  | succ depth ih =>
    cases depth' with
    | zero => omega
    | succ depth' =>
      have inside {c : NodeId} (child : c ∈ p.children n) :
          definitions p retVar depth c = (tally p retVar depth' c).count := by
        have closer := forest.room_child live child
        exact ih depth' (forest.child_live live child) (by omega) (by omega)
      by_cases plain : (p.kind n).isBlock = false ∧ (p.kind n).bodies = []
      · rw [definitions_of_leaf plain.1 plain.2, tally_of_leaf plain.1 plain.2, leaf]
      rw [definitions, tally]
      rw [Program.children] at inside
      cases kind : p.kind n with
      | block stmts =>
        rw [kind] at inside
        simp only [Tally.count_sum]
        refine List.foldr_ext _ _ _ fun s member rest => ?_
        rw [inside member]
      | cond test thenBlock elseBlock =>
        rw [kind] at inside
        have first := inside (c := thenBlock) (by simp [NodeKind.children])
        cases elseBlock with
        | none => simp [Tally.branch, Tally.zero]
        | some elseBlock =>
          have second := inside (c := elseBlock) (by simp [NodeKind.children])
          simp [Tally.branch, first, second]
      | loop test body testFirst =>
        cases testFirst with
        | true => rfl
        | false =>
          rw [kind] at inside
          have child : body ∈ p.children n := by simp [Program.children, kind, NodeKind.children]
          have closer := forest.room_child live child
          have liveB := forest.child_live live child
          have fits : p.Fits body .block :=
            (tidy.lawful live).fits (by simp [kind, NodeKind.slots])
          have isBlock : (p.kind body).isBlock = true := fits
          have fn : (p.kind body).isFnDef = false := by
            cases kindB : p.kind body <;> simp [kindB, NodeKind.isBlock] at isBlock
            rfl
          have exits : exitsEarly p body = (tally p retVar depth' body).exits := by
            rw [Bool.eq_iff_iff, exitsEarly_iff tidy liveB,
              exits_iff tidy depth' liveB fn (by omega)]
          simp only [Tally.turn, Bool.false_or, exits, inside (c := body) (by simp [NodeKind.children])]
      | forLoop => rfl
      | _ => exact absurd ⟨by rw [kind]; rfl, by rw [kind]; rfl⟩ plain

theorem definedOnAllPaths_eq {f : SymbolId} {body : NodeId} (found : p.fnBody? f = some body)
    (live : p.Live body) (depth : Nat) (room : p.nodes.size < depth) :
    definedOnAllPaths p f = (tally p (retVar? p f) depth body).count := by
  rw [definedOnAllPaths, found]
  exact definitions_eq_tally tidy _ depth live (by omega) (by omega)

end

end Check

end MiddleEnd
