import MiddleEnd.Proofs.Closure.Returns
import MiddleEnd.Proofs.Flow.Jumps

/-! Closure conversion changes nothing in which functions have a flow graph. -/

namespace MiddleEnd

open Outcome

namespace Rework

variable {w : Rework} {k : NodeKind} {n : NodeId}

theorem isBlock_kind : (w.kind n k).isBlock = k.isBlock := by
  cases k <;> rfl

theorem bodies_kind : (w.kind n k).bodies = k.bodies.map w.swap := by
  cases k with
  | cond test thenBlock elseBlock => cases elseBlock <;> rfl
  | _ => rfl

theorem keep_kind {α : Type} {keep : NodeKind → Option α} (ofJumps : NodeKind.OfJumps keep) :
    keep (w.kind n k) = keep k := by
  cases k with
  | goto | label => rfl
  | _ => exact (ofJumps _ (by nofun) (by nofun)).trans (ofJumps _ (by nofun) (by nofun)).symm

end Rework

namespace Closure

open MiddleEnd.Flow Program

variable {α : Type} {keep : NodeKind → Option α} {p t q start : Program} {f : SymbolId} {n : NodeId}
  {w first : Rework} {captures : Captures} {passed : List NodeId} {given : SymbolId → List SymbolId}

section

variable (settled : p.Settled) (supplying : Supplying p first passed start)
  (known : ∀ f, ∀ v ∈ captures.of f, v.index < p.symbols.size)
  (run : Converting p captures passed first start given w t) (ofJumps : NodeKind.OfJumps keep)

include settled supplying known run ofJumps

/-- What comes in front of the statements of a block is neither a jump nor a label. -/
theorem kept_in_block {depth : Nat} (within : Within p f n) (isBlock : (p.kind n).isBlock = true)
    (each : ∀ c ∈ p.children n, keptIn t keep depth (w.swap c) = keptIn p keep depth c) :
    (t.children (w.swap n)).flatMap (keptIn t keep depth) =
      (p.children n).flatMap (keptIn p keep depth) := by
  have evolved := (run.underway supplying known).evolved
  cases kind : p.kind n <;> simp [kind, NodeKind.isBlock] at isBlock
  rename_i stmts
  have swap := within.swap_of_plain evolved (by rw [kind]; rfl)
  have live := evolved.sound.live_of_reached (within.reached_swap evolved)
  rw [swap] at live ⊢
  have kindT := evolved.reworked.kind (settled.sound.live_of_reached within.reached).known live
    (by rw [kind]; rfl)
  rw [children, kindT, kind, Rework.kind, NodeKind.children, List.flatMap_assoc, children, kind,
    NodeKind.children]
  rw [children, kind, NodeKind.children] at each
  refine List.flatMap_congr fun s member => ?_
  have front : (w.front s).flatMap (keptIn t keep depth) = [] := by
    refine List.flatMap_eq_nil_iff.mpr fun e inFront => ?_
    obtain ⟨temp, init, define⟩ := run.front_define supplying known inFront
    exact keptIn_of_quiet ofJumps (.of_defines (s := temp) (by rw [define]; rfl)) depth
  rw [List.flatMap_append, front, List.nil_append, List.flatMap_singleton, each s member]

/-- A statement has the jumps and the labels that it had. -/
theorem kept_of_converting (depth : Nat) (within : Within p f n) :
    keptIn t keep depth (w.swap n) = keptIn p keep depth n := by
  have evolved := (run.underway supplying known).evolved
  induction depth generalizing n with
  | zero => rfl
  | succ depth ih =>
    cases expr : (p.kind n).isExpr with
    | true =>
      have exprT := (run.fate supplying known within).expr evolved within expr
      rw [keptIn_of_quiet ofJumps (.of_expr exprT), keptIn_of_quiet ofJumps (.of_expr expr)]
    | false =>
      have swap := within.swap_of_plain evolved expr
      have liveP := settled.sound.live_of_reached within.reached
      have live := evolved.sound.live_of_reached (within.reached_swap evolved)
      have noRef : (p.kind n).symRef? = none := by
        cases kind : p.kind n <;> simp [kind, NodeKind.isExpr] at expr <;> rfl
      rw [swap] at live ⊢
      have kindT := evolved.reworked.kind liveP.known live noRef
      have inside {block : NodeId} (within : Within p f block)
          (isBlock : (p.kind block).isBlock = true) :=
        kept_in_block settled supplying known run ofJumps within isBlock fun c child =>
          ih (within.child settled.sound (by
            cases kind : p.kind block <;> simp [kind, NodeKind.isBlock] at isBlock
            rfl) (NodeKind.not_fnDef_of_block isBlock) child)
      rw [keptIn_succ, keptIn_succ, kindT, Rework.keep_kind ofJumps, Rework.isBlock_kind,
        Rework.bodies_kind]
      congr 1
      cases isBlock : (p.kind n).isBlock with
      | true =>
        simp only [if_true, List.flatMap_singleton]
        have here := inside within isBlock
        rwa [swap] at here
      | false =>
        simp only [Bool.false_eq_true, if_false, List.flatMap_map]
        refine List.flatMap_congr fun block body => ?_
        have plain := NodeKind.not_fnDef_of_part (List.mem_append_left (p.kind n).operands body)
        have member : (Slot.block, block) ∈ (p.kind n).slots := by
          cases kind : p.kind n <;> simp_all [NodeKind.bodies, NodeKind.slots]
        have fits : p.Fits block .block := (settled.lawful liveP).fits member
        exact inside (within.child settled.sound expr plain (NodeKind.child_of_body body)) fits

end

/-- Neither a jump nor a label moves out. -/
theorem kept_of_relocates (moved : Relocates t q) (ofJumps : NodeKind.OfJumps keep) (depth : Nat)
    (n : NodeId) : keptIn q keep depth n = keptIn t keep depth n := by
  have leaves {r : Program} {s : NodeId} (out : r.stays s = false) (depth : Nat) :
      keptIn r keep depth s = [] := by
    refine keptIn_of_quiet ofJumps ?_ depth
    cases defines : (r.kind s).defines? with
    | some v => exact .of_defines defines
    | none =>
      cases kind : r.kind s <;> simp [stays, kind, NodeKind.defines?, NodeKind.isFnDef] at out defines
  induction depth generalizing n with
  | zero => rfl
  | succ depth ih =>
    have inside (block : NodeId) : (q.children block).flatMap (keptIn q keep depth) =
        (t.children block).flatMap (keptIn t keep depth) := by
      cases isBlock : (t.kind block).isBlock with
      | false =>
        rw [children, moved.order.kind isBlock]
        exact List.flatMap_congr fun c _ => ih c
      | true =>
        cases kind : t.kind block <;> simp [kind, NodeKind.isBlock] at isBlock
        rename_i stmts
        obtain ⟨stmts', kindQ, order⟩ := moved.order.block kind
        have staying (ids : List NodeId) : (ids.filter t.stays).flatMap (keptIn q keep depth) =
            ids.flatMap (keptIn q keep depth) := by
          induction ids with
          | nil => rfl
          | cons s rest ihIds =>
            cases stands : t.stays s with
            | true => rw [List.filter_cons_of_pos stands, List.flatMap_cons, List.flatMap_cons, ihIds]
            | false =>
              rw [List.filter_cons_of_neg (by simp [stands]), List.flatMap_cons, ihIds,
                leaves (by rwa [moved.stays_eq]) depth, List.nil_append]
        rw [children, kindQ, children, kind, NodeKind.children, NodeKind.children, ← staying stmts',
          order, staying stmts]
        exact List.flatMap_congr fun c _ => ih c
    have same : keep (q.kind n) = keep (t.kind n) := by
      cases isBlock : (t.kind n).isBlock with
      | false => rw [moved.order.kind isBlock]
      | true =>
        have tag := NodeKind.isBlock_iff.mp isBlock
        have tagQ := (moved.head n).tag.trans tag
        rw [ofJumps _ (by simp [tagQ]) (by simp [tagQ]), ofJumps _ (by simp [tag]) (by simp [tag])]
    rw [keptIn_succ, keptIn_succ, same, (moved.head n).isBlock, funext inside]
    cases isBlock : (t.kind n).isBlock with
    | true => rfl
    | false => rw [moved.order.kind isBlock]

/-- A function keeps its jumps and its labels. -/
theorem Transforms.sameJumps {d : NodeId}
    (transforms : Transforms p (.compute p (.build p)) passed first start w t q)
    (settled : p.Settled) (settledQ : q.Settled) (placed : p.Placed f d) : SameJumps p q f := by
  obtain ⟨body, found, foundQ, within, swap⟩ := transforms.fnBody? settled settledQ placed
  have placedQ := transforms.moved.placed (transforms.placed settled placed)
  have name := (transforms.lasts (settled.sound.bound_known placed.2.2)).name
  refine .of_kept settled.toTidy settledQ.toTidy placed placedQ name found foundQ
    fun keep ofJumps depth => ?_
  have converted := kept_of_converting settled transforms.supplying
    (fun _ _ => Captures.known_of_mem) transforms.run ofJumps depth within
  rw [swap] at converted
  rw [kept_of_relocates transforms.moved ofJumps, converted]

/-- After closure conversion a function has no flow graph exactly if it had none before, and for the
same reason. -/
theorem flatten_keeps_jumps {result : TransformResult} (convertible : Convertible p)
    (converts : flatten p = .ok result q) : KeepsJumps p q := by
  have settled := convertible.settled
  have settledQ := ((flatten_converts settled convertible.lexical).of_ok converts).1.settled
  rcases (flatten_transforming convertible).of_ok converts with
    ⟨_, rfl⟩ | ⟨plans, passed, first, start, w, t, _, _, _, transforms⟩
  · exact .refl
  · have placed {f : SymbolId} (listed : f ∈ p.registries.fns) := settled.placed_of_registered listed
    refine ⟨(transforms.fns_perm settled settledQ).mem_iff, fun listed => ?_, fun listed => ?_⟩
    · obtain ⟨d, placed⟩ := placed listed
      exact (transforms.lasts (settled.sound.bound_known placed.2.2)).flags _ (by decide) (by decide)
    · obtain ⟨d, placed⟩ := placed listed
      exact (transforms.sameJumps settled settledQ placed).build_eq_error settled.toTidy
        settledQ.toTidy placed (transforms.moved.placed (transforms.placed settled placed))

end Closure

end MiddleEnd
