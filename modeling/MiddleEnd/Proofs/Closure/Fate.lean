import MiddleEnd.Proofs.Closure.Course

/-! What becomes of the statements of a function and of their operands. -/

namespace MiddleEnd

open Outcome

namespace Rework

variable {w : Rework} {k : NodeKind} {n c : NodeId}

theorem swap_mem_children (child : c ∈ k.children) : w.swap c ∈ (w.kind n k).children := by
  cases k with
  | call callee name args => exact List.mem_append_left _ (List.mem_map_of_mem child)
  | fnDef sym formals body =>
    rcases List.mem_append.mp child with formal | isBody
    · exact List.mem_append_left _ (List.mem_append_left _ (List.mem_map_of_mem formal))
    · rw [List.mem_singleton.mp isBody]
      exact List.mem_append_right _ List.mem_cons_self
  | block stmts => exact List.mem_flatMap.mpr ⟨c, child, by simp⟩
  | _ => simp_all [kind, NodeKind.mapChildren, NodeKind.children] <;> grind

end Rework

namespace Closure

open Program

variable {p t : Program} {f : SymbolId} {n : NodeId} {w : Rework}

/-- The node stands in the function `f` directly below a statement or a definition. -/
structure Within (p : Program) (f : SymbolId) (n : NodeId) : Prop where
  below : ∃ owner, p.Reached owner ∧ (p.kind owner).isExpr = false ∧ n ∈ p.children owner
  scope : p.scope? n = some f

namespace Within

variable (within : Within p f n)

include within

theorem reached : p.Reached n := by
  obtain ⟨owner, reached, _, child⟩ := within.below
  exact reached.child child

theorem not_address (sound : p.Sound) (prim : NodeId) : useOf p n ≠ .addressOf prim := by
  intro use
  obtain ⟨owner, reached, plain, child⟩ := within.below
  have link := sound.forest.child_parent (sound.live_of_reached reached) child
  rcases useOf_cases p n with ⟨prim', args, here, linkP, kind⟩ | ⟨_, _, here, _⟩ | here
  · cases link.symm.trans linkP
    rw [kind] at plain
    cases plain
  · cases use.symm.trans here
  · cases use.symm.trans here

variable (evolved : Evolved p w t)

include evolved

/-- What takes the place of the node can be reached. -/
theorem reached_swap : t.Reached (w.swap n) := by
  obtain ⟨owner, reached, plain, child⟩ := within.below
  have reachedT := evolved.stage.frame.kept reached (.inl plain)
  have noRef : (p.kind owner).symRef? = none := by
    cases kind : p.kind owner <;> simp [kind, NodeKind.isExpr] at plain <;> rfl
  refine reachedT.child ?_
  rw [children, evolved.reworked.kind (evolved.stage.base_sound.live_of_reached reached).known
    (evolved.sound.live_of_reached reachedT) noRef]
  exact Rework.swap_mem_children child

/-- A statement stays in its place. -/
theorem swap_of_plain (plain : (p.kind n).isExpr = false) : w.swap n = n := by
  obtain ⟨owner, reached, _, child⟩ := within.below
  exact evolved.reworked.swap_of_live evolved.stage.base_sound evolved.sound evolved.stage.frame
    reached child (evolved.sound.live_of_reached (evolved.stage.frame.kept within.reached (.inl plain)))

end Within

/-- The node may give way: it refers to a captured variable or takes an address. -/
def Yielding (p : Program) (captured : List SymbolId) (n : NodeId) : Prop :=
  (∃ v ∈ captured, p.kind n = .symRef v) ∨ ∃ args, p.kind n = .prim .addrOf args

/-- The node is a reference to a new symbol, or a new dereference. -/
def Coming (p t : Program) (n : NodeId) : Prop :=
  (∃ v, p.symbols.size ≤ v.index ∧ t.kind n = .symRef v) ∨
    p.nodes.size ≤ n.index ∧ ∃ args, t.kind n = .prim .deref args

/-- What has become of a node of a function: it is where it was, or something new has taken its
place, or has become of it. -/
inductive Fate (p : Program) (captured : List SymbolId) (w : Rework) (t : Program) (n : NodeId) :
    Prop where
  | kept (swap : w.swap n = n) (ref : ∀ v, p.kind n = .symRef v → t.kind n = .symRef v)
  | turned (before : Yielding p captured n) (now : Coming p t (w.swap n))

theorem Lot.fate {given : SymbolId → List SymbolId} {hoists : NodeId → List (NodeId × NodeId)}
    {captured : List SymbolId} (lot : Lot p given w t hoists f n) (listed : given f ⊆ captured)
    (notAddress : ∀ prim, useOf p n ≠ .addressOf prim) : Fate p captured w t n := by
  cases lot with
  | kept swap ref => exact .kept swap ref
  | aimed before _ swap now =>
    obtain ⟨formal, fresh, ref, stands⟩ := now
    exact .turned (.inl ⟨_, listed stands.captured, before⟩) (.inl ⟨formal, fresh, by rw [swap, ref]⟩)
  | placed before _ _ now =>
    obtain ⟨isNew, x, deref, _, _, _, stands⟩ := now
    exact .turned (.inl ⟨_, listed stands.captured, before⟩) (.inr ⟨isNew, [x], deref⟩)
  | moved _ hoist =>
    obtain ⟨v, temp, e, before, _, fresh, ref, _, _, _, _, _, _, _, stands⟩ := hoist.stored
    exact .turned (.inl ⟨v, listed stands.captured, before⟩) (.inl ⟨temp, fresh, ref⟩)
  | addressed before _ _ _ _ now =>
    obtain ⟨formal, fresh, ref, _⟩ := now
    exact .turned (.inr ⟨_, before⟩) (.inl ⟨formal, fresh, ref⟩)
  | buried _ use _ => exact absurd use (notAddress _)

section

variable {captures : Captures} {passed : List NodeId} {first : Rework} {start : Program}
  {given : SymbolId → List SymbolId} (supplying : Supplying p first passed start)

include supplying

/-- What has been put in front of a statement for actuals is still there. -/
theorem Underway.quiet (underway : Underway p captures passed first start given w t) {s d : NodeId}
    (member : d ∈ first.front s) : Quiet p t d :=
  (supplying.quiet member).2.retain supplying.apart underway.retains supplying.evolved.reworked member

variable (known : ∀ f, ∀ v ∈ captures.of f, v.index < p.symbols.size)
  (run : Converting p captures passed first start given w t)

include known run

/-- What becomes of a node of a function, all along the conversion. -/
theorem Converting.fate (within : Within p f n) : Fate p (captures.of f) w t n := by
  have underway := run.underway supplying known
  obtain ⟨hoists, course⟩ := run.course supplying known
  exact (course.lot within.reached within.scope).fate (underway.given_le f).subset
    (within.not_address underway.evolved.stage.base_sound)

/-- What comes in front of a statement defines a variable. -/
theorem Converting.front_define {s e : NodeId} (member : e ∈ w.front s) :
    ∃ temp init, t.kind e = .define temp (some init) := by
  obtain ⟨hoists, course⟩ := run.course supplying known
  rw [course.front, List.mem_append] at member
  rcases member with actual | read
  · obtain ⟨temp, init, _, define, _⟩ := (run.underway supplying known).quiet supplying actual
    exact ⟨temp, init, define⟩
  · obtain ⟨⟨n, e⟩, listed, rfl⟩ := List.mem_map.mp read
    obtain ⟨_, _, _, hoist⟩ := course.hoist listed
    obtain ⟨_, temp, init, _, _, _, _, define, _⟩ := hoist.stored
    exact ⟨temp, init, define⟩

end

end Closure

end MiddleEnd
