import MiddleEnd.Proofs.Arena.Sound

namespace MiddleEnd

namespace NodeKind

theorem isExpr_iff {k : NodeKind} : k.isExpr = true ↔
    k.tag = .symRef ∨ k.tag = .call ∨ k.tag = .namedArg ∨ k.tag = .literal ∨ k.tag = .prim := by
  cases k <;> simp [isExpr, tag]

theorem defines?_of_expr {k : NodeKind} (expr : k.isExpr = true) : k.defines? = none := by
  cases k <;> simp_all [isExpr, defines?]

theorem not_expr_of_assign {k : NodeKind} (tag : k.tag = .assign) : k.isExpr = false := by
  cases k <;> simp [NodeKind.tag, isExpr] at tag ⊢

theorem not_expr_of_fnDef {k : NodeKind} (fnDef : k.isFnDef = true) : k.isExpr = false := by
  cases k <;> simp [isFnDef, isExpr] at fnDef ⊢

theorem isBlock_of_expr {k : NodeKind} (expr : k.isExpr = true) : k.isBlock = false := by
  cases k <;> simp_all [isExpr, isBlock]

theorem symRef?_isSome_iff {k : NodeKind} : k.symRef?.isSome = true ↔ k.tag = .symRef := by
  cases k <;> simp [symRef?, tag]

/-- Below an expression there are only places for expressions. -/
theorem slot_of_expr {k : NodeKind} {slot : Slot} {c : NodeId} (expr : k.isExpr = true)
    (member : (slot, c) ∈ k.slots) : slot = .expr := by
  cases k <;> simp_all [isExpr, slots]

/-- A place for a statement is a place in a block. -/
theorem slot_of_define {k : NodeKind} {slot : Slot} {c : NodeId} (tag : k.tag = .define)
    (member : (slot, c) ∈ k.slots) : slot = .expr := by
  cases k <;> simp [NodeKind.tag] at tag
  obtain ⟨_, _, same⟩ := List.mem_map.mp member
  cases same
  rfl

theorem slot_of_assign {k : NodeKind} {slot : Slot} {c : NodeId} (tag : k.tag = .assign)
    (member : (slot, c) ∈ k.slots) : slot = .expr := by
  cases k <;> simp [NodeKind.tag] at tag
  rcases List.mem_pair.mp member with same | same <;> cases same <;> rfl

theorem block_of_stmt_slot {k : NodeKind} {c : NodeId} (member : (Slot.stmt, c) ∈ k.slots) :
    k.isBlock = true := by
  cases k <;> simp_all [isBlock, slots]

end NodeKind

namespace Program

/-- Does the node suit the place? -/
def Fits (p : Program) (c : NodeId) : Slot → Prop
  | .expr => (p.kind c).isExpr = true
  | .test => (p.kind c).tag = .symRef
  | .block => (p.kind c).isBlock = true
  | .stmt => True
  | .index => (p.kind c).tag = .define ∧
      ∃ s, (p.kind c).defines? = some s ∧ (p.symbol s).kind.sort = .var
  | .formal => (p.kind c).tag = .define ∧
      ∃ s, (p.kind c).defines? = some s ∧ (p.symbol s).kind.sort = .arg

/-- What a node may be: its children suit their places, and it names symbols of the right sort. -/
structure Lawful (p : Program) (k : NodeKind) : Prop where
  fits {slot : Slot} {c : NodeId} : (slot, c) ∈ k.slots → p.Fits c slot
  defines_known {s : SymbolId} : k.defines? = some s → s.index < p.symbols.size
  defines_fn {s : SymbolId} : k.defines? = some s →
    (k.isFnDef = true ↔ (p.symbol s).kind.sort = .fn)
  defines_local {s : SymbolId} : k.defines? = some s → (p.symbol s).kind.sort ≠ .moduleRoot
  ref_value {v : SymbolId} : k.symRef? = some v →
    v.index < p.symbols.size ∧ (p.symbol v).isValue = true
  callee_fn {f : SymbolId} : k.callee? = some f → p.isFn f = true

variable {p q : Program}

/-- A construct without names of its own is lawful once its children suit their places. -/
theorem Lawful.of_silent {k : NodeKind} (defines : k.defines? = none) (ref : k.symRef? = none)
    (callee : k.callee? = none) (fits : ∀ slot c, (slot, c) ∈ k.slots → p.Fits c slot) :
    p.Lawful k where
  fits := fits _ _
  defines_known found := by rw [defines] at found; cases found
  defines_fn found := by rw [defines] at found; cases found
  defines_local found := by rw [defines] at found; cases found
  ref_value found := by rw [ref] at found; cases found
  callee_fn found := by rw [callee] at found; cases found

theorem isFn_iff_sort {f : SymbolId} : p.isFn f = true ↔ (p.symbol f).kind.sort = .fn :=
  Symbol.isFn_iff

theorem known_of_isFn {f : SymbolId} (fn : p.isFn f = true) : f.index < p.symbols.size := by
  by_contra unknown
  rw [isFn, symbol_of_not_known (Nat.not_lt.mp unknown)] at fn
  cases fn

/-- Whether a node suits a place depends on its construct and the symbol that it defines. -/
theorem Fits.mono {c : NodeId} {slot : Slot} (fits : p.Fits c slot)
    (head : (p.kind c).SameHead (q.kind c))
    (known : ∀ s, (p.kind c).defines? = some s → s.index < p.symbols.size)
    (sort : ∀ s, s.index < p.symbols.size → (q.symbol s).kind.sort = (p.symbol s).kind.sort) :
    q.Fits c slot := by
  have defined {expected : SymbolSort} : (p.kind c).tag = .define ∧
        (∃ s, (p.kind c).defines? = some s ∧ (p.symbol s).kind.sort = expected) →
      (q.kind c).tag = .define ∧
        ∃ s, (q.kind c).defines? = some s ∧ (q.symbol s).kind.sort = expected := by
    rintro ⟨tag, s, defines, sorted⟩
    exact ⟨head.tag.trans tag, s, head.defines.trans defines,
      (sort s (known s defines)).trans sorted⟩
  cases slot with
  | expr =>
    rw [Fits, NodeKind.isExpr_iff, head.tag, ← NodeKind.isExpr_iff]
    exact fits
  | test => exact head.tag.trans fits
  | block => exact head.isBlock.trans fits
  | stmt => trivial
  | index => exact defined fits
  | formal => exact defined fits

/-- A node stays lawful when its children keep their constructs and symbols keep their sorts. -/
theorem Lawful.mono {k : NodeKind} (lawful : p.Lawful k)
    (head : ∀ c ∈ k.children, (p.kind c).SameHead (q.kind c))
    (known : ∀ c ∈ k.children, ∀ s, (p.kind c).defines? = some s → s.index < p.symbols.size)
    (size : p.symbols.size ≤ q.symbols.size)
    (sort : ∀ s, s.index < p.symbols.size → (q.symbol s).kind.sort = (p.symbol s).kind.sort) :
    q.Lawful k where
  fits {slot c} member := by
    have child : c ∈ k.children := NodeKind.mem_children_iff.mpr ⟨slot, member⟩
    exact (lawful.fits member).mono (head c child) (known c child) sort
  defines_known defines := Nat.lt_of_lt_of_le (lawful.defines_known defines) size
  defines_fn defines := by
    rw [sort _ (lawful.defines_known defines)]
    exact lawful.defines_fn defines
  defines_local defines := by
    rw [sort _ (lawful.defines_known defines)]
    exact lawful.defines_local defines
  ref_value {v} ref := by
    obtain ⟨knownV, value⟩ := lawful.ref_value ref
    refine ⟨Nat.lt_of_lt_of_le knownV size, ?_⟩
    rw [Symbol.isValue_iff, sort v knownV, ← Symbol.isValue_iff]
    exact value
  callee_fn {f} callee := by
    have fn := lawful.callee_fn callee
    rw [isFn_iff_sort, sort f (known_of_isFn fn), ← isFn_iff_sort]
    exact fn

/-- A sound program in which every symbol is alive and every live node is lawful. -/
structure Tidy (p : Program) : Prop where
  sound : p.Sound
  symbols_live {s : SymbolId} : s.index < p.symbols.size → (p.symbol s).live = true
  lawful {n : NodeId} : p.Live n → p.Lawful (p.kind n)

/-- A program that a pass may hand on: every call list is made of calls that can be reached and
call the function. -/
structure Settled (p : Program) : Prop extends Tidy p where
  callers {f : SymbolId} {c : NodeId} : c ∈ (p.symbol f).callers →
    p.Reached c ∧ p.callee? c = some f

namespace Tidy

theorem slot_of_child (tidy : p.Tidy) {n c : NodeId} (live : p.Live n)
    (child : c ∈ p.children n) : ∃ slot, (slot, c) ∈ (p.kind n).slots ∧ p.Fits c slot := by
  obtain ⟨slot, member⟩ := NodeKind.mem_children_iff.mp child
  exact ⟨slot, member, (tidy.lawful live).fits member⟩

/-- Below an expression there are expressions only. -/
theorem expr_of_above (tidy : p.Tidy) {e n : NodeId} (expr : (p.kind e).isExpr = true)
    (live : p.Live n) (above : p.Above e n) : (p.kind n).isExpr = true := by
  induction above with
  | refl => exact expr
  | @up n owner link _ ih =>
    have ownerLive := tidy.sound.forest.owner_live live link
    obtain ⟨slot, member, fits⟩ :=
      tidy.slot_of_child ownerLive (tidy.sound.forest.owner_lists live link)
    cases NodeKind.slot_of_expr (ih ownerLive) member
    exact fits

/-- Below a node that owns only expressions there are only expressions. -/
theorem expr_below (tidy : p.Tidy) {d n : NodeId}
    (only : ∀ {slot c}, (slot, c) ∈ (p.kind d).slots → slot = .expr) (live : p.Live n)
    (above : p.Above d n) (different : d ≠ n) : (p.kind n).isExpr = true := by
  obtain ⟨c, child, below⟩ := tidy.sound.forest.child_above above live different
  obtain ⟨slot, member, fits⟩ :=
    tidy.slot_of_child (tidy.sound.forest.live_of_above above live) child
  cases only member
  exact tidy.expr_of_above fits live below

/-- What fits no other place stands in a block. -/
theorem block_of_owner (tidy : p.Tidy) {n owner : NodeId} (live : p.Live n)
    (link : p.parent? n = some owner) (only : ∀ slot, p.Fits n slot → slot = .stmt) :
    (p.kind owner).isBlock = true := by
  have ownerLive := tidy.sound.forest.owner_live live link
  obtain ⟨slot, member, fits⟩ :=
    tidy.slot_of_child ownerLive (tidy.sound.forest.owner_lists live link)
  exact NodeKind.block_of_stmt_slot (only slot fits ▸ member)

/-- A function is defined in a block. -/
theorem block_of_fnDef (tidy : p.Tidy) {n owner : NodeId} (live : p.Live n)
    (link : p.parent? n = some owner) (fn : (p.kind n).isFnDef = true) :
    (p.kind owner).isBlock = true := by
  refine tidy.block_of_owner live link fun slot fits => ?_
  rw [NodeKind.isFnDef_iff] at fn
  cases slot with
  | expr => simp [Fits, NodeKind.isExpr_iff, fn] at fits
  | test => simp [Fits, fn] at fits
  | block => simp [Fits, NodeKind.isBlock_iff, fn] at fits
  | stmt => rfl
  | index | formal => simp [Fits, fn] at fits

/-- The only definition of a function is a definition with formals and a body. -/
theorem isFnDef_of_defines (tidy : p.Tidy) {n : NodeId} {f : SymbolId} (live : p.Live n)
    (defines : (p.kind n).defines? = some f) (fn : p.isFn f = true) :
    (p.kind n).isFnDef = true :=
  ((tidy.lawful live).defines_fn defines).mpr (isFn_iff_sort.mp fn)

end Tidy

end Program

end MiddleEnd
