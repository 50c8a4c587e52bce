import MiddleEnd.Proofs.Closure.Rework

namespace MiddleEnd

namespace Closure

/-- References may lead anywhere. -/
abbrev Anywhere : NodeId → SymbolId → SymbolId → Prop := fun _ _ _ => True

end Closure

namespace Program

open Closure (Anywhere)

variable {p t q : Program} {w : Rework} {targets : SymbolId → Prop}

/-- The program `t` has come from `p` by the rework `w`. -/
structure Evolved (p : Program) (w : Rework) (t : Program) : Prop where
  stage : Stage p Anywhere t
  reworked : Reworked p w t

namespace Evolved

theorem sound (evolved : Evolved p w t) : t.Sound := evolved.stage.settled.sound

theorem size (evolved : Evolved p w t) : p.nodes.size ≤ t.nodes.size := evolved.stage.frame.size

theorem refl (settled : p.Settled) : Evolved p .unchanged p where
  stage := .refl settled fun _ _ _ _ _ _ _ => .inr trivial
  reworked := .refl

/-- A new symbol changes nothing that is there. -/
theorem addSymbol (evolved : Evolved p w t) {sym : Symbol} (live : sym.live = true)
    (uncalled : sym.callers = []) : Evolved p w (t.addSymbol sym).2 where
  stage := evolved.stage.addSymbol live uncalled
  reworked := evolved.reworked.mono (fun _ _ => id) (fun _ _ _ => rfl) fun _ _ _ => .inl

/-- A new node changes nothing that is there. -/
theorem addNode (evolved : Evolved p w t) {kind : NodeKind} {tag : NodeTag} {span : Span}
    (sprouts : Sprouts p Anywhere t targets tag (t.addNode kind span).1 (t.addNode kind span).2)
    (young : ∀ c ∈ kind.children, p.nodes.size ≤ c.index) :
    Evolved p w (t.addNode kind span).2 where
  stage := sprouts.stage
  reworked := by
    refine evolved.reworked.mono
      (fun n known live => sprouts.frame.live (known.trans_le evolved.size) live)
      (fun n known _ => ?_) fun n _ c child => ?_
    · rw [kind_addNode, if_neg]
      rintro rfl
      exact absurd known (Nat.not_lt.mpr evolved.size)
    · rw [children, kind_addNode] at child
      split at child
      · exact .inr (young c child)
      · exact .inl child

theorem attachFlag (evolved : Evolved p w t) (s : SymbolId) (flag : Flag) :
    Evolved p w (t.attachFlag s flag) where
  stage := evolved.stage.relabel (relabel_attachFlag s flag)
  reworked := evolved.reworked.mono (fun _ _ => id) (fun _ _ _ => rfl) fun _ _ _ => .inl

end Evolved

/-- What building a new node in an evolved program does. -/
structure Makes (p : Program) (w : Rework) (t : Program) (targets : SymbolId → Prop)
    (kind : NodeKind) (id : NodeId) (q : Program) : Prop where
  evolved : Evolved p w q
  frame : Frame t q
  lives {n : NodeId} : t.Live n → q.Live n
  sprig : q.Sprig id targets
  retains (loose : NodeId → Prop) : Retains p.nodes.size loose t q
  size : q.nodes.size = t.nodes.size + 1
  id_eq : id = ⟨t.nodes.size⟩
  kind_id : q.kind id = kind
  others {n : NodeId} : n.index < t.nodes.size → q.kind n = t.kind n

namespace Makes

variable {kind : NodeKind} {id : NodeId}

theorem isNew (makes : Makes p w t targets kind id q) (evolved : Evolved p w t) :
    p.nodes.size ≤ id.index := by
  rw [makes.id_eq]
  exact evolved.size

theorem eq_id (makes : Makes p w t targets kind id q) {n : NodeId}
    (above : t.nodes.size ≤ n.index) (below : n.index < q.nodes.size) : n = id := by
  rw [makes.id_eq, ← NodeId.index_inj]
  rw [makes.size] at below
  simp only
  omega

end Makes

theorem Evolved.makes (evolved : Evolved p w t) {kind : NodeKind} {tag : NodeTag} {span : Span}
    (sprouts : Sprouts p Anywhere t targets tag (t.addNode kind span).1 (t.addNode kind span).2)
    (young : ∀ c ∈ kind.children, p.nodes.size ≤ c.index) :
    Makes p w t targets kind (t.addNode kind span).1 (t.addNode kind span).2 where
  evolved := evolved.addNode sprouts young
  frame := sprouts.frame
  lives := sprouts.lives
  sprig := sprouts.sprig
  retains _ := .addNode ..
  size := (size_addNode ..).1
  id_eq := rfl
  kind_id := by
    rw [kind_addNode]
    exact if_pos rfl
  others {n} known := by
    rw [kind_addNode, if_neg]
    rintro rfl
    exact Nat.lt_irrefl _ known

theorem Evolved.makesRef (evolved : Evolved p w t) {v : SymbolId}
    (known : v.index < t.symbols.size) (value : (t.symbol v).isValue = true) (span : Span) :
    Makes p w t (· = v) (.symRef v) (t.addRef v span).1 (t.addRef v span).2 :=
  evolved.makes (evolved.stage.addRef known value span) fun _ child => absurd child List.not_mem_nil

theorem Evolved.makesPrim (evolved : Evolved p w t) {arg : NodeId} (sprig : t.Sprig arg targets)
    (expr : (t.kind arg).isExpr = true) (isNew : p.nodes.size ≤ arg.index) (op : PrimOp)
    (span : Span) :
    Makes p w t targets (.prim op [arg]) (t.addNode (.prim op [arg]) span).1
      (t.addNode (.prim op [arg]) span).2 :=
  evolved.makes (evolved.stage.addPrim sprig expr op span) fun _ child =>
    List.mem_singleton.mp child ▸ isNew

theorem Evolved.makesDefinition (evolved : Evolved p w t) {s : SymbolId} (fresh : t.Undefined s)
    (value : Option NodeId) (sprigs : ∀ c ∈ value, t.Sprig c targets)
    (exprs : ∀ c ∈ value, (t.kind c).isExpr = true) (new : ∀ c ∈ value, p.nodes.size ≤ c.index)
    (span : Span) :
    Makes p w t targets (.define s value) (t.addDefinition s value span).1
      (t.addDefinition s value span).2 :=
  evolved.makes (evolved.stage.addDefinition fresh value sprigs exprs span).1 fun c child =>
    new c (Option.mem_toList.mp child)

/-- What putting a new node into the tree of an evolved program does. -/
structure Attaches (p : Program) (w : Rework) (t q : Program) : Prop where
  evolved : Evolved p w q
  frame : Frame t q
  retains (loose : NodeId → Prop) : Retains p.nodes.size loose t q
  size : q.nodes.size = t.nodes.size

theorem Evolved.insertBefore (evolved : Evolved p w t) {anchor node : NodeId}
    (sprig : t.Sprig node targets) (standing : p.Standing anchor)
    (result : t.insertBefore anchor node = .ok q) (isNew : p.nodes.size ≤ node.index) :
    Attaches p (w.insert anchor node) t q ∧ (∀ n, t.Live n → q.Live n) ∧
      ∀ n, (t.kind n).isBlock = false → q.kind n = t.kind n := by
  have live := live_of_insertBefore evolved.sound result
  have frame := evolved.stage.frame
  obtain ⟨stage, _, _, attached⟩ := evolved.stage.insertBefore sprig result
    (frame.standing evolved.stage.base_sound standing live) fun _ _ _ _ _ _ => .inr trivial
  obtain ⟨owner, link, edit⟩ := insertNear_edit evolved.sound result
  have linkP := (frame.parent standing.1 live).symm.trans link
  have known := evolved.stage.base_sound.forest.owner_known linkP
  refine ⟨⟨⟨stage, evolved.reworked.insertBefore evolved.stage.base_sound evolved.sound frame
    standing result isNew⟩, attached.frame, fun _ => .edit edit (span_of_insertBefore evolved.sound.forest result) known,
    edit.size⟩, fun _ => attached.lives, fun n notBlock => edit.kind_of_ne ?_⟩
  rintro rfl
  obtain ⟨_, b, linkB, isBlock⟩ := standing
  cases Option.some.inj (linkB.symm.trans linkP)
  rw [isBlock_of_tag (frame.tag known), isBlock] at notBlock
  cases notBlock

theorem Evolved.append (evolved : Evolved p w t) {owner node : NodeId}
    (sprig : t.Sprig node targets) (result : t.append owner node = .ok q)
    (fits : t.Fits node (t.kind owner).listSlot) (reached : p.Reached owner)
    (lists : (p.kind owner).tag = .call ∨ (p.kind owner).tag = .fnDef)
    (isNew : p.nodes.size ≤ node.index) :
    Attaches p (w.add owner node) t q ∧ (∀ n, t.Live n → q.Live n) ∧
      ∀ n, n ≠ owner → q.kind n = t.kind n := by
  have live := live_of_append evolved.sound result
  have known := (evolved.stage.base_sound.live_of_reached reached).known
  obtain ⟨stage, attached⟩ := evolved.stage.append sprig result fits
    (evolved.stage.frame.kept reached (.inr live)) fun _ _ _ _ _ _ => .inr trivial
  have edit := append_edit evolved.sound result
  exact ⟨⟨⟨stage, evolved.reworked.append evolved.sound result known isNew lists⟩, attached.frame,
    fun _ => .edit edit (span_of_append result) known, edit.size⟩, fun _ => attached.lives,
    fun n => edit.kind_of_ne⟩

/-- A new tree takes the place of an old expression, which is destroyed. -/
theorem Evolved.replace (evolved : Evolved p w t) {old new : NodeId} (sprig : t.Sprig new targets)
    (result : t.replace old new = .ok q) (expr : (t.kind old).isExpr = true)
    (reached : t.Reached old)
    (fits : ∀ {owner slot}, t.parent? old = some owner → (slot, old) ∈ (t.kind owner).slots →
      t.Fits new slot)
    (known : old.index < p.nodes.size) (isNew : p.nodes.size ≤ new.index) :
    Attaches p (w.replace old new) t q ∧ (∀ n, t.Above old n → ¬ q.Live n) ∧
      ∀ n v, t.kind n = .symRef v → q.kind n = .symRef v := by
  obtain ⟨stage, frame, dead⟩ := evolved.stage.replace sprig result expr reached fits
    fun _ _ _ _ _ _ => .inr trivial
  obtain ⟨owner, link, edit⟩ := replace_edit evolved.sound result
  have lists := evolved.sound.forest.owner_lists (edit.gone_live rfl) link
  have knownOwner : owner.index < p.nodes.size := by
    by_contra unknown
    exact absurd known
      (Nat.not_lt.mpr (evolved.reworked.young (Nat.not_lt.mp unknown) lists))
  refine ⟨⟨⟨stage, evolved.reworked.replace evolved.sound result known isNew⟩, frame,
    fun _ => .edit edit (span_of_replace evolved.sound.forest result) knownOwner, edit.size⟩, dead, fun n v ref => ?_⟩
  rw [edit.kind_of_ne, ref]
  rintro rfl
  rw [children, ref] at lists
  cases lists

/-- A reference names another symbol. -/
theorem Evolved.setRef (evolved : Evolved p w t) {node : NodeId} {v f : SymbolId}
    (result : t.setRef node v = .ok q) (known : v.index < t.symbols.size)
    (value : (t.symbol v).isValue = true) (scope : t.scope? node = some f) (home : t.Home v f) :
    Evolved p w q ∧ Frame t q ∧ ∀ n, q.kind n = if n = node then .symRef v else t.kind n := by
  obtain ⟨stage, frame, _⟩ := evolved.stage.setRef result known value scope home
  have kinds := kind_of_setRef result
  obtain ⟨live, ⟨old, ref⟩, _⟩ := setRef_eq_ok_iff.mp result
  refine ⟨⟨stage, evolved.reworked.mono
    (fun n knownN liveQ => frame.live (knownN.trans_le evolved.size) liveQ)
    (fun n knownN noRef => ?_) fun n _ c child => .inl ?_⟩, frame, kinds⟩
  · rw [kinds, if_neg]
    rintro rfl
    have tag := evolved.stage.frame.tag knownN
    rw [ref] at tag
    exact absurd noRef (Option.isSome_iff_ne_none.mp (NodeKind.symRef?_isSome_iff.mpr tag.symm))
  · rw [children, kinds] at child
    split at child
    · cases child
    · exact child

end Program

end MiddleEnd
