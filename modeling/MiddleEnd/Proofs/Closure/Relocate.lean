import MiddleEnd.Proofs.Closure.PassCaptures
import MiddleEnd.Proofs.Closure.Rework

namespace MiddleEnd

open Outcome

theorem Symbol.isType_iff {s : Symbol} : s.isType = true ↔ s.kind.sort = .type := by
  rw [isType]
  cases s.kind <;> simp [SymbolKind.sort]

namespace Program

variable {p q r : Program}

/-- Does a statement stay in its block when functions move out with their types? -/
def stays (p : Program) (n : NodeId) : Bool :=
  !(p.kind n).isFnDef && !(p.kind n).defines?.any fun s => (p.symbol s).isType

/-- Constructs are as before, and so are blocks, as far as the statements in `keep` go. -/
structure Reorders (keep : NodeId → Bool) (p q : Program) : Prop where
  kind {n : NodeId} : (p.kind n).isBlock = false → q.kind n = p.kind n
  block {b : NodeId} {stmts : List NodeId} : p.kind b = .block stmts →
    ∃ stmts', q.kind b = .block stmts' ∧ stmts'.filter keep = stmts.filter keep

namespace Reorders

variable {keep : NodeId → Bool}

theorem of_kinds (kinds : ∀ n, q.kind n = p.kind n) : Reorders keep p q where
  kind _ := kinds _
  block {b stmts} kind := ⟨stmts, (kinds b).trans kind, rfl⟩

theorem trans (first : Reorders keep p q) (second : Reorders keep q r) : Reorders keep p r where
  kind {n} other := by
    have same := first.kind other
    rw [second.kind (by rwa [same]), same]
  block kind := by
    obtain ⟨stmts, kindQ, same⟩ := first.block kind
    obtain ⟨stmts', kindR, same'⟩ := second.block kindQ
    exact ⟨stmts', kindR, same'.trans same⟩

/-- One block has other statements, but not among those to keep. -/
theorem of_block {owner : NodeId} {stmts stmts' : List NodeId} (isBlock : p.kind owner = .block stmts)
    (kinds : ∀ n, q.kind n = if n = owner then .block stmts' else p.kind n)
    (same : stmts'.filter keep = stmts.filter keep) : Reorders keep p q where
  kind {n} other := by
    rw [kinds, if_neg]
    rintro rfl
    rw [isBlock] at other
    cases other
  block {b ids} kind := by
    by_cases here : b = owner
    · subst here
      cases isBlock.symm.trans kind
      exact ⟨stmts', by rw [kinds, if_pos rfl], same⟩
    · exact ⟨ids, by rw [kinds, if_neg here, kind], rfl⟩

end Reorders

theorem detach_reorders (sound : p.Sound) {keep : NodeId → Bool} {node home : NodeId}
    (out : keep node = false) (link : p.parent? node = some home)
    (isBlock : (p.kind home).isBlock = true) (result : p.detach node = .ok q) :
    Reorders keep p q := by
  cases block : p.kind home <;> simp [block, NodeKind.isBlock] at isBlock
  rename_i stmts
  refine .of_block block (kind_of_detach sound link block result) ?_
  rw [List.filter_filter]
  refine List.filter_congr fun n _ => ?_
  by_cases same : n = node
  · simp [same, out]
  · simp [same]

theorem insertBefore_reorders (sound : p.Sound) {keep : NodeId → Bool} {anchor node into : NodeId}
    (out : keep node = false) (link : p.parent? anchor = some into)
    (isBlock : (p.kind into).isBlock = true) (result : p.insertBefore anchor node = .ok q) :
    Reorders keep p q := by
  obtain ⟨owner, ids, linkO, _, list, kinds⟩ := kind_of_insertBefore sound.forest result
  cases Option.some.inj (link.symm.trans linkO)
  cases block : p.kind into <;> simp [block, NodeKind.isBlock] at isBlock
  rename_i stmts
  rw [block] at list
  cases list
  refine .of_block block (fun n => by rw [kinds, block]; rfl) ?_
  rw [List.filter_append, List.filter_cons_of_neg (by simp [out]), ← List.filter_append,
    List.take_append_drop]

/-- Nodes may have moved out to a module; all else stands as before. -/
structure Relocates (p q : Program) : Prop where
  modules : q.modules = p.modules
  sort (s : SymbolId) : (q.symbol s).kind.sort = (p.symbol s).kind.sort
  head (n : NodeId) : (p.kind n).SameHead (q.kind n)
  reached {n : NodeId} : q.Reached n ↔ p.Reached n
  scope {n : NodeId} : p.Reached n →
    q.scope? n = p.scope? n ∨ ∃ m ∈ p.modules, q.scope? n = some m
  order : Reorders p.stays p q
  lasts (s : SymbolId) : (p.symbol s).Lasts (q.symbol s)
  span (n : NodeId) : q.span n = p.span n

namespace Relocates

theorem refl : Relocates p p :=
  { modules := rfl
    sort := fun _ => rfl
    head := fun _ => .refl _
    reached := .rfl
    scope := fun _ => .inl rfl
    order := .of_kinds fun _ => rfl
    lasts := fun _ => .refl
    span := fun _ => rfl }

theorem name (change : Relocates p q) (s : SymbolId) : q.name s = p.name s := (change.lasts s).name

theorem ty (change : Relocates p q) (s : SymbolId) : (q.symbol s).ty = (p.symbol s).ty :=
  (change.lasts s).ty

theorem stays_eq (change : Relocates p q) : q.stays = p.stays := by
  have types (s : SymbolId) : (q.symbol s).isType = (p.symbol s).isType := by
    rw [Bool.eq_iff_iff, Symbol.isType_iff, Symbol.isType_iff, change.sort]
  funext n
  rw [stays, (change.head n).isFnDef, (change.head n).defines, funext types, stays]

theorem trans (first : Relocates p q) (second : Relocates q r) : Relocates p r where
  modules := second.modules.trans first.modules
  sort s := (second.sort s).trans (first.sort s)
  head n :=
    { tag := (second.head n).tag.trans (first.head n).tag
      defines := (second.head n).defines.trans (first.head n).defines
      callee := (second.head n).callee.trans (first.head n).callee
      symRef := (second.head n).symRef.trans (first.head n).symRef }
  reached := second.reached.trans first.reached
  scope {n} reached := by
    rcases second.scope (first.reached.mpr reached) with same | moved
    · rw [same]
      exact first.scope reached
    · rw [first.modules] at moved
      exact .inr moved
  order := first.order.trans (first.stays_eq ▸ second.order)
  lasts s := (first.lasts s).trans (second.lasts s)
  span n := (second.span n).trans (first.span n)

theorem isFn (change : Relocates p q) (f : SymbolId) : q.isFn f = p.isFn f := by
  rw [Bool.eq_iff_iff, isFn_iff_sort, isFn_iff_sort, change.sort]

theorem placed (change : Relocates p q) {f : SymbolId} {d : NodeId} (placed : p.Placed f d) :
    q.Placed f d :=
  ⟨change.reached.mpr placed.1, (change.head d).isFnDef.trans placed.2.1,
    (change.head d).defines.trans placed.2.2⟩

theorem home (change : Relocates p q) {v f : SymbolId} (home : p.Home v f) : q.Home v f := by
  obtain ⟨d, reached, defines, scope⟩ := home
  refine ⟨d, change.reached.mpr reached, (change.head d).defines.trans defines, ?_⟩
  rw [change.modules]
  rcases change.scope reached with same | moved
  · rw [same]
    exact scope
  · exact .inr moved

theorem leads (change : Relocates p q) (tidy : p.Tidy)
    {pending : NodeId → SymbolId → SymbolId → Prop} (leads : p.Leads pending) :
    q.Leads pending := by
  intro n v f reached ref scope fn
  rw [(change.head n).symRef] at ref
  rw [change.isFn] at fn
  have before := change.reached.mp reached
  rcases change.scope before with same | ⟨m, member, moved⟩
  · rw [same] at scope
    exact (leads n v f before ref scope fn).imp_left change.home
  · rw [moved] at scope
    cases scope
    rw [tidy.sound.not_isFn_of_module member] at fn
    cases fn

end Relocates

/-- A statement that stays is the statement of what it was the statement of. -/
theorem Relocates.enclosingStmt? (change : Relocates p q) (sound : p.Sound) (soundQ : q.Sound)
    {n stmt : NodeId} (reached : p.Reached n) (found : p.enclosingStmt? n = some stmt)
    (stays : p.stays stmt = true) : q.enclosingStmt? n = some stmt := by
  induction reached with
  | root root =>
    rw [sound.forest.enclosingStmt?_of_top (sound.rooted.top_of_root root)] at found
    cases found
  | @child owner n reached child ih =>
    have link := sound.forest.child_parent (sound.live_of_reached reached) child
    have live := soundQ.live_of_reached (change.reached.mpr reached)
    rw [sound.forest.enclosingStmt?_of_parent link] at found
    have childQ : n ∈ q.children owner := by
      cases block : (p.kind owner).isBlock with
      | false => rwa [children, change.order.kind block, ← children]
      | true =>
        rw [block, if_pos rfl] at found
        cases found
        cases kind : p.kind owner <;> simp [kind, NodeKind.isBlock] at block
        obtain ⟨stmts, kindQ, same⟩ := change.order.block kind
        rw [children, kind, NodeKind.children] at child
        rw [children, kindQ, NodeKind.children]
        have member := List.mem_filter.mpr ⟨child, stays⟩
        rw [← same] at member
        exact (List.mem_filter.mp member).1
    rw [soundQ.forest.enclosingStmt?_of_parent (soundQ.forest.child_parent live childQ),
      (change.head owner).isBlock]
    split
    · rename_i block
      rw [block, if_pos rfl] at found
      exact found
    · rename_i block
      rw [if_neg block] at found
      exact ih found

/-- The node stands outside all functions. -/
def TopLevel (p : Program) (n : NodeId) : Prop :=
  ∃ m ∈ p.modules, p.scope? n = some m

theorem Relocates.topLevel (change : Relocates p q) {n : NodeId} (reached : p.Reached n)
    (top : p.TopLevel n) : q.TopLevel n := by
  obtain ⟨m, member, scope⟩ := top
  rw [TopLevel, change.modules]
  rcases change.scope reached with same | moved
  · exact ⟨m, member, same.trans scope⟩
  · exact moved

/-- The function is defined outside all functions. -/
def Outer (p : Program) (f : SymbolId) (d : NodeId) : Prop :=
  p.Placed f d ∧ ∃ m ∈ p.modules, p.scope? d = some m

theorem Relocates.outer (change : Relocates p q) {f : SymbolId} {d : NodeId} (outer : p.Outer f d) :
    q.Outer f d :=
  ⟨change.placed outer.1, change.topLevel outer.1.1 outer.2⟩

/-- The definition of a type. -/
structure TypeDef (p : Program) (n : NodeId) : Prop where
  reached : p.Reached n
  tag : (p.kind n).tag = .define
  type : ∃ s, (p.kind n).defines? = some s ∧ (p.symbol s).kind.sort = .type

theorem Relocates.typeDef (change : Relocates p q) {n : NodeId} (types : p.TypeDef n) :
    q.TypeDef n where
  reached := change.reached.mpr types.reached
  tag := (change.head n).tag.trans types.tag
  type := by
    obtain ⟨s, defines, sort⟩ := types.type
    exact ⟨s, (change.head n).defines.trans defines, (change.sort s).trans sort⟩

/-- The types that stood in the function now stand outside all functions. -/
def Hoists (p q : Program) (f : SymbolId) : Prop :=
  ∀ n, p.TypeDef n → p.scope? n = some f → q.TopLevel n

theorem Hoists.after {f : SymbolId} (hoists : Hoists q r f) (change : Relocates p q)
    (later : Relocates q r) : Hoists p r f := by
  intro n type scope
  have typeQ := change.typeDef type
  rcases change.scope type.reached with same | ⟨m, member, top⟩
  · exact hoists n typeQ (same.trans scope)
  · exact later.topLevel typeQ.reached ⟨m, change.modules ▸ member, top⟩

theorem Hoists.before {f : SymbolId} (hoists : Hoists p q f) (change : Relocates p q)
    (later : Relocates q r) : Hoists p r f :=
  fun n type scope => later.topLevel (change.typeDef type).reached (hoists n type scope)

/-! One move. -/

theorem Settled.standing (settled : p.Settled) {n : NodeId} (reached : p.Reached n)
    (notBlock : (p.kind n).isBlock = false) (only : ∀ slot, p.Fits n slot → slot = .stmt) :
    p.Standing n := by
  have live := settled.sound.live_of_reached reached
  refine ⟨reached, ?_⟩
  cases link : p.parent? n with
  | some b => exact ⟨b, rfl, settled.block_of_owner live link only⟩
  | none =>
    obtain ⟨r, root, above⟩ := reached.below_root settled.sound.forest settled.sound.rooted
    have same := above.eq_of_top link
    subst same
    obtain ⟨m, member, block⟩ := mem_roots.mp root
    rw [settled.sound.rooted.root_block member block] at notBlock
    cases notBlock

theorem Settled.standing_fnDef (settled : p.Settled) {n : NodeId} (reached : p.Reached n)
    (fnDef : (p.kind n).isFnDef = true) : p.Standing n := by
  cases kind : p.kind n <;> simp [kind, NodeKind.isFnDef] at fnDef
  refine settled.standing reached (by rw [kind]; rfl) fun slot fits => ?_
  cases slot <;> simp [Fits, kind, NodeKind.isExpr, NodeKind.tag, NodeKind.isBlock] at fits ⊢

theorem Settled.standing_type (settled : p.Settled) {n : NodeId} {s : SymbolId}
    (reached : p.Reached n) (define : (p.kind n).tag = .define)
    (defines : (p.kind n).defines? = some s) (type : (p.symbol s).kind.sort = .type) :
    p.Standing n := by
  refine settled.standing reached ?_ fun slot fits => ?_
  · cases kind : p.kind n <;> simp [kind, NodeKind.tag] at define
    rfl
  · cases slot with
    | stmt => rfl
    | index | formal =>
      obtain ⟨_, s', defines', sort⟩ := fits
      rw [defines] at defines'
      cases defines'
      rw [type] at sort
      cases sort
    | _ =>
      cases kind : p.kind n <;> simp [kind, NodeKind.tag] at define
      simp [Fits, kind, NodeKind.isExpr, NodeKind.tag, NodeKind.isBlock] at fits

/-- A statement can be moved in front of any other that is not inside it. -/
theorem Settled.move (settled : p.Settled) {anchor node : NodeId} (standing : p.Standing node)
    (target : p.Standing anchor) (apart : ¬ p.Above node anchor) :
    ∃ t q, p.detach node = .ok t ∧ t.insertBefore anchor node = .ok q := by
  have sound := settled.sound
  obtain ⟨reached, home, link, isBlock⟩ := standing
  obtain ⟨reachedA, into, linkA, blockA⟩ := target
  have live := sound.live_of_reached reached
  have liveA := sound.live_of_reached reachedA
  have child := sound.forest.owner_lists live link
  obtain ⟨t, detached⟩ : ∃ t, p.detach node = .ok t := by
    rw [children] at child
    cases kindHome : p.kind home <;> simp [kindHome, NodeKind.isBlock] at isBlock
    rw [kindHome] at child
    exact exists_detach live link kindHome child
  obtain ⟨home', link', out⟩ := detach_edit sound detached
  rw [link] at link'
  cases link'
  have soundT := out.sound sound
  have different : anchor ≠ node := by
    rintro rfl
    exact apart .refl
  have linkT : t.parent? anchor = some into := by
    rw [out.parent, if_neg (Option.some_ne_none anchor).symm, if_neg fun same => different (Option.some.inj same).symm]
    exact linkA
  have liveT : t.Live anchor := out.live.mpr ⟨liveA, not_under_none⟩
  have attachable : t.Attachable into node :=
    { owner_live := soundT.forest.owner_live liveT linkT
      live := out.live.mpr ⟨live, not_under_none⟩
      not_root := fun root => by
        rw [out.roots] at root
        rw [sound.rooted.top_of_root root] at link
        cases link
      top := out.parent_gone rfl
      apart := fun above => by
        rcases out.above_cases above with before | ⟨below, _⟩
        · exact apart (.up linkA before)
        · exact not_under_none below }
  have listed := soundT.forest.owner_lists liveT linkT
  have blockT : (t.kind into).isBlock = true := (out.head into).isBlock.trans blockA
  rw [children] at listed
  cases kindInto : t.kind into <;> simp [kindInto, NodeKind.isBlock] at blockT
  rw [kindInto] at listed
  exact ⟨t, _, detached, (insertNear_eq_ok_iff soundT.forest).mpr
    ⟨into, ⟨liveT, linkT⟩, attachable, _, by rw [kindInto]; rfl, listed, rfl⟩⟩

/-- A statement that moves to a module takes nothing along but itself and what is not inside a
function of its own. -/
theorem move_relocates (settled : p.Settled) {t : Program} {anchor node : NodeId} {m : SymbolId}
    (standing : p.Standing node) (leaves : p.stays node = false) (target : p.Standing anchor)
    (apart : ¬ p.Above node anchor) (member : m ∈ p.modules) (scope : p.scope? anchor = some m)
    (detached : p.detach node = .ok t) (inserted : t.insertBefore anchor node = .ok q) :
    q.Settled ∧ Relocates p q ∧ q.scope? node = some m := by
  have sound := settled.sound
  obtain ⟨reached, homeB, linkH, isBlock⟩ := standing
  have cutOrder := detach_reorders sound leaves linkH isBlock detached
  obtain ⟨home, link, out⟩ := detach_edit sound detached
  have soundT := out.sound sound
  obtain ⟨into, linkT, back⟩ := insertNear_edit soundT inserted
  have different : anchor ≠ node := by
    rintro rfl
    exact apart .refl
  have linkA : p.parent? anchor = some into := by
    rw [out.parent, if_neg (Option.some_ne_none anchor).symm, if_neg fun same => different (Option.some.inj same).symm] at linkT
    exact linkT
  obtain ⟨reachedInto, below⟩ := target.scopeBelow sound linkA
  have notUnder : ¬ p.Under (some node) into := by
    rintro ⟨_, same, above⟩
    cases same
    exact apart (.up linkA above)
  have intoT : t.Reached into := (out.reached_iff sound).mpr (.inl ⟨reachedInto, notUnder⟩)
  have apartT : ¬ t.Under (some node) into := back.not_under_come_owner
  have top : q.scope? node = some m := by
    rw [back.scope_come rfl, back.scopeBelow_kept apartT, out.scopeBelow_kept not_under_none, below]
    exact scope
  have aboveT {n : NodeId} (above : p.Above node n) : t.Above node n :=
    out.above_kept sound.forest above fun g isGone _ => by
      cases isGone
      exact .refl
  have scopeT (n : NodeId) : t.scope? n = p.scope? n := out.scope_kept not_under_none
  have blockInto : (t.kind into).isBlock = true := by
    obtain ⟨_, b, linkB, block⟩ := target
    rw [linkA] at linkB
    cases linkB
    exact (out.head into).isBlock.trans block
  have settledQ := move_settled settled detached inserted fun owner linkO => by
    rw [linkT] at linkO
    cases linkO
    exact ⟨blockInto, intoT⟩
  have head (n : NodeId) : (p.kind n).SameHead (q.kind n) :=
    { tag := (back.head n).tag.trans (out.head n).tag
      defines := (back.head n).defines.trans (out.head n).defines
      callee := (back.head n).callee.trans (out.head n).callee
      symRef := (back.head n).symRef.trans (out.head n).symRef }
  refine ⟨settledQ, ?_, top⟩
  refine
    { modules := back.modules.trans out.modules
      sort := fun s => (back.sort s).trans (out.sort s)
      head := head
      reached := fun {n} => ?_
      scope := fun {n} reachedN => ?_
      order := cutOrder.trans (insertBefore_reorders soundT leaves linkT blockInto inserted)
      lasts := fun s => .of_core ((back.core s).trans (out.core s))
      span := fun n => (span_of_insertBefore soundT.forest inserted n).trans (span_of_detach detached n) }
  · rw [back.reached_iff soundT]
    constructor
    · rintro (⟨reachedT, _⟩ | ⟨_, liveT, _, same, above⟩)
      · rcases (out.reached_iff sound).mp reachedT with ⟨before, _⟩ | ⟨_, _, below⟩
        · exact before
        · exact absurd below not_under_none
      · cases same
        refine reached.of_above sound.forest (out.live.mp liveT).1 ?_
        rcases out.above_cases above with before | ⟨below, _⟩
        · exact before
        · exact absurd below not_under_none
    · intro reachedN
      by_cases inside : p.Above node n
      · have liveT : t.Live n := out.live.mpr ⟨sound.live_of_reached reachedN, not_under_none⟩
        exact .inr ⟨intoT, liveT, node, rfl, aboveT inside⟩
      · refine .inl ⟨(out.reached_iff sound).mpr (.inl ⟨reachedN, ?_⟩), not_under_none⟩
        rintro ⟨_, same, above⟩
        cases same
        exact inside above
  · by_cases inside : p.Above node n
    · have live := sound.live_of_reached reachedN
      clear reachedN
      induction inside with
      | refl => exact .inr ⟨m, member, top⟩
      | @up n o linkN above ih =>
        have liveO := sound.forest.owner_live live linkN
        have reachedO := reached.of_above sound.forest liveO above
        have childP := sound.forest.owner_lists live linkN
        have liveT : t.Live o := out.live.mpr ⟨liveO, not_under_none⟩
        have linkN' : t.parent? n = some o := by
          refine out.parent_kept linkN fun isGone => ?_
          cases isGone
          exact sound.forest.acyclic linkN above
        have childT := soundT.forest.owner_lists
          (out.live.mpr ⟨live, not_under_none⟩ : t.Live n) linkN'
        rw [back.scope_inside liveT ⟨node, rfl, aboveT above⟩ childT,
          sound.scope_below reachedO childP, scopeBelow_eq, scopeBelow_eq, (head o).isFnDef,
          (head o).defines]
        split
        · exact .inl rfl
        · exact ih liveO
    · left
      rw [← scopeT]
      refine back.scope_kept ?_
      rintro ⟨_, same, above⟩
      cases same
      rcases out.above_cases above with before | ⟨below, _⟩
      · exact inside before
      · exact not_under_none below

end Program

end MiddleEnd
