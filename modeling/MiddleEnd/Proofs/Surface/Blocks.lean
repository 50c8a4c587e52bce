import MiddleEnd.Proofs.Surface.Hoist

namespace MiddleEnd.Surface.Lower

open Program

variable {s t u : Lowering} {S S' : Scope} {outer : List Scope} {span : Span}

/-! Filling a block. -/

/-- A block that statements are put into: the root of the last module or the top of a detached
tree. -/
structure Fillable (p : Program) (block : NodeId) (names : List SymbolId) : Prop where
  live : p.Live block
  isBlock : (p.kind block).isBlock = true
  top : p.parent? block = none
  last : block ∈ p.roots → p.roots.getLast? = some block
  bound : p.Bound block names

theorem Fillable.mono {p : Program} {block : NodeId} {names names' : List SymbolId}
    (fillable : Fillable p block names) (wider : names ⊆ names') : Fillable p block names' :=
  { fillable with bound := fillable.bound.mono wider }

theorem Fillable.grow {p q : Program} {block : NodeId} {names claimed : List SymbolId}
    (fillable : Fillable p block names) (grows : Grows p [] claimed q) (forest : p.Forest)
    (forestQ : q.Forest) : Fillable q block names where
  live := grows.live fillable.live
  isBlock := (grows.head fillable.live).isBlock.trans fillable.isBlock
  top := (grows.parent fillable.live List.not_mem_nil).trans fillable.top
  last := grows.roots ▸ fillable.last
  bound := grows.bound forest forestQ fillable.live nofun fillable.bound

/-- What putting the trees `nodes` into a block ends with. -/
structure Puts (s : Lowering) (block : NodeId) (names : List SymbolId) (nodes : List NodeId)
    (t : Lowering) : Prop where
  ready : Ready t
  scopes : t.scopes = s.scopes
  fillable : Fillable t.program block names
  grows : Grows s.program (block :: nodes) [] t.program
  mem_children {c : NodeId} :
    c ∈ t.program.children block ↔ c ∈ s.program.children block ∨ c ∈ nodes

theorem Fillable.kind_eq {p : Program} {block : NodeId} {names : List SymbolId}
    (fillable : Fillable p block names) : ∃ stmts, p.kind block = .block stmts := by
  have isBlock := fillable.isBlock
  cases kind : p.kind block with
  | block stmts => exact ⟨stmts, rfl⟩
  | _ =>
    rw [kind] at isBlock
    cases isBlock

theorem append_puts (ready : Ready s) {block n : NodeId} {names : List SymbolId}
    (fillable : Fillable s.program block names) (loose : s.program.Loose n names)
    (apart : n ≠ block) {q : Program} (result : s.program.append block n = .ok q) :
    Puts s block names [n] { s with program := q } := by
  have sound := ready.settled.sound
  have edit := append_edit sound result
  have grows := edit.grows
  obtain ⟨stmts, kind⟩ := fillable.kind_eq
  have settled : q.Settled := append_settled ready.settled result (by rw [kind]; trivial)
  have isBlock : (q.kind block).isBlock = true :=
    (grows.head fillable.live).isBlock.trans fillable.isBlock
  exact
    { ready :=
        { settled := settled
          valued := fun m v defined live equal => by
            have other : m ≠ block := by
              rintro rfl
              rw [equal] at isBlock
              cases isBlock
            rw [edit.kind_of_ne other] at equal
            have liveM := (edit.live.mp live).1
            have known := (ready.settled.lawful liveM).defines_known (s := v) (by rw [equal]; rfl)
            rw [Symbol.isValue_iff, grows.sort known, ← Symbol.isValue_iff]
            exact ready.valued m v defined liveM equal
          ordered := ready.ordered.append sound result fillable.isBlock fillable.top fillable.last
          known := fun v member => grows.known (ready.known v member) }
      scopes := rfl
      fillable :=
        { live := grows.live fillable.live
          isBlock := isBlock
          top := by
            have other : some n ≠ some block := fun same => apart (Option.some.inj same)
            rw [edit.parent, if_neg other, if_neg (by simp), fillable.top]
          last := grows.roots ▸ fillable.last
          bound := edit.bound sound fillable.bound loose.bound }
      grows := grows
      mem_children := fun {c} => by
        rw [edit.mem_children]
        simp [eq_comm] }

theorem append_ends (ready : Ready s) {block n : NodeId} {names : List SymbolId}
    (fillable : Fillable s.program block names) (loose : s.program.Loose n names)
    (apart : n ≠ block) : Ends (append block n) s fun _ t => Puts s block names [n] t := by
  obtain ⟨stmts, kind⟩ := fillable.kind_eq
  have attachable : s.program.Attachable block n :=
    { owner_live := fillable.live
      live := loose.live
      not_root := loose.free
      top := loose.top
      apart := fun above => apart (above.eq_of_top fillable.top) }
  have list : (s.program.kind block).childList? = some stmts := by rw [kind]; rfl
  have result := (append_eq_ok_iff ready.forest).mpr ⟨attachable, stmts, list, rfl⟩
  refine Ends.get_bind ?_
  rw [result]
  exact append_puts ready fillable loose apart result

/-- Puts trees into a block one after the other. -/
theorem appendAll_ends (ready : Ready s) {block : NodeId} {names : List SymbolId}
    {nodes : List NodeId} (fillable : Fillable s.program block names)
    (loose : ∀ n ∈ nodes, s.program.Loose n names) (distinct : nodes.Nodup)
    (apart : block ∉ nodes) :
    Ends (nodes.forM (append block)) s fun _ t => Puts s block names nodes t := by
  induction nodes generalizing s with
  | nil => exact ⟨ready, rfl, fillable, .refl, by simp⟩
  | cons n rest ih =>
    obtain ⟨new, distinct⟩ := List.nodup_cons.mp distinct
    have other : n ≠ block := fun same => apart (by simp [same])
    have looseN := loose n List.mem_cons_self
    show Ends (append block n >>= fun _ => rest.forM (append block)) s _
    refine (append_ends ready fillable looseN other).bind fun _ t first => ?_
    have tops (m : NodeId) (member : m ∈ [block, n]) : s.program.parent? m = none := by
      rcases List.mem_pair.mp member with rfl | rfl
      · exact fillable.top
      · exact looseN.top
    refine (ih first.ready first.fillable (fun m member => ?_) distinct
      fun member => apart (List.mem_cons_of_mem _ member)).mono fun _ u later => ?_
    · refine first.grows.loose ready.forest first.ready.forest
        (loose m (List.mem_cons_of_mem _ member)) tops fun touched => ?_
      rcases List.mem_pair.mp touched with rfl | rfl
      · exact apart (List.mem_cons_of_mem _ member)
      · exact new member
    · have wider : Grows s.program (block :: n :: rest) [] t.program := by
        refine first.grows.shrink (fun m member _ => ?_) nofun
        rcases List.mem_pair.mp member with rfl | rfl <;> simp
      exact
        { ready := later.ready
          scopes := later.scopes.trans first.scopes
          fillable := later.fillable
          grows := by
            refine wider.trans later.grows (fun m member _ => ?_) nofun
            rcases List.mem_cons.mp member with rfl | inRest
            · simp
            · simp [inRest]
          mem_children := fun {c} => by
            rw [later.mem_children, first.mem_children]
            simp [or_assoc] }

/-! Statements. -/

/-- What lowering a statement ends with: the trees `nodes`, and among them the definitions of
`defs`, which are the symbol declared beforehand and those that the scope has gained. -/
structure Lowers (s : Lowering) (S : Scope) (st : Stmt) (nodes : List NodeId) (S' : Scope)
    (defs : List SymbolId) (t : Lowering) : Prop where
  yields : Yields s (ownSymbol? S st).toList (declaredIn t.scopes ++ defs) nodes t
  widens : Widens S S'
  declared : ∀ v ∈ S'.map Prod.snd, v ∈ S.map Prod.snd ∨ v ∈ defs
  own : ∀ v, ownSymbol? S st = some v → v ∈ defs
  defined : ∀ v ∈ defs, ∃ n ∈ nodes, (t.program.kind n).defines? = some v

/-- Statements that are still to be lowered into a block, with its scope. -/
structure Filling (s : Lowering) (block : NodeId) (S : Scope) (outer : List Scope)
    (rest : List Stmt) : Prop where
  ready : Ready s
  scopes : s.scopes = S :: outer
  fillable : Fillable s.program block (declaredIn s.scopes)
  hoisted : Hoisted s.program S rest
  defined : ∀ v ∈ S.map Prod.snd, v ∈ rest.filterMap (ownSymbol? S) ∨
    ∃ c ∈ s.program.children block, (s.program.kind c).defines? = some v

/-- What lowering statements into a block ends with. -/
def Fills (s : Lowering) (block : NodeId) (S : Scope) (outer : List Scope) (items : List Stmt)
    (t : Lowering) : Prop :=
  Grows s.program [block] (items.filterMap (ownSymbol? S)) t.program ∧
    ∃ S', Filling t block S' outer []

theorem Hoisted.tail {p : Program} {st : Stmt} {rest : List Stmt} (hoisted : Hoisted p S (st :: rest)) :
    Hoisted p S rest ∧ ∀ v ∈ rest.filterMap (ownSymbol? S), v ∉ (ownSymbol? S st).toList := by
  have distinct := hoisted.distinct
  rw [List.filterMap_cons] at distinct
  refine ⟨⟨fun st' member => hoisted.announced st' (List.mem_cons_of_mem _ member), ?_⟩, ?_⟩
  · split at distinct
    · exact distinct
    · exact (List.nodup_cons.mp distinct).2
  · intro v later own
    rw [Option.mem_toList] at own
    rw [own] at distinct
    exact (List.nodup_cons.mp distinct).1 later

theorem Filling.next {st : Stmt} {rest : List Stmt} {block : NodeId} {nodes : List NodeId}
    {defs : List SymbolId} (filling : Filling s block S outer (st :: rest))
    (scopes : t.scopes = S' :: outer) (lowers : Lowers s S st nodes S' defs t)
    (puts : Puts t block (declaredIn t.scopes ++ defs) nodes u) :
    Grows s.program [block] (ownSymbol? S st).toList u.program ∧ Filling u block S' outer rest ∧
      rest.filterMap (ownSymbol? S') = rest.filterMap (ownSymbol? S) := by
  have forest := filling.ready.forest
  have liveBlock := filling.fillable.live
  have grows : Grows s.program [block] (ownSymbol? S st).toList u.program := by
    refine (lowers.yields.grows.shrink nofun fun v member _ => member).trans puts.grows ?_ nofun
    intro n member live
    rcases List.mem_cons.mp member with rfl | added
    · exact List.mem_singleton.mpr rfl
    · exact absurd live (lowers.yields.fresh n added)
  obtain ⟨hoisted, apart⟩ := filling.hoisted.tail
  have symbols := hoisted.filterMap_eq lowers.widens
  -- Definitions stand in the block, those of this statement and those that were there.
  have added (v : SymbolId) (member : v ∈ defs) :
      ∃ c ∈ u.program.children block, (u.program.kind c).defines? = some v := by
    obtain ⟨n, built, defines⟩ := lowers.defined v member
    refine ⟨n, puts.mem_children.mpr (.inr built), ?_⟩
    rw [(puts.grows.head (lowers.yields.loose n built).live).defines, defines]
  have kept (v : SymbolId)
      (before : ∃ c ∈ s.program.children block, (s.program.kind c).defines? = some v) :
      ∃ c ∈ u.program.children block, (u.program.kind c).defines? = some v := by
    obtain ⟨c, child, defines⟩ := before
    refine ⟨c, puts.mem_children.mpr (.inl ?_), ?_⟩
    · rwa [children, lowers.yields.kind_eq liveBlock]
    · rw [(grows.head (forest.child_live liveBlock child)).defines, defines]
  refine ⟨grows, ?_, symbols⟩
  exact
    { ready := puts.ready
      scopes := puts.scopes.trans scopes
      fillable :=
        { puts.fillable with
          bound := puts.fillable.bound.close puts.ready.forest puts.fillable.live fun v member => by
            rw [puts.scopes]
            exact (List.mem_append.mp member).imp_right (added v) }
      hoisted := hoisted.grow grows lowers.widens apart
      defined := fun v member => by
        rcases lowers.declared v member with old | new
        · rcases filling.defined v old with waiting | there
          · obtain ⟨st', listed, own⟩ := List.mem_filterMap.mp waiting
            rcases List.mem_cons.mp listed with rfl | later
            · exact .inr (added v (lowers.own v own))
            · exact .inl (symbols ▸ List.mem_filterMap.mpr ⟨st', later, own⟩)
          · exact .inr (kept v there)
        · exact .inr (added v new) }

theorem Fills.step {st : Stmt} {rest : List Stmt} {block : NodeId}
    (grows : Grows s.program [block] (ownSymbol? S st).toList t.program)
    (symbols : rest.filterMap (ownSymbol? S') = rest.filterMap (ownSymbol? S))
    (fills : Fills t block S' outer rest u) : Fills s block S outer (st :: rest) u := by
  obtain ⟨later, filled⟩ := fills
  rw [symbols] at later
  refine ⟨(grows.shrink (fun n member _ => member) fun v member _ => ?_).trans later
    (fun n member _ => member) fun v member _ => ?_, filled⟩
  · exact List.mem_filterMap.mpr ⟨st, List.mem_cons_self, Option.mem_toList.mp member⟩
  · obtain ⟨st', listed, own⟩ := List.mem_filterMap.mp member
    exact List.mem_filterMap.mpr ⟨st', List.mem_cons_of_mem _ listed, own⟩

theorem mem_of_ownSymbol? {st : Stmt} {v : SymbolId} (own : ownSymbol? S st = some v) :
    v ∈ S.map Prod.snd := by
  obtain ⟨⟨name, _⟩, _, found⟩ := Option.bind_eq_some_iff.mp own
  obtain ⟨before, after, equal, _⟩ := List.lookup_eq_some_iff.mp found
  rw [equal]
  simp

/-- Everything that a finished block declares is defined in it. -/
theorem Filling.bound_outer {block : NodeId} (filling : Filling s block S outer []) :
    s.program.Bound block (declaredIn outer) := by
  refine filling.fillable.bound.close filling.ready.forest filling.fillable.live fun v member => ?_
  rw [filling.scopes, declaredIn_cons] at member
  rcases List.mem_append.mp member with inner | inOuter
  · exact .inr ((filling.defined v inner).resolve_left List.not_mem_nil)
  · exact .inl inOuter

theorem Filling.ready_outer {block : NodeId} (filling : Filling s block S outer []) :
    Ready { s with scopes := s.scopes.tail } where
  settled := filling.ready.settled
  valued := filling.ready.valued
  ordered := filling.ready.ordered
  known v member := by
    refine filling.ready.known v ?_
    rw [filling.scopes] at member ⊢
    exact List.mem_append_right _ member

/-- What lowering a block ends with. -/
structure Blocks (s : Lowering) (block : NodeId) (t : Lowering) : Prop
    extends Yields s [] (declaredIn s.scopes) [block] t where
  scopes : t.scopes = s.scopes
  isBlock : (t.program.kind block).isBlock = true

theorem inBlock_ends (ready : Ready s) {body : List Stmt}
    (inner : ∀ {t block S}, Filling t block S s.scopes body →
      Ends (items body block) t fun _ u => Fills t block S s.scopes body u) :
    Ends (inBlock body span fun block => items body block) s fun block => Blocks s block := by
  have empty : Yields s [] (declaredIn s.scopes) [] s := .nothing ready
  refine (silent_ends empty [] (.refl _) rfl rfl rfl fun _ _ member =>
    absurd member List.not_mem_nil).bind ?_
  rintro block t ⟨first, built, scopes⟩
  refine (inScope_ends ?_).bind fun _ u done => Ends.pure done
  have rescoped : [] :: t.scopes = [] :: s.scopes := by rw [scopes]
  refine (hoist_ends first.ready.enter rescoped body).bind ?_
  rintro _ u ⟨S, hoists⟩
  have forest := first.ready.forest
  have loose := hoists.grows.loose forest hoists.ready.forest
    (first.loose block List.mem_cons_self) nofun List.not_mem_nil
  have isBlock : (u.program.kind block).isBlock = true := by
    rw [hoists.grows.kind (first.loose block List.mem_cons_self).live List.not_mem_nil,
      built.kind_id]
    rfl
  have filling : Filling u block S s.scopes body :=
    { ready := hoists.ready
      scopes := hoists.scopes
      fillable :=
        { live := loose.live
          isBlock := isBlock
          top := loose.top
          last := fun root => absurd root loose.free
          bound := loose.bound.mono (by
            rw [hoists.scopes]
            exact List.subset_append_right _ _) }
      hoisted := hoists.hoisted
      defined := fun v member => .inl (hoists.own v member) }
  refine (inner filling).mono ?_
  rintro _ w ⟨grows, S', filled⟩
  have whole : Grows s.program [] [] w.program := by
    refine (first.grows.after hoists.grows).trans grows (fun n member live => ?_)
      fun v member known => ?_
    · cases List.mem_singleton.mp member
      exact absurd live (first.fresh block List.mem_cons_self)
    · obtain ⟨st, _, own⟩ := List.mem_filterMap.mp member
      have new : t.program.symbols.size ≤ v.index := hoists.new v (mem_of_ownSymbol? own)
      have grown := first.grows.symbols_le
      omega
  exact
    { ready := filled.ready_outer
      grows := whole
      loose := fun n member => by
        cases List.mem_singleton.mp member
        exact
          { live := filled.fillable.live
            top := filled.fillable.top
            free := by
              rw [grows.roots]
              exact loose.free
            bound := filled.bound_outer }
      fresh := first.fresh
      nodup := first.nodup
      scopes := by rw [filled.scopes]; rfl
      isBlock := filled.fillable.isBlock }

end MiddleEnd.Surface.Lower
