import MiddleEnd.Proofs.Store.Prune

/-! What is left of a program without some assignments, to the letter. -/

namespace MiddleEnd

open Outcome

/-- A block loses these statements; other constructs stay as they are. -/
def NodeKind.without (gone : List NodeId) : NodeKind → NodeKind
  | block ids => block (ids.filter (· ∉ gone))
  | kind => kind

theorem NodeKind.without_append (first second : List NodeId) (k : NodeKind) :
    k.without (first ++ second) = (k.without first).without second := by
  cases k <;> simp [without, List.filter_filter, Bool.and_comm]

namespace Program

variable {p q r t : Program} {gone : List NodeId}

/-! Nothing is to be deregistered or retired where there are no calls and no definitions. -/

/-- Nodes that call nothing and define nothing. -/
def Silent (p : Program) (ids : List NodeId) : Prop :=
  ∀ n ∈ ids, (p.kind n).isCall = false ∧ (p.kind n).defines? = none

theorem foldl_leave_of_silent {ids : List NodeId} (silent : t.Silent ids) (registries : Registries) :
    ids.foldl t.leave registries = registries := by
  induction ids with
  | nil => rfl
  | cons n rest ih =>
    obtain ⟨notCall, defines⟩ := silent n List.mem_cons_self
    have skip : t.leave registries n = registries := by simp [leave, notCall, defines]
    rw [List.foldl_cons, skip]
    exact ih fun m member => silent m (List.mem_cons_of_mem _ member)

theorem symbols_foldl_destroyNode_of_silent {ids : List NodeId} (silent : t.Silent ids) :
    (ids.foldl destroyNode t).symbols = t.symbols := by
  induction ids generalizing t with
  | nil => rfl
  | cons n rest ih =>
    obtain ⟨notCall, defines⟩ := silent n List.mem_cons_self
    have callee : (t.kind n).callee? = none := by
      cases kind : t.kind n <;> simp_all [NodeKind.isCall, NodeKind.callee?]
    rw [List.foldl_cons, ih fun m member => ?_]
    · simp only [destroyNode, callee, defines, dropCaller]
      rfl
    · rw [(destroyNode_spec t n).kind]
      exact silent m (List.mem_cons_of_mem _ member)

theorem Prunes.kind_eq (prunes : p.Prunes gone q) {n : NodeId} (live : q.Live n) :
    q.kind n = (p.kind n).without gone := by
  cases kind : p.kind n with
  | block ids => exact prunes.block live kind
  | _ => rw [prunes.shrinks.kind (by rw [kind]; rfl), kind]; rfl

/-- How many of the nodes are in a scope. -/
def countIn (p : Program) (scope : SymbolId) (ids : List NodeId) : Nat :=
  ids.countP (p.scope? · == some scope)

/-- The program `q` is `p` without some assignments and what is below them. In the blocks around them
they are missing, and their functions have epochs later by as many; all else is as it was. -/
structure Erased (p : Program) (gone : List NodeId) (q : Program) : Prop
    extends p.Prunes gone q where
  nodup : gone.Nodup
  gone_reached {store : NodeId} : store ∈ gone → p.Reached store
  live_iff {n : NodeId} : q.Live n ↔ p.Live n ∧ ∀ store ∈ gone, ¬ p.Above store n
  node {n : NodeId} : q.Live n → q.node n = { p.node n with kind := (p.kind n).without gone }
  dead_node {n : NodeId} : ¬ p.Live n → q.node n = p.node n
  symbols_size : q.symbols.size = p.symbols.size
  symbol (s : SymbolId) :
    q.symbol s = { p.symbol s with epoch := (p.symbol s).epoch + p.countIn s gone }
  registries : q.registries = p.registries

namespace Erased

theorem refl (settled : p.Settled) : p.Erased [] p where
  toPrunes := .refl settled
  nodup := List.nodup_nil
  gone_reached := nofun
  live_iff := by simp
  node {n} _ := by
    have same : (p.kind n).without [] = p.kind n := by cases p.kind n <;> simp [NodeKind.without]
    rw [same]
    rfl
  dead_node _ := rfl
  symbols_size := rfl
  symbol _ := rfl
  registries := rfl

variable (erased : p.Erased gone q)

include erased

theorem parent {n : NodeId} (live : q.Live n) : q.parent? n = p.parent? n := by
  rw [parent?, erased.node live]

/-- What is around a node that is left is what was around it. -/
theorem above_iff {a n : NodeId} (live : q.Live n) :
    q.Above a n ↔ p.Above a n := by
  constructor
  · intro above
    induction above with
    | refl => exact .refl
    | @up n owner link _ ih =>
      have liveOwner := erased.settled.sound.forest.owner_live live link
      rw [erased.parent live] at link
      exact .up link (ih liveOwner)
  · intro above
    induction above with
    | refl => exact .refl
    | @up n owner link _ ih =>
      rw [← erased.parent live] at link
      exact .up link (ih (erased.settled.sound.forest.owner_live live link))

theorem reached_of_live (sound : p.Sound) {n : NodeId} (live : q.Live n) (reached : p.Reached n) :
    q.Reached n := by
  obtain ⟨_, r, root, above⟩ := sound.reached_iff.mp reached
  exact erased.settled.sound.reached_iff.mpr
    ⟨live, r, erased.shrinks.roots ▸ root, (erased.above_iff live).mpr above⟩

theorem dead_of_gone {store : NodeId} (member : store ∈ gone) : ¬ q.Live store :=
  fun live => (erased.live_iff.mp live).2 store member .refl

theorem trans {more : List NodeId} (rest : q.Erased more r) :
    p.Erased (gone ++ more) r where
  toPrunes := erased.toPrunes.trans rest.toPrunes
  nodup := by
    refine List.nodup_append.mpr ⟨erased.nodup, rest.nodup, fun store first other second same => ?_⟩
    have live := erased.settled.sound.live_of_reached (rest.gone_reached second)
    exact erased.dead_of_gone first (same ▸ live)
  gone_reached member := by
    rcases List.mem_append.mp member with first | second
    · exact erased.gone_reached first
    · exact erased.shrinks.reached (rest.gone_reached second)
  live_iff {n} := by
    rw [rest.live_iff]
    simp only [List.mem_append]
    constructor
    · rintro ⟨live, apart⟩
      obtain ⟨liveP, apartP⟩ := erased.live_iff.mp live
      refine ⟨liveP, fun store member above => ?_⟩
      rcases member with first | second
      · exact apartP store first above
      · exact apart store second ((erased.above_iff live).mpr above)
    · rintro ⟨liveP, apart⟩
      have live := erased.live_iff.mpr ⟨liveP, fun store first => apart store (.inl first)⟩
      exact ⟨live, fun store second above =>
        apart store (.inr second) ((erased.above_iff live).mp above)⟩
  node {n} live := by
    have before := (rest.live_iff.mp live).1
    rw [rest.node live, kind, erased.node before, NodeKind.without_append]
  dead_node dead := by
    have deadQ : ¬ q.Live _ := fun live => dead (erased.live_iff.mp live).1
    rw [rest.dead_node deadQ, erased.dead_node dead]
  symbols_size := rest.symbols_size.trans erased.symbols_size
  symbol s := by
    have counts : q.countIn s more = p.countIn s more := by
      simp only [countIn, erased.shrinks.scope]
    rw [rest.symbol, erased.symbol, counts, countIn, countIn, countIn, List.countP_append,
      Nat.add_assoc]
  registries := rest.registries.trans erased.registries

end Erased

/-! One assignment is removed. -/

section

variable {store owner : NodeId}

/-- To remove a node is to cut it off, in its scope, and to destroy what was below it. -/
theorem exists_cut_of_remove (sound : p.Sound) (reached : p.Reached store)
    (link : p.parent? store = some owner) (result : p.remove store = .ok q) :
    ∃ kind, p.Cut owner kind store (p.cut owner kind store) ∧
      q = (p.preorder store).foldl destroyNode ((p.cut owner kind store).touch (p.scope? store)) := by
  obtain ⟨_, detached, rfl⟩ := remove_eq_ok_iff.mp result
  obtain ⟨_, ⟨live, link'⟩, kind, without, rfl⟩ := detach_eq_ok_iff.mp detached
  cases Option.some.inj (link.symm.trans link')
  have head := NodeKind.withoutChild?_head without
  have cut := cut_spec sound live link head
  have scope : (p.cut owner kind store).scopeBelow owner = p.scope? store := by
    rw [sound.scope_below (sound.forest.reached_owner sound.rooted reached link)
      (sound.forest.owner_lists live link)]
    exact scopeBelow_of_head (by rwa [cut.kind_eq, if_pos rfl]) (cut.scope owner)
  refine ⟨kind, cut, ?_⟩
  have nodes (n : NodeId) := node_of_nodes (nodes_touch (p.cut owner kind store) (p.scope? store)) n
  have walk : ((p.cut owner kind store).touch (p.scope? store)).preorder store = p.preorder store := by
    refine preorder_relabel sound.forest live link ?_ (fun n different => ?_) fun n => ?_
    · rw [nodes_touch, cut.size]
    · rw [Program.kind, nodes, ← Program.kind, cut.kind_eq, if_neg different]
    · rw [nodes, cut.live]
  rw [scope, destroy, walk]

/-- To remove a node changes its owner and what is below it; other nodes stay as they are. -/
theorem node_of_remove (sound : p.Sound) (reached : p.Reached store)
    (link : p.parent? store = some owner) (result : p.remove store = .ok q) {n : NodeId}
    (out : n ∉ p.preorder store) : q.node n = { p.node n with kind := q.kind n } := by
  obtain ⟨kind, _, rfl⟩ := exists_cut_of_remove sound reached link result
  have elsewhere : n ≠ store := by
    rintro rfl
    exact out (sound.forest.mem_preorder.mpr ⟨sound.live_of_reached reached, .refl⟩)
  have same : (p.cut owner kind store).nodes = ((p.setKind owner kind).setParent store none).nodes := by
    unfold Program.cut
    split <;> rfl
  rw [Program.kind, (foldl_destroyNode_spec _ _).node, if_neg out, node_of_nodes (nodes_touch ..),
    node_of_nodes same, setParent, node_modifyNode_of_ne elsewhere, setKind, node_modifyNode]
  split <;> rfl

/-- To remove what calls nothing and defines nothing leaves the tables as they are, but for the epoch
of its function. -/
theorem tables_of_remove (tidy : p.Tidy) (reached : p.Reached store)
    (link : p.parent? store = some owner) (silent : p.Silent (p.preorder store))
    (result : p.remove store = .ok q) : q.registries = p.registries ∧ ∀ s, q.symbol s =
      { p.symbol s with epoch := (p.symbol s).epoch + p.countIn s [store] } := by
  have sound := tidy.sound
  obtain ⟨kind, cut, rfl⟩ := exists_cut_of_remove sound reached link result
  have elsewhere {n : NodeId} (member : n ∈ p.preorder store) : n ≠ owner := by
    rintro rfl
    exact sound.forest.acyclic link (sound.forest.mem_preorder.mp member).2
  have silentCut : ((p.cut owner kind store).touch (p.scope? store)).Silent (p.preorder store) := by
    intro n member
    rw [Program.kind, node_of_nodes (nodes_touch ..), ← Program.kind, cut.kind_eq,
      if_neg (elsewhere member)]
    exact silent n member
  constructor
  · rw [(foldl_destroyNode_spec _ _).registries, registries_touch, Program.cut]
    split
    · have kinds (n : NodeId) (different : n ≠ owner) :
          ((p.setKind owner kind).setParent store none).kind n = p.kind n := by
        rw [kind_setParent, kind_setKind (sound.forest.owner_known link), if_neg different]
      refine foldl_leave_of_silent (fun n member => ?_) _
      have live := sound.live_of_reached reached
      rw [preorder_relabel sound.forest live link (by rw [size_setParent, size_setKind]) kinds
        fun n => by rw [live_setParent, live_setKind]] at member
      rw [kinds n (elsewhere member)]
      exact silent n member
    · rfl
  · intro s
    rw [symbol_of_symbols (symbols_foldl_destroyNode_of_silent silentCut), countIn, List.countP_singleton]
    have same := symbol_of_symbols cut.symbols s
    cases scope : p.scope? store with
    | none => simpa [touch] using same
    | some f =>
      have known : f.index < (p.cut owner kind store).symbols.size :=
        cut.symbols ▸ tidy.scope_known reached scope
      rw [touch, symbol_modifySymbol, same]
      by_cases here : s = f
      · subst here
        simp [known]
      · simp [here, Ne.symm here]

/-- With an assignment that calls nothing, only the assignment is gone. -/
theorem remove_erases (settled : p.Settled) (assign : (p.kind store).tag = .assign)
    (reached : p.Reached store) (link : p.parent? store = some owner)
    (silent : p.Silent (p.preorder store)) (result : p.remove store = .ok q) :
    p.Erased [store] q := by
  have live := settled.sound.live_of_reached reached
  have forest := settled.sound.forest
  have prunes := remove_prunes settled assign live link result
  obtain ⟨_, link', edit⟩ := remove_edit settled.sound result
  cases Option.some.inj (link.symm.trans link')
  have below {n : NodeId} : n ∈ p.preorder store ↔ p.Live n ∧ p.Above store n := forest.mem_preorder
  obtain ⟨registries, symbol⟩ := tables_of_remove settled.toTidy reached link silent result
  refine
    { toPrunes := prunes
      nodup := List.nodup_singleton _
      gone_reached := fun member => List.mem_singleton.mp member ▸ reached
      live_iff := fun {n} => by
        rw [edit.live]
        simp [Program.Under]
      node := fun {n} liveQ => ?_
      dead_node := fun {n} dead => ?_
      symbols_size := edit.symbols_size
      symbol := symbol
      registries := registries }
  · have out : n ∉ p.preorder store := fun member =>
      (edit.live.mp liveQ).2 ⟨store, rfl, (below.mp member).2⟩
    rw [node_of_remove settled.sound reached link result out, prunes.kind_eq liveQ]
  · have out : n ∉ p.preorder store := fun member => dead (below.mp member).1
    have other : n ≠ owner := fun same => dead (same ▸ forest.owner_live live link)
    have kind := edit.kind_of_ne other
    rw [node_of_remove settled.sound reached link result out, kind]
    rfl

end

/-- Assignments with owners can be removed one after the other. -/
theorem exists_erased (settled : p.Settled) {stores : List NodeId} (distinct : stores.Nodup)
    (stand : ∀ store ∈ stores, (p.kind store).tag = .assign ∧ p.Reached store ∧
      ∃ owner, p.parent? store = some owner)
    (silent : ∀ store ∈ stores, p.Silent (p.preorder store)) :
    Ends (stores.forM fun store => TransformM.edit (·.remove store)) p (fun _ => p.Erased stores)
      fun _ => False := by
  induction stores generalizing p with
  | nil => exact Ends.pure (.refl settled)
  | cons store rest ih =>
    obtain ⟨assign, reached, owner, link⟩ := stand store List.mem_cons_self
    have live := settled.sound.live_of_reached reached
    rw [List.nodup_cons] at distinct
    have isBlock := settled.block_of_assign assign live link
    have listed := settled.sound.forest.owner_lists live link
    obtain ⟨t, detached⟩ : ∃ t, p.detach store = .ok t := by
      cases kind : p.kind owner <;> simp [kind, NodeKind.isBlock] at isBlock
      rw [children, kind] at listed
      exact exists_detach live link kind listed
    have removed : p.remove store = .ok (t.destroy store) := remove_eq_ok_iff.mpr ⟨t, detached, rfl⟩
    have first := remove_erases settled assign reached link (silent store List.mem_cons_self) removed
    refine Ends.bind (TransformM.ends_edit_of_ok removed rfl) fun _ q (same : t.destroy store = q) => ?_
    subst same
    refine (ih first.settled distinct.2 (fun other member => ?_) fun other member n below => ?_).mono
      (fun _ _ others => first.trans others) fun _ => id
    · obtain ⟨assignOther, reachedOther, ownerOther, linkOther⟩ :=
        stand other (List.mem_cons_of_mem _ member)
      have liveOther := settled.sound.live_of_reached reachedOther
      have different : store ≠ other := fun same => distinct.1 (same ▸ member)
      have left : (t.destroy store).Live other := by
        refine first.live_iff.mpr ⟨liveOther, fun gone listed above => ?_⟩
        cases List.mem_singleton.mp listed
        exact different (settled.eq_of_above_assign assign liveOther above
          (NodeKind.not_expr_of_assign assignOther))
      exact ⟨(first.shrinks.head other).tag.trans assignOther,
        first.reached_of_live settled.sound left reachedOther, ownerOther,
        (first.parent left).trans linkOther⟩
    · obtain ⟨liveN, above⟩ := first.settled.sound.forest.mem_preorder.mp below
      have belowP := settled.sound.forest.mem_preorder.mpr
        ⟨(first.live_iff.mp liveN).1, (first.above_iff liveN).mp above⟩
      rw [(first.shrinks.head n).isCall, (first.shrinks.head n).defines]
      exact silent other (List.mem_cons_of_mem _ member) n belowP

end Program

end MiddleEnd
