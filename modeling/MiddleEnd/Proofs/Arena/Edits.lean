import MiddleEnd.Proofs.Arena.Detach
import MiddleEnd.Proofs.Outcome

namespace MiddleEnd.Program

/-- The node can be attached below the owner: both are live, the node is the top of a tree of its
own that is no module, and the owner is not in that tree. -/
structure Attachable (p : Program) (owner node : NodeId) : Prop where
  owner_live : p.Live owner
  live : p.Live node
  not_root : node ∉ p.roots
  top : p.parent? node = none
  apart : ¬ p.Above node owner

open Outcome

variable {p q : Program}

theorem checkLive_eq_ok_iff {id : NodeId} {u : Unit} : p.checkLive id = .ok u ↔ p.Live id := by
  unfold checkLive
  by_cases live : p.Live id
  · have known : p.hasNode id = true := hasNode_iff.mpr live.known
    refine iff_of_true ?_ live
    simp only [known, live, Bool.not_true, Bool.false_eq_true, if_false, if_true, pure_eq_ok_iff]
  · refine iff_of_false ?_ live
    by_cases known : p.hasNode id = true <;> simp [known, live, throw_eq_ok_iff]

theorem liveParent_eq_ok_iff {id parent : NodeId} :
    p.liveParent id = .ok parent ↔ p.Live id ∧ p.parent? id = some parent := by
  simp only [liveParent, bind_eq_ok_iff, checkLive_eq_ok_iff, exists_const, parent?]
  refine and_congr_right fun _ => ?_
  cases (p.node id).parent with
  | none => simp [throw_eq_ok_iff]
  | some owner => rw [pure_eq_ok_iff, Option.some.injEq, eq_comm]

theorem checkAttachable_eq_ok_iff (forest : p.Forest) {owner node : NodeId} {u : Unit} :
    p.checkAttachable owner node = .ok u ↔ p.Attachable owner node := by
  simp only [checkAttachable, bind_eq_ok_iff, checkLive_eq_ok_iff, exists_const]
  constructor
  · rintro ⟨ownerLive, live, rest⟩
    by_cases root : p.isRoot node = true
    · simp [root, bind_eq_ok_iff, throw_eq_ok_iff] at rest
    · cases top : (p.node node).parent with
      | some current => simp [root, top, bind_eq_ok_iff, throw_eq_ok_iff] at rest
      | none =>
        by_cases circle : p.isAncestor node owner = true
        · simp [root, top, circle, throw_eq_ok_iff] at rest
        · exact ⟨ownerLive, live, fun isRoot => root (isRoot_iff.mpr isRoot), top,
            fun above => circle (forest.isAncestor_iff.mpr above)⟩
  · intro attachable
    refine ⟨attachable.owner_live, attachable.live, ?_⟩
    have root : ¬ p.isRoot node = true := fun root => attachable.not_root (isRoot_iff.mp root)
    have top : (p.node node).parent = none := attachable.top
    have circle : ¬ p.isAncestor node owner = true := fun circle =>
      attachable.apart (forest.isAncestor_iff.mp circle)
    simp [root, top, circle, pure_eq_ok_iff]

/-! Attaching. -/

theorem append_eq_ok_iff (forest : p.Forest) {owner node : NodeId} :
    p.append owner node = .ok q ↔ p.Attachable owner node ∧
      ∃ ids, (p.kind owner).childList? = some ids ∧
        q = (p.setKind owner ((p.kind owner).withChildList (ids ++ [node]))).adopt owner node := by
  simp only [append, bind_eq_ok_iff, checkAttachable_eq_ok_iff forest, exists_const]
  refine and_congr_right fun _ => ?_
  cases (p.kind owner).childList? with
  | none => simp [throw_eq_ok_iff]
  | some ids => simp [pure_eq_ok_iff]

theorem insertNear_eq_ok_iff (forest : p.Forest) {anchor node : NodeId} {offset : Nat} :
    p.insertNear anchor node offset = .ok q ↔ ∃ owner,
      (p.Live anchor ∧ p.parent? anchor = some owner) ∧ p.Attachable owner node ∧
      ∃ ids, (p.kind owner).childList? = some ids ∧ anchor ∈ ids ∧
        q = (p.setKind owner ((p.kind owner).withChildList
          (ids.take (ids.idxOf anchor + offset) ++ node :: ids.drop (ids.idxOf anchor + offset)))).adopt
            owner node := by
  simp only [insertNear, bind_eq_ok_iff, liveParent_eq_ok_iff, checkAttachable_eq_ok_iff forest,
    exists_const]
  refine exists_congr fun owner => and_congr_right fun _ => and_congr_right fun _ => ?_
  cases (p.kind owner).childList? with
  | none => simp [throw_eq_ok_iff]
  | some ids =>
    by_cases listed : anchor ∈ ids
    · simp [listed, pure_eq_ok_iff]
    · simp [listed, throw_eq_ok_iff]

/-- The links once a child has come anywhere into the child list of a node. -/
theorem link_relink (sound : p.Sound) {owner node : NodeId} (attachable : p.Attachable owner node)
    {ids ids' : List NodeId} (list : (p.kind owner).childList? = some ids)
    (grown : ids'.Perm (node :: ids)) :
    Relink p owner none (some node) none
      ((p.setKind owner ((p.kind owner).withChildList ids')).setParent node (some owner)) := by
  have known := attachable.owner_live.known
  have kinds (n : NodeId) : ((p.setKind owner ((p.kind owner).withChildList ids')).setParent node
      (some owner)).kind n = if n = owner then (p.kind owner).withChildList ids' else p.kind n := by
    rw [kind_setParent, kind_setKind known]
  have new : node ∉ p.children owner := fun child => by
    have link := sound.forest.child_parent attachable.owner_live child
    rw [attachable.top] at link
    cases link
  exact
    { owner_live := attachable.owner_live
      gone_live := nofun
      gone_owned := nofun
      lost_gone := nofun
      come_live := fun new => Option.some.inj new ▸ attachable.live
      come_top := fun new => Option.some.inj new ▸ attachable.top
      come_free := fun new => Option.some.inj new ▸ attachable.not_root
      come_apart := fun new => Option.some.inj new ▸ attachable.apart
      size := by rw [size_setParent, size_setKind]
      kind_of_ne := fun different => by rw [kinds, if_neg different]
      head := fun n => by
        rw [kinds]
        split
        · rename_i same
          exact same ▸ NodeKind.withChildList_head ..
        · exact .refl _
      mem_children := fun {c} => by
        rw [children, kinds, if_pos rfl, NodeKind.mem_children_withChildList list grown]
        simp [children, eq_comm]
      children_nodup := by
        rw [children, kinds, if_pos rfl]
        exact NodeKind.withChildList_nodup list grown
          (sound.forest.children_nodup attachable.owner_live) new
      parent := fun n => by
        rw [parent?_setParent (by simpa using attachable.live.known), parent?_setKind]
        simp [eq_comm]
      live := fun {n} => by
        rw [Live, live_setParent, live_setKind]
        exact ⟨fun live => ⟨live, not_under_none⟩, And.left⟩ }

/-- Adding a child anywhere in the child list of a node is an edit. -/
theorem link_edit (sound : p.Sound) {owner node : NodeId} (attachable : p.Attachable owner node)
    {ids ids' : List NodeId} (list : (p.kind owner).childList? = some ids)
    (grown : ids'.Perm (node :: ids)) :
    Edit p owner none (some node) none
      ((p.setKind owner ((p.kind owner).withChildList ids')).adopt owner node) := by
  refine adopt_edit sound (link_relink sound attachable list grown) (pruned_none rfl rfl)
    (fun n => scope?_setKind ..) ?_
  refine sound.exact.congr_inside fun n => ?_
  exact ⟨And.left, fun reached => ⟨reached, not_under_none⟩⟩

theorem append_edit (sound : p.Sound) {owner node : NodeId} (result : p.append owner node = .ok q) :
    Edit p owner none (some node) none q := by
  obtain ⟨attachable, ids, list, rfl⟩ := (append_eq_ok_iff sound.forest).mp result
  exact link_edit sound attachable list List.perm_append_comm

theorem insertNear_edit (sound : p.Sound) {anchor node : NodeId} {offset : Nat}
    (result : p.insertNear anchor node offset = .ok q) :
    ∃ owner, p.parent? anchor = some owner ∧ Edit p owner none (some node) none q := by
  obtain ⟨owner, ⟨_, link⟩, attachable, ids, list, _, rfl⟩ :=
    (insertNear_eq_ok_iff sound.forest).mp result
  refine ⟨owner, link, link_edit sound attachable list ?_⟩
  refine List.perm_middle.trans ?_
  rw [List.take_append_drop]

/-! Taking out. -/

theorem detach_eq_ok_iff {node : NodeId} :
    p.detach node = .ok q ↔ ∃ owner, (p.Live node ∧ p.parent? node = some owner) ∧
      ∃ kind, (p.kind owner).withoutChild? node = some kind ∧
        q = (p.cut owner kind node).touch ((p.cut owner kind node).scopeBelow owner) := by
  simp only [detach, bind_eq_ok_iff, liveParent_eq_ok_iff]
  refine exists_congr fun owner => and_congr_right fun _ => ?_
  cases (p.kind owner).withoutChild? node with
  | none => simp [throw_eq_ok_iff]
  | some kind => simp [pure_eq_ok_iff, cut]

theorem detach_edit (sound : p.Sound) {node : NodeId} (result : p.detach node = .ok q) :
    ∃ owner, p.parent? node = some owner ∧ Edit p owner (some node) none none q := by
  obtain ⟨owner, ⟨live, link⟩, kind, without, rfl⟩ := detach_eq_ok_iff.mp result
  have distinct := sound.forest.children_nodup (sound.forest.owner_live live link)
  exact ⟨owner, link, cut_edit sound live link (NodeKind.withoutChild?_head without)
    (NodeKind.children_withoutChild? without distinct) _⟩

theorem remove_eq_ok_iff {node : NodeId} :
    p.remove node = .ok q ↔ ∃ t, p.detach node = .ok t ∧ q = t.destroy node := by
  simp only [remove, bind_eq_ok_iff, pure_eq_ok_iff]

/-- Destroying a detached subtree only adds to an edit that it has lost its owner in. -/
theorem destroy_edit (sound : p.Sound) {owner node : NodeId} {t : Program}
    (edit : Edit p owner (some node) none none t) :
    Edit p owner (some node) none (some node) (t.destroy node) := by
  have soundT := edit.sound sound
  have destroyed := destroy_spec t node
  have below {n : NodeId} : n ∈ t.preorder node ↔ p.Live n ∧ p.Under (some node) n := by
    rw [soundT.forest.mem_preorder, edit.live]
    constructor
    · rintro ⟨⟨live, _⟩, above⟩
      rcases edit.above_cases above with old | ⟨below, _⟩
      · exact ⟨live, node, rfl, old⟩
      · exact absurd below not_under_none
    · rintro ⟨live, _, same, above⟩
      cases same
      refine ⟨⟨live, not_under_none⟩, edit.above_kept sound.forest above fun g old _ => ?_⟩
      cases old
      exact .refl
  generalize t.destroy node = q at *
  have kinds := destroyed.kind
  have parents (n : NodeId) : q.parent? n = t.parent? n := by
    rw [parent?, destroyed.node]
    split <;> rfl
  have scopes (n : NodeId) : q.scope? n = t.scope? n := by
    rw [scope?, destroyed.node]
    split <;> rfl
  have childrenQ (n : NodeId) : q.children n = t.children n := by rw [children, kinds, children]
  have lives {n : NodeId} : q.Live n ↔ p.Live n ∧ ¬ p.Under (some node) n := by
    have liveT : t.Live n ↔ p.Live n := edit.live.trans (and_iff_left not_under_none)
    rw [Live, destroyed.node]
    by_cases member : n ∈ t.preorder node
    · simp [member, (below.mp member).2]
    · rw [if_neg member]
      exact liveT.trans
        ⟨fun live => ⟨live, fun under => member (below.mpr ⟨live, under⟩)⟩, And.left⟩
  have relink : Relink p owner (some node) none (some node) q :=
    { owner_live := edit.owner_live
      gone_live := edit.gone_live
      gone_owned := edit.gone_owned
      lost_gone := id
      come_live := fun new => absurd new (Option.some_ne_none _).symm
      come_top := fun new => absurd new (Option.some_ne_none _).symm
      come_free := fun new => absurd new (Option.some_ne_none _).symm
      come_apart := fun new => absurd new (Option.some_ne_none _).symm
      size := destroyed.size.trans edit.size
      kind_of_ne := fun different => (kinds _).trans (edit.kind_of_ne different)
      head := fun n => by
        rw [kinds]
        exact edit.head n
      mem_children := by
        rw [childrenQ]
        exact edit.mem_children
      children_nodup := by
        rw [childrenQ]
        exact edit.children_nodup
      parent := fun n => (parents n).trans (edit.parent n)
      live := lives }
  have pruned : Pruned p (some node) q :=
    { modules := destroyed.modules.trans edit.modules
      symbols_size := destroyed.symbols_size.trans edit.symbols_size
      core := fun s => (destroyed.core s).trans (edit.core s)
      symbol_live := fun {s} => by
        rw [destroyed.symbol_live, edit.symbol_live]
        constructor
        · rintro ⟨⟨live, _⟩, kept⟩
          refine ⟨live, fun n liveN under defines => kept n (below.mpr ⟨liveN, under⟩) ?_⟩
          rw [(edit.head n).defines, defines]
        · rintro ⟨live, kept⟩
          refine ⟨⟨live, fun n _ under => absurd under not_under_none⟩, fun n member defines => ?_⟩
          obtain ⟨liveN, under⟩ := below.mp member
          rw [(edit.head n).defines] at defines
          exact kept n liveN under defines
      mem_callers := fun {f c} => by
        rw [destroyed.callers, edit.mem_callers, (edit.head c).callee, below]
        constructor
        · rintro ⟨⟨listed, _⟩, kept⟩
          exact ⟨listed, fun gone => kept ⟨⟨gone.1, gone.2.1⟩, gone.2.2⟩⟩
        · rintro ⟨listed, kept⟩
          exact ⟨⟨listed, fun gone => absurd gone.2.1 not_under_none⟩,
            fun gone => kept ⟨gone.1.1, gone.1.2, gone.2⟩⟩ }
  have rooted : q.Rooted := relink.rooted pruned sound fun r _ =>
    (scopes r).trans (edit.scope_kept not_under_none)
  refine { relink, pruned with
    scope_kept := fun {n} _ => (scopes n).trans (edit.scope_kept not_under_none)
    scope_come := fun new => absurd new (Option.some_ne_none _).symm
    scope_inside := fun {m c} _ under => absurd under not_under_none
    exact := ?_ }
  rw [destroyed.registries]
  refine edit.exact.congr (fun n => ?_) destroyed.modules (fun n => by rw [kinds])
    (fun n => by rw [kinds]) fun s => Symbol.sort_of_core (destroyed.core s)
  rw [relink.reached_iff sound.forest sound.rooted rooted pruned.roots, edit.reached_iff sound]

theorem remove_edit (sound : p.Sound) {node : NodeId} (result : p.remove node = .ok q) :
    ∃ owner, p.parent? node = some owner ∧ Edit p owner (some node) none (some node) q := by
  obtain ⟨t, detached, rfl⟩ := remove_eq_ok_iff.mp result
  obtain ⟨owner, link, edit⟩ := detach_edit sound detached
  exact ⟨owner, link, destroy_edit sound edit⟩

/-- A statement that is taken out is gone from its block, and all other nodes stay as they are. -/
theorem kind_of_detach (sound : p.Sound) {node owner : NodeId} {stmts : List NodeId}
    (link : p.parent? node = some owner) (block : p.kind owner = .block stmts)
    (result : p.detach node = .ok q) (n : NodeId) :
    q.kind n = if n = owner then .block (stmts.filter (· != node)) else p.kind n := by
  obtain ⟨owner', ⟨live, link'⟩, kind, without, rfl⟩ := detach_eq_ok_iff.mp result
  cases Option.some.inj (link.symm.trans link')
  have cut := cut_spec sound live link (NodeKind.withoutChild?_head without)
  have child := sound.forest.owner_lists live link
  rw [children, block] at child
  have member : node ∈ stmts := child
  have cutKind : kind = .block (stmts.filter (· != node)) := by
    rw [block] at without
    simpa [NodeKind.withoutChild?, NodeKind.childList?, NodeKind.withChildList, member, eq_comm]
      using without
  rw [Program.kind, node_of_nodes (nodes_touch ..), ← Program.kind, cut.kind_eq, cutKind]

theorem kind_of_remove (sound : p.Sound) {node owner : NodeId} {stmts : List NodeId}
    (link : p.parent? node = some owner) (block : p.kind owner = .block stmts)
    (result : p.remove node = .ok q) (n : NodeId) :
    q.kind n = if n = owner then .block (stmts.filter (· != node)) else p.kind n := by
  obtain ⟨t, detached, rfl⟩ := remove_eq_ok_iff.mp result
  rw [(destroy_spec t node).kind, kind_of_detach sound link block detached]

/-- A statement can be taken out of its block. -/
theorem exists_detach {node owner : NodeId} {stmts : List NodeId} (live : p.Live node)
    (link : p.parent? node = some owner) (block : p.kind owner = .block stmts)
    (listed : node ∈ stmts) : ∃ q, p.detach node = .ok q := by
  obtain ⟨kind, without⟩ : ∃ kind, (p.kind owner).withoutChild? node = some kind := by
    rw [block]
    exact ⟨.block (stmts.filter (· != node)),
      by simp [NodeKind.withoutChild?, NodeKind.childList?, NodeKind.withChildList, listed]⟩
  exact ⟨_, detach_eq_ok_iff.mpr ⟨owner, ⟨live, link⟩, kind, without, rfl⟩⟩

/-! Putting one node in the place of another. -/

theorem replace_eq_ok_iff (forest : p.Forest) {old new : NodeId} :
    p.replace old new = .ok q ↔ ∃ owner, (p.Live old ∧ p.parent? old = some owner) ∧
      p.Attachable owner new ∧
      q = ((p.cut owner ((p.kind owner).replaceChild old new) old).destroy old).adopt owner new := by
  simp only [replace, bind_eq_ok_iff, liveParent_eq_ok_iff, checkAttachable_eq_ok_iff forest,
    exists_const, pure_eq_ok_iff, cut]

theorem replace_edit (sound : p.Sound) {old new : NodeId} (result : p.replace old new = .ok q) :
    ∃ owner, p.parent? old = some owner ∧ Edit p owner (some old) (some new) (some old) q := by
  obtain ⟨owner, ⟨live, link⟩, attachable, equal⟩ := (replace_eq_ok_iff sound.forest).mp result
  have known := attachable.owner_live.known
  have distinct := sound.forest.children_nodup attachable.owner_live
  have listed := sound.forest.owner_lists live link
  have fresh : new ∉ p.children owner := fun child => by
    have link := sound.forest.child_parent attachable.owner_live child
    rw [attachable.top] at link
    cases link
  refine ⟨owner, link, ?_⟩
  rw [equal]
  clear equal result
  have head := NodeKind.replaceChild_head (p.kind owner) old new
  have cut := cut_spec sound live link head
  have destroyed := destroy_spec (p.cut owner ((p.kind owner).replaceChild old new) old) old
  rw [cut.preorder] at destroyed
  generalize p.cut owner ((p.kind owner).replaceChild old new) old = t at *
  generalize t.destroy old = u at *
  have below {n : NodeId} : n ∈ p.preorder old ↔ p.Live n ∧ p.Under (some old) n := by
    rw [sound.forest.mem_preorder]
    exact and_congr_right fun _ => ⟨fun above => ⟨old, rfl, above⟩, fun ⟨_, same, above⟩ =>
      Option.some.inj same ▸ above⟩
  have heads (n : NodeId) : (p.kind n).SameHead (t.kind n) := by
    rw [cut.kind_eq]
    split
    · rename_i same
      exact same ▸ head
    · exact .refl _
  have kinds (n : NodeId) : (u.setParent new (some owner)).kind n =
      if n = owner then (p.kind owner).replaceChild old new else p.kind n := by
    rw [kind_setParent, destroyed.kind, cut.kind_eq]
  have parentsU (n : NodeId) : u.parent? n = if n = old then none else p.parent? n := by
    rw [parent?, destroyed.node, ← cut.parent]
    split <;> rfl
  refine adopt_edit sound ?_ ?_ (fun n => ?_) (destroyed.registries ▸ cut.exact)
  · exact
      { owner_live := attachable.owner_live
        gone_live := fun same => Option.some.inj same ▸ live
        gone_owned := fun same => Option.some.inj same ▸ link
        lost_gone := id
        come_live := fun same => Option.some.inj same ▸ attachable.live
        come_top := fun same => Option.some.inj same ▸ attachable.top
        come_free := fun same => Option.some.inj same ▸ attachable.not_root
        come_apart := fun same => Option.some.inj same ▸ attachable.apart
        size := by rw [size_setParent, destroyed.size, cut.size]
        kind_of_ne := fun different => by rw [kinds, if_neg different]
        head := fun n => by
          rw [kind_setParent, destroyed.kind]
          exact heads n
        mem_children := fun {c} => by
          rw [children, kinds, if_pos rfl, NodeKind.mem_children_replaceChild distinct listed]
          simp [children]
        children_nodup := by
          rw [children, kinds, if_pos rfl]
          exact NodeKind.replaceChild_nodup distinct fresh
        parent := fun n => by
          rw [parent?_setParent (by rw [destroyed.size, cut.size]; exact attachable.live.known),
            parentsU]
          simp [eq_comm]
        live := fun {n} => by
          rw [Live, live_setParent, destroyed.node]
          by_cases member : n ∈ p.preorder old
          · simp [member, (below.mp member).2]
          · rw [if_neg member, cut.live]
            exact ⟨fun live => ⟨live, fun under => member (below.mpr ⟨live, under⟩)⟩, And.left⟩ }
  · exact
      { modules := destroyed.modules.trans cut.modules
        symbols_size := destroyed.symbols_size.trans (congrArg Array.size cut.symbols)
        core := fun s => by rw [destroyed.core, symbol_of_symbols cut.symbols]
        symbol_live := fun {s} => by
          rw [destroyed.symbol_live, symbol_of_symbols cut.symbols]
          simp only [below, (heads _).defines, and_imp]
        mem_callers := fun {f c} => by
          rw [destroyed.callers, symbol_of_symbols cut.symbols, below, (heads c).callee, and_assoc] }
  · rw [scope?, destroyed.node, ← cut.scope]
    split <;> rfl

end MiddleEnd.Program
