import MiddleEnd.Proofs.Settled.Keep

namespace MiddleEnd.Program

variable {p q : Program} {owner : NodeId} {gone come lost : Option NodeId}

/-! Edits of the tree. -/

namespace Edit

theorem tidy (edit : Edit p owner gone come lost q) (tidy : p.Tidy)
    (fits : ∀ {slot c}, (slot, c) ∈ (q.kind owner).slots →
      (slot, c) ∈ (p.kind owner).slots ∨ p.Fits c slot)
    (silent : ∀ n, p.Live n → p.Under lost n → (p.kind n).defines? = none) : q.Tidy where
  sound := edit.sound tidy.sound
  symbols_live {s} known := by
    rw [edit.symbols_size] at known
    refine edit.symbol_live.mpr ⟨tidy.symbols_live known, fun n live below defines => ?_⟩
    rw [silent n live below] at defines
    cases defines
  lawful {n} live := by
    have liveN := (edit.live.mp live).1
    have lawful := tidy.lawful liveN
    have size := Nat.le_of_eq edit.symbols_size.symm
    have known (c : NodeId) (s : SymbolId) (defines : (p.kind c).defines? = some s) :=
      tidy.sound.bound_known defines
    by_cases same : n = owner
    · subst same
      have head := edit.head n
      exact
        { fits := fun {slot c} member => by
            rcases fits member with old | new
            · exact (lawful.fits old).mono (edit.head c) (known c) fun s _ => edit.toPruned.sort s
            · exact new.mono (edit.head c) (known c) fun s _ => edit.toPruned.sort s
          defines_known := fun defines => by
            rw [edit.symbols_size]
            exact lawful.defines_known (head.defines ▸ defines)
          defines_fn := fun defines => by
            rw [edit.toPruned.sort, head.isFnDef]
            exact lawful.defines_fn (head.defines ▸ defines)
          defines_local := fun defines => by
            rw [edit.toPruned.sort]
            exact lawful.defines_local (head.defines ▸ defines)
          ref_value := fun {v} ref => by
            obtain ⟨knownV, value⟩ := lawful.ref_value (head.symRef ▸ ref)
            rw [edit.symbols_size, Symbol.isValue_of_core (edit.core v)]
            exact ⟨knownV, value⟩
          callee_fn := fun {f} callee => by
            rw [isFn, Symbol.isFn_of_core (edit.core f)]
            exact lawful.callee_fn (head.callee ▸ callee) }
    · rw [edit.kind_of_ne same]
      exact lawful.mono (fun c _ => edit.head c) (fun c _ => known c) size
        fun s _ => edit.toPruned.sort s

theorem settled (edit : Edit p owner gone come lost q) (settled : p.Settled) (whole : gone = lost)
    (fits : ∀ {slot c}, (slot, c) ∈ (q.kind owner).slots →
      (slot, c) ∈ (p.kind owner).slots ∨ p.Fits c slot)
    (silent : ∀ n, p.Live n → p.Under lost n → (p.kind n).defines? = none) : q.Settled where
  toTidy := edit.tidy settled.toTidy fits silent
  callers {f c} listed := by
    obtain ⟨old, kept⟩ := edit.mem_callers.mp listed
    obtain ⟨reached, callee⟩ := settled.callers old
    have stays : ¬ p.Under gone c := fun below =>
      kept ⟨settled.sound.live_of_reached reached, whole ▸ below, callee⟩
    refine ⟨(edit.reached_iff settled.sound).mpr (.inl ⟨reached, stays⟩), ?_⟩
    rw [callee?, (edit.head c).callee]
    exact callee

end Edit

/-! Attaching a node. -/

/-- Setting scopes changes no construct. -/
theorem kind_rescope (depth : Nat) (id : NodeId) (scope : Option SymbolId) (p : Program)
    (n : NodeId) : (rescope depth id scope p).kind n = p.kind n := by
  refine rescope_keeps (·.kind n) (fun p id scope => ?_) depth id scope p
  simp only [kind, node_modifyNode]
  split <;> rfl

theorem kind_adopt (parent node n : NodeId) : (p.adopt parent node).kind n = p.kind n := by
  unfold adopt
  have entered (t : Program) :
      (if t.isAttached parent then t.registerSubtree node else t).kind n = t.kind n := by
    split <;> rfl
  have touched (t : Program) (scope : Option SymbolId) : (t.touch scope).kind n = t.kind n := by
    rw [kind, node_of_nodes (nodes_touch ..), kind]
  rw [touched, entered, kind_rescope, kind_setParent]

theorem kind_link {node : NodeId} {kind : NodeKind} (known : owner.index < p.nodes.size) :
    ((p.setKind owner kind).adopt owner node).kind owner = kind := by
  rw [kind_adopt, kind_setKind known, if_pos rfl]

theorem of_append {owner node : NodeId} (result : p.append owner node = .ok q) :
    owner.index < p.nodes.size ∧ ∃ ids, (p.kind owner).childList? = some ids ∧
      q = (p.setKind owner ((p.kind owner).withChildList (ids ++ [node]))).adopt owner node := by
  rw [append] at result
  obtain ⟨_, attachable, result⟩ := Outcome.bind_eq_ok_iff.mp result
  obtain ⟨_, live, _⟩ := Outcome.bind_eq_ok_iff.mp attachable
  refine ⟨(checkLive_eq_ok_iff.mp live).known, ?_⟩
  cases list : (p.kind owner).childList? with
  | none =>
    rw [list] at result
    cases result
  | some ids =>
    rw [list] at result
    exact ⟨ids, rfl, Outcome.pure_eq_ok_iff.mp result⟩

theorem kind_of_append {owner node : NodeId} (result : p.append owner node = .ok q) :
    ∃ ids, (p.kind owner).childList? = some ids ∧
      ∀ n, q.kind n =
        if n = owner then (p.kind owner).withChildList (ids ++ [node]) else p.kind n := by
  obtain ⟨known, ids, list, rfl⟩ := of_append result
  refine ⟨ids, list, fun n => ?_⟩
  rw [kind_adopt, kind_setKind known]

theorem not_defines_under_none (n : NodeId) (_ : p.Live n) (below : p.Under none n) :
    (p.kind n).defines? = none :=
  absurd below not_under_none

theorem append_settled (settled : p.Settled) {node : NodeId}
    (result : p.append owner node = .ok q) (fits : p.Fits node (p.kind owner).listSlot) :
    q.Settled := by
  have edit := append_edit settled.sound result
  obtain ⟨attachable, ids, list, equal⟩ := (append_eq_ok_iff settled.sound.forest).mp result
  refine edit.settled settled rfl (fun {slot c} member => ?_) not_defines_under_none
  rw [equal, kind_link attachable.owner_live.known,
    NodeKind.mem_slots_withChildList list List.perm_append_comm] at member
  rcases member with old | ⟨rfl, rfl⟩
  · exact .inl old
  · exact .inr fits

/-- A node may stand in front of or after a node that stands in a block. -/
theorem insertNear_settled (settled : p.Settled) {anchor node : NodeId} {offset : Nat}
    (result : p.insertNear anchor node offset = .ok q)
    (block : ∀ owner, p.parent? anchor = some owner → (p.kind owner).isBlock = true) :
    q.Settled := by
  obtain ⟨owner, link, edit⟩ := insertNear_edit settled.sound result
  obtain ⟨owner', ⟨_, link'⟩, attachable, ids, list, _, equal⟩ :=
    (insertNear_eq_ok_iff settled.sound.forest).mp result
  cases Option.some.inj (link.symm.trans link')
  have grown : (ids.take (ids.idxOf anchor + offset) ++
      node :: ids.drop (ids.idxOf anchor + offset)).Perm (node :: ids) := by
    refine List.perm_middle.trans ?_
    rw [List.take_append_drop]
  have isBlock := block owner link
  refine edit.settled settled rfl (fun {slot c} member => ?_) not_defines_under_none
  rw [equal, kind_link attachable.owner_live.known,
    NodeKind.mem_slots_withChildList list grown] at member
  rcases member with old | ⟨rfl, rfl⟩
  · exact .inl old
  · refine .inr ?_
    cases kind : p.kind owner <;> simp [kind, NodeKind.isBlock] at isBlock
    trivial

/-! Destroying an expression or a statement that defines nothing. -/

theorem replace_settled (settled : p.Settled) {old new : NodeId}
    (result : p.replace old new = .ok q)
    (fits : ∀ {owner slot}, p.parent? old = some owner → (slot, old) ∈ (p.kind owner).slots →
      p.Fits new slot)
    (silent : ∀ n, p.Live n → p.Above old n → (p.kind n).defines? = none) : q.Settled := by
  obtain ⟨owner, link, edit⟩ := replace_edit settled.sound result
  obtain ⟨owner', ⟨live, link'⟩, attachable, equal⟩ :=
    (replace_eq_ok_iff settled.sound.forest).mp result
  cases Option.some.inj (link.symm.trans link')
  have distinct := settled.sound.forest.children_nodup attachable.owner_live
  have head := NodeKind.replaceChild_head (p.kind owner) old new
  have cut := cut_spec settled.sound live link head
  refine edit.settled settled rfl (fun {slot c} member => ?_) fun n liveN below => ?_
  · rw [equal, kind_adopt, (destroy_spec _ old).kind, cut.kind_eq, if_pos rfl,
      NodeKind.slots_replaceChild distinct] at member
    obtain ⟨⟨slot', d⟩, there, same⟩ := List.mem_map.mp member
    cases same
    by_cases isOld : d = old
    · subst isOld
      rw [if_pos rfl]
      exact .inr (fits link there)
    · rw [if_neg isOld]
      exact .inl there
  · obtain ⟨_, same, above⟩ := below
    cases same
    exact silent n liveN above

theorem remove_settled (settled : p.Settled) {node : NodeId} (result : p.remove node = .ok q)
    (silent : ∀ n, p.Live n → p.Above node n → (p.kind n).defines? = none) : q.Settled := by
  obtain ⟨owner, link, edit⟩ := remove_edit settled.sound result
  obtain ⟨t, detached, equal⟩ := remove_eq_ok_iff.mp result
  obtain ⟨owner', ⟨live, link'⟩, kind, without, equal'⟩ := detach_eq_ok_iff.mp detached
  cases Option.some.inj (link.symm.trans link')
  have distinct := settled.sound.forest.children_nodup (edit.owner_live)
  have cut := cut_spec settled.sound live link (NodeKind.withoutChild?_head without)
  refine edit.settled settled rfl (fun {slot c} member => ?_) fun n liveN below => ?_
  · rw [equal, (destroy_spec t node).kind, equal', Program.kind, node_of_nodes (nodes_touch ..),
      ← Program.kind, cut.kind_eq, if_pos rfl, NodeKind.slots_withoutChild? without distinct] at member
    exact .inl (List.mem_filter.mp member).1
  · obtain ⟨_, same, above⟩ := below
    cases same
    exact silent n liveN above

/-! Naming another symbol. -/

theorem Retarget.tidy (change : Retarget p q) (tidy : p.Tidy)
    (refs : ∀ {n v}, p.Live n → (q.kind n).symRef? = some v →
      v.index < p.symbols.size ∧ (p.symbol v).isValue = true)
    (callees : ∀ {n f}, p.Live n → (q.kind n).callee? = some f → p.isFn f = true)
    (slots : ∀ n, (q.kind n).slots = (p.kind n).slots) : q.Tidy where
  sound := change.sound tidy.sound
  symbols_live {s} known := by
    rw [change.symbols_size] at known
    rw [change.symbol_live]
    exact tidy.symbols_live known
  lawful {n} live := by
    replace live := change.live_iff.mp live
    have lawful := tidy.lawful live
    have sort (s : SymbolId) : (q.symbol s).kind.sort = (p.symbol s).kind.sort :=
      Symbol.sort_of_core (change.core s)
    have fits {c : NodeId} {slot : Slot} (old : p.Fits c slot) : q.Fits c slot := by
      cases slot with
      | expr =>
        rw [Fits, NodeKind.isExpr_iff, change.tag, ← NodeKind.isExpr_iff]
        exact old
      | test => exact (change.tag c).trans old
      | block =>
        rw [Fits, NodeKind.isBlock_iff, change.tag, ← NodeKind.isBlock_iff]
        exact old
      | stmt => trivial
      | index | formal =>
        obtain ⟨tag, s, defines, sorted⟩ := old
        exact ⟨(change.tag c).trans tag, s, (change.defines c).trans defines,
          (sort s).trans sorted⟩
    exact
      { fits := fun member => fits (lawful.fits (slots n ▸ member))
        defines_known := fun defines => by
          rw [change.symbols_size]
          exact lawful.defines_known (change.defines n ▸ defines)
        defines_fn := fun defines => by
          rw [sort, change.isFnDef]
          exact lawful.defines_fn (change.defines n ▸ defines)
        defines_local := fun defines => by
          rw [sort]
          exact lawful.defines_local (change.defines n ▸ defines)
        ref_value := fun {v} ref => by
          rw [change.symbols_size, Symbol.isValue_of_core (change.core v)]
          exact refs live ref
        callee_fn := fun {f} callee => by
          rw [isFn, Symbol.isFn_of_core (change.core f)]
          exact callees live callee }

theorem setRef_settled (settled : p.Settled) {node : NodeId} {v : SymbolId}
    (result : p.setRef node v = .ok q) (known : v.index < p.symbols.size)
    (value : (p.symbol v).isValue = true) : q.Settled := by
  have change := setRef_retarget result
  obtain ⟨live, ⟨old, kind⟩, equal⟩ := setRef_eq_ok_iff.mp result
  have kinds (n : NodeId) : q.kind n = if n = node then .symRef v else p.kind n := by
    rw [equal, Program.kind, node_of_nodes (nodes_touch ..), ← Program.kind, kind_setKind live.known]
  have callers (f : SymbolId) : (q.symbol f).callers = (p.symbol f).callers := by
    rw [equal, symbol_touch]
    rfl
  refine { change.tidy settled.toTidy ?_ ?_ ?_ with callers := ?_ }
  · intro n w liveN ref
    rw [kinds] at ref
    split at ref
    · cases ref
      exact ⟨known, value⟩
    · exact (settled.lawful liveN).ref_value ref
  · intro n f liveN callee
    rw [kinds] at callee
    split at callee
    · cases callee
    · exact (settled.lawful liveN).callee_fn callee
  · intro n
    rw [kinds]
    split
    · rename_i same
      rw [same, kind]
      rfl
    · rfl
  · intro f c listed
    rw [callers] at listed
    obtain ⟨reached, callee⟩ := settled.callers listed
    refine ⟨change.reached.mpr reached, ?_⟩
    have other : c ≠ node := by
      rintro rfl
      rw [callee?, kind] at callee
      cases callee
    rw [callee?, kinds, if_neg other]
    exact callee

theorem setCallee_settled (settled : p.Settled) {call : NodeId} {f : SymbolId}
    (result : p.setCallee call (some f) = .ok q) (reached : p.Reached call) : q.Settled := by
  have change := setCallee_resolved result
  have fn := ((setCallee_eq_ok_iff.mp result).2.1 f rfl).2
  obtain ⟨previous, name, args, before, after⟩ := change.kind_call
  refine { change.toRetarget.tidy settled.toTidy ?_ ?_ ?_ with callers := ?_ }
  · intro n w liveN ref
    by_cases same : n = call
    · rw [same, after] at ref
      cases ref
    · rw [change.kind_of_ne same] at ref
      exact (settled.lawful liveN).ref_value ref
  · intro n g liveN callee
    by_cases same : n = call
    · rw [same, after] at callee
      cases callee
      exact fn
    · rw [change.kind_of_ne same] at callee
      exact (settled.lawful liveN).callee_fn callee
  · intro n
    by_cases same : n = call
    · rw [same, after, before]
      rfl
    · rw [change.kind_of_ne same]
  · intro g c listed
    rcases change.mem_callers.mp listed with ⟨old, kept⟩ | ⟨rfl, target⟩
    · obtain ⟨reachedC, callee⟩ := settled.callers old
      have other : c ≠ call := by
        rintro rfl
        exact kept ⟨rfl, callee⟩
      refine ⟨change.toRetarget.reached.mpr reachedC, ?_⟩
      rw [callee?, change.kind_of_ne other]
      exact callee
    · refine ⟨change.toRetarget.reached.mpr reached, ?_⟩
      rw [callee?, after]
      exact target

/-! Moving a node. -/

/-- A node that is taken out and put in a block again is back with all that is below it. -/
theorem move_settled (settled : p.Settled) {t : Program} {anchor node : NodeId}
    (detached : p.detach node = .ok t) (inserted : t.insertNear anchor node 0 = .ok q)
    (block : ∀ owner, t.parent? anchor = some owner →
      (t.kind owner).isBlock = true ∧ t.Reached owner) : q.Settled := by
  obtain ⟨from_, link, out⟩ := detach_edit settled.sound detached
  obtain ⟨from', ⟨live, link'⟩, kind, without, equal⟩ := detach_eq_ok_iff.mp detached
  cases Option.some.inj (link.symm.trans link')
  have distinct := settled.sound.forest.children_nodup out.owner_live
  have cut := cut_spec settled.sound live link (NodeKind.withoutChild?_head without)
  have tidyT : t.Tidy := by
    refine out.tidy settled.toTidy (fun {slot c} member => ?_) not_defines_under_none
    rw [equal, Program.kind, node_of_nodes (nodes_touch ..), ← Program.kind, cut.kind_eq,
      if_pos rfl, NodeKind.slots_withoutChild? without distinct] at member
    exact .inl (List.mem_filter.mp member).1
  obtain ⟨into, linkT, back⟩ := insertNear_edit tidyT.sound inserted
  obtain ⟨isBlock, reachedInto⟩ := block into linkT
  obtain ⟨into', ⟨_, linkT'⟩, attachable, ids, list, _, equalQ⟩ :=
    (insertNear_eq_ok_iff tidyT.sound.forest).mp inserted
  cases Option.some.inj (linkT.symm.trans linkT')
  have grown : (ids.take (ids.idxOf anchor + 0) ++
      node :: ids.drop (ids.idxOf anchor + 0)).Perm (node :: ids) := by
    refine List.perm_middle.trans ?_
    rw [List.take_append_drop]
  have tidyQ : q.Tidy := by
    refine back.tidy tidyT (fun {slot c} member => ?_) not_defines_under_none
    rw [equalQ, kind_link attachable.owner_live.known,
      NodeKind.mem_slots_withChildList list grown] at member
    rcases member with old | ⟨rfl, rfl⟩
    · exact .inl old
    · refine .inr ?_
      cases kindInto : t.kind into <;> simp [kindInto, NodeKind.isBlock] at isBlock
      trivial
  refine { tidyQ with callers := fun {f c} listed => ?_ }
  obtain ⟨listedT, _⟩ := back.mem_callers.mp listed
  obtain ⟨listedP, _⟩ := out.mem_callers.mp listedT
  obtain ⟨reached, callee⟩ := settled.callers listedP
  refine ⟨(back.reached_iff tidyT.sound).mpr ?_, ?_⟩
  · by_cases below : p.Under (some node) c
    · have liveC := settled.sound.live_of_reached reached
      have liveT : t.Live c := out.live.mpr ⟨liveC, not_under_none⟩
      obtain ⟨_, same, above⟩ := below
      cases same
      refine .inr ⟨reachedInto, liveT, node, rfl, ?_⟩
      refine out.above_kept settled.sound.forest above fun g isGone _ => ?_
      cases isGone
      exact .refl
    · exact .inl ⟨(out.reached_iff settled.sound).mpr (.inl ⟨reached, below⟩), not_under_none⟩
  · rw [callee?, (back.head c).callee, (out.head c).callee]
    exact callee

end MiddleEnd.Program
