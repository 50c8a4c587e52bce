import MiddleEnd.Arena.Verify
import MiddleEnd.Proofs.Arena.Way

/-! The survey of the tree. It opens every node that is met once, so a survey that finds nothing wrong
has met what it came to by one way only; and where there is one way to each node, it meets none
twice. -/

namespace MiddleEnd.Program

variable {p : Program}

/-! What a survey has found stays found. -/

theorem violations_survey (fuel : Nat) (stack : List NodeId) (s : Survey) :
    s.violations <+: (p.survey fuel stack s).violations := by
  induction fuel generalizing stack s with
  | zero => exact List.prefix_rfl
  | succ fuel ih =>
    cases stack with
    | nil => exact List.prefix_rfl
    | cons id rest =>
      rw [survey]
      split
      · refine List.IsPrefix.trans ?_ (ih _ _)
        exact List.prefix_append ..
      · refine List.IsPrefix.trans ?_ (ih _ _)
        exact List.prefix_append ..

theorem violations_eq_nil_of_survey {fuel : Nat} {stack : List NodeId} {s : Survey}
    (clean : (p.survey fuel stack s).violations = []) : s.violations = [] :=
  List.prefix_nil.mp (clean ▸ violations_survey fuel stack s)

theorem surveyModule_of_none {s : Survey} {m : SymbolId} (block : p.moduleBlock? m = none) :
    p.surveyModule s m = s := by
  rw [surveyModule, block]

theorem surveyModule_of_some {s : Survey} {m : SymbolId} {r : NodeId}
    (block : p.moduleBlock? m = some r) : p.surveyModule s m =
      p.survey (p.slotCount + 1) [r]
        { s with violations := s.violations ++ p.rootViolations m r } := by
  rw [surveyModule, block]

theorem violations_surveyModule (s : Survey) (m : SymbolId) :
    s.violations <+: (p.surveyModule s m).violations := by
  cases block : p.moduleBlock? m with
  | none =>
    exact (congrArg Survey.violations (surveyModule_of_none block)).symm ▸ List.prefix_rfl
  | some r =>
    rw [surveyModule_of_some block]
    refine List.IsPrefix.trans ?_ (violations_survey _ _ _)
    exact List.prefix_append ..

theorem violations_foldl_surveyModule (modules : List SymbolId) (s : Survey) :
    s.violations <+: (modules.foldl p.surveyModule s).violations := by
  induction modules generalizing s with
  | nil => exact List.prefix_rfl
  | cons m modules ih => exact (violations_surveyModule s m).trans (ih _)

/-! A survey opens only what can be reached. -/

theorem reached_of_survey {fuel : Nat} {stack : List NodeId} {s : Survey}
    (stacked : ∀ n ∈ stack, p.Reached n) (before : ∀ n ∈ s.reached, p.Reached n) :
    ∀ n ∈ (p.survey fuel stack s).reached, p.Reached n := by
  induction fuel generalizing stack s with
  | zero => exact before
  | succ fuel ih =>
    cases stack with
    | nil => exact before
    | cons id rest =>
      obtain ⟨here, stacked⟩ := List.forall_mem_cons.mp stacked
      rw [survey]
      split
      · exact ih stacked before
      · refine ih (fun n member => ?_) (List.forall_mem_cons.mpr ⟨here, before⟩)
        rcases List.mem_append.mp member with child | later
        · exact here.child (List.mem_of_mem_filter (List.mem_reverse.mp child))
        · exact stacked n later

theorem reached_of_foldl_surveyModule {modules : List SymbolId} {s : Survey}
    (listed : modules ⊆ p.modules) (before : ∀ n ∈ s.reached, p.Reached n) :
    ∀ n ∈ (modules.foldl p.surveyModule s).reached, p.Reached n := by
  induction modules generalizing s with
  | nil => exact before
  | cons m modules ih =>
    obtain ⟨member, listed⟩ := List.cons_subset.mp listed
    refine ih listed ?_
    cases block : p.moduleBlock? m with
    | none => rwa [surveyModule_of_none block]
    | some r =>
      rw [surveyModule_of_some block]
      exact reached_of_survey
        (List.forall_mem_singleton.mpr (.root (mem_roots.mpr ⟨m, member, block⟩))) before

/-! The steps that a survey takes. -/

theorem slotCount_eq (p : Program) :
    p.slotCount = (p.nodeIds.map fun n => (p.children n).length).sum := by
  rw [slotCount, foldr_add_eq_sum, nodeIds]
  congr 1
  rw [List.map_map]
  refine List.ext_getElem (by simp) fun i bound _ => ?_
  have known : i < p.nodes.size := by simpa using bound
  simp [children, kind, node, known]

/-- The child slots of the nodes that a survey has not opened. -/
def slotsOutside (p : Program) (reached : List NodeId) : Nat :=
  ((p.nodeIds.filter fun n => !reached.contains n).map fun n => (p.children n).length).sum

theorem slotsOutside_le (p : Program) (reached : List NodeId) :
    p.slotsOutside reached ≤ p.slotCount := by
  rw [slotCount_eq]
  exact ((List.filter_sublist (l := p.nodeIds)).map _).sum_le_sum (by simp)

theorem nodup_nodeIds (p : Program) : p.nodeIds.Nodup :=
  List.nodup_range.map fun _ _ same => NodeId.mk.inj same

theorem slotsOutside_cons {reached : List NodeId} {n : NodeId} (new : n ∉ reached) :
    (p.children n).length + p.slotsOutside (n :: reached) ≤ p.slotsOutside reached := by
  by_cases known : n ∈ p.nodeIds
  · have outside : n ∈ p.nodeIds.filter fun m => !reached.contains m := by simp [known, new]
    have rest : (p.nodeIds.filter fun m => !(n :: reached).contains m) =
        (p.nodeIds.filter fun m => !reached.contains m).erase n := by
      rw [((nodup_nodeIds p).filter _).erase_eq_filter, List.filter_filter]
      refine List.filter_congr fun m _ => ?_
      rw [List.contains_cons, Bool.not_or]
      rfl
    have total := ((List.perm_cons_erase outside).map fun m => (p.children m).length).sum_eq
    rw [slotsOutside, slotsOutside, rest, total, List.map_cons, List.sum_cons]
  · have unknown : p.nodes.size ≤ n.index := by
      by_contra inside
      exact known (List.mem_map.mpr ⟨n.index, List.mem_range.mpr (Nat.not_le.mp inside), rfl⟩)
    have leaf : p.children n = [] := by
      rw [children, kind, node_of_not_known unknown]
      rfl
    have fewer : (p.nodeIds.filter fun m => !(n :: reached).contains m).Sublist
        (p.nodeIds.filter fun m => !reached.contains m) :=
      List.monotone_filter_right _ fun m => by simp
    rw [leaf, List.length_nil, Nat.zero_add]
    exact (fewer.map _).sum_le_sum (by simp)

/-! A survey that finds nothing. -/

/-- The node was opened and nothing was wrong with it, and its children were opened too. -/
structure Checked (p : Program) (reached : List NodeId) (n : NodeId) : Prop where
  node : p.nodeViolations n = []
  links : ∀ c ∈ p.children n, p.linkViolations n c = []
  children_nodup : (p.children n).Nodup
  inside : ∀ c ∈ p.children n, c ∈ reached

/-- The entries have been opened after the nodes of `before`, and all that was opened since then has
been checked. -/
structure Covers (p : Program) (before entries reached : List NodeId) : Prop where
  nodup : entries.Nodup
  fresh : ∀ n ∈ entries, n ∉ before
  kept : ∀ n ∈ before, n ∈ reached
  met : ∀ n ∈ entries, n ∈ reached
  checked : ∀ n ∈ reached, n ∈ before ∨ p.Checked reached n

namespace Covers

variable {before entries entries' reached reached' : List NodeId}

theorem nil (p : Program) (before : List NodeId) : p.Covers before [] before :=
  ⟨List.nodup_nil, nofun, fun _ => id, nofun, fun _ => .inl⟩

theorem append (first : p.Covers before entries reached)
    (second : p.Covers reached entries' reached') : p.Covers before (entries ++ entries') reached' where
  nodup := List.nodup_append.mpr ⟨first.nodup, second.nodup, fun n ofFirst m ofSecond same =>
    second.fresh m ofSecond (same ▸ first.met n ofFirst)⟩
  fresh n member := by
    rcases List.mem_append.mp member with ofFirst | ofSecond
    · exact first.fresh n ofFirst
    · exact fun old => second.fresh n ofSecond (first.kept n old)
  kept n old := second.kept n (first.kept n old)
  met n member := by
    rcases List.mem_append.mp member with ofFirst | ofSecond
    · exact second.kept n (first.met n ofFirst)
    · exact second.met n ofSecond
  checked n member := by
    rcases second.checked n member with earlier | checked
    · rcases first.checked n earlier with old | checked
      · exact .inl old
      · exact .inr
          { checked with inside := fun c child => second.kept c (checked.inside c child) }
    · exact .inr checked

/-- A node is covered if its children and all that was left are covered after it. -/
theorem cons {n : NodeId} {rest : List NodeId} (new : n ∉ before) (node : p.nodeViolations n = [])
    (links : ∀ c ∈ p.children n, p.linkViolations n c = [])
    (below : p.Covers (n :: before) ((p.children n).reverse ++ rest) reached) :
    p.Covers before (n :: rest) reached where
  nodup := List.nodup_cons.mpr
    ⟨fun again => below.fresh n (List.mem_append_right _ again) (List.mem_cons_self ..),
      (List.nodup_append.mp below.nodup).2.1⟩
  fresh m member := by
    rcases List.mem_cons.mp member with rfl | later
    · exact new
    · exact fun old =>
        below.fresh m (List.mem_append_right _ later) (List.mem_cons_of_mem _ old)
  kept m old := below.kept m (List.mem_cons_of_mem _ old)
  met m member := by
    rcases List.mem_cons.mp member with rfl | later
    · exact below.kept m (List.mem_cons_self ..)
    · exact below.met m (List.mem_append_right _ later)
  checked m member := by
    rcases below.checked m member with earlier | checked
    · rcases List.mem_cons.mp earlier with rfl | old
      · exact .inr
          { node := node
            links := links
            children_nodup := List.nodup_reverse.mp (List.nodup_append.mp below.nodup).1
            inside := fun c child =>
              below.met c (List.mem_append_left _ (List.mem_reverse.mpr child)) }
      · exact .inl old
    · exact .inr checked

end Covers

theorem live_of_linkViolations {n c : NodeId} (clean : p.linkViolations n c = []) : p.Live c := by
  by_contra dead
  simp [linkViolations, dead] at clean

/-- A node that was not met before and is linked well to its children is opened. -/
theorem survey_of_links {fuel : Nat} {id : NodeId} {rest : List NodeId} {s : Survey}
    (new : id ∉ s.reached) (links : ∀ c ∈ p.children id, p.linkViolations id c = []) :
    p.survey (fuel + 1) (id :: rest) s = p.survey fuel ((p.children id).reverse ++ rest)
      { reached := id :: s.reached, violations := s.violations ++ p.nodeViolations id } := by
  have live : ((p.children id).filter fun c => (p.node c).live) = p.children id :=
    List.filter_eq_self.mpr fun c child => live_of_linkViolations (links c child)
  rw [survey, if_neg (by simpa using new)]
  simp only [live, List.flatMap_eq_nil_iff.mpr links, List.append_nil]

/-- With fuel for all that it may open, a survey that finds nothing covers its stack. -/
theorem survey_covers {fuel : Nat} {stack : List NodeId} {s : Survey}
    (enough : stack.length + p.slotsOutside s.reached ≤ fuel)
    (clean : (p.survey fuel stack s).violations = []) :
    p.Covers s.reached stack (p.survey fuel stack s).reached := by
  induction fuel generalizing stack s with
  | zero =>
    cases stack with
    | nil => exact .nil p _
    | cons id rest => simp at enough
  | succ fuel ih =>
    cases stack with
    | nil => exact .nil p _
    | cons id rest =>
      have step := clean
      rw [survey] at step
      split at step
      · have found := violations_eq_nil_of_survey step
        simp at found
      · rename_i new
        replace new : id ∉ s.reached := by simpa using new
        have found := violations_eq_nil_of_survey step
        simp only [List.append_eq_nil_iff, List.flatMap_eq_nil_iff] at found
        obtain ⟨-, node, links⟩ := found
        rw [survey_of_links new links] at clean ⊢
        refine .cons new node links (ih ?_ clean)
        have fewer := slotsOutside_cons (p := p) new
        simp only [List.length_append, List.length_reverse, List.length_cons] at enough ⊢
        omega

theorem surveyModule_covers {s : Survey} {m : SymbolId}
    (clean : (p.surveyModule s m).violations = []) :
    p.Covers s.reached (p.moduleBlock? m).toList (p.surveyModule s m).reached ∧
      ∀ r, p.moduleBlock? m = some r → p.rootViolations m r = [] := by
  cases block : p.moduleBlock? m with
  | none =>
    rw [surveyModule_of_none block]
    exact ⟨.nil p _, nofun⟩
  | some r =>
    rw [surveyModule_of_some block] at clean ⊢
    obtain ⟨-, root⟩ := List.append_eq_nil_iff.mp (violations_eq_nil_of_survey clean)
    have fewer := slotsOutside_le p s.reached
    refine ⟨survey_covers (by simp only [List.length_singleton]; omega) clean, ?_⟩
    intro r' same
    exact Option.some.inj same ▸ root

theorem foldl_surveyModule_covers {modules : List SymbolId} {s : Survey}
    (clean : (modules.foldl p.surveyModule s).violations = []) :
    p.Covers s.reached (modules.filterMap p.moduleBlock?)
        (modules.foldl p.surveyModule s).reached ∧
      ∀ m ∈ modules, ∀ r, p.moduleBlock? m = some r → p.rootViolations m r = [] := by
  induction modules generalizing s with
  | nil => exact ⟨.nil p _, nofun⟩
  | cons m modules ih =>
    have cleanM : (p.surveyModule s m).violations = [] :=
      List.prefix_nil.mp (clean ▸ violations_foldl_surveyModule modules _)
    obtain ⟨first, root⟩ := surveyModule_covers cleanM
    obtain ⟨rest, roots⟩ := ih (s := p.surveyModule s m) clean
    refine ⟨?_, List.forall_mem_cons.mpr ⟨root, roots⟩⟩
    have whole := first.append rest
    rw [List.filterMap_cons, List.foldl_cons]
    cases block : p.moduleBlock? m <;> rwa [block] at whole

/-- A survey of all modules that finds nothing has opened all that can be reached. -/
theorem Covers.mem_of_reached {reached : List NodeId} (covers : p.Covers [] p.roots reached) {n : NodeId}
    (here : p.Reached n) : n ∈ reached := by
  induction here with
  | root isRoot => exact covers.met _ isRoot
  | child _ child met => exact ((covers.checked _ met).resolve_left nofun).inside _ child

theorem Covers.checked_of_reached {reached : List NodeId} (covers : p.Covers [] p.roots reached)
    {n : NodeId} (here : p.Reached n) : p.Checked reached n :=
  (covers.checked n (covers.mem_of_reached here)).resolve_left nofun

/-! A survey of what branches. -/

/-- What is still to be opened: nothing of it has been, and whatever leads to it or to an opened node
has been. -/
structure Frontier (p : Program) (reached entries : List NodeId) : Prop where
  nodup : entries.Nodup
  fresh : ∀ n ∈ entries, n ∉ reached
  here : ∀ n ∈ entries, p.Reached n
  owner_met : ∀ n, n ∈ reached ∨ n ∈ entries → ∀ m, p.Reached m → n ∈ p.children m → m ∈ reached

/-- There is nothing wrong with what can be reached. -/
structure Spotless (p : Program) : Prop where
  node {n : NodeId} : p.Reached n → p.nodeViolations n = []
  links {n c : NodeId} : p.Reached n → c ∈ p.children n → p.linkViolations n c = []
  root {m : SymbolId} {r : NodeId} :
    m ∈ p.modules → p.moduleBlock? m = some r → p.rootViolations m r = []

namespace Frontier

variable {reached entries first rest : List NodeId}

theorem of_append (frontier : p.Frontier reached (first ++ rest)) : p.Frontier reached rest where
  nodup := (List.nodup_append.mp frontier.nodup).2.1
  fresh n member := frontier.fresh n (List.mem_append_right _ member)
  here n member := frontier.here n (List.mem_append_right _ member)
  owner_met n member :=
    frontier.owner_met n (member.imp_right (List.mem_append_right _))

/-- A child of the opened node was not met before: only this node leads to it. -/
theorem opened (branches : p.Branches) {n : NodeId}
    (frontier : p.Frontier reached (n :: entries)) :
    p.Frontier (n :: reached) ((p.children n).reverse ++ entries) := by
  have here := frontier.here n (List.mem_cons_self ..)
  have new := frontier.fresh n (List.mem_cons_self ..)
  have unmet {c : NodeId} (child : c ∈ p.children n) : ¬ (c ∈ reached ∨ c ∈ n :: entries) :=
    fun met => new (frontier.owner_met c met n here child)
  constructor
  · refine List.nodup_append.mpr ⟨List.nodup_reverse.mpr (branches.children_nodup here),
      (List.nodup_cons.mp frontier.nodup).2, ?_⟩
    rintro c child _ later rfl
    exact unmet (List.mem_reverse.mp child) (.inr (List.mem_cons_of_mem _ later))
  · intro c member
    rw [List.mem_cons, not_or]
    rcases List.mem_append.mp member with child | later
    · replace child := List.mem_reverse.mp child
      exact ⟨fun same => unmet child (.inr (same ▸ List.mem_cons_self ..)),
        fun old => unmet child (.inl old)⟩
    · exact ⟨fun same => (List.nodup_cons.mp frontier.nodup).1 (same ▸ later),
        frontier.fresh c (List.mem_cons_of_mem _ later)⟩
  · intro c member
    rcases List.mem_append.mp member with child | later
    · exact here.child (List.mem_reverse.mp child)
    · exact frontier.here c (List.mem_cons_of_mem _ later)
  · intro c member m ofM child
    by_cases own : c ∈ p.children n
    · exact branches.owner_unique here ofM own child ▸ List.mem_cons_self ..
    · refine List.mem_cons_of_mem _ (frontier.owner_met c ?_ m ofM child)
      rcases member with old | entry
      · rcases List.mem_cons.mp old with rfl | old
        · exact .inr (List.mem_cons_self ..)
        · exact .inl old
      · rcases List.mem_append.mp entry with ofN | later
        · exact absurd (List.mem_reverse.mp ofN) own
        · exact .inr (List.mem_cons_of_mem _ later)

end Frontier

theorem survey_of_frontier (branches : p.Branches) (spotless : p.Spotless) {fuel : Nat}
    {stack later : List NodeId} {s : Survey} (frontier : p.Frontier s.reached (stack ++ later)) :
    (p.survey fuel stack s).violations = s.violations ∧
      p.Frontier (p.survey fuel stack s).reached later := by
  induction fuel generalizing stack s with
  | zero => exact ⟨rfl, frontier.of_append⟩
  | succ fuel ih =>
    cases stack with
    | nil => exact ⟨rfl, frontier⟩
    | cons id rest =>
      rw [List.cons_append] at frontier
      have new := frontier.fresh id (List.mem_cons_self ..)
      have here := frontier.here id (List.mem_cons_self ..)
      have next := frontier.opened branches
      rw [← List.append_assoc] at next
      rw [survey_of_links new fun c => spotless.links here, spotless.node here, List.append_nil]
      exact ih next

theorem foldl_surveyModule_of_frontier (branches : p.Branches) (spotless : p.Spotless)
    {modules : List SymbolId} {s : Survey} (listed : modules ⊆ p.modules)
    (frontier : p.Frontier s.reached (modules.filterMap p.moduleBlock?)) :
    (modules.foldl p.surveyModule s).violations = s.violations := by
  induction modules generalizing s with
  | nil => rfl
  | cons m modules ih =>
    obtain ⟨member, listed⟩ := List.cons_subset.mp listed
    rw [List.foldl_cons]
    rw [List.filterMap_cons] at frontier
    cases block : p.moduleBlock? m with
    | none =>
      rw [block] at frontier
      rw [surveyModule_of_none block]
      exact ih listed frontier
    | some r =>
      rw [block] at frontier
      rw [surveyModule_of_some block]
      have surveyed := @survey_of_frontier _ branches spotless (p.slotCount + 1) [r] _
        { s with violations := s.violations ++ p.rootViolations m r } frontier
      rw [ih listed surveyed.2, surveyed.1, spotless.root member block, List.append_nil]

theorem foldl_surveyModule_spotless (branches : p.Branches) (spotless : p.Spotless) :
    (p.modules.foldl p.surveyModule {}).violations = [] := by
  refine foldl_surveyModule_of_frontier branches spotless (List.Subset.refl _)
    { nodup := branches.roots_nodup
      fresh := nofun
      here := fun _ => .root
      owner_met := ?_ }
  rintro n (absurd | root) m ofM child
  · cases absurd
  · exact (branches.not_root_of_child ofM child root).elim

/-! What a survey opens, whatever it finds. -/

/-- With fuel for all that it may open, a survey has opened its stack and the live children of all
that it has opened. -/
theorem survey_closed {fuel : Nat} {stack : List NodeId} {s : Survey}
    (enough : stack.length + p.slotsOutside s.reached ≤ fuel) :
    (∀ n, n ∈ s.reached ∨ n ∈ stack → n ∈ (p.survey fuel stack s).reached) ∧
      ∀ n ∈ (p.survey fuel stack s).reached, n ∈ s.reached ∨
        ∀ c ∈ p.children n, p.Live c → c ∈ (p.survey fuel stack s).reached := by
  induction fuel generalizing stack s with
  | zero =>
    cases stack with
    | nil => exact ⟨by simp [survey], fun n => .inl⟩
    | cons id rest => simp at enough
  | succ fuel ih =>
    cases stack with
    | nil => exact ⟨by simp [survey], fun n => .inl⟩
    | cons id rest =>
      rw [survey]
      split
      · rename_i again
        have fewer : rest.length + p.slotsOutside s.reached ≤ fuel := by
          simp only [List.length_cons] at enough
          omega
        obtain ⟨met, closed⟩ := @ih rest
          { s with violations := s.violations ++ [.sharedNode id] } fewer
        refine ⟨fun n => ?_, closed⟩
        rintro (old | entry)
        · exact met n (.inl old)
        · rcases List.mem_cons.mp entry with rfl | later
          · exact met n (.inl (by simpa using again))
          · exact met n (.inr later)
      · rename_i new
        replace new : id ∉ s.reached := by simpa using new
        set below := ((p.children id).filter fun child => (p.node child).live).reverse with below_eq
        have fewer := slotsOutside_cons (p := p) new
        have few : below.length ≤ (p.children id).length := by
          rw [below_eq, List.length_reverse]
          exact List.length_filter_le ..
        have enoughBelow : (below ++ rest).length + p.slotsOutside (id :: s.reached) ≤ fuel := by
          simp only [List.length_append, List.length_cons] at enough ⊢
          omega
        obtain ⟨met, closed⟩ := @ih (below ++ rest)
          { reached := id :: s.reached, violations := s.violations ++
            (p.nodeViolations id ++ (p.children id).flatMap (p.linkViolations id)) } enoughBelow
        refine ⟨fun n => ?_, fun n member => ?_⟩
        · rintro (old | entry)
          · exact met n (.inl (List.mem_cons_of_mem _ old))
          · rcases List.mem_cons.mp entry with rfl | later
            · exact met n (.inl (List.mem_cons_self ..))
            · exact met n (.inr (List.mem_append_right _ later))
        · rcases closed n member with opened | closed
          · rcases List.mem_cons.mp opened with rfl | old
            · refine .inr fun c child live => met c (.inr (List.mem_append_left _ ?_))
              rw [below_eq]
              exact List.mem_reverse.mpr (List.mem_filter.mpr ⟨child, live⟩)
            · exact .inl old
          · exact .inr closed

theorem foldl_surveyModule_closed {modules : List SymbolId} {s : Survey} :
    (∀ n, n ∈ s.reached ∨ n ∈ modules.filterMap p.moduleBlock? →
        n ∈ (modules.foldl p.surveyModule s).reached) ∧
      ∀ n ∈ (modules.foldl p.surveyModule s).reached, n ∈ s.reached ∨
        ∀ c ∈ p.children n, p.Live c → c ∈ (modules.foldl p.surveyModule s).reached := by
  induction modules generalizing s with
  | nil => exact ⟨by simp, fun n => .inl⟩
  | cons m modules ih =>
    obtain ⟨met, closed⟩ := ih (s := p.surveyModule s m)
    have first : (∀ n, n ∈ s.reached ∨ n ∈ (p.moduleBlock? m).toList →
        n ∈ (p.surveyModule s m).reached) ∧ ∀ n ∈ (p.surveyModule s m).reached,
          n ∈ s.reached ∨ ∀ c ∈ p.children n, p.Live c → c ∈ (p.surveyModule s m).reached := by
      cases block : p.moduleBlock? m with
      | none =>
        rw [surveyModule_of_none block]
        exact ⟨by simp, fun n => .inl⟩
      | some r =>
        rw [surveyModule_of_some block]
        have fewer := slotsOutside_le p s.reached
        exact @survey_closed p _ [r] { s with violations := s.violations ++ p.rootViolations m r }
          (by simp only [List.length_singleton]; omega)
    rw [List.foldl_cons, List.filterMap_cons]
    refine ⟨fun n => ?_, fun n member => ?_⟩
    · rintro (old | block)
      · exact met n (.inl (first.1 n (.inl old)))
      · cases own : p.moduleBlock? m with
        | none =>
          rw [own] at block
          exact met n (.inr block)
        | some r =>
          rw [own] at block
          rcases List.mem_cons.mp block with rfl | later
          · exact met n (.inl (first.1 n (.inr (by simp [own]))))
          · exact met n (.inr later)
    · rcases closed n member with opened | closed
      · rcases first.2 n opened with old | here
        · exact .inl old
        · exact .inr fun c child live => met c (.inl (here c child live))
      · exact .inr closed

/-- Where what can be reached is live, a survey of all modules opens it all. -/
theorem mem_foldl_surveyModule (live : ∀ n, p.Reached n → p.Live n) {n : NodeId}
    (here : p.Reached n) : n ∈ (p.modules.foldl p.surveyModule {}).reached := by
  obtain ⟨met, closed⟩ := @foldl_surveyModule_closed p p.modules {}
  induction here with
  | root isRoot => exact met _ (.inr isRoot)
  | child before slot opened =>
    exact (closed _ opened).resolve_left nofun _ slot (live _ (before.child slot))

/-- A survey looks at no call list. -/
theorem staleCallSite_of_survey {f : SymbolId} {c : NodeId} {fuel : Nat} {stack : List NodeId}
    {s : Survey} (found : .staleCallSite f c ∈ (p.survey fuel stack s).violations) :
    .staleCallSite f c ∈ s.violations := by
  have node (n : NodeId) : .staleCallSite f c ∉ p.nodeViolations n := by
    unfold nodeViolations
    dsimp only
    split <;> (repeat' split) <;> simp
  have link (n child : NodeId) : .staleCallSite f c ∉ p.linkViolations n child := by
    unfold linkViolations
    dsimp only
    split
    · split <;> split <;> simp
    · simp
  induction fuel generalizing stack s with
  | zero => exact found
  | succ fuel ih =>
    cases stack with
    | nil => exact found
    | cons id rest =>
      rw [survey] at found
      split at found
      · simpa using ih found
      · have old := ih found
        simp only [List.mem_append, List.mem_flatMap] at old
        exact old.resolve_right fun new => new.elim (node id) fun ⟨child, _, here⟩ => link id child here

theorem staleCallSite_of_foldl_surveyModule {f : SymbolId} {c : NodeId} {modules : List SymbolId}
    {s : Survey} (found : .staleCallSite f c ∈ (modules.foldl p.surveyModule s).violations) :
    .staleCallSite f c ∈ s.violations := by
  induction modules generalizing s with
  | nil => exact found
  | cons m modules ih =>
    have old := ih found
    cases block : p.moduleBlock? m with
    | none => rwa [surveyModule_of_none block] at old
    | some r =>
      rw [surveyModule_of_some block] at old
      have before := staleCallSite_of_survey old
      have root : .staleCallSite f c ∉ p.rootViolations m r := by
        unfold rootViolations
        dsimp only
        split <;> simp
      exact (List.mem_append.mp before).resolve_right root

end MiddleEnd.Program
