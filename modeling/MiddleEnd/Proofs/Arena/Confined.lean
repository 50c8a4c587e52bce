import MiddleEnd.Proofs.Arena.Epoch

namespace MiddleEnd

namespace NodeKind

/-- A construct without the target of a call. -/
def bare : NodeKind → NodeKind
  | call _ name args => call none name args
  | kind => kind

variable {k k' : NodeKind}

theorem children_bare (k : NodeKind) : k.bare.children = k.children := by cases k <;> rfl

theorem symRef_bare (k : NodeKind) : k.bare.symRef? = k.symRef? := by cases k <;> rfl

theorem tag_bare (k : NodeKind) : k.bare.tag = k.tag := by cases k <;> rfl

theorem children_of_bare (same : k'.bare = k.bare) : k'.children = k.children := by
  rw [← children_bare, same, children_bare]

theorem symRef_of_bare (same : k'.bare = k.bare) : k'.symRef? = k.symRef? := by
  rw [← symRef_bare, same, symRef_bare]

theorem tag_of_bare (same : k'.bare = k.bare) : k'.tag = k.tag := by
  rw [← tag_bare, same, tag_bare]

/-- Only calls have targets. -/
theorem eq_of_bare (same : k'.bare = k.bare) (other : k.isCall = false) : k' = k := by
  have tags := tag_of_bare same
  cases k <;> cases k' <;> simp_all [bare, tag, isCall]

/-- Constructs that differ in the target of a call at most are one, or both are calls. -/
theorem cases_of_bare (same : k'.bare = k.bare) : k' = k ∨
    ∃ callee callee' name args, k = .call callee name args ∧ k' = .call callee' name args := by
  cases call : k.isCall with
  | false => exact .inl (eq_of_bare same call)
  | true =>
    obtain ⟨callee, name, args, isCall⟩ := exists_of_isCall call
    obtain ⟨callee', _, _, isCall'⟩ :=
      exists_of_isCall ((isCall_of_tag (tag_of_bare same)).trans call)
    rw [isCall, isCall', bare, bare] at same
    cases same
    exact .inr ⟨callee, callee', name, args, isCall, isCall'⟩

end NodeKind

theorem Symbol.name_of_core {s t : Symbol} (same : s.core = t.core) : s.name = t.name :=
  (core_eq_iff.mp same).1

theorem Symbol.isVar_of_core {s t : Symbol} (same : s.core = t.core) : s.isVar = t.isVar := by
  have bare (u : Symbol) : u.isVar = u.core.isVar := by
    simp only [isVar, core]
    cases u.kind <;> rfl
  rw [bare s, same, ← bare]

namespace Program

/-- What an operation that counts against `scope` can have done to `p`: it gives and takes children
only below owners that hand on `scope`, it takes whole subtrees, and it never revives a node. -/
structure Confined (p : Program) (scope : Option SymbolId) (q : Program) : Prop where
  size : p.nodes.size ≤ q.nodes.size
  symbols_size : p.symbols.size ≤ q.symbols.size
  live_old {n : NodeId} : n.index < p.nodes.size → q.Live n → p.Live n
  tag {n : NodeId} : n.index < p.nodes.size → (q.kind n).tag = (p.kind n).tag
  defines {n : NodeId} : n.index < p.nodes.size → (q.kind n).defines? = (p.kind n).defines?
  kind {n : NodeId} : p.Live n → (q.kind n).bare = (p.kind n).bare ∨ p.scopeBelow n = scope
  parent {n owner : NodeId} : p.parent? n = some owner →
    q.parent? n = some owner ∨ p.scopeBelow owner = scope
  handed {n owner : NodeId} : p.Live n → p.parent? n = some owner →
    q.scope? n = p.scope? n ∨ q.scope? n = q.scopeBelow owner
  live {n : NodeId} : p.Live n → q.Live n ∨ ∃ top owner, p.Above top n ∧
    p.parent? top = some owner ∧ p.scopeBelow owner = scope ∧ ∀ m, p.Above top m → ¬ q.Live m
  name {s : SymbolId} : s.index < p.symbols.size → q.name s = p.name s
  isVar {s : SymbolId} : s.index < p.symbols.size → (q.symbol s).isVar = (p.symbol s).isVar
  counts : Counts p scope q

variable {p q : Program} {scope : Option SymbolId}

theorem Edit.confined {owner : NodeId} {gone come lost : Option NodeId}
    (edit : Edit p owner gone come lost q) (sound : p.Sound)
    (counts : Counts p (p.scopeBelow owner) q) : Confined p (p.scopeBelow owner) q where
  size := edit.size.ge
  symbols_size := edit.symbols_size.ge
  live_old _ live := (edit.live.mp live).1
  tag _ := (edit.head _).tag
  defines _ := (edit.head _).defines
  kind {n} _ := by
    by_cases here : n = owner
    · exact .inr (here ▸ rfl)
    · exact .inl (congrArg _ (edit.kind_of_ne here))
  parent {n m} link := by
    by_cases old : gone = some n
    · cases Option.some.inj (link.symm.trans (edit.gone_owned old))
      exact .inr rfl
    · exact .inl (edit.parent_kept link old)
  handed {n m} live link := by
    by_cases moved : p.Under come n
    · -- A node that has an owner is not the one that comes, so its owner has come with it.
      obtain ⟨c, new, above⟩ := moved
      have different : c ≠ n := by
        rintro rfl
        rw [edit.come_top new] at link
        cases link
      exact .inr (edit.scope_inside (sound.forest.owner_live live link)
        ⟨c, new, above.owner_of_ne link different⟩ (sound.forest.owner_lists live link))
    · exact .inl (edit.scope_kept moved)
  live {n} live := by
    by_cases under : p.Under lost n
    · obtain ⟨g, isLost, above⟩ := under
      refine .inr ⟨g, owner, above, edit.gone_owned (edit.lost_gone isLost), rfl, fun m below => ?_⟩
      exact fun live => (edit.live.mp live).2 ⟨g, isLost, below⟩
    · exact .inl (edit.live.mpr ⟨live, under⟩)
  name {s} _ := Symbol.name_of_core (edit.core s)
  isVar {s} _ := Symbol.isVar_of_core (edit.core s)
  counts := counts

/-- An edit of the owner of a node is counted against what that owner hands on. -/
theorem confined_of_edit {node : NodeId} {gone come lost : Option NodeId} (sound : p.Sound)
    (edited : ∃ owner, p.parent? node = some owner ∧ Edit p owner gone come lost q)
    (counted : ∃ owner, p.parent? node = some owner ∧ Counts p (p.scopeBelow owner) q) :
    ∃ scope, Confined p scope q := by
  obtain ⟨owner, link, edit⟩ := edited
  obtain ⟨_, link', counts⟩ := counted
  cases Option.some.inj (link.symm.trans link')
  exact ⟨_, edit.confined sound counts⟩

theorem Retarget.confined (change : Retarget p q)
    (kind : ∀ n, (q.kind n).bare = (p.kind n).bare ∨ p.scopeBelow n = scope)
    (counts : Counts p scope q) : Confined p scope q where
  size := change.size.ge
  symbols_size := change.symbols_size.ge
  live_old _ := change.live_iff.mp
  tag _ := change.tag _
  defines _ := change.defines _
  kind _ := kind _
  parent link := .inl ((change.parent _).trans link)
  handed _ _ := .inl (change.scope _)
  live live := .inl (change.live_iff.mpr live)
  name {s} _ := Symbol.name_of_core (change.core s)
  isVar {s} _ := Symbol.isVar_of_core (change.core s)
  counts := counts

theorem Built.ne_of_known {kind : NodeKind} {id : NodeId} (built : Built p kind id q) {n : NodeId}
    (known : n.index < p.nodes.size) : n ≠ id := by
  rintro rfl
  rw [built.id_eq] at known
  exact Nat.lt_irrefl _ known

/-- A new node takes loose nodes only, and is counted nowhere. -/
theorem Built.confined {kind : NodeKind} {id : NodeId} (built : Built p kind id q)
    (buildable : p.Buildable kind) : Confined p none q where
  size := by
    have size := built.size
    omega
  symbols_size := built.symbols_size.ge
  live_old known live := (built.live_iff.mp live).resolve_left (built.ne_of_known known)
  tag known := congrArg _ (built.kind_of_ne (built.ne_of_known known))
  defines known := congrArg _ (built.kind_of_ne (built.ne_of_known known))
  kind live := .inl (congrArg _ (built.kind_of_ne (built.ne_of_live live)))
  parent link := .inl (built.parent_kept buildable link)
  handed _ _ := .inl (built.scope _)
  live live := .inl (built.live_of_live live)
  name {s} _ := by
    rw [Program.name, built.symbol_eq]
    split <;> rfl
  isVar {s} _ := by
    rw [built.symbol_eq]
    split <;> rfl
  counts := counts_none fun s => by
    rw [epoch, built.symbol_eq]
    split <;> rfl

/-- New entries alone change nothing that was there. -/
theorem confined_of_old (size : p.nodes.size ≤ q.nodes.size)
    (symbols_size : p.symbols.size ≤ q.symbols.size)
    (node : ∀ n : NodeId, n.index < p.nodes.size → q.node n = p.node n)
    (symbol : ∀ s : SymbolId, s.index < p.symbols.size → q.symbol s = p.symbol s) :
    Confined p none q where
  size := size
  symbols_size := symbols_size
  live_old {n} known live := by rwa [Live, node n known] at live
  tag {n} known := by rw [Program.kind, node n known, Program.kind]
  defines {n} known := by rw [Program.kind, node n known, Program.kind]
  kind {n} live := .inl (by rw [Program.kind, node n live.known, Program.kind])
  parent {n _} link := .inl (by rwa [parent?, node n (known_of_parent link)])
  handed {n _} live _ := .inl (by rw [scope?, node n live.known])
  live {n} live := .inl (by rwa [Live, node n live.known])
  name {s} known := by rw [Program.name, symbol s known, Program.name]
  isVar {s} known := by rw [symbol s known]
  counts s known := by rw [epoch, symbol s known, epoch, if_neg (by simp), Nat.add_zero]

theorem Confined.refl : Confined p none p :=
  confined_of_old (Nat.le_refl _) (Nat.le_refl _) (fun _ _ => rfl) fun _ _ => rfl

theorem confined_addSymbol (sym : Symbol) : Confined p none (p.addSymbol sym).2 :=
  confined_of_old (Nat.le_refl _) (by simp [addSymbol]) (fun _ _ => rfl)
    fun _ => symbol_addSymbol_of_known sym

theorem confined_addModule (name : String) (span : Span) :
    Confined p none (p.addModule name span).2 := by
  refine confined_of_old (by simp [addModule, addSymbol]) (by simp [addModule, addSymbol])
    (fun n known => ?_) fun s known => symbol_addSymbol_of_known _ known
  let root : Node := { kind := .block [], span := span, scope := some ⟨p.symbols.size⟩ }
  have pushed : (p.addModule name span).2.node n =
      ({ p with nodes := p.nodes.push root } : Program).node n := rfl
  rw [pushed, node_push, if_neg]
  rintro rfl
  exact Nat.lt_irrefl _ known

namespace Request

theorem confined_of_outcome {request : Request} (sound : p.Sound)
    (result : request.outcome p = .ok q) : ∃ scope, Confined p scope q := by
  cases request with
  | append owner node =>
    exact ⟨_, (append_edit sound result).confined sound (append_counts sound.forest result)⟩
  | insertBefore anchor node | insertAfter anchor node =>
    exact confined_of_edit sound (insertNear_edit sound result)
      (insertNear_counts sound.forest result)
  | replace old new =>
    exact confined_of_edit sound (replace_edit sound result) (replace_counts sound result)
  | detach node =>
    exact confined_of_edit sound (detach_edit sound result) (detach_counts sound result)
  | remove node =>
    exact confined_of_edit sound (remove_edit sound result) (remove_counts sound result)
  | setRef node sym =>
    refine ⟨_, (setRef_retarget result).confined (fun n => ?_) (setRef_counts result)⟩
    obtain ⟨live, ⟨old, kind⟩, rfl⟩ := setRef_eq_ok_iff.mp result
    by_cases here : n = node
    · subst here
      exact .inr (by rw [scopeBelow_eq, kind]; rfl)
    · refine .inl (congrArg _ ?_)
      rw [Program.kind, node_of_nodes (nodes_touch ..), ← Program.kind, kind_setKind live.known,
        if_neg here]
  | setCallee call target =>
    have resolved := setCallee_resolved result
    refine ⟨_, resolved.toRetarget.confined (fun n => .inl ?_) (setCallee_counts result)⟩
    by_cases here : n = call
    · obtain ⟨previous, name, args, kind, kind'⟩ := resolved.kind_call
      rw [here, kind, kind']
      rfl
    · exact congrArg _ (resolved.kind_of_ne here)

end Request

/-- Every operation counts against one scope at most, and keeps to what that scope holds. -/
theorem Step.confined (step : Step p q) (sound : p.Sound) : ∃ scope, Confined p scope q := by
  cases step with
  | addModule name span => exact ⟨none, confined_addModule name span⟩
  | addSymbol sym _ => exact ⟨none, confined_addSymbol sym⟩
  | addTemp ty => exact ⟨none, confined_addSymbol _⟩
  | addNode kind span buildable => exact ⟨none, (addNode_built buildable span).confined buildable⟩
  | request request =>
    cases result : request.outcome p with
    | error e =>
      have same : request.after p = p := by rw [Request.after, result]
      rw [same]
      exact ⟨none, .refl⟩
    | ok q =>
      have same : request.after p = q := by rw [Request.after, result]
      rw [same]
      exact Request.confined_of_outcome sound result

end Program

end MiddleEnd
