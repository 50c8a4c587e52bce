import MiddleEnd.Proofs.Arena.History

namespace MiddleEnd

theorem Symbol.epoch_mapFnData (s : Symbol) (f : FnData → FnData) : (s.mapFnData f).epoch = s.epoch := by
  unfold mapFnData
  split <;> rfl

namespace Program

variable {p q : Program}

theorem epoch_of_symbols (symbols : q.symbols = p.symbols) (s : SymbolId) : q.epoch s = p.epoch s := by
  rw [epoch, symbol_of_symbols symbols, epoch]

theorem epoch_of_not_known {s : SymbolId} (unknown : p.symbols.size ≤ s.index) : p.epoch s = 0 := by
  rw [epoch, symbol_of_not_known unknown]
  rfl

/-- A change of a symbol that leaves its epoch alone. -/
theorem epoch_modifySymbol {f : Symbol → Symbol} (same : ∀ s, (f s).epoch = s.epoch)
    (id s : SymbolId) : (p.modifySymbol id f).epoch s = p.epoch s := by
  rw [epoch, symbol_modifySymbol, epoch]
  split
  · exact same _
  · rfl

theorem epoch_dropCaller (call : NodeId) (callee : Option SymbolId) (s : SymbolId) :
    (p.dropCaller call callee).epoch s = p.epoch s := by
  cases callee with
  | none => rfl
  | some f => exact epoch_modifySymbol (fun _ => Symbol.epoch_mapFnData ..) f s

theorem epoch_addCaller (call : NodeId) (f s : SymbolId) : (p.addCaller call f).epoch s = p.epoch s :=
  epoch_modifySymbol (fun _ => Symbol.epoch_mapFnData ..) f s

theorem epoch_retire (sym : Option SymbolId) (s : SymbolId) : (p.retire sym).epoch s = p.epoch s := by
  cases sym with
  | none => rfl
  | some sym => exact epoch_modifySymbol (f := fun s => { s with live := false }) (fun _ => rfl) sym s

/-- Destroying nodes is not counted; taking them from their owner was. -/
theorem epoch_destroy (root : NodeId) (s : SymbolId) : (p.destroy root).epoch s = p.epoch s := by
  rw [destroy]
  induction p.preorder root generalizing p with
  | nil => rfl
  | cons id rest ih =>
    have one : (p.destroyNode id).epoch s = p.epoch s := by
      have steps : p.destroyNode id =
          ((p.dropCaller id (p.kind id).callee?).retire (p.kind id).defines?).modifyNode id
            fun node => { node with live := false } := rfl
      rw [steps, epoch, symbol_modifyNode, ← epoch, epoch_retire, epoch_dropCaller]
    rw [List.foldl_cons, ih, one]

theorem symbols_rescope (depth : Nat) (id : NodeId) (scope : Option SymbolId) :
    (rescope depth id scope p).symbols = p.symbols :=
  rescope_keeps Program.symbols (fun _ _ _ => rfl) depth id scope p

/-! What each edit counts. -/

/-- The epochs of `q` are those of `p`, with one more change counted against `scope`. -/
def Counts (p : Program) (scope : Option SymbolId) (q : Program) : Prop :=
  ∀ s, s.index < p.symbols.size → q.epoch s = p.epoch s + if scope = some s then 1 else 0

theorem counts_none (same : ∀ s, q.epoch s = p.epoch s) : Counts p none q := fun s _ => same s

theorem Counts.touch {t : Program} (size : t.symbols.size = p.symbols.size)
    (same : ∀ s, t.epoch s = p.epoch s) (scope : Option SymbolId) : Counts p scope (t.touch scope) := by
  intro s known
  cases scope with
  | none => exact same s
  | some f =>
    rw [← same, epoch, Program.touch, symbol_modifySymbol, size, epoch]
    by_cases here : s = f
    · subst here
      simp [known]
    · simp [here, Ne.symm here]

/-- Attaching is counted where the owner hands on its scope. -/
theorem counts_adopt {t : Program} {owner node : NodeId} (size : t.symbols.size = p.symbols.size)
    (same : ∀ s, t.epoch s = p.epoch s) (below : t.scopeBelow owner = p.scopeBelow owner) :
    Counts p (p.scopeBelow owner) (t.adopt owner node) := by
  have linked : (t.setParent node (some owner)).scopeBelow owner = p.scopeBelow owner :=
    (scopeBelow_congr (kind_setParent ..) (scope?_setParent ..)).trans below
  have symbols : (t.setParent node (some owner)).symbols = t.symbols := rfl
  rw [adopt, linked]
  clear linked below
  generalize t.setParent node (some owner) = linked at *
  have rescoped := symbols_rescope (p := linked) (linked.nodes.size + 1) node (p.scopeBelow owner)
  generalize rescope (linked.nodes.size + 1) node (p.scopeBelow owner) linked = u at *
  have registered : (if u.isAttached owner then u.registerSubtree node else u).symbols = t.symbols := by
    split <;> exact rescoped.trans symbols
  exact Counts.touch ((congrArg Array.size registered).trans size)
    (fun s => (epoch_of_symbols registered s).trans (same s)) _

variable {owner node old new anchor : NodeId}

theorem append_counts (forest : p.Forest) (result : p.append owner node = .ok q) :
    Counts p (p.scopeBelow owner) q := by
  obtain ⟨attachable, ids, _, rfl⟩ := (append_eq_ok_iff forest).mp result
  refine counts_adopt rfl (fun _ => rfl) (scopeBelow_of_head ?_ (scope?_setKind ..))
  rw [kind_setKind attachable.owner_live.known, if_pos rfl]
  exact NodeKind.withChildList_head ..

theorem insertNear_counts (forest : p.Forest) {offset : Nat}
    (result : p.insertNear anchor node offset = .ok q) :
    ∃ owner, p.parent? anchor = some owner ∧ Counts p (p.scopeBelow owner) q := by
  obtain ⟨owner, ⟨_, link⟩, attachable, ids, _, _, rfl⟩ := (insertNear_eq_ok_iff forest).mp result
  refine ⟨owner, link, counts_adopt rfl (fun _ => rfl) (scopeBelow_of_head ?_ (scope?_setKind ..))⟩
  rw [kind_setKind attachable.owner_live.known, if_pos rfl]
  exact NodeKind.withChildList_head ..

theorem replace_counts (sound : p.Sound) (result : p.replace old new = .ok q) :
    ∃ owner, p.parent? old = some owner ∧ Counts p (p.scopeBelow owner) q := by
  obtain ⟨owner, ⟨live, link⟩, _, equal⟩ := (replace_eq_ok_iff sound.forest).mp result
  have head := NodeKind.replaceChild_head (p.kind owner) old new
  have cut := cut_spec sound live link head
  have destroyed := destroy_spec (p.cut owner ((p.kind owner).replaceChild old new) old) old
  refine ⟨owner, link, ?_⟩
  rw [equal]
  refine counts_adopt ?_ (fun s => ?_) (scopeBelow_of_head ?_ ?_)
  · exact destroyed.symbols_size.trans (congrArg Array.size cut.symbols)
  · exact (epoch_destroy old s).trans (epoch_of_symbols cut.symbols s)
  · rw [destroyed.kind, cut.kind_eq, if_pos rfl]
    exact head
  · rw [← cut.scope, scope?, destroyed.node]
    split <;> rfl

theorem detach_counts (sound : p.Sound) (result : p.detach node = .ok q) :
    ∃ owner, p.parent? node = some owner ∧ Counts p (p.scopeBelow owner) q := by
  obtain ⟨owner, ⟨live, link⟩, kind, without, rfl⟩ := detach_eq_ok_iff.mp result
  have head := NodeKind.withoutChild?_head without
  have cut := cut_spec sound live link head
  have below : (p.cut owner kind node).scopeBelow owner = p.scopeBelow owner := by
    refine scopeBelow_of_head ?_ (cut.scope owner)
    rw [cut.kind_eq, if_pos rfl]
    exact head
  refine ⟨owner, link, ?_⟩
  rw [below]
  exact Counts.touch (congrArg Array.size cut.symbols) (epoch_of_symbols cut.symbols) _

theorem remove_counts (sound : p.Sound) (result : p.remove node = .ok q) :
    ∃ owner, p.parent? node = some owner ∧ Counts p (p.scopeBelow owner) q := by
  obtain ⟨t, detached, rfl⟩ := remove_eq_ok_iff.mp result
  obtain ⟨owner, link, counts⟩ := detach_counts sound detached
  exact ⟨owner, link, fun s known => (epoch_destroy node s).trans (counts s known)⟩

theorem setRef_counts {sym : SymbolId} (result : p.setRef node sym = .ok q) :
    Counts p (p.scope? node) q := by
  obtain ⟨_, _, rfl⟩ := setRef_eq_ok_iff.mp result
  exact Counts.touch (t := p.setKind node (.symRef sym)) rfl (fun _ => rfl) _

/-- Resolving a call is not a structural change. -/
theorem setCallee_counts {call : NodeId} {target : Option SymbolId}
    (result : p.setCallee call target = .ok q) : Counts p none q := by
  obtain ⟨_, _, previous, name, args, _, rfl⟩ := setCallee_eq_ok_iff.mp result
  refine counts_none fun s => ?_
  cases target with
  | none => exact epoch_dropCaller call previous s
  | some f => exact (epoch_addCaller call f s).trans (epoch_dropCaller call previous s)

end Program

end MiddleEnd
