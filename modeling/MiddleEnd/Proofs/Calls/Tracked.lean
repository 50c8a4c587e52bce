import MiddleEnd.Proofs.Arena.Epoch
import MiddleEnd.Proofs.Arena.History
import MiddleEnd.Proofs.Calls.Sites

/-! Call lists never dangle, whatever the arena is asked for. None of this needs the program to be
sound: a list is kept in step with the calls by what each edit does to them. -/

namespace MiddleEnd.Program

variable {p q r : Program}

/-- No function lists a call twice, and what one lists are live calls of it. -/
structure Tracked (p : Program) : Prop where
  distinct (f : SymbolId) : (p.symbol f).callers.Nodup
  calls {f : SymbolId} {c : NodeId} : c ∈ (p.symbol f).callers → p.Live c ∧ p.callee? c = some f

/-- The program `q` has the call lists of `p`, and what was live in `p` lives on with its callee. -/
structure Quiet (p q : Program) : Prop where
  live {n : NodeId} : p.Live n → q.Live n
  callee {n : NodeId} : p.Live n → q.callee? n = p.callee? n
  callers (f : SymbolId) : (q.symbol f).callers = (p.symbol f).callers

namespace Quiet

theorem refl : Quiet p p := ⟨id, fun _ => rfl, fun _ => rfl⟩

theorem trans (first : Quiet p q) (second : Quiet q r) : Quiet p r where
  live known := second.live (first.live known)
  callee known := (second.callee (first.live known)).trans (first.callee known)
  callers f := (second.callers f).trans (first.callers f)

theorem of_same (node : ∀ n, q.node n = p.node n)
    (callers : ∀ f, (q.symbol f).callers = (p.symbol f).callers) : Quiet p q where
  live {n} live := by
    rw [Live, node]
    exact live
  callee {n} _ := by rw [callee?, kind, node, callee?, kind]
  callers := callers

theorem tracked (quiet : Quiet p q) (tracked : p.Tracked) : q.Tracked where
  distinct f := quiet.callers f ▸ tracked.distinct f
  calls {f c} listed := by
    rw [quiet.callers] at listed
    obtain ⟨live, callee⟩ := tracked.calls listed
    exact ⟨quiet.live live, (quiet.callee live).trans callee⟩

end Quiet

theorem Relabel.quiet (change : Relabel p q) : Quiet p q :=
  .of_same change.node change.callers

/-! Edits of the tree. -/

theorem quiet_setKind {id : NodeId} {k : NodeKind} (callee : k.callee? = (p.kind id).callee?) :
    Quiet p (p.setKind id k) where
  live live := (live_setKind ..).trans live
  callee {n} live := by
    by_cases here : n = id
    · subst here
      rw [callee?, kind_setKind live.known, if_pos rfl, callee, callee?]
    · rw [callee?, Program.kind, setKind, node_modifyNode_of_ne here, ← Program.kind, callee?]
  callers _ := rfl

theorem quiet_setParent (id : NodeId) (owner : Option NodeId) : Quiet p (p.setParent id owner) where
  live live := (live_setParent ..).trans live
  callee _ := congrArg NodeKind.callee? (kind_setParent ..)
  callers _ := rfl

theorem quiet_touch (scope : Option SymbolId) : Quiet p (p.touch scope) := by
  refine .of_same (node_of_nodes (nodes_touch ..)) fun f => ?_
  rw [symbol_touch]
  rfl

theorem live_rescope (depth : Nat) (id : NodeId) (scope : Option SymbolId) (p : Program)
    (n : NodeId) : ((rescope depth id scope p).node n).live = (p.node n).live := by
  refine rescope_keeps (fun p => (p.node n).live) (fun p id scope => ?_) depth id scope p
  simp only [node_modifyNode]
  split <;> rfl

theorem quiet_rescope (depth : Nat) (id : NodeId) (scope : Option SymbolId) :
    Quiet p (rescope depth id scope p) where
  live live := (live_rescope ..).trans live
  callee _ := congrArg NodeKind.callee? (kind_rescope ..)
  callers f := by rw [symbol_of_symbols (symbols_rescope ..)]

theorem quiet_adopt (owner node : NodeId) : Quiet p (p.adopt owner node) := by
  unfold adopt
  have entered (t : Program) : Quiet t (if t.isAttached owner then t.registerSubtree node else t) := by
    split
    · exact .of_same (fun _ => rfl) fun _ => rfl
    · exact .refl
  exact (((quiet_setParent ..).trans (quiet_rescope ..)).trans (entered _)).trans (quiet_touch _)

theorem quiet_cut {owner node : NodeId} {k : NodeKind} (head : (p.kind owner).SameHead k) :
    Quiet p (p.cut owner k node) := by
  have parted : Quiet p ((p.setKind owner k).setParent node none) :=
    (quiet_setKind head.callee).trans (quiet_setParent ..)
  unfold cut
  dsimp only
  split
  · refine parted.trans (.of_same (node_of_nodes (nodes_deregisterSubtree ..)) fun f => ?_)
    rw [symbol_of_symbols (symbols_deregisterSubtree ..)]
  · exact parted

theorem append_quiet {owner node : NodeId} (result : p.append owner node = .ok q) : Quiet p q := by
  obtain ⟨_, ids, _, rfl⟩ := of_append result
  exact (quiet_setKind (NodeKind.withChildList_head ..).callee).trans (quiet_adopt ..)

theorem insertNear_quiet {anchor node : NodeId} {offset : Nat}
    (result : p.insertNear anchor node offset = .ok q) : Quiet p q := by
  obtain ⟨owner, _, result⟩ := Outcome.bind_eq_ok_iff.mp result
  obtain ⟨_, _, result⟩ := Outcome.bind_eq_ok_iff.mp result
  split at result
  · split at result
    · rw [Outcome.pure_eq_ok_iff.mp result]
      exact (quiet_setKind (NodeKind.withChildList_head ..).callee).trans (quiet_adopt ..)
    · cases result
  · cases result

theorem detach_quiet {node : NodeId} (result : p.detach node = .ok q) : Quiet p q := by
  obtain ⟨owner, _, kind, without, rfl⟩ := detach_eq_ok_iff.mp result
  exact (quiet_cut (NodeKind.withoutChild?_head without)).trans (quiet_touch _)

theorem setRef_quiet {node : NodeId} {sym : SymbolId} (result : p.setRef node sym = .ok q) :
    Quiet p q := by
  obtain ⟨_, ⟨old, kind⟩, rfl⟩ := setRef_eq_ok_iff.mp result
  exact (quiet_setKind (by rw [kind]; rfl)).trans (quiet_touch _)

/-! New entries. -/

theorem quiet_addSymbol {sym : Symbol} (uncalled : sym.callers = []) :
    Quiet p (p.addSymbol sym).2 where
  live := id
  callee _ := rfl
  callers f := by
    rw [symbol_addSymbol]
    split
    · rename_i here
      have absent : p.symbol f = .absent :=
        symbol_of_not_known (here ▸ Nat.le_refl p.symbols.size)
      rw [uncalled, absent]
      rfl
    · rfl

theorem quiet_push (node : Node) : Quiet p { p with nodes := p.nodes.push node } := by
  have old {n : NodeId} (live : p.Live n) :
      ({ p with nodes := p.nodes.push node } : Program).node n = p.node n := by
    rw [node_push, if_neg]
    rintro rfl
    exact Nat.lt_irrefl _ live.known
  exact
    { live := fun live => by
        rw [Live, old live]
        exact live
      callee := fun live => by rw [callee?, kind, old live, callee?, kind]
      callers := fun _ => rfl }

theorem quiet_addNode (k : NodeKind) (span : Span) : Quiet p (p.addNode k span).2 := by
  have owned (ids : List NodeId) (owner : NodeId) (t : Program) :
      Quiet t (ids.foldl (fun t c => t.setParent c (some owner)) t) := by
    induction ids generalizing t with
    | nil => exact .refl
    | cons c ids ih => exact (quiet_setParent c (some owner)).trans (ih _)
  have grown := (quiet_push (p := p) { kind := k, span := span }).trans
    (owned k.children ⟨p.nodes.size⟩ _)
  rw [addNode]
  dsimp only
  split
  · rename_i sym _
    refine grown.trans (.of_same (fun _ => rfl) fun f => ?_)
    rw [symbol_modifySymbol]
    split <;> rfl
  · exact grown

theorem quiet_addModule (name : String) (span : Span) : Quiet p (p.addModule name span).2 := by
  let sym : Symbol := { name := name, kind := .moduleRoot ⟨p.nodes.size⟩, ty := .void }
  have named : Quiet p (p.addSymbol sym).2 := quiet_addSymbol rfl
  have placed := named.trans
    (quiet_push { kind := .block [], span := span, scope := some ⟨p.symbols.size⟩ })
  exact placed.trans (.of_same (fun _ => rfl) fun _ => rfl)

/-! Destroying and rebinding. -/

theorem foldl_destroyNode_callers_nodup (ids : List NodeId) (f : SymbolId)
    (distinct : (p.symbol f).callers.Nodup) :
    ((ids.foldl destroyNode p).symbol f).callers.Nodup := by
  induction ids generalizing p with
  | nil => exact distinct
  | cons id ids ih =>
    refine ih ?_
    have retired (t : Program) (sym : Option SymbolId) :
        ((t.retire sym).symbol f).callers = (t.symbol f).callers := by
      cases sym with
      | none => rfl
      | some s =>
        rw [retire, symbol_modifySymbol]
        split <;> rfl
    have steps : p.destroyNode id =
        ((p.dropCaller id (p.kind id).callee?).retire (p.kind id).defines?).modifyNode id
          fun node => { node with live := false } := rfl
    rw [steps, symbol_modifyNode, retired]
    exact dropCaller_callers_nodup id _ f distinct

namespace Tracked

theorem empty : Program.empty.Tracked where
  distinct _ := List.nodup_nil
  calls listed := nomatch listed

theorem destroy (tracked : p.Tracked) (root : NodeId) : (p.destroy root).Tracked where
  distinct f := foldl_destroyNode_callers_nodup (p.preorder root) f (tracked.distinct f)
  calls {f c} listed := by
    have destroyed := destroy_spec p root
    obtain ⟨before, kept⟩ := (destroyed.callers f c).mp listed
    obtain ⟨live, callee⟩ := tracked.calls before
    have spared : c ∉ p.preorder root := fun member => kept ⟨member, callee⟩
    refine ⟨?_, ?_⟩
    · rw [Live, destroyed.node, if_neg spared]
      exact live
    · rw [callee?, destroyed.kind]
      exact callee

theorem remove (tracked : p.Tracked) {node : NodeId} (result : p.remove node = .ok q) :
    q.Tracked := by
  obtain ⟨t, detached, rfl⟩ := remove_eq_ok_iff.mp result
  exact ((detach_quiet detached).tracked tracked).destroy node

theorem replace (tracked : p.Tracked) {old new : NodeId} (result : p.replace old new = .ok q) :
    q.Tracked := by
  obtain ⟨owner, _, result⟩ := Outcome.bind_eq_ok_iff.mp result
  obtain ⟨_, _, result⟩ := Outcome.bind_eq_ok_iff.mp result
  rw [Outcome.pure_eq_ok_iff.mp result]
  have parted : (p.cut owner ((p.kind owner).replaceChild old new) old).Tracked :=
    (quiet_cut (NodeKind.replaceChild_head ..)).tracked tracked
  exact (quiet_adopt ..).tracked (parted.destroy old)

/-- A call that gets another target leaves the list of its old one. -/
theorem setCallee (tracked : p.Tracked) {call : NodeId} {target : Option SymbolId}
    (result : p.setCallee call target = .ok q) : q.Tracked where
  distinct f := setCallee_callers_nodup result f (tracked.distinct f)
  calls {f c} listed := by
    have change := setCallee_resolved result
    obtain ⟨_, _, _, before, after⟩ := change.kind_call
    have live {n : NodeId} (live : p.Live n) : q.Live n := (change.live n).trans live
    rcases change.mem_callers.mp listed with ⟨old, kept⟩ | ⟨rfl, rfl⟩
    · obtain ⟨liveC, callee⟩ := tracked.calls old
      have other : c ≠ call := fun same => kept ⟨same, same ▸ callee⟩
      exact ⟨live liveC, by rw [callee?, change.kind_of_ne other]; exact callee⟩
    · refine ⟨live (setCallee_eq_ok_iff.mp result).1, ?_⟩
      rw [callee?, after]
      rfl

theorem clearCallers (tracked : p.Tracked) (f : SymbolId) : (Calls.clearCallers p f).Tracked where
  distinct g := callers_nodup_modifySymbol (g := fun _ => []) (fun _ _ => List.nodup_nil) f g
    (tracked.distinct g)
  calls {g c} listed := by
    obtain ⟨_, nodes, fewer⟩ := Calls.clearCallers_retarget p f
    obtain ⟨live, callee⟩ := tracked.calls (fewer g listed)
    have same := node_of_nodes nodes c
    refine ⟨?_, ?_⟩
    · rw [Live, same]
      exact live
    · rw [callee?, kind, same]
      exact callee

end Tracked

/-! What callers can ask the arena for. -/

theorem Tracked.request (tracked : p.Tracked) {request : Request}
    (result : request.outcome p = .ok q) : q.Tracked := by
  cases request with
  | append owner node => exact (append_quiet result).tracked tracked
  | insertBefore anchor node | insertAfter anchor node =>
    exact (insertNear_quiet result).tracked tracked
  | replace old new => exact tracked.replace result
  | detach node => exact (detach_quiet result).tracked tracked
  | remove node => exact tracked.remove result
  | setRef node sym => exact (setRef_quiet result).tracked tracked
  | setCallee call target => exact tracked.setCallee result

/-- One use of the arena, with whatever arguments: new entries, other flags, registries computed
anew, edits. A new symbol lists no calls. -/
inductive Mutation (p : Program) : Program → Prop
  | clear : Mutation p .empty
  | addModule (name : String) (span : Span) : Mutation p (p.addModule name span).2
  | addSymbol (sym : Symbol) : sym.callers = [] → Mutation p (p.addSymbol sym).2
  | addTemp (ty : Ty) : Mutation p (p.addTemp ty).2
  | addNode (kind : NodeKind) (span : Span) : Mutation p (p.addNode kind span).2
  | attachFlag (s : SymbolId) (flag : Flag) : Mutation p (p.attachFlag s flag)
  | removeFlag (s : SymbolId) (flag : Flag) : Mutation p (p.removeFlag s flag)
  | request (request : Request) : Mutation p (request.after p)
  | rebuildRegistries : Mutation p p.rebuildRegistries

theorem Mutation.tracked (mutation : Mutation p q) (tracked : p.Tracked) : q.Tracked := by
  cases mutation with
  | clear => exact .empty
  | addModule name span => exact (quiet_addModule name span).tracked tracked
  | addSymbol sym uncalled => exact (quiet_addSymbol uncalled).tracked tracked
  | addTemp ty => exact (quiet_addSymbol rfl).tracked tracked
  | addNode kind span => exact (quiet_addNode kind span).tracked tracked
  | attachFlag s flag => exact (relabel_attachFlag s flag).quiet.tracked tracked
  | removeFlag s flag =>
    have change : Relabel p (p.removeFlag s flag) :=
      relabel_modifySymbol s _ (fun _ => rfl) (fun _ => rfl) (fun _ => rfl) (fun _ => rfl)
        fun _ => rfl
    exact change.quiet.tracked tracked
  | request request =>
    rw [Request.after]
    split
    · rename_i q result
      exact tracked.request result
    · exact tracked
  | rebuildRegistries =>
    exact Quiet.tracked (.of_same (p := p) (fun _ => rfl) fun _ => rfl) tracked

end MiddleEnd.Program
