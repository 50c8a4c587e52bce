import MiddleEnd.Proofs.Arena.Module
import MiddleEnd.Proofs.Arena.Retarget

namespace MiddleEnd

/-- An edit that a caller asks for, with whatever ids. -/
inductive Request where
  | append (owner node : NodeId)
  | insertBefore (anchor node : NodeId)
  | insertAfter (anchor node : NodeId)
  | replace (old new : NodeId)
  | detach (node : NodeId)
  | remove (node : NodeId)
  | setRef (node : NodeId) (sym : SymbolId)
  | setCallee (call : NodeId) (target : Option SymbolId)
  deriving DecidableEq, Repr

namespace Request

def outcome (request : Request) (p : Program) : Except EditError Program :=
  match request with
  | append owner node => p.append owner node
  | insertBefore anchor node => p.insertBefore anchor node
  | insertAfter anchor node => p.insertAfter anchor node
  | replace old new => p.replace old new
  | detach node => p.detach node
  | remove node => p.remove node
  | setRef node sym => p.setRef node sym
  | setCallee call target => p.setCallee call target

/-- The program after a request; one that is refused changes nothing. -/
def after (request : Request) (p : Program) : Program :=
  match request.outcome p with
  | .ok q => q
  | .error _ => p

theorem outcome_sound {request : Request} {p q : Program} (sound : p.Sound)
    (result : request.outcome p = .ok q) : q.Sound := by
  cases request with
  | append owner node => exact (Program.append_edit sound result).sound sound
  | insertBefore anchor node | insertAfter anchor node =>
    obtain ⟨_, _, edit⟩ := Program.insertNear_edit sound result
    exact edit.sound sound
  | replace old new =>
    obtain ⟨_, _, edit⟩ := Program.replace_edit sound result
    exact edit.sound sound
  | detach node =>
    obtain ⟨_, _, edit⟩ := Program.detach_edit sound result
    exact edit.sound sound
  | remove node =>
    obtain ⟨_, _, edit⟩ := Program.remove_edit sound result
    exact edit.sound sound
  | setRef node sym => exact (Program.setRef_retarget result).sound sound
  | setCallee call target => exact (Program.setCallee_resolved result).toRetarget.sound sound

theorem after_sound (request : Request) {p : Program} (sound : p.Sound) :
    (request.after p).Sound := by
  unfold after
  split
  · rename_i q result
    exact outcome_sound sound result
  · exact sound

end Request

namespace Program

/-- One operation on the arena. A new symbol is live, a new node is made of loose parts and of a
symbol that nothing defines yet, and an edit is asked for with any ids. -/
inductive Step (p : Program) : Program → Prop
  | addModule (name : String) (span : Span) : Step p (p.addModule name span).2
  | addSymbol (sym : Symbol) : sym.live = true → Step p (p.addSymbol sym).2
  | addTemp (ty : Ty) : Step p (p.addTemp ty).2
  | addNode (kind : NodeKind) (span : Span) : p.Buildable kind → Step p (p.addNode kind span).2
  | request (request : Request) : Step p (request.after p)

/-- The programs that operations lead to from the empty one. -/
inductive Arises : Program → Prop
  | empty : Arises .empty
  | step {p q : Program} : Arises p → Step p q → Arises q

variable {p q : Program}

theorem Step.sound (step : Step p q) (sound : p.Sound) : q.Sound := by
  cases step with
  | addModule name span => exact sound.addModule name span
  | addSymbol sym live => exact sound.addSymbol live
  | addTemp ty => exact sound.addSymbol rfl
  | addNode kind span buildable => exact (addNode_built buildable span).sound buildable sound
  | request request => exact request.after_sound sound

theorem Arises.sound (arises : Arises p) : p.Sound := by
  induction arises with
  | empty => exact Sound.empty
  | step _ step ih => exact step.sound ih

/-- The function of the nearest definition strictly above a node, or the module if there is none. -/
def scopeAround (p : Program) (m : SymbolId) (n : NodeId) : SymbolId :=
  ((p.path n).tail.findSome? fun a => if (p.kind a).isFnDef then (p.kind a).defines? else none).getD m

/-- What the links, scopes, declarations and registries of a program promise. -/
structure Coherent (p : Program) : Prop where
  child_linked {n c : NodeId} : p.Live n → c ∈ p.children n →
    p.Live c ∧ p.parent? c = some n ∧ (p.children n).count c = 1 ∧
      ∀ m, p.Live m → c ∈ p.children m → m = n
  acyclic {n owner : NodeId} : p.parent? n = some owner → ¬ p.Above n owner
  owner_live {n owner : NodeId} : p.Live n → p.parent? n = some owner → p.Live owner
  scope_around {m : SymbolId} {r n : NodeId} : m ∈ p.modules → p.moduleBlock? m = some r →
    p.Reached n → p.Above r n → p.scope? n = some (p.scopeAround m n)
  binds {n : NodeId} {s : SymbolId} : p.Reached n → (p.kind n).defines? = some s →
    (p.symbol s).live = true ∧ (p.symbol s).decl = some n
  calls_nodup : p.registries.calls.Nodup
  mem_calls {n : NodeId} : n ∈ p.registries.calls ↔ p.Reached n ∧ (p.kind n).isCall = true
  entries_nodup (sort : SymbolSort) : (p.registries.entries sort).Nodup
  mem_entries {s : SymbolId} {sort : SymbolSort} : s ∈ p.registries.entries sort ↔
    (s ∈ p.modules ∨ ∃ n, p.Reached n ∧ (p.kind n).defines? = some s) ∧
      (p.symbol s).kind.sort = sort

namespace Sound

theorem scope_around (sound : p.Sound) {m : SymbolId} {r n : NodeId} (member : m ∈ p.modules)
    (block : p.moduleBlock? m = some r) (reached : p.Reached n) (above : p.Above r n) :
    p.scope? n = some (p.scopeAround m n) := by
  induction above with
  | refl =>
    rw [scopeAround, sound.forest.path_of_top (sound.rooted.root_top member block)]
    exact sound.rooted.root_scope member block
  | @up n owner link _ ih =>
    have ownerReached := sound.forest.reached_owner sound.rooted reached link
    have listed := sound.forest.owner_lists (sound.live_of_reached reached) link
    have outer := ih ownerReached
    rw [sound.scope_below ownerReached listed, scopeBelow_eq, scopeAround,
      sound.forest.path_of_parent link, List.tail_cons, sound.forest.path_eq owner,
      List.findSome?_cons]
    cases fn : (p.kind owner).isFnDef with
    | false =>
      have rest : (p.parent? owner).elim [] p.path = (p.path owner).tail := by
        rw [sound.forest.path_eq owner, List.tail_cons]
      simp only [Bool.false_eq_true, if_false]
      rw [outer, scopeAround, rest]
    | true =>
      obtain ⟨f, defines⟩ : ∃ f, (p.kind owner).defines? = some f := by
        cases kind : p.kind owner <;> simp [kind, NodeKind.isFnDef] at fn
        exact ⟨_, rfl⟩
      simp [defines]

theorem symbol_live_of_reached (sound : p.Sound) {n : NodeId} {s : SymbolId} (live : p.Live n)
    (defines : (p.kind n).defines? = some s) : (p.symbol s).live = true :=
  sound.symbol_live (sound.bound_known defines) fun _ defines' =>
    sound.bound_unique defines defines' ▸ live

end Sound

/-- Whatever operations are asked for from the empty program on, in whatever order, and whether
they are carried out or refused: the program stays coherent. -/
theorem coherent_of_arises (arises : Arises p) : p.Coherent := by
  have sound := arises.sound
  have forest := sound.forest
  exact
    { child_linked := fun {n c} live child =>
        ⟨forest.child_live live child, forest.child_parent live child,
          List.count_eq_one_of_mem (forest.children_nodup live) child,
          fun m liveM ofM => forest.child_unique liveM live ofM child⟩
      acyclic := forest.acyclic
      owner_live := forest.owner_live
      scope_around := sound.scope_around
      binds := fun {n s} reached defines =>
        ⟨sound.symbol_live_of_reached (sound.live_of_reached reached) defines, sound.bound defines⟩
      calls_nodup := sound.exact.distinct.calls
      mem_calls := sound.exact.mem_calls
      entries_nodup := sound.exact.distinct.entries
      mem_entries := sound.exact.mem_entries }

/-- A module, and a function with an empty body that is not in it yet. -/
def looseFunction : Program :=
  let p := (Program.empty.addModule "main" .nowhere).2
  let p := (p.addSymbol { name := "f", kind := .fn {}, ty := .void }).2
  (p.addNode (.block []) .nowhere).2

theorem looseFunction_arises : Arises looseFunction := by
  have named := (Arises.empty.step (.addModule "main" .nowhere)).step
    (.addSymbol { name := "f", kind := .fn {}, ty := .void } rfl)
  exact named.step (.addNode (.block []) .nowhere ⟨nofun, nofun, nofun, List.nodup_nil, nofun, nofun,
    nofun⟩)

theorem looseFunction_buildable : looseFunction.Buildable (.fnDef ⟨1⟩ [] ⟨1⟩) where
  child_live member := List.mem_singleton.mp member ▸ by decide
  child_top member := List.mem_singleton.mp member ▸ by decide
  child_free member := List.mem_singleton.mp member ▸ by decide
  children_nodup := List.nodup_singleton _
  defines_known new := Option.some.inj new ▸ by decide
  defines_local new := Option.some.inj new ▸ by decide
  defines_new new n := by
    cases new
    have silent : ∀ i < 2, (looseFunction.kind ⟨i⟩).defines? = none := by decide
    by_cases known : n.index < 2
    · rw [silent n.index known]
      exact (Option.some_ne_none _).symm
    · rw [kind, node_of_not_known (Nat.not_lt.mp known)]
      exact (Option.some_ne_none _).symm

/-- The function is defined and attached, and then an edit of the module root is refused. -/
theorem coherent_after_refusal :
    let defined := (looseFunction.addNode (.fnDef ⟨1⟩ [] ⟨1⟩) .nowhere).2
    let attached := (Request.append ⟨0⟩ ⟨2⟩).after defined
    let refused := (Request.remove ⟨0⟩).after attached
    Arises refused ∧ refused.registries.fns = [⟨1⟩] ∧ refused.Coherent := by
  have arises := ((looseFunction_arises.step (.addNode _ .nowhere looseFunction_buildable)).step
    (.request (.append ⟨0⟩ ⟨2⟩))).step (.request (.remove ⟨0⟩))
  exact ⟨arises, by decide, coherent_of_arises arises⟩

end Program

end MiddleEnd
