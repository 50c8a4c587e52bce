import MiddleEnd.Proofs.Arena.Module
import MiddleEnd.Proofs.Arena.Retarget
import MiddleEnd.Proofs.Settled.Lawful

namespace MiddleEnd.Program

variable {p q : Program}

theorem callers_of_kind {s t : Symbol} (kind : s.kind = t.kind) : s.callers = t.callers := by
  rw [Symbol.callers, Symbol.fnData?, kind, Symbol.callers, Symbol.fnData?]

/-! New nodes and symbols. -/

theorem Built.tidy {kind : NodeKind} {id : NodeId} (built : Built p kind id q)
    (buildable : p.Buildable kind) (lawful : p.Lawful kind) (tidy : p.Tidy) : q.Tidy where
  sound := built.sound buildable tidy.sound
  symbols_live {s} known := by
    rw [built.symbols_size] at known
    rw [built.symbol_live]
    exact tidy.symbols_live known
  lawful {n} live := by
    have same {c : NodeId} (liveC : p.Live c) : (p.kind c).SameHead (q.kind c) := by
      rw [built.kind_of_ne (built.ne_of_live liveC)]
      exact .refl _
    have sort (s : SymbolId) : (q.symbol s).kind.sort = (p.symbol s).kind.sort := by
      rw [built.symbol_kind]
    rcases built.live_iff.mp live with rfl | liveN
    · rw [built.kind_id]
      exact lawful.mono (fun c child => same (buildable.child_live child))
        (fun c _ s defines => tidy.sound.bound_known defines) (Nat.le_of_eq built.symbols_size.symm)
        fun s _ => sort s
    · rw [built.kind_of_ne (built.ne_of_live liveN)]
      exact (tidy.lawful liveN).mono (fun c child => same (tidy.sound.forest.child_live liveN child))
        (fun c _ s defines => tidy.sound.bound_known defines) (Nat.le_of_eq built.symbols_size.symm)
        fun s _ => sort s

theorem Built.settled {kind : NodeKind} {id : NodeId} (built : Built p kind id q)
    (buildable : p.Buildable kind) (lawful : p.Lawful kind) (settled : p.Settled) : q.Settled where
  toTidy := built.tidy buildable lawful settled.toTidy
  callers {f c} listed := by
    rw [callers_of_kind (built.symbol_kind f)] at listed
    obtain ⟨reached, callee⟩ := settled.callers listed
    have other := built.ne_of_live (settled.sound.live_of_reached reached)
    refine ⟨(built.reached_iff settled.sound.forest settled.sound.rooted).mpr reached, ?_⟩
    rw [callee?, built.kind_of_ne other]
    exact callee

theorem Settled.addSymbol (settled : p.Settled) {sym : Symbol} (live : sym.live = true)
    (uncalled : sym.callers = []) : (p.addSymbol sym).2.Settled := by
  have old {s : SymbolId} (known : s.index < p.symbols.size) := symbol_addSymbol_of_known sym known
  have size : (p.addSymbol sym).2.symbols.size = p.symbols.size + 1 := Array.size_push ..
  have links : SameLinks p (p.addSymbol sym).2 := ⟨rfl, fun _ => rfl, fun _ => rfl, fun _ => rfl⟩
  have roots : (p.addSymbol sym).2.roots = p.roots := by
    refine List.filterMap_congr fun m member => ?_
    rw [moduleBlock?, old (settled.sound.rooted.known_of_module member), moduleBlock?]
  exact
    { sound := settled.sound.addSymbol live
      symbols_live := fun {s} known => by
        rw [symbol_addSymbol]
        split
        · exact live
        · rename_i other
          refine settled.symbols_live ?_
          rw [← SymbolId.index_inj] at other
          simp only [Program.addSymbol] at other
          omega
      lawful := fun {n} liveN => by
        refine (settled.lawful liveN).mono (fun c _ => .refl _)
          (fun c _ s defines => settled.sound.bound_known defines) (by omega) fun s known => ?_
        rw [old known]
      callers := fun {f c} listed => by
        rw [symbol_addSymbol] at listed
        split at listed
        · rw [uncalled] at listed
          cases listed
        · obtain ⟨reached, callee⟩ := settled.callers listed
          exact ⟨(links.reached_iff roots).mpr reached, callee⟩ }

/-! Other names, types, flags and return variables. -/

/-- The program `q` is `p` with other words about its symbols: none changes its sort, its
declaration, its live mark or its calls. -/
structure Relabel (p q : Program) : Prop where
  nodes : q.nodes = p.nodes
  modules : q.modules = p.modules
  registries : q.registries = p.registries
  symbols_size : q.symbols.size = p.symbols.size
  sort (s : SymbolId) : (q.symbol s).kind.sort = (p.symbol s).kind.sort
  moduleBlock (s : SymbolId) : q.moduleBlock? s = p.moduleBlock? s
  decl (s : SymbolId) : (q.symbol s).decl = (p.symbol s).decl
  symbol_live (s : SymbolId) : (q.symbol s).live = (p.symbol s).live
  callers (s : SymbolId) : (q.symbol s).callers = (p.symbol s).callers

namespace Relabel

theorem node (change : Relabel p q) (n : NodeId) : q.node n = p.node n :=
  node_of_nodes change.nodes n

theorem kind (change : Relabel p q) (n : NodeId) : q.kind n = p.kind n := by
  rw [Program.kind, change.node, Program.kind]

theorem sameTree (change : Relabel p q) : SameTree p q := sameTree_of_nodes change.nodes

theorem scope (change : Relabel p q) (n : NodeId) : q.scope? n = p.scope? n := by
  rw [scope?, change.node]

theorem roots (change : Relabel p q) : q.roots = p.roots := by
  rw [Program.roots, change.modules, Program.roots]
  congr 1
  funext s
  exact change.moduleBlock s

theorem reached_iff (change : Relabel p q) {n : NodeId} : q.Reached n ↔ p.Reached n :=
  change.sameTree.reached_iff change.roots

theorem rooted (change : Relabel p q) (rooted : p.Rooted) : q.Rooted where
  modules_nodup := change.modules ▸ rooted.modules_nodup
  symbol_live {m} member := by
    rw [change.symbol_live]
    exact rooted.symbol_live (change.modules ▸ member)
  sort_module {m} member := by
    rw [change.moduleBlock]
    exact rooted.sort_module (change.modules ▸ member)
  root_live {m r} member block := by
    rw [Live, change.node]
    exact rooted.root_live (change.modules ▸ member) ((change.moduleBlock m).symm.trans block)
  root_top {m r} member block := by
    rw [parent?, change.node]
    exact rooted.root_top (change.modules ▸ member) ((change.moduleBlock m).symm.trans block)
  root_block {m r} member block := by
    rw [change.kind]
    exact rooted.root_block (change.modules ▸ member) ((change.moduleBlock m).symm.trans block)
  root_scope {m r} member block := by
    rw [change.scope]
    exact rooted.root_scope (change.modules ▸ member) ((change.moduleBlock m).symm.trans block)

theorem sound (change : Relabel p q) (sound : p.Sound) : q.Sound where
  forest := change.sameTree.forest sound.forest
  rooted := change.rooted sound.rooted
  scope_below {n c} reached child := by
    rw [change.sameTree.children] at child
    rw [change.scope, sound.scope_below (change.reached_iff.mp reached) child]
    exact (scopeBelow_congr (change.kind n) (change.scope n)).symm
  bound {n s} defines := by
    rw [change.decl]
    exact sound.bound (change.kind n ▸ defines)
  bound_known {n s} defines := by
    rw [change.symbols_size]
    exact sound.bound_known (change.kind n ▸ defines)
  bound_local {n s} defines := by
    rw [change.modules]
    exact sound.bound_local (change.kind n ▸ defines)
  symbol_live {s} known lives := by
    rw [change.symbols_size] at known
    rw [change.symbol_live]
    refine sound.symbol_live known fun n defines => ?_
    have live := lives n ((change.kind n).symm ▸ defines)
    rwa [Live, change.node] at live
  exact := by
    rw [change.registries]
    exact sound.exact.congr (fun _ => change.reached_iff) change.modules
      (fun n => by rw [change.kind]) (fun n => by rw [change.kind]) change.sort

theorem settled (change : Relabel p q) (settled : p.Settled) : q.Settled where
  sound := change.sound settled.sound
  symbols_live {s} known := by
    rw [change.symbols_size] at known
    rw [change.symbol_live]
    exact settled.symbols_live known
  lawful {n} live := by
    rw [Live, change.node] at live
    rw [change.kind]
    refine (settled.lawful live).mono (fun c _ => ?_)
      (fun c _ s defines => settled.sound.bound_known defines) (Nat.le_of_eq change.symbols_size.symm)
      fun s _ => change.sort s
    rw [change.kind]
    exact .refl _
  callers {f c} listed := by
    rw [change.callers] at listed
    obtain ⟨reached, callee⟩ := settled.callers listed
    refine ⟨change.reached_iff.mpr reached, ?_⟩
    rw [callee?, change.kind]
    exact callee

theorem refl : Relabel p p :=
  ⟨rfl, rfl, rfl, rfl, fun _ => rfl, fun _ => rfl, fun _ => rfl, fun _ => rfl, fun _ => rfl⟩

theorem trans {r : Program} (first : Relabel p q) (second : Relabel q r) : Relabel p r :=
  ⟨second.nodes.trans first.nodes, second.modules.trans first.modules,
    second.registries.trans first.registries, second.symbols_size.trans first.symbols_size,
    fun s => (second.sort s).trans (first.sort s),
    fun s => (second.moduleBlock s).trans (first.moduleBlock s),
    fun s => (second.decl s).trans (first.decl s),
    fun s => (second.symbol_live s).trans (first.symbol_live s),
    fun s => (second.callers s).trans (first.callers s)⟩

end Relabel

/-- Changing one symbol is no more than other words about it if that symbol keeps what counts. -/
theorem relabel_modifySymbol (id : SymbolId) (f : Symbol → Symbol)
    (sort : ∀ s, (f s).kind.sort = s.kind.sort) (block : ∀ s, (f s).moduleBlock? = s.moduleBlock?)
    (decl : ∀ s, (f s).decl = s.decl) (live : ∀ s, (f s).live = s.live)
    (callers : ∀ s, (f s).callers = s.callers) : Relabel p (p.modifySymbol id f) where
  nodes := rfl
  modules := rfl
  registries := rfl
  symbols_size := size_modifySymbol ..
  sort s := by
    rw [symbol_modifySymbol]
    split
    · exact sort _
    · rfl
  moduleBlock s := by
    rw [moduleBlock?, symbol_modifySymbol]
    split
    · exact block _
    · rfl
  decl s := by
    rw [symbol_modifySymbol]
    split
    · exact decl _
    · rfl
  symbol_live s := by
    rw [symbol_modifySymbol]
    split
    · exact live _
    · rfl
  callers s := by
    rw [symbol_modifySymbol]
    split
    · exact callers _
    · rfl

theorem relabel_attachFlag (s : SymbolId) (flag : Flag) : Relabel p (p.attachFlag s flag) :=
  relabel_modifySymbol s _ (fun _ => rfl) (fun _ => rfl) (fun _ => rfl) (fun _ => rfl) fun _ => rfl

theorem relabel_attachFlags (s : SymbolId) (flags : List Flag) :
    Relabel p (p.attachFlags s flags) := by
  unfold attachFlags
  induction flags generalizing p with
  | nil => exact .refl
  | cons flag flags ih => exact (relabel_attachFlag s flag).trans ih

/-! Modules. -/

theorem Settled.empty : Program.empty.Settled := by
  have dead (n : NodeId) : ¬ Program.empty.Live n := fun live => Nat.not_lt_zero _ live.known
  exact
    { sound := Sound.empty
      symbols_live := fun known => absurd known (Nat.not_lt_zero _)
      lawful := fun live => absurd live (dead _)
      callers := fun {f c} listed => by
        rw [symbol_of_not_known (Nat.zero_le _)] at listed
        cases listed }

theorem Tidy.addRoot (tidy : p.Tidy) {m : SymbolId} {span : Span}
    (sound : (p.addRoot m span).Sound) : (p.addRoot m span).Tidy where
  sound := sound
  symbols_live {s} known := tidy.symbols_live (s := s) known
  lawful {n} live := by
    rcases live_addRoot.mp live with rfl | old
    · rw [kind_addRoot, if_pos rfl]
      exact .of_silent rfl rfl rfl fun _ _ member => absurd member List.not_mem_nil
    · rw [kind_addRoot_of_live old]
      refine (tidy.lawful old).mono (fun c child => ?_) (fun c child s defines => ?_) (le_refl _)
        fun s _ => rfl
      · rw [kind_addRoot_of_live (tidy.sound.forest.child_live old child)]
        exact .refl _
      · exact tidy.sound.bound_known defines

theorem Settled.addModule (settled : p.Settled) (name : String) (span : Span) :
    (p.addModule name span).2.Settled := by
  let sym : Symbol := { name := name, kind := .moduleRoot ⟨p.nodes.size⟩, ty := .void }
  have grown : (p.addSymbol sym).2.Settled := settled.addSymbol rfl rfl
  have kinds {n : NodeId} (reached : (p.addSymbol sym).2.Reached n) :
      (p.addModule name span).2.kind n = p.kind n :=
    kind_addRoot_of_live (grown.sound.live_of_reached reached)
  refine { grown.toTidy.addRoot (settled.sound.addModule name span) with
    callers := fun {f c} listed => ?_ }
  obtain ⟨reached, callee⟩ := grown.callers listed
  refine ⟨?_, by rw [callee?, kinds reached]; exact callee⟩
  clear listed callee
  induction reached with
  | root member =>
    obtain ⟨m, listed, block⟩ := mem_roots.mp member
    exact .root (mem_roots.mpr ⟨m, List.mem_append_left _ listed, block⟩)
  | child parent link ih =>
    refine .child ih ?_
    rw [children, kinds parent]
    exact link

/-! Shorter call lists. -/

theorem Settled.of_callers (settled : p.Settled) (change : Retarget p q) (nodes : q.nodes = p.nodes)
    (fewer : ∀ f, (q.symbol f).callers ⊆ (p.symbol f).callers) : q.Settled := by
  have kinds (n : NodeId) : q.kind n = p.kind n := by
    rw [kind, node_of_nodes nodes, kind]
  have sort (s : SymbolId) : (q.symbol s).kind.sort = (p.symbol s).kind.sort :=
    Symbol.sort_of_core (change.core s)
  exact
    { sound := change.sound settled.sound
      symbols_live := fun {s} known => by
        rw [change.symbol_live]
        exact settled.symbols_live (change.symbols_size ▸ known)
      lawful := fun {n} live => by
        replace live := change.live_iff.mp live
        rw [kinds]
        refine (settled.lawful live).mono (fun c _ => ?_) (fun c _ s defines => ?_)
          (le_of_eq change.symbols_size.symm) fun s _ => sort s
        · rw [kinds]
          exact .refl _
        · exact settled.sound.bound_known defines
      callers := fun {f c} listed => by
        obtain ⟨reached, callee⟩ := settled.callers (fewer f listed)
        exact ⟨change.reached.mpr reached, by rw [callee?, kinds]; exact callee⟩ }

end MiddleEnd.Program
