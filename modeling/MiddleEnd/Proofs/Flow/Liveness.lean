import MiddleEnd.Proofs.Closure.Nesting
import MiddleEnd.Proofs.Flow.Builder
import MiddleEnd.Proofs.Flow.Fixpoint
import MiddleEnd.Proofs.Flow.Summary

namespace MiddleEnd.Flow

/-- Some access reads `x` before anything writes it. -/
def ReadFirst (x : SymbolId) (sequence : List Access) : Prop :=
  ∃ earlier later, sequence = earlier ++ .read x :: later ∧ .write x ∉ earlier

/-- Where `items` are left to run in block `b`, some path reads `x` before it writes it. -/
def Needed (p : Program) (g : Graph) (x : SymbolId) (b : Nat) (items : List Item) : Prop :=
  ∃ rest, g.Path b rest ∧ ReadFirst x ((items ++ g.itemsOf rest).flatMap (accesses p))

/-- The body declares the variable `x`, outside of the functions that are nested in it. -/
def Declares (p : Program) (body : NodeId) (x : SymbolId) : Prop :=
  ∃ n value, p.Own body n ∧ p.kind n = .define x value ∧ (p.symbol x).isVar = true

theorem mem_localsOf {p : Program} (forest : p.Forest) {f x : SymbolId} {body : NodeId}
    (found : p.fnBody? f = some body) (live : p.Live body) :
    x ∈ localsOf p f ↔ Declares p body x := by
  simp only [localsOf, found, List.mem_filter, List.mem_filterMap, forest.mem_collectOwn live]
  constructor
  · rintro ⟨⟨n, ⟨own, tag⟩, defines⟩, isVar⟩
    cases kind : p.kind n <;> rw [kind] at tag defines <;> cases tag
    cases defines
    exact ⟨n, _, own, kind, isVar⟩
  · rintro ⟨n, value, own, kind, isVar⟩
    exact ⟨⟨n, ⟨own, by rw [kind]; rfl⟩, by rw [kind]; rfl⟩, isVar⟩

/-! Sequences of accesses. -/

section

variable {x : SymbolId} {access : Access} {sequence others : List Access}

theorem not_readFirst_nil : ¬ ReadFirst x [] := by
  rintro ⟨earlier, later, eq, _⟩
  cases earlier <;> cases eq

theorem readFirst_cons : ReadFirst x (access :: sequence) ↔
    access = .read x ∨ access ≠ .write x ∧ ReadFirst x sequence := by
  constructor
  · rintro ⟨earlier, later, eq, unwritten⟩
    cases earlier with
    | nil =>
      cases eq
      exact .inl rfl
    | cons first earlier =>
      cases eq
      exact .inr ⟨fun same => unwritten (same ▸ List.mem_cons_self),
        earlier, later, rfl, fun member => unwritten (List.mem_cons_of_mem _ member)⟩
  · rintro (rfl | ⟨other, earlier, later, rfl, unwritten⟩)
    · exact ⟨[], sequence, rfl, List.not_mem_nil⟩
    · refine ⟨access :: earlier, later, rfl, fun member => ?_⟩
      rcases List.mem_cons.mp member with same | old
      · exact other same.symm
      · exact unwritten old

theorem readFirst_append : ReadFirst x (sequence ++ others) ↔
    ReadFirst x sequence ∨ .write x ∉ sequence ∧ ReadFirst x others := by
  induction sequence with
  | nil => simp [not_readFirst_nil]
  | cons access sequence ih =>
    rw [List.cons_append, readFirst_cons, readFirst_cons, ih]
    grind

end

/-! The bits of the locals. -/

section

variable {locals : Array SymbolId} {x y : SymbolId} {bit : Fin locals.size}

theorem local_of_bit (found : bitOf? locals x = some bit) : locals[(bit : Nat)]? = some x := by
  have holds := List.find?_some found
  simpa using holds

theorem exists_bit (member : x ∈ locals) : ∃ bit, bitOf? locals x = some bit := by
  obtain ⟨i, inside, here⟩ := Array.mem_iff_getElem.mp member
  refine Option.isSome_iff_exists.mp (List.find?_isSome.mpr ⟨⟨i, inside⟩, by simp, ?_⟩)
  simpa using here

theorem exists_bit_iff : (∃ bit, bitOf? locals x = some bit) ↔ x ∈ locals := by
  constructor
  · rintro ⟨bit, found⟩
    exact Array.mem_of_getElem? (local_of_bit found)
  · exact exists_bit

theorem eq_iff_bit {other : Fin locals.size} (found : bitOf? locals x = some bit)
    (ofY : bitOf? locals y = some other) : y = x ↔ (bit : Nat) = other := by
  constructor
  · rintro rfl
    cases found.symm.trans ofY
    rfl
  · intro equal
    have same := local_of_bit found
    rw [equal, local_of_bit ofY] at same
    exact Option.some.inj same

theorem ne_of_bit (found : bitOf? locals x = some bit) (none : bitOf? locals y = none) : y ≠ x := by
  rintro rfl
  cases found.symm.trans none

/-- A bit is decided by the first access to its local. -/
theorem findSome?_effect (found : bitOf? locals x = some bit) (sequence : List Access) :
    (sequence.findSome? (effect locals bit) = some true ↔ ReadFirst x sequence) ∧
      (sequence.findSome? (effect locals bit) = none ↔
        ¬ ReadFirst x sequence ∧ .write x ∉ sequence) := by
  have touches (y : SymbolId) : (bitOf? locals y).map Fin.val = some (bit : Nat) ↔ y = x := by
    cases ofY : bitOf? locals y with
    | none => simp [ne_of_bit found ofY]
    | some other => simp [eq_iff_bit found ofY, eq_comm]
  induction sequence with
  | nil => simp [not_readFirst_nil]
  | cons access sequence ih =>
    rw [List.findSome?_cons, readFirst_cons, List.mem_cons]
    cases access with
    | read y => by_cases same : y = x <;> simp [effect, touches, same, ih]
    | write y => by_cases same : y = x <;> simp [effect, touches, same, eq_comm (a := x), ih]

/-- Walking backwards over accesses. -/
theorem contains_foldr_before (found : bitOf? locals x = some bit) (sequence : List Access)
    (live : BitSet locals.size) :
    (sequence.foldr (before locals) live).contains bit = true ↔
      ReadFirst x sequence ∨ .write x ∉ sequence ∧ live.contains bit = true := by
  obtain ⟨read, idle⟩ := findSome?_effect found sequence
  have decided (first : Option Bool) : first.getD (live.bit bit) = true ↔
      first = some true ∨ first = none ∧ live.bit bit = true := by
    cases first <;> simp
  simp only [BitSet.contains_eq, bit.isLt, decide_true, Bool.true_and, bit_foldr_before]
  rw [decided, read, idle]
  tauto

end

/-! The equations. -/

section

variable {width : Nat} {succ : List (List Nat)} {uses defs : List (BitSet width)} {node i : Nat}
  {out : BitSet width}

theorem contains_transfer : ((genKill succ uses defs).transfer node out).contains i = true ↔
    out.contains i = true ∧ (defs.getD node (.empty width)).contains i = false ∨
      (uses.getD node (.empty width)).contains i = true := by
  simp [genKill]

/-- Sets of live locals rise at most as often as there are locals. -/
theorem graded_genKill (clean : ∀ set ∈ uses, set.Clean) :
    (genKill succ uses defs).Graded BitSet.Clean BitSet.Within fun s => s.toList.length where
  fits_bottom := .empty
  fits_join := .union
  fits_transfer {node a} _ cleanA := by
    refine (cleanA.subtract _).union ?_
    rw [List.getD_eq_getElem?_getD]
    cases found : uses[node]? with
    | none => exact .empty
    | some set => exact clean set (List.mem_of_getElem? found)
  refl a i := id
  trans below above i member := above i (below i member)
  antisymm cleanA cleanB below above :=
    cleanA.ext cleanB fun i => Bool.eq_iff_iff.mpr ⟨below i, above i⟩
  bottom_le a i := by simp [genKill]
  le_join_left _ _ i := by simp +contextual [genKill]
  le_join_right _ _ i := by simp +contextual [genKill]
  join_le _ _ belowA belowB i := by
    simp only [genKill, BitSet.contains_union, Bool.or_eq_true]
    rintro (inA | inB)
    · exact belowA i inA
    · exact belowB i inB
  transfer_mono _ _ _ below i := by
    rw [contains_transfer, contains_transfer]
    exact Or.imp_left fun ⟨live, kept⟩ => ⟨below i live, kept⟩
  rank_lt cleanA cleanB below different := below.length_lt cleanA cleanB different
  rank_le _ := BitSet.length_toList_le _

end

/-! Live variables are the variables that some path needs. -/

section

variable {p : Program} {g : Graph} {x : SymbolId} {b c : Nat} {items : List Item}

theorem needed_append {others : List Item} : Needed p g x b (items ++ others) ↔
    ReadFirst x (items.flatMap (accesses p)) ∨
      .write x ∉ items.flatMap (accesses p) ∧ Needed p g x b others := by
  simp only [Needed, List.append_assoc, List.flatMap_append, readFirst_append]
  constructor
  · rintro ⟨rest, path, here | ⟨unwritten, later⟩⟩
    · exact .inl here
    · exact .inr ⟨unwritten, rest, path, later⟩
  · rintro (here | ⟨unwritten, rest, path, later⟩)
    · exact ⟨[], .nil, .inl here⟩
    · exact ⟨rest, path, .inr ⟨unwritten, later⟩⟩

theorem needed_iff : Needed p g x b items ↔ ReadFirst x (items.flatMap (accesses p)) ∨
    .write x ∉ items.flatMap (accesses p) ∧ Needed p g x b [] := by
  rw [← needed_append, List.append_nil]

theorem Needed.of_succ (edge : c ∈ (g.block b).succ) (needed : Needed p g x c (g.block c).items) :
    Needed p g x b [] := by
  obtain ⟨rest, path, reads⟩ := needed
  exact ⟨c :: rest, .cons edge path, reads⟩

theorem not_needed_of_leaf (leaf : (g.block b).succ = []) : ¬ Needed p g x b [] := by
  rintro ⟨_, path, reads⟩
  cases path with
  | nil => exact not_readFirst_nil reads
  | cons edge _ => simp [leaf] at edge

variable (p g) (locals : Array SymbolId)

/-- The equations of live variables. -/
def liveProblem : Problem (BitSet locals.size) :=
  let summaries :=
    g.blocks.toList.map fun block => summarize locals (block.items.flatMap (accesses p))
  genKill g.successors (summaries.map (·.uses)) (summaries.map (·.defs))

theorem size_liveProblem : (liveProblem p g locals).size = g.blocks.size := by
  simp [liveProblem, Problem.size, genKill, Graph.successors]

theorem succOf_liveProblem : (liveProblem p g locals).succOf b = (g.block b).succ := by
  simp only [liveProblem, Problem.succOf, genKill, Graph.successors, Graph.block,
    List.getD_eq_getElem?_getD, List.getElem?_map, Array.getElem?_toList,
    Array.getD_eq_getD_getElem?]
  cases g.blocks[b]? <;> rfl

theorem graded_liveProblem :
    (liveProblem p g locals).Graded BitSet.Clean BitSet.Within fun s => s.toList.length := by
  refine graded_genKill fun set member => ?_
  simp only [List.map_map, List.mem_map] at member
  obtain ⟨block, _, rfl⟩ := member
  exact clean_uses_summarize _

variable {locals} {bit : Fin locals.size}

theorem contains_transfer_liveProblem (found : bitOf? locals x = some bit)
    (out : BitSet locals.size) :
    ((liveProblem p g locals).transfer b out).contains bit = true ↔
      ReadFirst x ((g.block b).items.flatMap (accesses p)) ∨
        .write x ∉ (g.block b).items.flatMap (accesses p) ∧ out.contains bit = true := by
  rw [liveProblem, transfer_summaries, contains_foldr_before found]

open Classical in
/-- The bits of the locals that are needed. A bit that stands for no local does not matter. -/
noncomputable def wanted (locals : Array SymbolId) (b : Nat) (items : List Item) :
    BitSet locals.size :=
  .ofList ((List.finRange locals.size).filter fun bit =>
    ∀ x, bitOf? locals x = some bit → Needed p g x b items)

theorem contains_wanted : (wanted p g locals b items).contains bit = true ↔
    ∀ x, bitOf? locals x = some bit → Needed p g x b items := by
  simp [wanted, BitSet.contains_ofList]

/-- What paths need is a solution of the equations. -/
theorem closed_wanted : Problem.Graded.Closed (liveProblem p g locals) BitSet.Clean BitSet.Within
    (fun b => wanted p g locals b (g.block b).items) fun b => wanted p g locals b [] where
  fits_out _ := .ofList _
  join_le {b c} _ edge i member := by
    rw [succOf_liveProblem] at edge
    lift i to Fin locals.size using BitSet.lt_of_contains member
    rw [contains_wanted] at member ⊢
    exact fun x found => .of_succ edge (member x found)
  transfer_le {b} _ i member := by
    lift i to Fin locals.size using BitSet.lt_of_contains member
    rw [contains_wanted]
    intro x found
    rw [contains_transfer_liveProblem p g found, contains_wanted] at member
    exact needed_iff.mpr (member.imp_right fun rest => ⟨rest.1, rest.2 x found⟩)

/-- At a solution of the equations, what a path needs is live. -/
theorem contains_of_needed {facts : Facts (BitSet locals.size)}
    (rising : Problem.Graded.Rising (liveProblem p g locals) BitSet.Clean BitSet.Within facts)
    (settled : Problem.Graded.Settled (liveProblem p g locals) facts)
    (inRange : ∀ b, ∀ c ∈ (g.block b).succ, c < g.blocks.size) (found : bitOf? locals x = some bit)
    (known : b < g.blocks.size) (needed : Needed p g x b []) :
    (facts.outAt (liveProblem p g locals) b).contains bit = true := by
  obtain ⟨rest, path, reads⟩ := needed
  rw [List.nil_append] at reads
  induction path with
  | nil => exact absurd reads not_readFirst_nil
  | @cons b c rest edge path ih =>
    have knownC := inRange b c edge
    rw [← size_liveProblem p g locals] at known knownC
    have member : c ∈ (liveProblem p g locals).succOf b := by rwa [succOf_liveProblem]
    rw [(settled b known).1]
    refine (graded_liveProblem p g locals).le_joined rising.fits_in member _ ?_
    rw [(settled c knownC).2, contains_transfer_liveProblem p g found]
    rw [Graph.itemsOf, List.flatMap_cons, List.flatMap_append, readFirst_append] at reads
    exact reads.imp_right fun ⟨unwritten, later⟩ => ⟨unwritten, ih (inRange b c edge) later⟩

end

namespace Liveness

variable {p : Program} {g : Graph} {l : Liveness} {f : SymbolId} {x : SymbolId} {b : Nat}

theorem checkFresh_eq_ok (built : Graph.build p f = .ok g) : g.checkFresh p = .ok () := by
  obtain ⟨_, _, _, function, epoch⟩ := Graph.resolved_of_build built
  simp [Graph.checkFresh, Graph.isStale, function, epoch]

/-- The least solution of the equations for the locals of the function. -/
def ofGraph (p : Program) (g : Graph) : Liveness :=
  let locals := (localsOf p g.function).toArray
  let solution := (liveProblem p g locals).solve
  { function := g.function, locals := locals, liveIn := solution.ins, liveOut := solution.outs }

theorem analyze_eq_ok (built : Graph.build p f = .ok g) : analyze p g = .ok (ofGraph p g) := by
  rw [analyze, checkFresh_eq_ok built]
  rfl

/-- What is live at the end of a block is what some path needs. -/
theorem contains_outOf (built : Graph.build p f = .ok g) {bit : Fin (ofGraph p g).locals.size}
    (found : (ofGraph p g).bit? x = some bit) (known : b < g.blocks.size) :
    ((ofGraph p g).outOf b).contains bit = true ↔ Needed p g x b [] := by
  have graded := graded_liveProblem p g (ofGraph p g).locals
  have visits (node : Nat) : node ∈ (List.range (liveProblem p g (ofGraph p g).locals).size).reverse ↔
      node < (liveProblem p g (ofGraph p g).locals).size := by simp
  have inRange (b c : Nat) (edge : c ∈ (g.block b).succ) : c < g.blocks.size :=
    Graph.succ_lt built edge
  constructor
  · intro live
    have under := graded.solveInOrder_under (fun node => (visits node).mp)
      (fun b c edge => by
        rw [succOf_liveProblem] at edge
        rw [size_liveProblem]
        exact inRange b c edge) (closed_wanted p g)
    have within := (contains_wanted p g).mp ((under b (by rwa [size_liveProblem])).2 bit live)
    exact within x found
  · obtain ⟨rising, settled⟩ := graded.solveInOrder_settled visits
    exact contains_of_needed p g rising settled inRange found known

theorem contains_inOf (built : Graph.build p f = .ok g) {bit : Fin (ofGraph p g).locals.size}
    (found : (ofGraph p g).bit? x = some bit) (known : b < g.blocks.size) :
    ((ofGraph p g).inOf b).contains bit = true ↔ Needed p g x b (g.block b).items := by
  have visits (node : Nat) : node ∈ (List.range (liveProblem p g (ofGraph p g).locals).size).reverse ↔
      node < (liveProblem p g (ofGraph p g).locals).size := by simp
  obtain ⟨_, settled⟩ := (graded_liveProblem p g (ofGraph p g).locals).solveInOrder_settled visits
  have into : (ofGraph p g).inOf b = (liveProblem p g (ofGraph p g).locals).transfer b ((ofGraph p g).outOf b) :=
    (settled b (by rwa [size_liveProblem])).2
  rw [into, contains_transfer_liveProblem p g found, contains_outOf built found known, ← needed_iff]

/-- What is live after an item of a block is what some path from there needs. -/
theorem contains_afterEach (built : Graph.build p f = .ok g) {bit : Fin (ofGraph p g).locals.size}
    (found : (ofGraph p g).bit? x = some bit) (known : b < g.blocks.size) {k : Nat}
    {live : BitSet (ofGraph p g).locals.size}
    (there : ((ofGraph p g).afterEach p ((ofGraph p g).outOf b) (g.block b).items).1[k]? = some live) :
    live.contains bit = true ↔ Needed p g x b ((g.block b).items.drop (k + 1)) := by
  have inside : k < (g.block b).items.length := by
    have within := (List.getElem?_eq_some_iff.mp there).1
    rwa [length_afterEach] at within
  rw [(afterEach_eq _ _ _).2 k inside] at there
  cases there
  rw [contains_foldr_before found, contains_outOf built found known, ← needed_iff]

/-- The locals of the function are tracked, and nothing else. -/
theorem exists_bit?_iff (built : Graph.build p f = .ok g) :
    (∃ bit, (ofGraph p g).bit? x = some bit) ↔ x ∈ localsOf p f := by
  obtain ⟨_, _, _, function, _⟩ := Graph.resolved_of_build built
  have tracked : (ofGraph p g).locals = (localsOf p f).toArray := by rw [ofGraph, function]
  rw [← List.mem_toArray, ← tracked]
  exact exists_bit_iff

/-- What has been found for a function with the body `body` and the graph `g`. The variables that the
body declares are tracked, and nothing else; no bit that is set for one is out of range. Such a variable
is live at the start or at the end of a block, or after an item of it, if and only if some path from
there reads it before writing it. -/
structure Exact (p : Program) (g : Graph) (body : NodeId) (l : Liveness) : Prop where
  tracks {x : SymbolId} : (∃ bit, l.bit? x = some bit) ↔ Declares p body x
  inRange {x : SymbolId} {bit : Fin l.locals.size} : l.bit? x = some bit →
    ∀ live : BitSet l.locals.size, live.insertChecked bit = .ok (live.insert bit)
  atStart {x : SymbolId} {b : Nat} : Declares p body x → b < g.blocks.size →
    (l.isLiveIn b x = true ↔ Needed p g x b (g.block b).items)
  atEnd {x : SymbolId} {b : Nat} : Declares p body x → b < g.blocks.size →
    (l.isLiveOut b x = true ↔ Needed p g x b [])
  within {b : Nat} : b < g.blocks.size → ∃ after, l.liveAfter p g b = .ok after ∧
    after.length = (g.block b).items.length ∧ ∀ x, Declares p body x → ∃ bit, l.bit? x = some bit ∧
      ∀ k live, after[k]? = some live → (live.contains bit = true ↔
        Needed p g x b ((g.block b).items.drop (k + 1)))

theorem exact_ofGraph (forest : p.Forest) {body : NodeId} (found : p.fnBody? f = some body)
    (live : p.Live body) (built : Graph.build p f = .ok g) : (ofGraph p g).Exact p g body := by
  have tracks {x : SymbolId} : (∃ bit, (ofGraph p g).bit? x = some bit) ↔ Declares p body x :=
    (exists_bit?_iff built).trans (mem_localsOf forest found live)
  constructor
  case tracks => exact tracks
  case inRange =>
    intro x bit _ live
    simp [BitSet.insertChecked]
  case atStart =>
    intro x b declares known
    obtain ⟨bit, ofX⟩ := tracks.mpr declares
    simpa [isLiveIn, ofX] using contains_inOf built ofX known
  case atEnd =>
    intro x b declares known
    obtain ⟨bit, ofX⟩ := tracks.mpr declares
    simpa [isLiveOut, ofX] using contains_outOf built ofX known
  case within =>
    intro b known
    refine ⟨_, by rw [liveAfter, checkFresh_eq_ok built]; rfl, length_afterEach _ _ _, ?_⟩
    intro x declares
    obtain ⟨bit, ofX⟩ := tracks.mpr declares
    exact ⟨bit, ofX, fun k live there => contains_afterEach built ofX known there⟩

/-- Live variables are found without fail where there is a graph, and they are exact. -/
theorem exists_exact (settled : p.Settled) (registered : f ∈ p.registries.fns)
    (built : Graph.build p f = .ok g) :
    ∃ body l, p.fnBody? f = some body ∧ analyze p g = .ok l ∧ l.Exact p g body := by
  obtain ⟨d, placed⟩ := settled.placed_of_registered registered
  obtain ⟨_, formals, body, kind, found⟩ := settled.fnBody?_eq placed
  have forest := settled.sound.forest
  have child : body ∈ p.children d := by simp [Program.children, kind, NodeKind.children]
  have live := forest.child_live (settled.sound.live_of_reached placed.1) child
  exact ⟨body, _, found, analyze_eq_ok built, exact_ofGraph forest found live built⟩

end Liveness

end MiddleEnd.Flow
